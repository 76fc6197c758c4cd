import SynQt.Tools.SynParser

/-! How a tree is written down: the words it is spelled with, and the texts that lay them out. -/
namespace SynQt.Synqtc
open List

/-- What a token says, wherever it stands. -/
abbrev Word := Kind × String

def Token.word (token : Token) : Word := (token.kind, token.value)

def ident (name : String) : Word := (.ident, name)
def mark (c : Char) : Word := (.mark c, String.ofList [c])
def endWord : Word := (.eof, "")

/-- Items with a comma between each and the next. -/
def commaWords {α : Type} (words : α → List Word) : List α → List Word
  | [] => []
  | a :: l => words a ++ l.flatMap fun b => mark ',' :: words b

/-- A type's name, and the bound it carries in brackets when it carries one. -/
def typeWords (type : String) : List Word :=
  let base := identPrefix type.toList
  match type.toList.drop base.length with
  | [] => [ident (String.ofList base)]
  | _ :: bound => [ident (String.ofList base), mark '[', (.number, String.ofList (bound.takeWhile isDigit)), mark ']']

def Param.words (p : Param) : List Word := typeWords p.type ++ [ident p.name]
def Role.words (r : Role) : List Word := typeWords r.type ++ [ident r.name]

def paramsWords (params : List Param) : List Word :=
  mark '(' :: (commaWords Param.words params ++ [mark ')'])

def rolesWords (roles : List Role) : List Word :=
  mark '(' :: (commaWords Role.words roles ++ [mark ')'])

def gateWords (scope : List String) : List Word :=
  if scope.isEmpty then [] else mark '<' :: (commaWords (fun name => [ident name]) scope ++ [mark '>'])

def Slot.headWords (s : Slot) : List Word :=
  (if s.capture then [ident "capture"] else []) ++ (s.returnType.elim [] typeWords ++ [ident s.name])

def Member.bodyWords : Member → List Word
  | .prop p => ident "prop" :: (typeWords p.type ++ [ident p.name])
  | .model m => ident "model" :: ident m.name :: rolesWords m.roles
  | .signal s => ident "signal" :: ident s.name :: paramsWords s.params
  | .slot s => ident "slot" :: (s.headWords ++ paramsWords s.params)

def Member.words (m : Member) : List Word := gateWords m.scope ++ m.bodyWords

def Contract.words (c : Contract) : List Word :=
  ident "contract" :: ident c.name :: mark openBrace :: (c.members.flatMap Member.words ++ [mark closeBrace])

def Record.words (r : Record) : List Word := ident "record" :: ident r.name :: paramsWords r.fields

/-- The records and then the contracts, each in the order it has in its list. -/
def SynFile.words (syn : SynFile) : List Word :=
  syn.records.flatMap Record.words ++ syn.contracts.flatMap Contract.words

/-- Whether a character would be read as more of a word of that kind. -/
def continues : Kind → Char → Bool
  | .ident, c => isIdentChar c
  | .number, c => isDigit c
  | _, _ => false

inductive Lays : List Word → List Char → Prop
  | blanks {blanks : List Char} (hblanks : ∀ c ∈ blanks, isBlank c = true) : Lays [] blanks
  | word {blanks : List Char} {w : Word} {words : List Word} {text : List Char}
      (hblanks : ∀ c ∈ blanks, isBlank c = true) (hapart : ∀ c ∈ text.head?, continues w.1 c = false)
      (hrest : Lays words text) : Lays (w :: words) (blanks ++ (w.2.toList ++ text))

/-- The plainest of them: a blank after every word. -/
def spaced (words : List Word) : List Char := words.flatMap fun w => w.2.toList ++ [' ']

def print (syn : SynFile) : String := String.ofList (spaced syn.words)

theorem lays_spaced (words : List Word) : Lays words (spaced words) := by
  have hafter (words : List Word) : Lays words (' ' :: spaced words) := by
    induction words with
    | nil =>
      apply Lays.blanks
      intro c hc
      rw [mem_singleton.mp hc]
      rfl
    | cons w words ih =>
      have hhere : Lays (w :: words) ([' '] ++ (w.2.toList ++ (' ' :: spaced words))) := by
        apply Lays.word
        · intro c hc
          rw [mem_singleton.mp hc]
          rfl
        · intro c hc
          cases hc
          obtain ⟨kind, value⟩ := w
          cases kind <;> rfl
        · exact ih
      rw [spaced, flatMap_cons, append_assoc]
      exact hhere
  cases words with
  | nil => exact Lays.blanks fun c hc => by cases hc
  | cons w words =>
    have hhere : Lays (w :: words) ([] ++ (w.2.toList ++ (' ' :: spaced words))) := by
      apply Lays.word
      · intro c hc
        cases hc
      · intro c hc
        cases hc
        obtain ⟨kind, value⟩ := w
        cases kind <;> rfl
      · exact hafter words
    rw [spaced, flatMap_cons, append_assoc]
    exact hhere

theorem forall_commaWords {α : Type} {P : Word → Prop} {words : α → List Word} {l : List α} (hcomma : P (mark ','))
    (h : ∀ a ∈ l, ∀ w ∈ words a, P w) : ∀ w ∈ commaWords words l, P w := by
  cases l with
  | nil => exact forall_mem_nil _
  | cons a l =>
    rw [commaWords, forall_mem_append]
    refine ⟨h a mem_cons_self, fun w hw => ?_⟩
    obtain ⟨b, hb, hw⟩ := mem_flatMap.mp hw
    obtain rfl | hw := mem_cons.mp hw
    · exact hcomma
    · exact h b (mem_cons_of_mem a hb) w hw

def identifier (s : List Char) : Bool :=
  match s with
  | [] => false
  | c :: rest => isIdentStart c && rest.all isIdentChar

/-- A name anything may have: an identifier that is no keyword. `capture` is one. -/
def IsName (name : String) : Prop := identifier name.toList = true ∧ keywords.contains name = false

/-- `IDENT ['[' NUMBER ']']`. -/
def IsType (type : String) : Prop :=
  identifier type.toList = true ∨
    ∃ base bound : String, identifier base.toList = true ∧ (bound.toList ≠ [] ∧ bound.toList.all isDigit = true) ∧
      type = base ++ "[" ++ bound ++ "]"

def Param.Spelled (p : Param) : Prop := IsType p.type ∧ IsName p.name
def Role.Spelled (r : Role) : Prop := IsType r.type ∧ IsName r.name

def Member.Spelled (m : Member) : Prop :=
  IsName m.name ∧ (∀ scope ∈ m.scope, IsName scope) ∧ m.scope.Nodup ∧
    match m with
    | .prop p => IsType p.type
    | .model m => m.roles ≠ [] ∧ ∀ role ∈ m.roles, role.Spelled
    | .signal s => ∀ param ∈ s.params, param.Spelled
    | .slot s => (∀ type ∈ s.returnType, IsType type) ∧ ∀ param ∈ s.params, param.Spelled

def Contract.Spelled (c : Contract) : Prop := IsName c.name ∧ ∀ member ∈ c.members, member.Spelled

def Record.Spelled (r : Record) : Prop := IsName r.name ∧ r.fields ≠ [] ∧ ∀ field ∈ r.fields, field.Spelled

/-- A tree that the grammar can spell and that the checks after a parse let through. -/
structure SynFile.WellFormed (syn : SynFile) : Prop where
  records : ∀ record ∈ syn.records, record.Spelled
  contracts : ∀ contract ∈ syn.contracts, contract.Spelled
  valid : ∀ path, validate syn path = .ok ()

end SynQt.Synqtc
