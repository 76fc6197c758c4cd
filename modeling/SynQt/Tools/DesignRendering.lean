import SynQt.Tools.DesignDoc
import SynQt.Tools.ContractExactness

/-! What a rendered block is read as. -/
namespace SynQt.DesignDoc
open Synqtc ContractGen List
open YamlEdit (lit isSpace endsLine splitlines cutLines strip)

/-- Read as these words, whatever comes next that no word goes on into. -/
def ReadsAs (text : Line) (words : List Word) : Prop :=
  ∀ rest : Line, (∀ c ∈ rest.head?, isIdentChar c = false) →
    lexFrom false 0 (text ++ rest) = (lexFrom false 0 rest).map (prepend words)

def Apart (text : Line) : Prop := ∀ c ∈ text.head?, isIdentChar c = false

private theorem apart_nil : Apart [] := fun _ h => nomatch h

private theorem apart_cons {c : Char} (hc : isIdentChar c = false) (text : Line) : Apart (c :: text) := by
  intro d hd
  cases hd
  exact hc

theorem Apart.append {text rest : Line} (htext : Apart text) (hrest : Apart rest) : Apart (text ++ rest) := by
  cases text with
  | nil => exact hrest
  | cons c text => exact htext

variable {text : Line} {words : List Word}

theorem ReadsAs.nil : ReadsAs [] [] := by
  intro rest _
  rw [nil_append, show prepend [] = id from rfl, Option.map_id_apply]

theorem ReadsAs.blank (h : ReadsAs text words) : ReadsAs (' ' :: text) words := by
  intro rest hrest
  rw [cons_append, ← h rest hrest]
  exact lexFrom_spaces 1 false (text ++ rest)

private theorem prepend_first (w : Word) (read : Option (List Word × Bool)) :
    (read.map (prepend words)).map (prepend [w]) = read.map (prepend (w :: words)) := by
  rw [Option.map_map]
  rfl

theorem ReadsAs.mark {c : Char} (hc : c ∈ marks) (h : ReadsAs text words) : ReadsAs (c :: text) (mark c :: words) := by
  intro rest hrest
  rw [cons_append, lexFrom_mark hc, h rest hrest, prepend_first]

variable {name : String}

theorem ReadsAs.ident (hname : identifier name.toList = true) (h : ReadsAs text words) (hapart : Apart text) :
    ReadsAs (name.toList ++ text) (ident name :: words) := by
  intro rest hrest
  rw [append_assoc, lexFrom_ident hname (hapart.append hrest), h rest hrest, prepend_first]

theorem ReadsAs.number {digits : String} (hsome : digits.toList ≠ []) (hdigits : digits.toList.all isDigit = true)
    (h : ReadsAs text words) (hapart : Apart text) : ReadsAs (digits.toList ++ text) ((.number, digits) :: words) := by
  intro rest hrest
  have hdigit : ∀ c ∈ (text ++ rest).head?, isDigit c = false := fun c hc =>
    (Bool.or_eq_false_iff.mp (hapart.append hrest c hc)).2
  rw [append_assoc, lexFrom_number hsome hdigits hdigit, h rest hrest, prepend_first]

theorem ReadsAs.type {type : String} (htype : IsType type) (h : ReadsAs text words) (hapart : Apart text) :
    ReadsAs (type.toList ++ text) (typeWords type ++ words) := by
  obtain hname | ⟨base, bound, hbase, ⟨hsome, hbound⟩, rfl⟩ := htype
  · rw [typeWords_identifier hname]
    exact h.ident hname hapart
  · have hchars : (base ++ "[" ++ bound ++ "]").toList ++ text = base.toList ++ '[' :: (bound.toList ++ ']' :: text) := by simp
    rw [typeWords_bounded hbase hbound, hchars]
    have hclose := h.mark (c := ']') (by decide)
    have hnumber := (hclose.number hsome hbound (apart_cons (by decide) _)).mark (c := '[') (by decide)
    exact hnumber.ident hbase (apart_cons (by decide) _)

/-- Items with a separator between each and the next, which says what a comma says. -/
theorem ReadsAs.items {α : Type} {spelling : α → String} {wordsOf : α → List Word} {separator : String} {l : List α}
    (hseparator : ∀ text words, ReadsAs text words → ReadsAs (separator.toList ++ text) (Synqtc.mark ',' :: words))
    (happart : ∀ text, Apart (separator.toList ++ text))
    (hitem : ∀ a ∈ l, ∀ text words, ReadsAs text words → Apart text →
      ReadsAs ((spelling a).toList ++ text) (wordsOf a ++ words))
    (h : ReadsAs text words) (hapart : Apart text) :
    ReadsAs ((separator.intercalate (l.map spelling)).toList ++ text) (commaWords wordsOf l ++ words) := by
  induction l with
  | nil => exact h
  | cons a l ih =>
    obtain ⟨ha, hl⟩ := forall_mem_cons.mp hitem
    cases l with
    | nil =>
      rw [map_singleton, String.intercalate_singleton, commaWords, flatMap_nil, append_nil]
      exact ha text words h hapart
    | cons b l =>
      have hwords : commaWords wordsOf (a :: b :: l) ++ words =
          wordsOf a ++ (Synqtc.mark ',' :: (commaWords wordsOf (b :: l) ++ words)) := by
        simp [commaWords, append_assoc]
      rw [hwords, map_cons, map_cons, String.intercalate_cons_cons, String.toList_append, String.toList_append,
        append_assoc, append_assoc]
      exact ha _ _ (hseparator _ _ (ih hl)) (happart _)

private theorem readsAs_typed {type name : String} (htype : IsType type) (hname : IsName name) (h : ReadsAs text words)
    (hapart : Apart text) : ReadsAs ((type ++ " " ++ name).toList ++ text) ((typeWords type ++ [ident name]) ++ words) := by
  have hchars : (type ++ " " ++ name).toList ++ text = type.toList ++ ' ' :: (name.toList ++ text) := by simp
  rw [hchars, append_assoc, singleton_append]
  exact ((h.ident hname.1 hapart).blank).type htype (apart_cons (by decide) _)

variable {params : List Param}

private theorem readsAs_params (hparams : ∀ p ∈ params, IsType p.type ∧ IsName p.name) :
    ReadsAs ('(' :: (renderParams params ++ [')'])) (paramsWords params) := by
  have hend : ReadsAs [')'] [Synqtc.mark ')'] := ReadsAs.nil.mark (by decide)
  apply ReadsAs.mark (by decide)
  apply ReadsAs.items _ _ _ hend (apart_cons (by decide) _)
  · exact fun text words h => (h.blank).mark (by decide)
  · exact fun text => apart_cons (by decide) _
  · exact fun p hp text words h hapart => readsAs_typed (hparams p hp).1 (hparams p hp).2 h hapart

variable {scopes : List String}

private theorem readsAs_scopes (hscopes : ∀ scope ∈ scopes, IsName scope) (h : ReadsAs text words)
    (hapart : Apart text) :
    ReadsAs ((",".intercalate scopes).toList ++ text) (commaWords (fun name => [ident name]) scopes ++ words) := by
  have hitems := @ReadsAs.items text words String (fun scope => scope) (fun name => [ident name]) "," scopes
    (fun text words h => h.mark (by decide)) (fun text => apart_cons (by decide) _)
    (fun scope hscope text words h hapart => h.ident (hscopes scope hscope).1 hapart) h hapart
  rwa [map_id'] at hitems

abbrev Printable (text : Line) : Prop := ∀ c ∈ text, 32 ≤ c.toNat ∧ c.toNat ≤ 126

private theorem printable_of_all (h : text.all (fun c => decide (32 ≤ c.toNat ∧ c.toNat ≤ 126)) = true) : Printable text :=
  fun c hc => of_decide_eq_true (all_eq_true.mp h c hc)

private theorem printable_append {text rest : Line} (htext : Printable text) (hrest : Printable rest) : Printable (text ++ rest) :=
  forall_mem_append.mpr ⟨htext, hrest⟩

private theorem printable_cons {c : Char} (hc : 32 ≤ c.toNat ∧ c.toNat ≤ 126) (htext : Printable text) : Printable (c :: text) :=
  forall_mem_cons.mpr ⟨hc, htext⟩

private theorem printable_of_ident (h : ∀ c ∈ text, isIdentChar c = true) : Printable text := by
  intro c hc
  have hrange := toNat_of_isIdentChar (h c hc)
  exact ⟨by omega, hrange.2⟩

theorem ident_of_identifier (hname : identifier name.toList = true) : ∀ c ∈ name.toList, isIdentChar c = true := by
  intro c hc
  by_contra hnot
  exact not_mem_identifier hname (Bool.eq_false_iff.mpr hnot) hc

private theorem printable_identifier (hname : identifier name.toList = true) : Printable name.toList :=
  printable_of_ident (ident_of_identifier hname)

private theorem printable_type {type : String} (htype : IsType type) : Printable type.toList := by
  obtain hname | ⟨base, bound, hbase, ⟨-, hbound⟩, rfl⟩ := htype
  · exact printable_identifier hname
  · have hdigits : Printable bound.toList := printable_of_ident fun c hc => by
      rw [isIdentChar, all_eq_true.mp hbound c hc, Bool.or_true]
    have hchars : (base ++ "[" ++ bound ++ "]").toList = base.toList ++ '[' :: (bound.toList ++ [']']) := by simp
    rw [hchars]
    have hclose : Printable [']'] := printable_cons (by decide) (forall_mem_nil _)
    exact printable_append (printable_identifier hbase) (printable_cons (by decide) (printable_append hdigits hclose))

private theorem printable_intercalate {separator : String} (hseparator : Printable separator.toList) {l : List String}
    (hl : ∀ s ∈ l, Printable s.toList) : Printable (separator.intercalate l).toList := by
  induction l with
  | nil => exact forall_mem_nil _
  | cons s l ih =>
    obtain ⟨hs, hrest⟩ := forall_mem_cons.mp hl
    cases l with
    | nil =>
      rw [String.intercalate_singleton]
      exact hs
    | cons s' l =>
      rw [String.intercalate_cons_cons, String.toList_append, String.toList_append]
      exact printable_append (printable_append hs hseparator) (ih hrest)

private theorem printable_params (hparams : ∀ p ∈ params, IsType p.type ∧ IsName p.name) :
    Printable ('(' :: (renderParams params ++ [')'])) := by
  have hclose : Printable [')'] := printable_cons (by decide) (forall_mem_nil _)
  refine printable_cons (by decide) (printable_append ?_ hclose)
  rw [renderParams, lit]
  apply printable_intercalate (printable_of_all (by decide))
  rw [forall_mem_map]
  intro p hp
  obtain ⟨htype, hname⟩ := hparams p hp
  rw [String.toList_append, String.toList_append]
  exact printable_append (printable_append (printable_type htype) (printable_of_all (by decide)))
    (printable_identifier hname.1)

private theorem scope_chars (hscopes : ∀ scope ∈ scopes, IsName scope) :
    ∀ c ∈ (",".intercalate scopes).toList, isIdentChar c = true ∨ c = ',' := by
  induction scopes with
  | nil => exact forall_mem_nil _
  | cons s scopes ih =>
    obtain ⟨hs, hrest⟩ := forall_mem_cons.mp hscopes
    cases scopes with
    | nil =>
      rw [String.intercalate_singleton]
      exact fun c hc => .inl (ident_of_identifier hs.1 c hc)
    | cons s' scopes =>
      rw [String.intercalate_cons_cons, String.toList_append, String.toList_append, forall_mem_append,
        forall_mem_append]
      exact ⟨⟨fun c hc => .inl (ident_of_identifier hs.1 c hc), fun c hc => .inr (mem_singleton.mp hc)⟩, ih hrest⟩

theorem strip_of_spaceless {line : Line} (hline : ∀ c ∈ line, isSpace c = false) : strip line = line := by
  have hfront : line.dropWhile isSpace = line := by
    cases line with
    | nil => rfl
    | cons c line => rw [dropWhile_cons, hline c mem_cons_self, if_neg Bool.false_ne_true]
  rw [strip, trim, hfront, rdropWhile_eq_self_iff]
  intro hsome
  rw [hline _ (getLast_mem hsome)]
  exact Bool.false_ne_true

section
variable (hscopes : ∀ scope ∈ scopes, IsName scope)
include hscopes

private theorem gateOf_eq :
    gateOf (",".intercalate scopes) =
      if scopes.isEmpty then [] else '<' :: ((",".intercalate scopes).toList ++ ['>', ' ']) := by
  have hstrip : strip (lit (",".intercalate scopes)) = (",".intercalate scopes).toList := by
    apply strip_of_spaceless
    intro c hc
    obtain hident | rfl := scope_chars hscopes c hc
    · cases hspace : isSpace c with
      | false => rfl
      | true =>
        rw [isIdentChar_of_isSpace hspace] at hident
        cases hident
    · decide
  rw [gateOf]
  simp only [hstrip]
  cases scopes with
  | nil => rfl
  | cons s scopes =>
    have hsome : (",".intercalate (s :: scopes)).toList.isEmpty = false := by
      have hname := (hscopes s mem_cons_self).1
      cases hchars : s.toList with
      | nil =>
        rw [hchars] at hname
        cases hname
      | cons c word =>
        cases scopes with
        | nil => rw [String.intercalate_singleton, hchars]; rfl
        | cons s' scopes => rw [String.intercalate_cons_cons, String.toList_append, String.toList_append, hchars]; rfl
    rw [hsome, if_neg Bool.false_ne_true]
    simp [lit]

private theorem readsAs_gate (h : ReadsAs text words) :
    ReadsAs (gateOf (",".intercalate scopes) ++ text) (gateWords scopes ++ words) := by
  rw [gateOf_eq hscopes, gateWords]
  split
  · exact h
  · have hchars : '<' :: ((",".intercalate scopes).toList ++ ['>', ' ']) ++ text =
        '<' :: ((",".intercalate scopes).toList ++ '>' :: ' ' :: text) := by simp
    have hclose := (h.blank).mark (c := '>') (by decide)
    have hgate := (readsAs_scopes hscopes hclose (apart_cons (by decide) _)).mark (c := '<') (by decide)
    rw [hchars]
    simpa [append_assoc] using hgate

private theorem printable_gate :
    Printable (gateOf (",".intercalate scopes)) := by
  rw [gateOf_eq hscopes]
  split
  · exact forall_mem_nil _
  · have hjoined : Printable (",".intercalate scopes).toList :=
      printable_intercalate (printable_of_all (by decide)) fun s hs => printable_identifier (hscopes s hs).1
    exact printable_cons (by decide) (printable_append hjoined (printable_of_all (by decide)))

end

def uncaptured : Member → Member
  | .slot s => .slot { s with capture := false }
  | m => m

private theorem uncaptured_words (m : Member) : (uncaptured m).words = gateWords m.scope ++ (uncaptured m).bodyWords := by
  cases m <;> rfl

/-- A line that begins with a character that no record does. -/
def Begins (text : Line) : Prop := ∃ c rest, text = c :: rest ∧ isSpace c = false ∧ c ≠ 'r'

theorem isRecord_of_begins {alnum : Char → Bool} (h : Begins text) : isRecord alnum text = false := by
  obtain ⟨c, rest, rfl, hspace, hr⟩ := h
  have hfront : YamlEdit.lstrip (c :: rest) = c :: rest := by
    rw [YamlEdit.lstrip, dropWhile_cons, hspace, if_neg Bool.false_ne_true]
  have hnot : recordWord.isPrefixOf (c :: rest) = false := by
    rw [← Bool.not_eq_true, isPrefixOf_iff_prefix]
    intro hprefix
    exact hr (cons_prefix_cons.mp hprefix).1.symm
  rw [isRecord, hfront, hnot, Bool.false_and]

/-- Rendered, a member is one line, which is read as the member. -/
structure Rendered (line : Line) (words : List Word) : Prop where
  reads : ReadsAs line words
  printable : Printable line
  begins : Begins line

private theorem rendered_body {keyword : String} (hkeyword : identifier keyword.toList = true)
    (hbegins : keyword.toList.head? ≠ some 'r') (h : ReadsAs text words) (hprintable : Printable text) :
    Rendered (keyword.toList ++ ' ' :: text) (ident keyword :: words) where
  reads := (h.blank).ident hkeyword (apart_cons (by decide) _)
  printable := printable_append (printable_identifier hkeyword) (printable_cons (by decide) hprintable)
  begins := by
    cases hchars : keyword.toList with
    | nil =>
      rw [hchars] at hkeyword
      cases hkeyword
    | cons c word =>
      rw [hchars] at hbegins
      have hstart : isIdentChar c = true := ident_of_identifier hkeyword c (by rw [hchars]; exact mem_cons_self)
      refine ⟨c, word ++ ' ' :: text, rfl, ?_, fun hr => hbegins (congrArg some hr)⟩
      cases hspace : isSpace c with
      | false => rfl
      | true =>
        rw [isIdentChar_of_isSpace hspace] at hstart
        cases hstart

theorem Rendered.gated (h : Rendered text words) (hscopes : ∀ scope ∈ scopes, IsName scope) :
    Rendered (gateOf (",".intercalate scopes) ++ text) (gateWords scopes ++ words) where
  reads := readsAs_gate hscopes h.reads
  printable := printable_append (printable_gate hscopes) h.printable
  begins := by
    rw [gateOf_eq hscopes]
    split
    · exact h.begins
    · exact ⟨'<', _, rfl, by decide, by decide⟩

private theorem readsAs_called (hname : IsName name)
    (hparams : ∀ p ∈ params, IsType p.type ∧ IsName p.name) :
    ReadsAs (name.toList ++ '(' :: (renderParams params ++ [')'])) (ident name :: paramsWords params) :=
  (readsAs_params hparams).ident hname.1 (apart_cons (by decide) _)

private theorem printable_called (hname : IsName name)
    (hparams : ∀ p ∈ params, IsType p.type ∧ IsName p.name) :
    Printable (name.toList ++ '(' :: (renderParams params ++ [')'])) :=
  printable_append (printable_identifier hname.1) (printable_params hparams)

private theorem docParams_words (params : List Param) : paramsWords (params.map docParam) = paramsWords params := by
  rw [paramsWords, paramsWords, commaWords_map]
  rfl

private theorem docRoles_words (roles : List Role) : paramsWords (roles.map docRole) = rolesWords roles := by
  rw [paramsWords, rolesWords, commaWords_map]
  rfl

private theorem isEmpty_of_type {type : String} (htype : IsType type) : type.isEmpty = false := by
  rw [Bool.eq_false_iff]
  intro hempty
  obtain rfl := String.isEmpty_iff.mp hempty
  obtain hname | ⟨base, bound, -, -, heq⟩ := htype
  · cases hname
  · have hchars := congrArg String.toList heq
    simp at hchars

theorem renderMember_rendered {m : Member} (hm : m.Spelled) :
    ∃ line, renderMember (docMember m) = .ok line ∧ Rendered line (uncaptured m).words := by
  obtain ⟨hname, hscopes, -, hbody⟩ := hm
  rw [uncaptured_words]
  cases m with
  | prop p =>
    have hreads := readsAs_typed hbody hname ReadsAs.nil apart_nil
    rw [append_nil, append_nil] at hreads
    have hprintable : Printable (p.type ++ " " ++ p.name).toList := by
      rw [String.toList_append, String.toList_append]
      exact printable_append (printable_append (printable_type hbody) (printable_of_all (by decide)))
        (printable_identifier hname.1)
    refine ⟨_, ?_, (@rendered_body _ _ "prop" (by decide) (by decide) hreads hprintable).gated hscopes⟩
    simp [renderMember, docMember, lit, Member.scope, Member.name]
  | model m =>
    have hroles : ∀ p ∈ m.roles.map docRole, IsType p.type ∧ IsName p.name := forall_mem_map.mpr hbody.2
    have hreads := readsAs_called hname hroles
    rw [docRoles_words] at hreads
    refine ⟨_, ?_, (@rendered_body _ _ "model" (by decide) (by decide) hreads (printable_called hname hroles)).gated
      hscopes⟩
    simp [renderMember, docMember, lit, Member.scope, Member.name]
  | signal s =>
    have hparams : ∀ p ∈ s.params.map docParam, IsType p.type ∧ IsName p.name := forall_mem_map.mpr hbody
    have hreads := readsAs_called hname hparams
    rw [docParams_words] at hreads
    refine ⟨_, ?_, (@rendered_body _ _ "signal" (by decide) (by decide) hreads (printable_called hname hparams)).gated
      hscopes⟩
    simp [renderMember, docMember, lit, Member.scope, Member.name]
  | slot s =>
    have hparams : ∀ p ∈ s.params.map docParam, IsType p.type ∧ IsName p.name := forall_mem_map.mpr hbody.2
    have hreads := readsAs_called hname hparams
    have hprintable := printable_called hname hparams
    rw [docParams_words] at hreads
    cases hreturn : s.returnType with
    | none =>
      have hwords : (uncaptured (.slot s)).bodyWords = ident "slot" :: ident s.name :: paramsWords s.params := by
        simp [uncaptured, Member.bodyWords, Slot.headWords, hreturn]
      rw [hwords]
      refine ⟨_, ?_, (@rendered_body _ _ "slot" (by decide) (by decide) hreads hprintable).gated hscopes⟩
      simp [renderMember, docMember, lit, Member.scope, Member.name, hreturn]
    | some type =>
      have htype : IsType type := hbody.1 type hreturn
      have hwords : (uncaptured (.slot s)).bodyWords =
          ident "slot" :: (typeWords type ++ ident s.name :: paramsWords s.params) := by
        simp [uncaptured, Member.bodyWords, Slot.headWords, hreturn]
      have hlead := (hreads.blank).type htype (apart_cons (by decide) _)
      have hprintable' := printable_append (printable_type htype) (printable_cons (c := ' ') (by decide) hprintable)
      rw [hwords]
      refine ⟨_, ?_, (@rendered_body _ _ "slot" (by decide) (by decide) hlead hprintable').gated hscopes⟩
      simp [renderMember, docMember, lit, Member.scope, Member.name, hreturn, isEmpty_of_type htype]

end SynQt.DesignDoc
