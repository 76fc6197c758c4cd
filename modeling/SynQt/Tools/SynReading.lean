import SynQt.Lib.Reading
import SynQt.Tools.SynTokens

/-! What the parser makes of the words a tree is spelled with, one function of it after another. -/
namespace SynQt.Synqtc
open Lib List

theorem kind_of_word {token : Token} {w : Word} (h : token.word = w) : token.kind = w.1 := congrArg Prod.fst h
theorem value_of_word {token : Token} {w : Word} (h : token.word = w) : token.value = w.2 := congrArg Prod.snd h

theorem identPrefix_append {base text : List Char} (hbase : identifier base = true)
    (hapart : ∀ c ∈ text.head?, isIdentChar c = false) : identPrefix (base ++ text) = base := by
  cases base with
  | nil => cases hbase
  | cons c base =>
    obtain ⟨hstart, hrest⟩ := Bool.and_eq_true_iff.mp hbase
    rw [cons_append, identPrefix, if_pos hstart, takeWhile_word hrest hapart]

theorem typeWords_identifier {name : String} (h : identifier name.toList = true) : typeWords name = [ident name] := by
  have hfront : identPrefix (name.toList ++ []) = name.toList := identPrefix_append h fun c hc => by cases hc
  rw [append_nil] at hfront
  rw [typeWords]
  simp only [hfront, drop_length, String.ofList_toList]

theorem typeWords_bounded {base bound : String} (hbase : identifier base.toList = true)
    (hbound : bound.toList.all isDigit = true) :
    typeWords (base ++ "[" ++ bound ++ "]") = [ident base, mark '[', (.number, bound), mark ']'] := by
  have hchars : (base ++ "[" ++ bound ++ "]").toList = base.toList ++ '[' :: (bound.toList ++ [']']) := by
    simp
  have hfront : identPrefix (base.toList ++ '[' :: (bound.toList ++ [']'])) = base.toList := by
    apply identPrefix_append hbase
    intro c hc
    cases hc
    decide
  have hdigits : (bound.toList ++ [']']).takeWhile isDigit = bound.toList := by
    apply takeWhile_word hbound
    intro c hc
    cases hc
    decide
  rw [typeWords, hchars]
  simp only [hfront, drop_left, hdigits, String.ofList_toList]

/-- A type begins with a word, its base. -/
theorem typeWords_head {type : String} (h : IsType type) : ∃ base words, typeWords type = ident base :: words := by
  rcases h with hname | ⟨base, bound, hbase, hbound, rfl⟩
  · exact ⟨type, [], typeWords_identifier hname⟩
  · exact ⟨base, _, typeWords_bounded hbase hbound.2⟩

namespace Parser
variable {path : String} {rest : List Word}

theorem reads_peek (w : Word) (rest : List Word) : Reads Token.word (peek) [] (w :: rest) (·.word = w) := by
  intro tokens htokens
  cases tokens with
  | nil => cases htokens
  | cons token tokens =>
    obtain ⟨hword, _⟩ := List.cons.inj htokens
    exact ⟨token, token :: tokens, rfl, htokens, hword⟩

theorem reads_peek_one (w w' : Word) (rest : List Word) :
    Reads Token.word (peek 1) [] (w :: w' :: rest) (·.word = w') := by
  intro tokens htokens
  match tokens with
  | [] => cases htokens
  | [_] => cases htokens
  | token :: token' :: tokens =>
    obtain ⟨_, hrest⟩ := List.cons.inj htokens
    obtain ⟨hword, _⟩ := List.cons.inj hrest
    exact ⟨token', token :: token' :: tokens, rfl, htokens, hword⟩

theorem reads_next {w : Word} (hw : w.1 ≠ .eof) (rest : List Word) : Reads Token.word next [w] rest (·.word = w) := by
  intro tokens htokens
  cases tokens with
  | nil => cases htokens
  | cons token tokens =>
    obtain ⟨hword, hrest⟩ := List.cons.inj htokens
    have hkind : (token.kind != .eof) = true := by
      rw [kind_of_word hword]
      exact bne_iff_ne.mpr hw
    refine ⟨token, tokens, ?_, hrest, hword⟩
    show (if (token.kind != .eof) = true then (do modify List.tail; return token : Parse Token)
      else (return token : Parse Token)) (token :: tokens) = _
    rw [if_pos hkind]
    rfl

theorem reads_remaining (rest : List Word) : Reads Token.word remaining [] rest (· = rest.length) := by
  intro tokens htokens
  refine ⟨tokens.length, tokens, rfl, htokens, ?_⟩
  rw [← length_map Token.word, htokens, nil_append]

private theorem reads_expect {kind : Kind} (hkind : kind ≠ .eof) (value what : String) (rest : List Word) :
    Reads Token.word (expect path kind what) [(kind, value)] rest (·.value = value) := by
  apply Reads.look (reads_peek _ _)
  intro token hword
  rw [kind_of_word hword, bne_self_eq_false, if_neg Bool.false_ne_true]
  exact (reads_next hkind rest).mono fun token' hword' => value_of_word hword'

theorem reads_mark (c : Char) (what : String) (rest : List Word) :
    Reads Token.word (expect path (.mark c) what) [mark c] rest (·.value = String.ofList [c]) :=
  reads_expect Kind.noConfusion _ what rest

theorem reads_name {name : String} (hname : IsName name) (what : String) (rest : List Word) :
    Reads Token.word (expectName path what) [ident name] rest (·.value = name) := by
  apply Reads.cons (reads_expect Kind.noConfusion name what _)
  intro token hvalue
  rw [hvalue, hname.2, if_neg Bool.false_ne_true]
  exact Reads.pure hvalue

section Commas
variable {α γ : Type} {item : Parse α} {words : α → List Word} {f : α → γ}

private theorem length_le_flatMap (w : Word) (l : List α) : l.length ≤ (l.flatMap fun a => w :: words a).length := by
  induction l with
  | nil => exact Nat.le_refl _
  | cons a l ih =>
    rw [flatMap_cons, length_append, length_cons, length_cons]
    omega

/-- What is written with commas between is read one by one, up to a word that is no comma. -/
theorem reads_commaLoop {w : Word} (hw : w.1 ≠ .mark ',') {l : List α}
    (hitem : ∀ a ∈ l, ∀ rest, Reads Token.word item (words a) rest (f · = f a)) {fuel : Nat} (hfuel : l.length < fuel)
    (items : List α) :
    Reads Token.word (commaLoop item fuel items) (l.flatMap fun a => mark ',' :: words a) (w :: rest)
      (fun l' => l'.map f = items.map f ++ l.map f) := by
  induction l generalizing fuel items with
  | nil =>
    cases fuel with
    | zero => cases hfuel
    | succ fuel =>
      apply Reads.look (reads_peek w rest)
      intro token hword
      rw [kind_of_word hword, if_neg hw]
      exact Reads.pure (by simp)
  | cons a l ih =>
    cases fuel with
    | zero => cases hfuel
    | succ fuel =>
      rw [flatMap_cons, cons_append]
      apply Reads.look (reads_peek (mark ',') _)
      intro token hword
      rw [kind_of_word hword, mark, if_pos rfl]
      apply Reads.cons (reads_next Kind.noConfusion _)
      intro _ _
      apply Reads.bind (hitem a mem_cons_self _)
      intro another hanother
      apply (ih (fun b hb => hitem b (mem_cons_of_mem a hb)) (Nat.lt_of_succ_lt_succ hfuel) (items ++ [another])).mono
      intro l' hl'
      rw [hl', map_append, map_singleton, hanother, append_assoc, map_cons, singleton_append]

private theorem reads_oneOrMore {w : Word} (hw : w.1 ≠ .mark ',') {l : List α} (hsome : l ≠ [])
    (hitem : ∀ a ∈ l, ∀ rest, Reads Token.word item (words a) rest (f · = f a)) :
    Reads Token.word (oneOrMore item) (commaWords words l) (w :: rest) (fun l' => l'.map f = l.map f) := by
  cases l with
  | nil => exact absurd rfl hsome
  | cons a l =>
    apply Reads.bind (hitem a mem_cons_self _)
    intro first hfirst
    apply Reads.look (reads_remaining _)
    rintro _ rfl
    have hfuel : l.length < ((l.flatMap fun b => mark ',' :: words b) ++ w :: rest).length := by
      have hle : l.length ≤ (l.flatMap fun b => mark ',' :: words b).length := length_le_flatMap _ l
      rw [length_append, length_cons]
      omega
    apply (reads_commaLoop hw (fun b hb => hitem b (mem_cons_of_mem a hb)) hfuel [first]).mono
    intro l' hl'
    rw [hl', map_singleton, hfirst, singleton_append, map_cons]

private theorem reads_untilParen {l : List α} (hfirst : ∀ a ∈ l, ∃ name more, words a = ident name :: more)
    (hitem : ∀ a ∈ l, ∀ rest, Reads Token.word item (words a) rest (f · = f a)) :
    Reads Token.word (untilParen item) (commaWords words l) (mark ')' :: rest) (fun l' => l'.map f = l.map f) := by
  cases l with
  | nil =>
    apply Reads.look (reads_peek (mark ')') rest)
    intro token hword
    rw [kind_of_word hword, mark, if_pos rfl]
    exact Reads.pure rfl
  | cons a l =>
    obtain ⟨name, more, hwords⟩ := hfirst a mem_cons_self
    have hpeek : Reads Token.word peek [] (commaWords words (a :: l) ++ mark ')' :: rest) (·.word = ident name) := by
      rw [commaWords, hwords]
      exact reads_peek _ _
    apply Reads.look hpeek
    intro token hword
    rw [kind_of_word hword, ident, if_neg Kind.noConfusion]
    exact reads_oneOrMore (by rw [mark]; decide) (cons_ne_nil _ _) hitem

end Commas

/-- A type is read back from its words, with the bound it is written with. -/
theorem reads_type {type : String} (htype : IsType type) (what : String) {w : Word} (hw : w.1 ≠ .mark '[') :
    Reads Token.word (parseType path what) (typeWords type) (w :: rest) (·.value = type) := by
  rcases htype with hname | ⟨base, bound, hbase, hbound, rfl⟩
  · rw [typeWords_identifier hname]
    apply Reads.cons (reads_expect Kind.noConfusion type what _)
    intro token hvalue
    apply Reads.look (reads_peek w rest)
    intro bracket hword
    rw [kind_of_word hword, if_pos (bne_iff_ne.mpr hw)]
    exact Reads.pure hvalue
  · rw [typeWords_bounded hbase hbound.2]
    apply Reads.cons (reads_expect Kind.noConfusion base what _)
    intro token hvalue
    apply Reads.look (reads_peek (mark '[') _)
    intro bracket hword
    rw [kind_of_word hword, mark, bne_self_eq_false, if_neg Bool.false_ne_true]
    apply Reads.cons (reads_next Kind.noConfusion _)
    intro _ _
    apply Reads.cons (reads_expect Kind.noConfusion bound _ _)
    intro size hsize
    apply Reads.cons (reads_mark ']' _ _)
    intro _ _
    apply Reads.pure
    rw [hvalue, hsize]

theorem reads_typed {α : Type} {type name : String} (htype : IsType type) (hname : IsName name) (what what' : String)
    {f : Token → Token → α} {Q : α → Prop}
    (hQ : ∀ t n : Token, t.value = type → n.value = name → Q (f t n)) :
    Reads Token.word (do let t ← parseType path what; let n ← expectName path what'; return f t n)
      (typeWords type ++ [ident name]) rest Q := by
  apply Reads.bind (reads_type htype what Kind.noConfusion)
  intro t ht
  apply Reads.cons (reads_name hname what' _)
  intro n hn
  exact Reads.pure (hQ t n ht hn)

private theorem reads_param {p : Param} (hp : p.Spelled) (rest : List Word) :
    Reads Token.word (parseParam path) p.words rest (·.unplaced = p.unplaced) := by
  apply reads_typed hp.1 hp.2
  intro t n ht hn
  rw [Param.unplaced, Param.unplaced, ht, hn]

private theorem reads_role {r : Role} (hr : r.Spelled) (rest : List Word) :
    Reads Token.word (parseRole path) r.words rest (·.unplaced = r.unplaced) := by
  apply reads_typed hr.1 hr.2
  intro t n ht hn
  rw [Role.unplaced, Role.unplaced, ht, hn]

private theorem words_head_of_type {type name : String} (htype : IsType type) :
    ∃ base more, typeWords type ++ [ident name] = ident base :: more := by
  obtain ⟨base, words, hwords⟩ := typeWords_head htype
  rw [hwords]
  exact ⟨base, words ++ [ident name], rfl⟩

theorem reads_params {params : List Param} (hparams : ∀ p ∈ params, p.Spelled) (rest : List Word) :
    Reads Token.word (parseParams path) (paramsWords params) rest
      (fun params' => params'.map Param.unplaced = params.map Param.unplaced) := by
  apply Reads.cons (reads_mark '(' _ _)
  intro _ _
  apply Reads.bind (reads_untilParen (fun p hp => words_head_of_type (hparams p hp).1) fun p hp => reads_param (hparams p hp))
  intro params' hparams'
  apply Reads.cons (reads_mark ')' _ _)
  intro _ _
  exact Reads.pure hparams'

theorem reads_roles {roles : List Role} (hroles : ∀ r ∈ roles, r.Spelled) (rest : List Word) :
    Reads Token.word (untilParen (parseRole path)) (commaWords Role.words roles) (mark ')' :: rest)
      (fun roles' => roles'.map Role.unplaced = roles.map Role.unplaced) :=
  reads_untilParen (fun r hr => words_head_of_type (hroles r hr).1) fun r hr => reads_role (hroles r hr)

private theorem repeatedScope_eq_none {scopes seen : List String} (hscopes : scopes.Nodup) (hseen : ∀ name ∈ scopes, name ∉ seen) :
    repeatedScope seen scopes = none := by
  induction scopes generalizing seen with
  | nil => rfl
  | cons name scopes ih =>
    obtain ⟨hname, hrest⟩ := nodup_cons.mp hscopes
    have hnew : ¬ seen.contains name = true := by
      rw [contains_iff_mem]
      exact hseen name mem_cons_self
    rw [repeatedScope, if_neg hnew]
    apply ih hrest
    intro other hother hmem
    obtain rfl | hmem := mem_cons.mp hmem
    · exact hname hother
    · exact hseen other (mem_cons_of_mem name hother) hmem

/-- A gate is read back as the scopes it names. -/
theorem reads_gate {scope : List String} (hscope : ∀ name ∈ scope, IsName name) (hnodup : scope.Nodup) {w : Word}
    (hw : w.1 ≠ .mark '<') : Reads Token.word (parseGate path) (gateWords scope) (w :: rest) (· = scope) := by
  rw [gateWords]
  by_cases hnone : scope = []
  · subst hnone
    apply Reads.look (reads_peek w rest)
    intro token hword
    rw [kind_of_word hword, if_pos (bne_iff_ne.mpr hw)]
    exact Reads.pure rfl
  · rw [isEmpty_eq_false_iff.mpr hnone, if_neg Bool.false_ne_true]
    apply Reads.look (reads_peek (mark '<') _)
    intro token hword
    rw [kind_of_word hword, mark, bne_self_eq_false, if_neg Bool.false_ne_true]
    apply Reads.cons (reads_next Kind.noConfusion _)
    intro _ _
    have hitem (name : String) (hname : name ∈ scope) (rest : List Word) :
        Reads Token.word (parseScope path) [ident name] rest (fun name' => id name' = id name) := by
      apply Reads.cons (reads_name (hscope name hname) _ _)
      intro token hvalue
      exact Reads.pure hvalue
    apply Reads.bind (reads_oneOrMore (by rw [mark]; decide) hnone hitem)
    intro scopes hscopes
    rw [map_id, map_id] at hscopes
    subst hscopes
    apply Reads.cons (reads_mark '>' _ _)
    intro _ _
    rw [repeatedScope_eq_none hnodup fun name _ => not_mem_nil]
    exact Reads.pure rfl

end Parser
end SynQt.Synqtc
