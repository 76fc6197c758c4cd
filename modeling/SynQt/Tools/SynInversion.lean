import SynQt.Tools.SynMembers

/-! What the parser has read where it comes back: the words its value is spelled with, and no
other. -/
namespace SynQt.Synqtc
open Lib List

/-- The parser comes back from the words of a file only with a value, and having taken words, that
`Q` admits. -/
def Spells {α : Type} (p : Parse α) (Q : α → List Word → Prop) : Prop :=
  ∀ tokens words a tokens', tokens.map Token.word = words ++ [endWord] → (∀ w ∈ words, IsWord w) →
    p tokens = .ok (a, tokens') →
      ∃ used left, words = used ++ left ∧ tokens'.map Token.word = left ++ [endWord] ∧ Q a used

/-- The same, of the words that begin with this one, which is the end's where there are none. -/
def SpellsFrom {α : Type} (first : Word) (p : Parse α) (Q : α → List Word → Prop) : Prop :=
  ∀ tokens words a tokens', tokens.map Token.word = words ++ [endWord] → (∀ w ∈ words, IsWord w) →
    (words ++ [endWord]).head? = some first → p tokens = .ok (a, tokens') →
      ∃ used left, words = used ++ left ∧ tokens'.map Token.word = left ++ [endWord] ∧ Q a used

private theorem run_bind {α β : Type} {p : Parse α} {f : α → Parse β} {tokens : List Token} {b : β × List Token} :
    (p >>= f) tokens = .ok b ↔ ∃ a tokens', p tokens = .ok (a, tokens') ∧ f a tokens' = .ok b := by
  show (p tokens >>= fun r => f r.1 r.2) = .ok b ↔ _
  rw [bind_ok]
  exact ⟨fun ⟨a, hp, hf⟩ => ⟨a.1, a.2, hp, hf⟩, fun ⟨a, tokens', hp, hf⟩ => ⟨(a, tokens'), hp, hf⟩⟩

private theorem eof_not_isWord {w : Word} (h : IsWord w) : w.1 ≠ .eof := by
  obtain ⟨kind, value⟩ := w
  intro hkind
  obtain rfl : kind = .eof := hkind
  exact h

private theorem isWord_of_head {words : List Word} (hwords : ∀ w ∈ words, IsWord w) {first : Word}
    (hfirst : (words ++ [endWord]).head? = some first) (hkind : first.1 ≠ .eof) :
    ∃ more, words = first :: more ∧ IsWord first := by
  cases words with
  | nil =>
    cases hfirst
    exact absurd rfl hkind
  | cons w words =>
    obtain rfl : w = first := Option.some.inj hfirst
    exact ⟨words, rfl, hwords w mem_cons_self⟩

private theorem SpellsFrom.of_isWord {α : Type} {p : Parse α} {Q : α → List Word → Prop} {first : Word} (hkind : first.1 ≠ .eof)
    (h : IsWord first → SpellsFrom first p Q) : SpellsFrom first p Q := by
  intro tokens words a tokens' htokens hwords hfirst hrun
  obtain ⟨more, -, hword⟩ := isWord_of_head hwords hfirst hkind
  exact h hword tokens words a tokens' htokens hwords hfirst hrun

section Rules
variable {α β : Type} {p : Parse α} {f : α → Parse β} {P Q : α → List Word → Prop} {R : β → List Word → Prop} {first : Word}

theorem Spells.anywhere (h : Spells p Q) (first : Word) : SpellsFrom first p Q :=
  fun tokens words a tokens' htokens hwords _ hrun => h tokens words a tokens' htokens hwords hrun

theorem Spells.pure {a : α} (h : Q a []) : Spells (Pure.pure a) Q := by
  rintro tokens words _ _ htokens _ ⟨⟩
  exact ⟨[], words, rfl, htokens, h⟩

theorem Spells.throw (raised : Raised) : Spells (α := α) (MonadExcept.throw raised) Q :=
  fun _ _ _ _ _ _ hrun => nomatch hrun

theorem Spells.mono (h : Spells p P) (himp : ∀ a used, P a used → Q a used) : Spells p Q := by
  intro tokens words a tokens' htokens hwords hrun
  obtain ⟨used, left, hsplit, hleft, hP⟩ := h tokens words a tokens' htokens hwords hrun
  exact ⟨used, left, hsplit, hleft, himp a used hP⟩

theorem SpellsFrom.bind (h : SpellsFrom first p P) (h' : ∀ a used, P a used → Spells (f a) fun b more => R b (used ++ more)) :
    SpellsFrom first (p >>= f) R := by
  intro tokens words b tokens'' htokens hwords hfirst hrun
  obtain ⟨a, tokens', hp, hf⟩ := run_bind.mp hrun
  obtain ⟨used, left, hsplit, hleft, hP⟩ := h tokens words a tokens' htokens hwords hfirst hp
  have hrest : ∀ w ∈ left, IsWord w := fun w hw => hwords w (hsplit ▸ mem_append_right used hw)
  obtain ⟨more, left', hsplit', hleft', hR⟩ := h' a used hP tokens' left b tokens'' hleft hrest hf
  exact ⟨used ++ more, left', by rw [hsplit, hsplit', append_assoc], hleft', hR⟩

theorem Spells.bind (h : Spells p P) (h' : ∀ a used, P a used → Spells (f a) fun b more => R b (used ++ more)) :
    Spells (p >>= f) R := by
  intro tokens words b tokens'' htokens hwords hrun
  have hsome : (words ++ [endWord]).head?.isSome = true := by cases words <;> rfl
  obtain ⟨first, hfirst⟩ := Option.isSome_iff_exists.mp hsome
  exact (h.anywhere first).bind h' tokens words b tokens'' htokens hwords hfirst hrun

end Rules

namespace Parser
variable {path : String} {α β : Type} {f : Token → Parse α} {Q : α → List Word → Prop} {first : Word}

variable {tokens tokens' : List Token}

private theorem peek_head {words : List Word} {token : Token}
    (htokens : tokens.map Token.word = words ++ [endWord]) (h : (peek : Parse Token) tokens = .ok (token, tokens')) :
    tokens' = tokens ∧ (words ++ [endWord]).head? = some token.word := by
  cases tokens with
  | nil => exact absurd htokens.symm (by simp)
  | cons head tokens =>
    cases h
    rw [← htokens]
    exact ⟨rfl, rfl⟩

private theorem spells_look (h : ∀ token, SpellsFrom token.word (f token) Q) : Spells (peek >>= f) Q := by
  intro tokens words a tokens' htokens hwords hrun
  obtain ⟨token, same, hpeek, hf⟩ := run_bind.mp hrun
  obtain ⟨rfl, hhead⟩ := peek_head htokens hpeek
  exact h token _ words a tokens' htokens hwords hhead hf

/-- Looking further ahead says nothing of the next word. -/
theorem spells_ahead (h : ∀ token, SpellsFrom first (f token) Q) (ahead : Nat) : SpellsFrom first (peek ahead >>= f) Q := by
  intro tokens words a tokens' htokens hwords hfirst hrun
  obtain ⟨token, same, hpeek, hf⟩ := run_bind.mp hrun
  cases hpeek
  exact h _ _ words a tokens' htokens hwords hfirst hf

private theorem spells_remaining {f : Nat → Parse α} (h : ∀ n, Spells (f n) Q) : Spells (remaining >>= f) Q := by
  intro tokens words a tokens' htokens hwords hrun
  obtain ⟨n, same, hremaining, hf⟩ := run_bind.mp hrun
  cases hremaining
  exact h _ _ words a tokens' htokens hwords hf

private theorem next_head {tokens : List Token} {first : Word} {more : List Word} (hkind : first.1 ≠ .eof)
    (htokens : tokens.map Token.word = first :: more) :
    ∃ token rest, next tokens = .ok (token, rest) ∧ token.word = first ∧ rest.map Token.word = more := by
  obtain ⟨token, rest, hrun, hrest, hword⟩ := reads_next hkind more tokens htokens
  exact ⟨token, rest, hrun, hword, hrest⟩

private theorem spells_next (hkind : first.1 ≠ .eof)
    (h : ∀ token, token.word = first → IsWord first → Spells (f token) fun a more => Q a (first :: more)) :
    SpellsFrom first (next >>= f) Q := by
  intro tokens words a tokens' htokens hwords hfirst hrun
  obtain ⟨more, rfl, hword⟩ := isWord_of_head hwords hfirst hkind
  obtain ⟨token, rest, hnext, htoken, hrest⟩ := next_head hkind htokens
  obtain ⟨token', rest', hnext', hf⟩ := run_bind.mp hrun
  rw [hnext] at hnext'
  cases hnext'
  obtain ⟨used, left, hsplit, hleft, hQ⟩ := h token htoken hword rest more a tokens' hrest
    (fun w hw => hwords w (mem_cons_of_mem first hw)) hf
  exact ⟨first :: used, left, by rw [hsplit, cons_append], hleft, hQ⟩

private theorem spells_expect {kind : Kind} (hkind : kind ≠ .eof) (what : String) :
    Spells (expect path kind what) fun token used => used = [token.word] ∧ token.kind = kind ∧ IsWord token.word := by
  rw [expect]
  apply spells_look
  intro token
  split
  · exact (Spells.throw _).anywhere _
  · rename_i hsame
    have hsame : token.word.1 = kind := by simpa [Token.word] using hsame
    have hstep : SpellsFrom token.word (next >>= fun token => Pure.pure token) fun token' used =>
        used = [token'.word] ∧ token'.kind = kind ∧ IsWord token'.word := by
      apply spells_next (hsame ▸ hkind)
      intro token' hword hisWord
      exact Spells.pure ⟨congrArg (· :: []) hword.symm, (kind_of_word hword).trans hsame, hword ▸ hisWord⟩
    rw [bind_pure] at hstep
    exact hstep

private theorem spells_mark (c : Char) (what : String) :
    Spells (expect path (.mark c) what) fun _ used => used = [mark c] := by
  apply (spells_expect Kind.noConfusion what).mono
  rintro ⟨kind, value, line, col⟩ used ⟨rfl, rfl, hword⟩
  rw [Token.word, mark, hword.2]

private theorem spells_name (what : String) :
    Spells (expectName path what) fun token used => used = [ident token.value] ∧ IsName token.value := by
  apply (spells_expect Kind.noConfusion what).bind
  rintro ⟨kind, value, line, col⟩ used ⟨rfl, rfl, hword⟩
  split
  · exact Spells.throw _
  · rename_i hkeyword
    exact Spells.pure ⟨rfl, hword, Bool.eq_false_iff.mpr hkeyword⟩

section Commas
variable {item : Parse β} {P : β → Prop} {words : β → List Word}

section
variable (hitem : Spells item fun b used => P b ∧ used = words b)
include hitem

private theorem spells_commaLoop (fuel : Nat) (items : List β) :
    Spells (commaLoop item fuel items) fun l used =>
      ∃ more, l = items ++ more ∧ (∀ b ∈ more, P b) ∧ used = more.flatMap fun b => mark ',' :: words b := by
  induction fuel generalizing items with
  | zero => exact Spells.throw _
  | succ fuel ih =>
    rw [commaLoop]
    apply spells_look
    rintro ⟨kind, value, line, col⟩
    split
    · rename_i hcomma
      obtain rfl := hcomma
      apply spells_next Kind.noConfusion
      intro _ _ hword
      apply hitem.bind
      rintro another used ⟨hanother, rfl⟩
      apply (ih (items ++ [another])).mono
      rintro l used ⟨more, rfl, hmore, rfl⟩
      refine ⟨another :: more, by simp, forall_mem_cons.mpr ⟨hanother, hmore⟩, ?_⟩
      rw [flatMap_cons, cons_append, Token.word, mark, hword.2]
    · exact (Spells.pure ⟨[], by simp, forall_mem_nil _, rfl⟩).anywhere _

private theorem spells_oneOrMore :
    Spells (oneOrMore item) fun l used => l ≠ [] ∧ (∀ b ∈ l, P b) ∧ used = commaWords words l := by
  apply hitem.bind
  rintro b used ⟨hb, rfl⟩
  apply spells_remaining
  intro fuel
  apply (spells_commaLoop hitem fuel [b]).mono
  rintro l used ⟨more, rfl, hmore, rfl⟩
  exact ⟨cons_ne_nil _ _, forall_mem_cons.mpr ⟨hb, hmore⟩, rfl⟩

private theorem spells_untilParen :
    Spells (untilParen item) fun l used => (∀ b ∈ l, P b) ∧ used = commaWords words l := by
  apply spells_look
  intro token
  split
  · exact (Spells.pure ⟨forall_mem_nil _, rfl⟩).anywhere _
  · exact ((spells_oneOrMore hitem).mono fun l used h => h.2).anywhere _

end

end Commas

private theorem spells_type (what : String) :
    Spells (parseType path what) fun token used => IsType token.value ∧ used = typeWords token.value := by
  apply (spells_expect Kind.noConfusion what).bind
  rintro ⟨kind, base, line, col⟩ used ⟨rfl, rfl, hbase⟩
  apply spells_look
  rintro ⟨kind, value, line', col'⟩
  split
  · exact (Spells.pure ⟨.inl hbase, (typeWords_identifier hbase).symm⟩).anywhere _
  · rename_i hbracket
    obtain rfl : kind = .mark '[' := by simpa using hbracket
    apply spells_next Kind.noConfusion
    intro _ _ hbracket
    obtain rfl : value = String.ofList ['['] := hbracket.2
    apply (spells_expect Kind.noConfusion _).bind
    rintro ⟨kind, bound, line'', col''⟩ used ⟨rfl, rfl, hbound⟩
    apply (spells_mark ']' _).bind
    rintro _ used rfl
    refine Spells.pure ⟨.inr ⟨base, bound, hbase, hbound, rfl⟩, ?_⟩
    rw [typeWords_bounded hbase hbound.2]
    rfl

private theorem spells_typed (what what' : String) {f : Token → Token → β} {R : β → List Word → Prop}
    (hR : ∀ t n : Token, IsType t.value → IsName n.value → R (f t n) (typeWords t.value ++ [ident n.value])) :
    Spells (do let t ← parseType path what; let n ← expectName path what'; return f t n) R := by
  apply (spells_type what).bind
  rintro t used ⟨htype, rfl⟩
  apply (spells_name what').bind
  rintro n used ⟨rfl, hname⟩
  exact Spells.pure (hR t n htype hname)

private theorem spells_param : Spells (parseParam path) fun p used => p.Spelled ∧ used = p.words :=
  spells_typed _ _ fun _ _ htype hname => ⟨⟨htype, hname⟩, rfl⟩

private theorem spells_role : Spells (parseRole path) fun r used => r.Spelled ∧ used = r.words :=
  spells_typed _ _ fun _ _ htype hname => ⟨⟨htype, hname⟩, rfl⟩

private theorem spells_params :
    Spells (parseParams path) fun params used => (∀ p ∈ params, p.Spelled) ∧ used = paramsWords params := by
  apply (spells_mark '(' _).bind
  rintro _ _ rfl
  apply (spells_untilParen spells_param).bind
  rintro params _ ⟨hparams, rfl⟩
  apply (spells_mark ')' _).bind
  rintro _ _ rfl
  exact Spells.pure ⟨hparams, rfl⟩

private theorem nodup_of_repeatedScope {scopes seen : List String} (h : repeatedScope seen scopes = none) :
    scopes.Nodup ∧ ∀ name ∈ scopes, name ∉ seen := by
  induction scopes generalizing seen with
  | nil => exact ⟨nodup_nil, forall_mem_nil _⟩
  | cons name scopes ih =>
    rw [repeatedScope] at h
    split at h
    · cases h
    · rename_i hnew
      obtain ⟨hnodup, hapart⟩ := ih h
      refine ⟨nodup_cons.mpr ⟨fun hmem => hapart name hmem mem_cons_self, hnodup⟩, ?_⟩
      rw [forall_mem_cons]
      exact ⟨fun hmem => hnew (contains_iff_mem.mpr hmem), fun other hother hmem =>
        hapart other hother (mem_cons_of_mem name hmem)⟩

private theorem spells_gate :
    Spells (parseGate path) fun scopes used => (∀ scope ∈ scopes, IsName scope) ∧ scopes.Nodup ∧ used = gateWords scopes := by
  have hscope : Spells (parseScope path) fun scope used => IsName scope ∧ used = [ident scope] := by
    apply (spells_name _).bind
    rintro token _ ⟨rfl, hname⟩
    exact Spells.pure ⟨hname, rfl⟩
  apply spells_look
  rintro ⟨kind, value, line, col⟩
  split
  · exact (Spells.pure ⟨forall_mem_nil _, nodup_nil, rfl⟩).anywhere _
  · rename_i hopens
    obtain rfl : kind = .mark '<' := by simpa using hopens
    apply spells_next Kind.noConfusion
    intro _ _ hword
    apply (spells_oneOrMore hscope).bind
    rintro scopes _ ⟨hsome, hnames, rfl⟩
    apply (spells_mark '>' _).bind
    rintro _ _ rfl
    split
    · rename_i hrepeated
      refine Spells.pure ⟨hnames, (nodup_of_repeatedScope hrepeated).1, ?_⟩
      rw [gateWords, if_neg (by simp [hsome]), Token.word, mark, mark, hword.2, append_nil]
    · apply spells_look
      intro token
      exact (Spells.throw _).anywhere _

/-- A member before its gate is put on it, and the words of it after its keyword. -/
def Bodied (keyword : String) (m : Member) (used : List Word) : Prop :=
  m.Spelled ∧ m.scope = [] ∧ m.bodyWords = ident keyword :: used

variable (keyword : Token)

private theorem spells_prop : Spells (parseProp path keyword) (Bodied "prop") :=
  spells_typed _ _ fun _ _ htype hname => ⟨⟨hname, forall_mem_nil _, nodup_nil, htype⟩, rfl, rfl⟩

private theorem spells_model : Spells (parseModel path keyword) (Bodied "model") := by
  apply (spells_name _).bind
  rintro name _ ⟨rfl, hname⟩
  apply (spells_mark '(' _).bind
  rintro _ _ rfl
  apply (spells_untilParen spells_role).bind
  rintro roles _ ⟨hroles, rfl⟩
  apply (spells_mark ')' _).bind
  rintro _ _ rfl
  split
  · exact Spells.throw _
  · rename_i hsome
    exact Spells.pure ⟨⟨hname, forall_mem_nil _, nodup_nil, by simpa using hsome, hroles⟩, rfl, rfl⟩

private theorem spells_signal : Spells (parseSignal path keyword) (Bodied "signal") := by
  apply (spells_name _).bind
  rintro name _ ⟨rfl, hname⟩
  apply spells_params.bind
  rintro params _ ⟨hparams, rfl⟩
  exact Spells.pure ⟨⟨hname, forall_mem_nil _, nodup_nil, hparams⟩, rfl, by simp [Member.bodyWords]⟩

private theorem spells_capture :
    Spells parseCapture fun capture used => used = if capture then [ident "capture"] else [] := by
  apply spells_look
  rintro ⟨kind, value, line, col⟩
  split
  · refine Spells.anywhere (Spells.pure ?_) _
    rfl
  · rename_i hword
    obtain ⟨rfl, rfl⟩ : kind = .ident ∧ value = "capture" := by simpa using hword
    refine spells_ahead (fun token => ?_) 1
    split
    · refine Spells.anywhere (Spells.pure ?_) _
      rfl
    · apply spells_next Kind.noConfusion
      intro _ _ _
      exact Spells.pure rfl

/-- A name and the type before it, where there is one. -/
theorem spells_slotHead :
    Spells (parseSlotHead path) fun head used =>
      IsName head.1 ∧ (∀ type ∈ head.2, IsType type) ∧ used = head.2.elim [] typeWords ++ [ident head.1] := by
  apply (spells_type _).bind
  rintro first _ ⟨htype, rfl⟩
  apply spells_look
  intro token
  split
  · refine Spells.anywhere ?_ _
    split
    · exact Spells.throw _
    · rename_i hkeyword
      split
      · exact Spells.throw _
      · rename_i hplain
        have hname : identifier first.value.toList = true := by
          obtain hname | ⟨base, bound, -, -, heq⟩ := htype
          · exact hname
          · rw [heq] at hplain
            simp at hplain
        refine Spells.pure ⟨⟨hname, Bool.eq_false_iff.mpr hkeyword⟩, fun type h => (nomatch h), ?_⟩
        rw [typeWords_identifier hname, append_nil]
        rfl
  · refine Spells.anywhere ?_ _
    apply (spells_name _).bind
    rintro second _ ⟨rfl, hname⟩
    refine Spells.pure ⟨hname, fun type h => ?_, by rw [append_nil]; rfl⟩
    cases h
    exact htype

private theorem spells_slot : Spells (parseSlot path keyword) (Bodied "slot") := by
  apply spells_capture.bind
  rintro capture _ rfl
  apply spells_slotHead.bind
  rintro ⟨name, returnType⟩ _ ⟨hname, htype, rfl⟩
  apply spells_params.bind
  rintro params _ ⟨hparams, rfl⟩
  refine Spells.pure ⟨⟨hname, forall_mem_nil _, nodup_nil, htype, hparams⟩, rfl, ?_⟩
  simp [Member.bodyWords, Slot.headWords]

private theorem spells_body {keyword : Token} (h : memberWords.contains keyword.value = true) :
    Spells (parseBody path keyword) (Bodied keyword.value) := by
  have hone : keyword.value = "prop" ∨ keyword.value = "model" ∨ keyword.value = "signal" ∨ keyword.value = "slot" := by
    simpa [memberWords] using h
  rw [parseBody]
  obtain heq | heq | heq | heq := hone
  · rw [heq, if_pos rfl]
    exact spells_prop keyword
  · rw [heq, if_neg (by decide), if_pos rfl]
    exact spells_model keyword
  · rw [heq, if_neg (by decide), if_neg (by decide), if_pos rfl]
    exact spells_signal keyword
  · rw [heq, if_neg (by decide), if_neg (by decide), if_neg (by decide)]
    exact spells_slot keyword

theorem Bodied.withScope {keyword : String} {m : Member} {used : List Word} (h : Bodied keyword m used)
    {scopes : List String} (hnames : ∀ scope ∈ scopes, IsName scope) (hnodup : scopes.Nodup) :
    (m.withScope scopes).Spelled ∧ (m.withScope scopes).words = gateWords scopes ++ ident keyword :: used := by
  obtain ⟨⟨hname, -, -, hbody⟩, -, hwords⟩ := h
  cases m with
  | prop p | model m | signal s
  | slot s => exact ⟨⟨hname, hnames, hnodup, hbody⟩, congrArg (gateWords scopes ++ ·) hwords⟩

private theorem spells_member : Spells (parseMember path) fun m used => m.Spelled ∧ used = m.words := by
  apply spells_gate.bind
  rintro scopes _ ⟨hnames, hnodup, rfl⟩
  apply spells_look
  rintro ⟨kind, value, line, col⟩
  split
  · exact (Spells.throw _).anywhere _
  · rename_i hword
    obtain ⟨rfl, hmember⟩ : kind = .ident ∧ memberWords.contains value = true := by simpa using hword
    apply spells_next Kind.noConfusion
    intro keyword hkeyword _
    have hvalue : keyword.value = value := congrArg Prod.snd hkeyword
    apply (spells_body (hvalue ▸ hmember)).bind
    intro m used hbodied
    obtain ⟨hspelled, hwords⟩ := hbodied.withScope hnames hnodup
    refine Spells.pure ⟨hspelled, ?_⟩
    rw [hwords, hvalue, append_nil]
    rfl

/-- The loop ends only before a closing brace, which what comes after it takes. -/
theorem spells_members {β : Type} {f : List Member → Parse β} {R : β → List Word → Prop} (fuel : Nat) (members : List Member)
    (h : ∀ more : List Member, (∀ m ∈ more, m.Spelled) →
      SpellsFrom (mark closeBrace) (f (members ++ more)) fun b used => R b (more.flatMap Member.words ++ used)) :
    Spells (memberLoop path fuel members >>= f) R := by
  induction fuel generalizing members R with
  | zero => exact fun _ _ _ _ _ _ hrun => nomatch hrun
  | succ fuel ih =>
    rw [memberLoop, bind_assoc]
    apply spells_look
    rintro ⟨kind, value, line, col⟩
    split
    · rename_i hclose
      obtain rfl := hclose
      apply SpellsFrom.of_isWord Kind.noConfusion
      intro hword
      obtain rfl : value = String.ofList [closeBrace] := hword.2
      rw [pure_bind, ← append_nil members]
      exact h [] (forall_mem_nil _)
    · refine Spells.anywhere ?_ _
      split
      · exact fun _ _ _ _ _ _ hrun => nomatch hrun
      · rw [bind_assoc]
        apply spells_member.bind
        rintro m _ ⟨hm, rfl⟩
        apply ih (members ++ [m])
        intro more hmore
        have hall := h (m :: more) (forall_mem_cons.mpr ⟨hm, hmore⟩)
        rw [append_assoc, singleton_append]
        simp only [flatMap_cons, append_assoc] at hall
        exact hall

private theorem spells_contract :
    SpellsFrom (ident "contract") (parseContract path) fun c used => c.Spelled ∧ used = c.words := by
  apply spells_next Kind.noConfusion
  intro keyword _ _
  apply (spells_name _).bind
  rintro name _ ⟨rfl, hname⟩
  apply (spells_mark openBrace _).bind
  rintro _ _ rfl
  apply spells_remaining
  intro fuel
  apply spells_members fuel []
  intro more hmore
  apply spells_next Kind.noConfusion
  intro _ _ _
  exact Spells.pure ⟨⟨hname, hmore⟩, rfl⟩

private theorem spells_record :
    SpellsFrom (ident "record") (parseRecord path) fun r used => r.Spelled ∧ used = r.words := by
  apply spells_next Kind.noConfusion
  intro keyword _ _
  apply (spells_name _).bind
  rintro name _ ⟨rfl, hname⟩
  apply spells_params.bind
  rintro fields _ ⟨hfields, rfl⟩
  split
  · exact Spells.throw _
  · rename_i hsome
    exact Spells.pure ⟨⟨hname, by simpa using hsome, hfields⟩, by simp [Record.words]⟩

abbrev Declaration := Record ⊕ Contract

def declWords : Declaration → List Word := Sum.elim Record.words Contract.words

def DeclSpelled : Declaration → Prop := Sum.elim Record.Spelled Contract.Spelled

def declared (syn : SynFile) (decls : List Declaration) : SynFile :=
  { syn with
    records := syn.records ++ decls.filterMap Sum.getLeft?
    contracts := syn.contracts ++ decls.filterMap Sum.getRight? }

theorem spells_fileLoop (fuel : Nat) (syn : SynFile) :
    Spells (fileLoop path fuel syn) fun syn' used =>
      ∃ decls : List Declaration, used = decls.flatMap declWords ∧ (∀ decl ∈ decls, DeclSpelled decl) ∧ syn' = declared syn decls := by
  induction fuel generalizing syn with
  | zero => exact Spells.throw _
  | succ fuel ih =>
    have hmore (decl : Declaration) (hdecl : DeclSpelled decl) (syn' : SynFile) (hsyn : syn' = declared syn [decl]) :
        Spells (fileLoop path fuel syn') fun syn'' used => ∃ decls : List Declaration,
          declWords decl ++ used = decls.flatMap declWords ∧ (∀ d ∈ decls, DeclSpelled d) ∧ syn'' = declared syn decls := by
      apply (ih syn').mono
      rintro syn'' _ ⟨decls, rfl, hdecls, rfl⟩
      refine ⟨decl :: decls, by rw [flatMap_cons], forall_mem_cons.mpr ⟨hdecl, hdecls⟩, ?_⟩
      rw [hsyn]
      cases decl <;> simp [declared, filterMap_cons]
    rw [fileLoop]
    apply spells_look
    rintro ⟨kind, value, line, col⟩
    split
    · exact (Spells.pure ⟨[], rfl, forall_mem_nil _, by simp [declared]⟩).anywhere _
    · split
      · exact (Spells.throw _).anywhere _
      · rename_i hident
        obtain rfl : kind = .ident := by simpa using hident
        split
        · rename_i hvalue
          obtain rfl : value = "contract" := hvalue
          apply spells_contract.bind
          rintro c _ ⟨hc, rfl⟩
          exact hmore (.inr c) hc _ (by simp [declared])
        · split
          · rename_i hvalue
            obtain rfl : value = "record" := hvalue
            apply spells_record.bind
            rintro r _ ⟨hr, rfl⟩
            exact hmore (.inl r) hr _ (by simp [declared])
          · exact (Spells.throw _).anywhere _

private theorem fileLoop_ends {fuel : Nat} {syn syn' : SynFile}
    (h : fileLoop path fuel syn tokens = .ok (syn', tokens')) :
    ∃ token, (peek : Parse Token) tokens' = .ok (token, tokens') ∧ token.kind = .eof := by
  induction fuel generalizing syn tokens with
  | zero => cases h
  | succ fuel ih =>
    rw [fileLoop] at h
    obtain ⟨token, same, hpeek, hstep⟩ := run_bind.mp h
    obtain rfl : same = tokens := by
      cases hpeek
      rfl
    split at hstep
    · rename_i hend
      cases hstep
      exact ⟨token, hpeek, hend⟩
    · split at hstep
      · cases hstep
      · split at hstep
        · obtain ⟨c, later, -, hlater⟩ := run_bind.mp hstep
          exact ih hlater
        · split at hstep
          · obtain ⟨r, later, -, hlater⟩ := run_bind.mp hstep
            exact ih hlater
          · cases hstep

theorem parse_spells {stem : String} {words : List Word} {syn : SynFile}
    (htokens : tokens.map Token.word = words ++ [endWord]) (hwords : ∀ w ∈ words, IsWord w)
    (h : parse path stem tokens = .ok (syn, tokens')) :
    ∃ decls : List Declaration, words = decls.flatMap declWords ∧ (∀ decl ∈ decls, DeclSpelled decl) ∧
      syn = declared { stem := stem } decls := by
  obtain ⟨fuel, same, hfuel, hloop⟩ := run_bind.mp h
  cases hfuel
  obtain ⟨used, left, hsplit, hleft, decls, rfl, hdecls, hsyn⟩ := spells_fileLoop _ _ tokens words syn tokens' htokens hwords hloop
  obtain ⟨token, hpeek, hend⟩ := fileLoop_ends hloop
  have hnil : left = [] := by
    obtain ⟨-, hhead⟩ := peek_head hleft hpeek
    cases left with
    | nil => rfl
    | cons w left =>
      obtain rfl : w = token.word := Option.some.inj hhead
      have hword : IsWord token.word := hwords _ (hsplit ▸ mem_append_right _ mem_cons_self)
      exact absurd hend (eof_not_isWord hword)
  exact ⟨decls, by rw [hsplit, hnil, append_nil], hdecls, hsyn⟩

end Parser
end SynQt.Synqtc
