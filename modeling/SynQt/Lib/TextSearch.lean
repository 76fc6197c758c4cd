import Mathlib.Data.List.Infix

/-! Two ways to look for a text: a pattern with wildcards, and the tokens of a full-text index. -/
namespace SynQt.Lib
open List

def like : List Char → List Char → Bool
  | [] => List.isEmpty
  | c :: pattern => fun text =>
    if c = '%' then text.tails.any (like pattern)
    else
      match text with
      | [] => false
      | d :: rest => (c = '_' || c.toLower = d.toLower) && like pattern rest

/-- A character that a pattern takes for another as well. -/
def isLoose (c : Char) : Bool := c == '%' || c == '_' || c.isAlpha

variable (pattern text : List Char)

private theorem like_percent : like ('%' :: pattern) text = true ↔ ∃ rest, rest <:+ text ∧ like pattern rest = true := by
  rw [like]
  dsimp only
  rw [if_pos rfl, any_eq_true]
  simp only [mem_tails]

variable {c : Char}

private theorem like_cons (hc : c ≠ '%') (pattern : List Char) (d : Char) (rest : List Char) :
    like (c :: pattern) (d :: rest) = true ↔ (c = '_' ∨ c.toLower = d.toLower) ∧ like pattern rest = true := by
  rw [like]
  dsimp only
  rw [if_neg hc, Bool.and_eq_true, Bool.or_eq_true, decide_eq_true_eq, decide_eq_true_eq]

private theorem like_cons_nil (hc : c ≠ '%') (pattern : List Char) : like (c :: pattern) [] = false := by
  rw [like]
  dsimp only
  rw [if_neg hc]

theorem like_concat_percent :
    like (pattern ++ ['%']) text = true ↔ ∃ front, front <+: text ∧ like pattern front = true := by
  induction pattern generalizing text with
  | nil =>
    rw [nil_append, like_percent]
    refine iff_of_true ⟨[], nil_suffix, rfl⟩ ⟨[], nil_prefix, rfl⟩
  | cons c pattern ih =>
    rw [cons_append]
    by_cases hc : c = '%'
    · subst hc
      simp only [like_percent, ih]
      constructor
      · rintro ⟨rest, ⟨skipped, rfl⟩, front, ⟨more, rfl⟩, hlike⟩
        exact ⟨skipped ++ front, ⟨more, append_assoc _ _ _⟩, front, ⟨skipped, rfl⟩, hlike⟩
      · rintro ⟨front, ⟨more, rfl⟩, rest, ⟨skipped, rfl⟩, hlike⟩
        exact ⟨rest ++ more, ⟨skipped, (append_assoc _ _ _).symm⟩, rest, ⟨more, rfl⟩, hlike⟩
    · cases text with
      | nil =>
        rw [like_cons_nil hc]
        refine iff_of_false Bool.false_ne_true ?_
        rintro ⟨front, hfront, hlike⟩
        obtain rfl := prefix_nil.mp hfront
        rw [like_cons_nil hc] at hlike
        cases hlike
      | cons d rest =>
        rw [like_cons hc, ih]
        constructor
        · rintro ⟨hd, front, hfront, hlike⟩
          exact ⟨d :: front, cons_prefix_cons.mpr ⟨rfl, hfront⟩, (like_cons hc _ _ _).mpr ⟨hd, hlike⟩⟩
        · rintro ⟨front, hfront, hlike⟩
          cases front with
          | nil =>
            rw [like_cons_nil hc] at hlike
            cases hlike
          | cons e front =>
            obtain ⟨rfl, hrest⟩ := cons_prefix_cons.mp hfront
            obtain ⟨hd, hlike⟩ := (like_cons hc _ _ _).mp hlike
            exact ⟨hd, front, hrest, hlike⟩

theorem like_between :
    like ('%' :: (pattern ++ ['%'])) text = true ↔ ∃ part, part <:+: text ∧ like pattern part = true := by
  rw [like_percent]
  simp only [like_concat_percent]
  constructor
  · rintro ⟨rest, hrest, part, hpart, hlike⟩
    exact ⟨part, hpart.isInfix.trans hrest.isInfix, hlike⟩
  · rintro ⟨part, ⟨before, after, rfl⟩, hlike⟩
    exact ⟨part ++ after, ⟨before, (append_assoc _ _ _).symm⟩, part, ⟨after, rfl⟩, hlike⟩

private theorem like_self (pattern : List Char) : like pattern pattern = true := by
  induction pattern with
  | nil => rfl
  | cons c pattern ih =>
    by_cases hc : c = '%'
    · subst hc
      exact (like_percent _ _).mpr ⟨pattern, suffix_cons _ _, ih⟩
    · exact (like_cons hc _ _ _).mpr ⟨.inr rfl, ih⟩

/-- What a loose character is taken for besides itself: a letter in the other case, and anything by a wildcard. -/
def looseOther (c : Char) : Char := if c.isUpper then c.toLower else if c.isLower then c.toUpper else '0'

private theorem of_isAlpha {P : Char → Prop} (h : ∀ n < 128, (Char.ofNat n).isAlpha = true → P (Char.ofNat n))
    (hc : c.isAlpha = true) : P c := by
  have hlt : c.toNat < 128 := by
    obtain hupper | hlower := Bool.or_eq_true_iff.mp hc
    · have hle : c.val ≤ 'Z'.val := (of_decide_eq_true hupper).2
      exact Nat.lt_of_le_of_lt (UInt32.le_iff_toNat_le.mp hle) (by decide)
    · have hle : c.val ≤ 'z'.val := of_decide_eq_true (Bool.and_eq_true_iff.mp hlower).2
      exact Nat.lt_of_le_of_lt (UInt32.le_iff_toNat_le.mp hle) (by decide)
  have hchar := h c.toNat hlt
  rw [Char.ofNat_toNat] at hchar
  exact hchar hc

private theorem looseOther_letter (hc : c.isAlpha = true) : looseOther c ≠ c ∧ (looseOther c).toLower = c.toLower :=
  of_isAlpha (P := fun c => looseOther c ≠ c ∧ (looseOther c).toLower = c.toLower) (by decide) hc

/-- No other character has the case of one that is not a letter. -/
theorem eq_of_toLower {c d : Char} (hc : c.isAlpha = false) (h : c.toLower = d.toLower) : c = d := by
  have hsame {c : Char} (hc : ¬ c.isUpper = true) : c.toLower = c := dif_neg fun h => hc (decide_eq_true h)
  rw [hsame fun hupper => Bool.false_ne_true (hc.symm.trans (Bool.or_eq_true_iff.mpr (.inl hupper)))] at h
  by_cases hd : d.isUpper = true
  · have hlower : d.toLower.isAlpha = true :=
      of_isAlpha (P := fun d => d.toLower.isAlpha = true) (by decide) (Bool.or_eq_true_iff.mpr (.inl hd))
    rw [← h, hc] at hlower
    cases hlower
  · rw [h, hsame hd]

theorem like_iff_of_strict {pattern : List Char} (hpattern : ∀ c ∈ pattern, isLoose c = false) (text : List Char) :
    like pattern text = true ↔ text = pattern := by
  induction pattern generalizing text with
  | nil => exact isEmpty_iff
  | cons c pattern ih =>
    obtain ⟨hc, hrest⟩ := forall_mem_cons.mp hpattern
    simp only [isLoose, Bool.or_eq_false_iff, beq_eq_false_iff_ne] at hc
    cases text with
    | nil => simp [like_cons_nil hc.1.1]
    | cons d text =>
      rw [like_cons hc.1.1, ih hrest, List.cons.injEq]
      refine and_congr ⟨fun h => ?_, fun h => .inr (h ▸ rfl)⟩ Iff.rfl
      exact (eq_of_toLower hc.2 (h.resolve_left hc.1.2)).symm

/-- A loose character lets in a text of the pattern's length that is not the pattern. -/
theorem like_looseOther (front rest : List Char) (hc : isLoose c = true) :
    like (front ++ c :: rest) (front ++ looseOther c :: rest) = true := by
  induction front with
  | nil =>
    rw [nil_append, nil_append]
    by_cases hpercent : c = '%'
    · rw [hpercent, like_percent]
      exact ⟨rest, suffix_cons _ _, like_self rest⟩
    · refine (like_cons hpercent _ _ _).mpr ⟨?_, like_self rest⟩
      simp only [isLoose, Bool.or_eq_true, beq_iff_eq] at hc
      exact (hc.imp_left fun h => h.resolve_left hpercent).imp_right fun hletter => (looseOther_letter hletter).2.symm
  | cons d front ih =>
    rw [cons_append, cons_append]
    by_cases hpercent : d = '%'
    · rw [hpercent, like_percent]
      exact ⟨_, suffix_cons _ _, ih⟩
    · exact (like_cons hpercent _ _ _).mpr ⟨.inr rfl, ih⟩

private theorem looseOther_ne (hc : isLoose c = true) : looseOther c ≠ c := by
  simp only [isLoose, Bool.or_eq_true, beq_iff_eq] at hc
  obtain (rfl | rfl) | hletter := hc
  · decide
  · decide
  · exact (looseOther_letter hletter).1

/-- FTS5, by its documentation: its tokenizer, and which rows a query of two columns selects by the tokens in them. -/
structure Fts5 where
  isToken : Char → Bool
  fold : Char → List Char
  parse : List Char → Option (List (List Char) → List (List Char) → Bool)
  /-- Of ASCII the letters and the digits are token characters, and case is folded. -/
  ascii : ∀ n < 128, isToken (Char.ofNat n) = (Char.ofNat n).isAlphanum
  folded : ∀ c, c.isAlphanum = true → fold c = [c.toLower]
  /-- A bareword of token characters that is no operator selects the rows that have it as a token. -/
  bareword : ∀ word, word ≠ [] → (∀ c ∈ word, c.isAlphanum = true ∨ 128 ≤ c.toNat) → (∀ c ∈ word, isToken c = true) →
    word ∉ ["AND".toList, "OR".toList, "NOT".toList] →
    ∃ selects, parse word = some selects ∧ ∀ first second,
      selects first second = true ↔ word.flatMap fold ∈ first ∨ word.flatMap fold ∈ second

namespace Fts5
variable (fts : Fts5)

def tokens (text : List Char) : List (List Char) :=
  ((text.splitOnP fun c => !fts.isToken c).filter fun run => !run.isEmpty).map fun run => run.flatMap fts.fold

variable {fts}

private theorem isToken_of_isAlphanum {c : Char} (hc : c.isAlphanum = true) : fts.isToken c = true := by
  have hletter (n : Nat) (hn : n < 128) (h : (Char.ofNat n).isAlphanum = true) : fts.isToken (Char.ofNat n) = true :=
    (fts.ascii n hn).trans h
  obtain hc | hc := Bool.or_eq_true_iff.mp hc
  · exact of_isAlpha (P := fun c => fts.isToken c = true) (fun n hn h => hletter n hn (Bool.or_eq_true_iff.mpr (.inl h))) hc
  · have hlt : c.toNat < 128 := by
      simp only [Char.isDigit, Bool.and_eq_true, decide_eq_true_eq] at hc
      exact Nat.lt_of_le_of_lt (UInt32.le_iff_toNat_le.mp hc.2) (by decide)
    have hdigit := hletter c.toNat hlt
    rw [Char.ofNat_toNat] at hdigit
    exact hdigit (Bool.or_eq_true_iff.mpr (.inr hc))

theorem tokens_nil : fts.tokens [] = [] := rfl

variable {text : List Char}

private theorem tokens_of_all (hne : text ≠ []) (htext : ∀ c ∈ text, fts.isToken c = true) :
    fts.tokens text = [text.flatMap fts.fold] := by
  have hsplit : text.splitOnP (fun c => !fts.isToken c) = [text] :=
    splitOnP_eq_singleton fun c hc => by rw [htext c hc]; rfl
  have hempty : text.isEmpty = false := isEmpty_eq_false_iff.mpr hne
  rw [tokens, hsplit, filter_cons_of_pos (by rw [hempty]; rfl), filter_nil, map_singleton]

private theorem tokens_separator (front rest : List Char) {c d : Char} (hc : fts.isToken c = false) (hd : fts.isToken d = false) :
    fts.tokens (front ++ c :: rest) = fts.tokens (front ++ d :: rest) := by
  have hsep {c : Char} (hc : fts.isToken c = false) : (!fts.isToken c) = true := by rw [hc]; rfl
  rw [tokens, tokens, splitOnP_append_cons front rest (hsep hc), splitOnP_append_cons front rest (hsep hd)]

/-- A text with the same tokens and the same length, unless the text is one word of no letters of ASCII. -/
theorem exists_same_tokens (h : ∃ c ∈ text, fts.isToken c = false ∨ c.isAlpha = true) :
    ∃ other, other ≠ text ∧ other.length = text.length ∧ fts.tokens other = fts.tokens text := by
  have hother {front rest : List Char} {c d : Char} (hne : d ≠ c) (htokens : fts.tokens (front ++ d :: rest) = fts.tokens (front ++ c :: rest)) :
      ∃ other, other ≠ front ++ c :: rest ∧ other.length = (front ++ c :: rest).length ∧
        fts.tokens other = fts.tokens (front ++ c :: rest) := by
    refine ⟨front ++ d :: rest, fun heq => hne ?_, by simp, htokens⟩
    exact (List.cons.inj (append_cancel_left heq)).1
  by_cases hall : ∀ c ∈ text, fts.isToken c = true
  · obtain ⟨c, hc, hletter⟩ := h
    have hletter : c.isAlpha = true := hletter.resolve_left fun hnot => Bool.false_ne_true (hnot.symm.trans (hall c hc))
    obtain ⟨hne, hlower⟩ := looseOther_letter hletter
    have halpha : (looseOther c).isAlpha = true := of_isAlpha (P := fun c => (looseOther c).isAlpha = true) (by decide) hletter
    have hnum {c : Char} (hc : c.isAlpha = true) : c.isAlphanum = true := Bool.or_eq_true_iff.mpr (.inl hc)
    obtain ⟨front, rest, rfl⟩ := append_of_mem hc
    refine hother hne ?_
    have hall' : ∀ d ∈ front ++ looseOther c :: rest, fts.isToken d = true := by
      intro d hd
      obtain hd | hd := mem_append.mp hd
      · exact hall d (mem_append_left _ hd)
      · obtain rfl | hd := mem_cons.mp hd
        · exact isToken_of_isAlphanum (hnum halpha)
        · exact hall d (mem_append_right _ (mem_cons_of_mem _ hd))
    rw [tokens_of_all (by simp) hall, tokens_of_all (by simp) hall', flatMap_append, flatMap_append, flatMap_cons,
      flatMap_cons, fts.folded c (hnum hletter), fts.folded _ (hnum halpha), hlower]
  · have hsome : ∃ c ∈ text, fts.isToken c = false := by
      by_contra hnone
      exact hall fun c hc => by_contra fun hnot => hnone ⟨c, hc, Bool.eq_false_iff.mpr hnot⟩
    obtain ⟨c, hc, hsep⟩ := hsome
    obtain ⟨d, hne, hd⟩ : ∃ d, d ≠ c ∧ fts.isToken d = false := by
      by_cases hspace : c = ' '
      · exact ⟨',', by rw [hspace]; decide, fts.ascii 44 (by decide)⟩
      · exact ⟨' ', fun heq => hspace heq.symm, fts.ascii 32 (by decide)⟩
    obtain ⟨front, rest, rfl⟩ := append_of_mem hc
    exact hother hne (tokens_separator front rest hd hsep)

/-- No query selects just the rows that contain it: there is one told apart by its characters and not by its
tokens, or one that has the query as a part of a longer word. -/
theorem exists_mistaken (hne : text ≠ []) {selects : List (List Char) → List (List Char) → Bool}
    (hparse : fts.parse text = some selects) :
    ∃ message, ¬ (selects (fts.tokens message) [] = true ↔ text <:+: message) := by
  by_cases h : ∃ c ∈ text, fts.isToken c = false ∨ c.isAlpha = true
  · obtain ⟨other, hother, hlength, htokens⟩ := exists_same_tokens h
    by_cases hselects : selects (fts.tokens text) [] = true
    · refine ⟨other, fun hiff => hother ?_⟩
      rw [htokens] at hiff
      exact ((hiff.mp hselects).eq_of_length hlength.symm).symm
    · exact ⟨text, fun hiff => hselects (hiff.mpr infix_rfl)⟩
  · have hplain : ∀ c ∈ text, fts.isToken c = true ∧ c.isAlpha = false := by
      intro c hc
      refine ⟨by_contra fun hnot => h ⟨c, hc, .inl (Bool.eq_false_iff.mpr hnot)⟩, ?_⟩
      exact Bool.eq_false_iff.mpr fun hletter => h ⟨c, hc, .inr hletter⟩
    have hbare : ∀ c ∈ text, c.isAlphanum = true ∨ 128 ≤ c.toNat := by
      intro c hc
      by_cases hlt : c.toNat < 128
      · have hascii := fts.ascii c.toNat hlt
        rw [Char.ofNat_toNat] at hascii
        exact .inl (hascii ▸ (hplain c hc).1)
      · exact .inr (Nat.le_of_not_lt hlt)
    have hoperator : text ∉ ["AND".toList, "OR".toList, "NOT".toList] := by
      intro hin
      have hletter : ∀ word ∈ ["AND".toList, "OR".toList, "NOT".toList], ∃ c ∈ word, c.isAlpha = true := by
        simp only [forall_mem_cons]
        exact ⟨⟨'A', by decide, rfl⟩, ⟨'O', by decide, rfl⟩, ⟨'N', by decide, rfl⟩, forall_mem_nil _⟩
      obtain ⟨c, hc, halpha⟩ := hletter text hin
      exact Bool.false_ne_true ((hplain c hc).2.symm.trans halpha)
    obtain ⟨selects', hparse', hselects⟩ := fts.bareword text hne hbare (fun c hc => (hplain c hc).1) hoperator
    obtain rfl := Option.some.inj (hparse.symm.trans hparse')
    refine ⟨text ++ ['0'], fun hiff => ?_⟩
    have hword : ∀ c ∈ text ++ ['0'], fts.isToken c = true := by
      intro c hc
      obtain hc | hc := mem_append.mp hc
      · exact (hplain c hc).1
      · rw [mem_singleton.mp hc]
        exact isToken_of_isAlphanum rfl
    have hin := (hselects _ _).mp (hiff.mpr ⟨[], ['0'], rfl⟩)
    rw [tokens_of_all (by simp) hword, flatMap_append, flatMap_singleton, fts.folded '0' rfl] at hin
    have hlength := congrArg List.length (mem_singleton.mp (hin.resolve_right not_mem_nil))
    rw [length_append] at hlength
    exact absurd hlength (by simp)

end Fts5

/-- The same for a pattern, with a character in it that it takes for another as well. -/
theorem exists_loose {pattern : List Char} (h : ∃ c ∈ pattern, isLoose c = true) :
    ∃ text, like ('%' :: (pattern ++ ['%'])) text = true ∧ ¬ pattern <:+: text := by
  obtain ⟨c, hc, hloose⟩ := h
  obtain ⟨front, rest, rfl⟩ := append_of_mem hc
  refine ⟨front ++ looseOther c :: rest, (like_between _ _).mpr ⟨_, infix_rfl, like_looseOther front rest hloose⟩, fun hin => ?_⟩
  have heq := hin.eq_of_length (by simp)
  exact looseOther_ne hloose (List.cons.inj (append_cancel_left heq)).1.symm

end SynQt.Lib
