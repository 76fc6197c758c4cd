import SynQt.Tools.SynWriting

/-! The tokenizer reads back the words of any text that lays them out. -/
namespace SynQt.Synqtc
open List
variable (path : String)

def IsWord : Word → Prop
  | (.ident, value) => identifier value.toList = true
  | (.number, value) => value.toList ≠ [] ∧ value.toList.all isDigit = true
  | (.mark c, value) => c ∈ marks ∧ value = String.ofList [c]
  | (.eof, _) => False

theorem tokenizeFrom_skip (chars text : List Char) (line col : Nat) :
    ∃ line' col', tokenizeFrom path chars.length line col (chars ++ text) = tokenizeFrom path 0 line' col' text := by
  induction chars generalizing line col with
  | nil => exact ⟨line, col, rfl⟩
  | cons c chars ih =>
    rw [length_cons, cons_append, tokenizeFrom]
    exact ih _ _

theorem tokenizeFrom_blanks {blanks : List Char} (hblanks : ∀ c ∈ blanks, isBlank c = true) (text : List Char)
    (line col : Nat) :
    ∃ line' col', tokenizeFrom path 0 line col (blanks ++ text) = tokenizeFrom path 0 line' col' text := by
  induction blanks generalizing line col with
  | nil => exact ⟨line, col, rfl⟩
  | cons c blanks ih =>
    rw [cons_append, tokenizeFrom]
    simp only [hblanks c mem_cons_self, if_true]
    exact ih (fun d hd => hblanks d (mem_cons_of_mem c hd)) _ _

theorem takeWhile_word {p : Char → Bool} {word text : List Char} (hword : word.all p = true)
    (hapart : ∀ c ∈ text.head?, p c = false) : (word ++ text).takeWhile p = word := by
  induction word with
  | nil =>
    cases text with
    | nil => rfl
    | cons c text => rw [nil_append, takeWhile_cons, hapart c rfl, if_neg Bool.false_ne_true]
  | cons c word ih =>
    obtain ⟨hc, hword⟩ := Bool.and_eq_true_iff.mp (all_cons.symm.trans hword)
    rw [cons_append, takeWhile_cons, if_pos hc, ih hword]

/-- None of what the tokenizer tries first begins with a character `p` admits. -/
theorem first_of {p : Char → Bool} (hnone : (' ' :: '\t' :: '\r' :: '\n' :: '/' :: marks).all (!p ·) = true) {c : Char}
    (hc : p c = true) : isBlank c = false ∧ (c == '/') = false ∧ marks.contains c = false := by
  have hne (d : Char) (hd : d ∈ ' ' :: '\t' :: '\r' :: '\n' :: '/' :: marks) : c ≠ d := by
    rintro rfl
    have hout := all_eq_true.mp hnone c hd
    rw [hc] at hout
    cases hout
  refine ⟨?_, ?_, ?_⟩
  · rw [isBlank]
    simp only [beq_eq_false_iff_ne.mpr (hne ' ' (by simp)), beq_eq_false_iff_ne.mpr (hne '\t' (by simp)),
      beq_eq_false_iff_ne.mpr (hne '\r' (by simp)), beq_eq_false_iff_ne.mpr (hne '\n' (by simp)), Bool.or_self]
  · exact beq_eq_false_iff_ne.mpr (hne '/' (by simp))
  · rw [← Bool.not_eq_true, contains_iff_mem]
    exact fun hmem => hne c (by simp [hmem]) rfl

theorem not_isIdentStart {c : Char} (hdigit : isDigit c = true) : isIdentStart c = false := by
  rw [isDigit, Bool.and_eq_true, decide_eq_true_eq, decide_eq_true_eq] at hdigit
  have hle (d : Char) (hd : ¬ d ≤ '9') : ¬ d ≤ c := fun hdc => hd (Char.le_trans hdc hdigit.2)
  rw [isIdentStart, decide_eq_false (hle 'A' (by decide)), decide_eq_false (hle 'a' (by decide)), Bool.false_and,
    Bool.false_and, Bool.false_or, Bool.false_or, beq_eq_false_iff_ne]
  rintro rfl
  exact absurd hdigit.2 (by decide)

variable {path}

theorem tokenizeFrom_word {w : Word} (hw : IsWord w) {text : List Char} (hapart : ∀ c ∈ text.head?, continues w.1 c = false)
    (line col : Nat) :
    ∃ token line' col', token.word = w ∧
      tokenizeFrom path 0 line col (w.2.toList ++ text) =
        (do let tokens ← tokenizeFrom path 0 line' col' text
            return token :: tokens) := by
  obtain ⟨kind, value⟩ := w
  cases kind with
  | eof => exact absurd hw id
  | mark c =>
    obtain ⟨hmark, rfl⟩ := hw
    have hfirst : isBlank c = false ∧ (c == '/') = false := by
      simp only [marks, mem_cons, not_mem_nil, or_false] at hmark
      rcases hmark with rfl | rfl | rfl | rfl | rfl | rfl | rfl | rfl | rfl <;> decide
    simp only [String.toList_ofList, singleton_append]
    rw [tokenizeFrom]
    simp only [hfirst.1, hfirst.2, contains_iff_mem.mpr hmark, Bool.false_and, Bool.false_eq_true, if_false, if_true]
    exact ⟨⟨.mark c, String.ofList [c], line, col⟩, _, _, rfl, rfl⟩
  | ident =>
    cases hchars : value.toList with
    | nil =>
      rw [IsWord, hchars] at hw
      cases hw
    | cons c word =>
      rw [IsWord, hchars] at hw
      obtain ⟨hstart, hword⟩ := Bool.and_eq_true_iff.mp hw
      obtain ⟨hblank, hslash, hmark⟩ := first_of (by decide) hstart
      obtain ⟨line', col', hskip⟩ := tokenizeFrom_skip path word text _ _
      refine ⟨⟨.ident, value, line, col⟩, line', col', rfl, ?_⟩
      rw [cons_append, tokenizeFrom]
      simp only [hblank, hslash, hmark, hstart, Bool.false_and, Bool.false_eq_true, if_false, if_true]
      rw [takeWhile_word hword hapart, hskip, ← hchars, String.ofList_toList]
  | number =>
    cases hchars : value.toList with
    | nil => exact absurd hchars hw.1
    | cons c word =>
      have hdigits := hw.2
      rw [hchars] at hdigits
      obtain ⟨hdigit, hword⟩ := Bool.and_eq_true_iff.mp (all_cons.symm.trans hdigits)
      obtain ⟨hblank, hslash, hmark⟩ := first_of (by decide) hdigit
      have hstart := not_isIdentStart hdigit
      obtain ⟨line', col', hskip⟩ := tokenizeFrom_skip path word text _ _
      refine ⟨⟨.number, value, line, col⟩, line', col', rfl, ?_⟩
      rw [cons_append, tokenizeFrom]
      simp only [hblank, hslash, hmark, hstart, hdigit, Bool.false_and, Bool.false_eq_true, if_false, if_true]
      rw [takeWhile_word hword hapart, hskip, ← hchars, String.ofList_toList]

end SynQt.Synqtc
