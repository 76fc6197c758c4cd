import Mathlib.Data.List.Basic

/-! A list written piece by piece: where cutting it at its separators cuts the pieces, and what a
run of one kind in it is made of. -/
namespace SynQt
open List

variable {α β : Type} {p : β → Bool} {q : α → Bool} {f : α → List β}

theorem splitOnP_append_of_inside {front l : List β} (h : ∀ b ∈ front, p b = false) :
    (front ++ l).splitOnP p = (l.splitOnP p).modifyHead (front ++ ·) := by
  induction front with
  | nil => cases hl : l.splitOnP p <;> simp [hl]
  | cons b front ih =>
    have hb : p b = false := h b (mem_cons_self ..)
    have hfront : ∀ c ∈ front, p c = false := fun c hc => h c (mem_cons_of_mem _ hc)
    rw [cons_append, splitOnP_cons_eq_if_modifyHead, hb, ih hfront]
    cases l.splitOnP p <;> rfl

theorem splitOnP_append (p : β → Bool) (front l : List β) :
    ∃ lines last first rest, front.splitOnP p = lines ++ [last] ∧ l.splitOnP p = first :: rest ∧
      (front ++ l).splitOnP p = lines ++ (last ++ first) :: rest := by
  induction front with
  | nil =>
    obtain ⟨first, rest, hsplit⟩ := exists_cons_of_ne_nil (splitOnP_ne_nil p l)
    exact ⟨[], [], first, rest, by simp, hsplit, by simpa using hsplit⟩
  | cons b front ih =>
    obtain ⟨lines, last, first, rest, hfront, hl, hboth⟩ := ih
    rw [cons_append, splitOnP_cons_eq_if_modifyHead, splitOnP_cons_eq_if_modifyHead, hfront, hboth]
    cases p b with
    | true => exact ⟨[] :: lines, last, first, rest, by simp, hl, by simp⟩
    | false => cases lines with
      | nil => exact ⟨[], b :: last, first, rest, by simp, hl, by simp⟩
      | cons line lines => exact ⟨(b :: line) :: lines, last, first, rest, by simp, hl, by simp⟩

private theorem splitOnP_append_left {l l' : List β} {lines : List (List β)}
    (h : l.splitOnP p = l'.splitOnP p ++ lines) (front : List β) :
    (front ++ l).splitOnP p = (front ++ l').splitOnP p ++ lines := by
  induction front with
  | nil => exact h
  | cons b front ih =>
    obtain ⟨line, rest, hsplit⟩ := exists_cons_of_ne_nil (splitOnP_ne_nil p (front ++ l'))
    rw [cons_append, cons_append, splitOnP_cons_eq_if_modifyHead, splitOnP_cons_eq_if_modifyHead,
      ih, hsplit]
    cases p b <;> rfl

/-- Pieces cut at those that are separators, and each run of the others written and cut. -/
theorem splitOnP_flatMap (hsep : ∀ a, q a = true → ∃ b, f a = [b] ∧ p b = true) (l : List α) :
    (l.flatMap f).splitOnP p = (l.splitOnP q).flatMap fun run => (run.flatMap f).splitOnP p := by
  induction l with
  | nil => simp
  | cons a l ih =>
    rw [flatMap_cons, splitOnP_cons_eq_if_modifyHead]
    cases ha : q a with
    | true =>
      obtain ⟨b, hwritten, hb⟩ := hsep a ha
      rw [hwritten, singleton_append, splitOnP_cons_eq_if_modifyHead, hb, ih]
      simp
    | false =>
      obtain ⟨run, runs, hsplit⟩ := exists_cons_of_ne_nil (splitOnP_ne_nil q l)
      rw [hsplit, flatMap_cons] at ih
      rw [hsplit, splitOnP_append_left ih]
      simp

/-- The first line of a text is what comes before its first separator. -/
theorem splitOnP_eq_takeWhile_cons (p : β → Bool) (l : List β) :
    l.splitOnP p = l.takeWhile (!p ·) :: (l.splitOnP p).tail := by
  induction l with
  | nil => rfl
  | cons b l ih =>
    rw [splitOnP_cons_eq_if_modifyHead]
    cases hb : p b with
    | true => simp [hb]
    | false =>
      rw [ih]
      simp [hb]

theorem mem_splitOnP {l run : List β} (h : run ∈ l.splitOnP p) : ∀ b ∈ run, p b = false ∧ b ∈ l := by
  induction l generalizing run with
  | nil =>
    obtain rfl : run = [] := by simpa using h
    simp
  | cons c l ih =>
    obtain ⟨first, rest, hsplit⟩ := exists_cons_of_ne_nil (splitOnP_ne_nil p l)
    have keep (hrun : run ∈ l.splitOnP p) : ∀ b ∈ run, p b = false ∧ b ∈ c :: l := fun b hb =>
      ⟨(ih hrun b hb).1, mem_cons_of_mem _ (ih hrun b hb).2⟩
    rw [splitOnP_cons_eq_if_modifyHead] at h
    cases hc : p c with
    | true =>
      rw [hc] at h
      rcases mem_cons.mp h with rfl | h
      · simp
      · exact keep h
    | false =>
      rw [hc, hsplit] at h
      rcases mem_cons.mp h with rfl | h
      · intro b hb
        rcases mem_cons.mp hb with rfl | hb
        · exact ⟨hc, mem_cons_self ..⟩
        · have hfirst := ih (by rw [hsplit]; exact mem_cons_self ..) b hb
          exact ⟨hfirst.1, mem_cons_of_mem _ hfirst.2⟩
      · exact keep (by rw [hsplit]; exact mem_cons_of_mem _ h)

/-- Where every piece is of its own kind throughout, a run of the written text is a run of pieces. -/
theorem takeWhile_flatMap (hkind : ∀ a, f a ≠ [] ∧ ∀ b ∈ f a, p b = q a) (l : List α) :
    (l.flatMap f).takeWhile p = (l.takeWhile q).flatMap f := by
  induction l with
  | nil => rfl
  | cons a l ih =>
    rw [flatMap_cons]
    cases ha : q a with
    | true =>
      have hall : ∀ b ∈ f a, p b = true := fun b hb => ((hkind a).2 b hb).trans ha
      rw [takeWhile_append_of_pos hall, takeWhile_cons_of_pos ha, flatMap_cons, ih]
    | false =>
      obtain ⟨b, written, hwritten⟩ := exists_cons_of_ne_nil (hkind a).1
      have hb : p b = false := ((hkind a).2 b (by simp [hwritten])).trans ha
      rw [hwritten, cons_append, takeWhile_cons_of_neg (by simp [hb]),
        takeWhile_cons_of_neg (by simp [ha])]
      rfl

/-- A longer run that holds nothing but the shorter's kind is the shorter. -/
theorem takeWhile_eq_takeWhile {p q : β → Bool} {l : List β} (hle : ∀ b, p b = true → q b = true)
    (h : ∀ b ∈ l.takeWhile q, p b = true) : l.takeWhile q = l.takeWhile p := by
  induction l with
  | nil => rfl
  | cons b l ih =>
    cases hq : q b with
    | true =>
      rw [takeWhile_cons_of_pos hq] at h ⊢
      have hb : p b = true := h b (mem_cons_self ..)
      rw [takeWhile_cons_of_pos hb, ih fun c hc => h c (mem_cons_of_mem _ hc)]
    | false =>
      have hp : p b = false := by
        cases hp : p b with
        | true => exact absurd (hle b hp) (by simp [hq])
        | false => rfl
      rw [takeWhile_cons_of_neg (by simp [hq]), takeWhile_cons_of_neg (by simp [hp])]

variable {parts : List (List α)}

theorem intercalate_concat_nil (a : α) (h : parts ≠ []) :
    [a].intercalate (parts ++ [[]]) = [a].intercalate parts ++ [a] := by
  induction parts with
  | nil => exact absurd rfl h
  | cons part parts ih =>
    rw [cons_append, intercalate_cons_of_ne_nil (append_ne_nil_of_right_ne_nil _ (cons_ne_nil _ _))]
    cases parts with
    | nil => simp
    | cons next parts =>
      rw [ih (cons_ne_nil _ _), intercalate_cons_of_ne_nil (cons_ne_nil _ _), append_assoc, append_assoc,
        append_assoc]

theorem mem_of_mem_intercalate {c d : α} (h : d ∈ [c].intercalate parts) :
    d = c ∨ ∃ part ∈ parts, d ∈ part := by
  induction parts with
  | nil => cases h
  | cons part parts ih =>
    cases parts with
    | nil =>
      rw [intercalate_singleton] at h
      exact .inr ⟨part, mem_cons_self, h⟩
    | cons next parts =>
      rw [intercalate_cons_of_ne_nil (cons_ne_nil _ _), append_assoc, mem_append, mem_append,
        mem_singleton] at h
      obtain hpart | hseparator | hrest := h
      · exact .inr ⟨part, mem_cons_self, hpart⟩
      · exact .inl hseparator
      · exact (ih hrest).imp_right fun ⟨other, hin, hd⟩ => ⟨other, mem_cons_of_mem _ hin, hd⟩

theorem infix_intercalate (a : α) {part : List α} (h : part ∈ parts) : part <:+: [a].intercalate parts := by
  induction parts with
  | nil => cases h
  | cons first rest ih =>
    by_cases hrest : rest = []
    · subst hrest
      have hsame : [a].intercalate [first] = part := by rw [mem_singleton.mp h, intercalate_singleton]
      exact hsame ▸ infix_rfl
    · rw [intercalate_cons_of_ne_nil hrest]
      obtain rfl | h := mem_cons.mp h
      · exact ((prefix_append part [a]).trans (prefix_append _ _)).isInfix
      · exact (ih h).trans (suffix_append _ _).isInfix

end SynQt
