import Mathlib.Data.List.DropRight

/-! The first word of a list whose blanks a predicate names, and what trimming does to it. -/
namespace SynQt
open List

variable {α : Type} (blank : α → Bool)

def firstWord (l : List α) : List α := (l.dropWhile blank).takeWhile (!blank ·)

def trim (l : List α) : List α := (l.dropWhile blank).rdropWhile blank

variable {blank} {l : List α}

theorem eq_false_of_all (h : l.all (!blank ·) = true) : ∀ a ∈ l, blank a = false := by simpa using h

section
variable {l blanks : List α} (h : ∀ a ∈ blanks, blank a = true)
include h

private theorem takeWhile_append_blanks :
    (l ++ blanks).takeWhile (!blank ·) = l.takeWhile (!blank ·) := by
  induction l with
  | nil =>
    cases blanks with
    | nil => rfl
    | cons a blanks => simp [h a (mem_cons_self ..)]
  | cons a l ih => rw [cons_append, takeWhile_cons, takeWhile_cons, ih]

private theorem firstWord_append_blanks :
    firstWord blank (l ++ blanks) = firstWord blank l := by
  induction l with
  | nil =>
    have none_left : blanks.dropWhile blank = [] := dropWhile_eq_nil_iff.mpr h
    simp [firstWord, none_left]
  | cons a l ih =>
    cases ha : blank a with
    | true => simpa [firstWord, ha] using ih
    | false => simpa [firstWord, ha] using takeWhile_append_blanks h

end

theorem exists_rdropWhile_append (blank : α → Bool) (l : List α) :
    ∃ blanks, (∀ a ∈ blanks, blank a = true) ∧ l = l.rdropWhile blank ++ blanks :=
  ⟨l.rtakeWhile blank, fun _ h => mem_rtakeWhile_imp h, (rdropWhile_append_rtakeWhile ..).symm⟩

theorem firstWord_rdropWhile (l : List α) : firstWord blank (l.rdropWhile blank) = firstWord blank l := by
  obtain ⟨blanks, hblanks, hl⟩ := exists_rdropWhile_append blank l
  calc firstWord blank (l.rdropWhile blank)
      = firstWord blank (l.rdropWhile blank ++ blanks) := (firstWord_append_blanks hblanks).symm
    _ = firstWord blank l := by rw [← hl]

theorem takeWhile_trim (l : List α) : (trim blank l).takeWhile (!blank ·) = firstWord blank l := by
  obtain ⟨blanks, hblanks, hl⟩ := exists_rdropWhile_append blank (l.dropWhile blank)
  calc (trim blank l).takeWhile (!blank ·)
      = (trim blank l ++ blanks).takeWhile (!blank ·) := (takeWhile_append_blanks hblanks).symm
    _ = firstWord blank l := by rw [trim, ← hl, firstWord]

theorem head?_trim (blank : α → Bool) (l : List α) : (trim blank l).head? = (firstWord blank l).head? := by
  rw [← takeWhile_trim]
  cases ht : trim blank l with
  | nil => rfl
  | cons a rest =>
    have starts : (l.dropWhile blank).head? = some a := by
      obtain ⟨blanks, _, hl⟩ := exists_rdropWhile_append blank (l.dropWhile blank)
      rw [hl, ← trim, ht]
      rfl
    have ha : blank a = false := by simpa [starts] using List.head?_dropWhile_not blank l
    simp [ha]

/-- What keeps its end is not trimmed there. -/
theorem rdropWhile_append_of_last {l keep : List α} {a : α} (ha : blank a = false) :
    (keep ++ a :: l).rdropWhile blank = keep ++ a :: l.rdropWhile blank := by
  induction l using List.reverseRecOn with
  | nil => simpa using rdropWhile_concat_neg blank (keep) a (by simp [ha])
  | append_singleton l b ih =>
    have assoc : keep ++ a :: (l ++ [b]) = (keep ++ a :: l) ++ [b] := by simp
    cases hb : blank b with
    | true => rw [assoc, rdropWhile_concat_pos _ _ _ hb, rdropWhile_concat_pos _ _ _ hb, ih]
    | false =>
      rw [assoc, rdropWhile_concat_neg _ _ _ (by simp [hb]), rdropWhile_concat_neg _ _ _ (by simp [hb]),
        ← assoc]

theorem trim_append_blanks {blanks l : List α} (h : ∀ a ∈ blanks, blank a = true) :
    trim blank (blanks ++ l) = trim blank l := by
  rw [trim, dropWhile_append_of_pos h, trim]

/-- A word that begins a list stays when the list is trimmed. -/
theorem trim_word_append {word : List α} (hne : word ≠ []) (hword : ∀ a ∈ word, blank a = false) (l : List α) :
    trim blank (word ++ l) = word ++ l.rdropWhile blank := by
  obtain ⟨first, rest, hfirst⟩ := exists_cons_of_ne_nil hne
  obtain ⟨init, last, hlast⟩ := (eq_nil_or_concat word).resolve_left hne
  have starts : (word ++ l).dropWhile blank = word ++ l := by
    rw [hfirst, cons_append, dropWhile_cons_of_neg (by simp [hword first (by simp [hfirst])])]
  have ends : blank last = false := hword last (by simp [hlast])
  rw [trim, starts, hlast, concat_eq_append, append_assoc, singleton_append,
    rdropWhile_append_of_last ends, append_assoc, singleton_append]

/-- A word between blanks is the first if only blanks come before it. -/
theorem firstWord_append {spaces word : List α} (hspaces : ∀ a ∈ spaces, blank a = true) (hne : word ≠ [])
    (hword : ∀ a ∈ word, blank a = false) (l : List α) :
    firstWord blank (spaces ++ word ++ l) = word ++ l.takeWhile (!blank ·) := by
  obtain ⟨first, rest, hfirst⟩ := exists_cons_of_ne_nil hne
  have starts : (word ++ l).dropWhile blank = word ++ l := by
    rw [hfirst, cons_append, dropWhile_cons_of_neg (by simp [hword first (by simp [hfirst])])]
  have inside : ∀ a ∈ word, (!blank a) = true := fun a ha => by rw [hword a ha]; rfl
  rw [firstWord, append_assoc, dropWhile_append_of_pos hspaces, starts, takeWhile_append_of_pos inside]

/-- Trimmed, a word that is followed by another begins the list, and the other is the first after it. -/
theorem trim_spelled {blanks key spaces word l : List α} (hblanks : ∀ a ∈ blanks, blank a = true) (hkey : key ≠ [])
    (hkeyword : ∀ a ∈ key, blank a = false) (hne : spaces ≠ []) (hspaces : ∀ a ∈ spaces, blank a = true)
    (hwordNe : word ≠ []) (hword : ∀ a ∈ word, blank a = false) (hl : ∀ a ∈ l.head?, blank a = true) :
    ∃ rest, trim blank (blanks ++ (key ++ spaces ++ word) ++ l) = key ++ rest ∧ (∀ a ∈ rest.head?, blank a = true) ∧
      firstWord blank rest = word := by
  refine ⟨(spaces ++ word ++ l).rdropWhile blank, ?_, ?_, ?_⟩
  · rw [append_assoc, trim_append_blanks hblanks, append_assoc, append_assoc,
      trim_word_append hkey hkeyword, ← append_assoc]
  · obtain ⟨first, rest, rfl⟩ := exists_cons_of_ne_nil hne
    obtain ⟨ends, -, hends⟩ := exists_rdropWhile_append blank (first :: rest ++ word ++ l)
    intro a ha
    cases hkept : (first :: rest ++ word ++ l).rdropWhile blank with
    | nil =>
      rw [hkept] at ha
      cases ha
    | cons b kept =>
      rw [hkept] at ha hends
      obtain rfl : b = a := by simpa using ha
      obtain rfl : first = b := by simpa using congrArg List.head? hends
      exact hspaces first (mem_cons_self ..)
  · have hstop : l.takeWhile (!blank ·) = [] := by
      cases l with
      | nil => rfl
      | cons a l => exact takeWhile_cons_of_neg (by simp [hl a rfl])
    rw [firstWord_rdropWhile, firstWord_append hspaces hwordNe hword, hstop, append_nil]

private theorem firstWord_eq_nil (h : firstWord blank l = []) : ∀ a ∈ l, blank a = true := by
  cases hdrop : l.dropWhile blank with
  | nil => exact dropWhile_eq_nil_iff.mp hdrop
  | cons a rest =>
    have ha : blank a = false := by simpa [hdrop] using List.head?_dropWhile_not blank l
    rw [firstWord, hdrop, takeWhile_cons_of_pos (by simp [ha])] at h
    cases h

theorem firstWord_ne_nil_of_trim {l front rest : List α} (h : trim blank l = front ++ rest) (hne : rest ≠ []) :
    firstWord blank rest ≠ [] := by
  intro hnil
  obtain ⟨init, last, hlast⟩ := (eq_nil_or_concat rest).resolve_left hne
  have ends : blank last = true := firstWord_eq_nil hnil last (by simp [hlast])
  have htrim : trim blank l ≠ [] := by simp [h, hne]
  have hkept : ¬ blank ((trim blank l).getLast htrim) = true := rdropWhile_last_not blank (l.dropWhile blank) htrim
  have hsame : (trim blank l).getLast htrim = last := by simp [h, hlast]
  rw [hsame] at hkept
  exact hkept ends

/-- A list is the blanks it begins with, its first word, and what a blank or its end sets off from it. -/
theorem eq_firstWord_append (blank : α → Bool) (l : List α) :
    ∃ rest, l = l.takeWhile blank ++ firstWord blank l ++ rest ∧ ∀ a ∈ rest.head?, blank a = true := by
  refine ⟨(l.dropWhile blank).dropWhile (!blank ·), ?_, ?_⟩
  · rw [firstWord, append_assoc, takeWhile_append_dropWhile, takeWhile_append_dropWhile]
  · intro a ha
    simpa [Option.mem_def.mp ha] using List.head?_dropWhile_not (!blank ·) (l.dropWhile blank)

theorem mem_firstWord {a : α} (h : a ∈ firstWord blank l) : a ∈ l ∧ blank a = false :=
  ⟨(dropWhile_sublist _).subset ((takeWhile_sublist _).subset h), by simpa using mem_takeWhile_imp h⟩

theorem mem_of_mem_trim {a : α} (h : a ∈ trim blank l) : a ∈ l :=
  (dropWhile_sublist _).subset (( rdropWhile_prefix _ _).subset h)

end SynQt
