import SynQt.Monitor.JsonlExporter

/-! The log and its archives as files that hold lines: what one rotation does to them, whichever of its calls work. -/
namespace SynQt
open Lib Option List

namespace JsonlExporter
variable {disk : Nat → Option QByteArray} {keep : Nat} {maxBytes : Int}
  {lines : List QByteArray} {groups : Nat → List QByteArray}

private theorem unlines_concat (lines : List QByteArray) (text : QByteArray) : unlines (lines ++ [text]) = unlines lines ++ (text ++ [lineFeed]) := by
  rw [unlines, flatMap_append, flatMap_singleton, unlines]

private theorem unlines_eq_nil (h : unlines lines = []) : lines = [] := by
  cases lines with
  | nil => rfl
  | cons text rest =>
    rw [unlines, flatMap_cons, append_eq_nil_iff, append_eq_nil_iff] at h
    exact absurd h.1.2 (cons_ne_nil _ _)

private theorem oldestFirst_congr {other : Nat → List QByteArray} {n : Nat} (h : ∀ m ≤ n, groups m = other m) :
    oldestFirst groups n = oldestFirst other n := by
  induction n with
  | zero => exact h 0 (Nat.le_refl 0)
  | succ n ih => rw [oldestFirst, oldestFirst, h (n + 1) (Nat.le_refl _), ih fun m hm => h m (Nat.le_succ_of_le hm)]

def moved (groups : Nat → List QByteArray) (i : Nat) : Nat → List QByteArray :=
  fun n => if n = i then [] else if n = i + 1 then groups i else groups n

private theorem oldestFirst_moved {i n : Nat} (hi : i < n) (hempty : groups (i + 1) = []) :
    oldestFirst (moved groups i) n = oldestFirst groups n := by
  induction n with
  | zero => exact absurd hi (Nat.not_lt_zero i)
  | succ n ih =>
    rw [oldestFirst, oldestFirst]
    by_cases hlast : i = n
    · subst hlast
      have hup : moved groups i (i + 1) = groups i := by
        rw [moved, if_neg (Nat.succ_ne_self i), if_pos rfl]
      rw [hup, hempty, nil_append]
      cases i with
      | zero => rw [oldestFirst, oldestFirst, moved, if_pos rfl, append_nil]
      | succ i =>
        have hcleared : moved groups (i + 1) (i + 1) = [] := if_pos rfl
        rw [oldestFirst, oldestFirst, hcleared, nil_append]
        refine congrArg (groups (i + 1) ++ ·) (oldestFirst_congr fun m hm => ?_)
        rw [moved, if_neg (by omega), if_neg (by omega)]
    · have habove : moved groups i (n + 1) = groups (n + 1) := by
        rw [moved, if_neg (by omega), if_neg (by omega)]
      rw [habove, ih (by omega)]

/-- The log and its archives hold these lines, whole and the oldest first, each file within the size or a single line. -/
def Holds (maxBytes : Int) (keep : Nat) (disk : Nat → Option QByteArray) (lines : List QByteArray) : Prop :=
  ∃ groups, oldestFirst groups keep = lines ∧ ∀ n ≤ keep, (disk n).getD [] = unlines (groups n) ∧
    (0 < maxBytes → ((unlines (groups n)).length : Int) ≤ maxBytes ∨ (groups n).length = 1)

private theorem sized_nil : 0 < maxBytes → ((unlines []).length : Int) ≤ maxBytes ∨ ([] : List QByteArray).length = 1 :=
  fun h => .inl (Int.le_of_lt h)

section
variable (h : Holds maxBytes keep disk lines)
include h

theorem Holds.congr {other : Nat → Option QByteArray}
    (hsame : ∀ n ≤ keep, (other n).getD [] = (disk n).getD []) : Holds maxBytes keep other lines := by
  obtain ⟨groups, horder, hfiles⟩ := h
  exact ⟨groups, horder, fun n hn => ⟨(hsame n hn).trans (hfiles n hn).1, (hfiles n hn).2⟩⟩

theorem Holds.renamed {i : Nat} (hi : i < keep) (works : Bool) :
    Holds maxBytes keep (renameFile disk i (i + 1) works) lines := by
  rw [renameFile]
  split
  swap
  · exact h
  next hmoves =>
  rw [Bool.and_eq_true, Bool.and_eq_true, isNone_iff_eq_none] at hmoves
  obtain ⟨groups, horder, hfiles⟩ := h
  have hempty : groups (i + 1) = [] := by
    have hfile := (hfiles (i + 1) hi).1
    rw [hmoves.2] at hfile
    exact unlines_eq_nil hfile.symm
  refine ⟨moved groups i, (oldestFirst_moved hi hempty).trans horder, fun n hn => ?_⟩
  rw [putFile, putFile, moved]
  by_cases hfrom : n = i
  · rw [if_pos hfrom, if_pos hfrom]
    exact ⟨rfl, sized_nil⟩
  · rw [if_neg hfrom, if_neg hfrom]
    by_cases hto : n = i + 1
    · rw [if_pos hto, if_pos hto]
      exact hfiles i (Nat.le_of_lt hi)
    · rw [if_neg hto, if_neg hto]
      exact hfiles n hn

theorem Holds.removed (works : Bool) :
    ∃ lost rest, lost ++ rest = lines ∧ unlines lost = (if works then (disk keep).getD [] else []) ∧
      Holds maxBytes keep (removeFile disk keep works) rest := by
  rw [removeFile]
  by_cases hworks : works = true
  swap
  · rw [if_neg hworks, if_neg hworks]
    exact ⟨[], lines, rfl, rfl, h⟩
  rw [if_pos hworks, if_pos hworks]
  obtain ⟨groups, horder, hfiles⟩ := h
  let emptied : Nat → List QByteArray := fun n => if n = keep then [] else groups n
  have horder' : groups keep ++ oldestFirst emptied keep = lines := by
    rw [← horder]
    cases keep with
    | zero => exact append_nil _
    | succ n =>
      have htop : emptied (n + 1) = [] := if_pos rfl
      rw [oldestFirst, oldestFirst, htop, nil_append]
      exact congrArg (groups (n + 1) ++ ·) (oldestFirst_congr fun m hm => if_neg (by omega))
  refine ⟨groups keep, oldestFirst emptied keep, horder', (hfiles keep (Nat.le_refl _)).1.symm, emptied, rfl, fun n hn => ?_⟩
  rw [putFile]
  by_cases hlast : n = keep
  · have hgroup : emptied n = [] := if_pos hlast
    rw [if_pos hlast, hgroup]
    exact ⟨rfl, sized_nil⟩
  · have hgroup : emptied n = groups n := if_neg hlast
    rw [if_neg hlast, hgroup]
    exact hfiles n hn

theorem Holds.shifted {index : Nat} (hindex : index < keep) (outcome : RotationOutcome) :
    Holds maxBytes keep (shiftArchives keep outcome index disk) lines := by
  induction index generalizing disk with
  | zero => exact h
  | succ index ih =>
    rw [shiftArchives]
    refine ih ?_ (by omega)
    split
    · exact h
    · rw [if_neg (Nat.ne_of_lt hindex)]
      exact h.renamed hindex _

/-- A line at the end of the log, which has room for it or is empty. -/
theorem Holds.append {text : QByteArray}
    (hroom : 0 < maxBytes → (disk 0).getD [] = [] ∨ (((disk 0).getD []).length + text.length + 1 : Int) ≤ maxBytes) :
    Holds maxBytes keep (putFile disk 0 (some ((disk 0).getD [] ++ (text ++ [lineFeed])))) (lines ++ [text]) := by
  obtain ⟨groups, horder, hfiles⟩ := h
  let longer : Nat → List QByteArray := fun n => if n = 0 then groups 0 ++ [text] else groups n
  have horder' (n : Nat) : oldestFirst longer n = oldestFirst groups n ++ [text] := by
    induction n with
    | zero =>
      have hgroup : longer 0 = groups 0 ++ [text] := if_pos rfl
      rw [oldestFirst, oldestFirst, hgroup]
    | succ n ih =>
      have hgroup : longer (n + 1) = groups (n + 1) := if_neg (Nat.succ_ne_zero n)
      rw [oldestFirst, oldestFirst, hgroup, ih, append_assoc]
  have hlog := (hfiles 0 (Nat.zero_le _)).1
  refine ⟨longer, (horder' keep).trans (congrArg (· ++ [text]) horder), fun n hn => ?_⟩
  rw [putFile]
  by_cases hzero : n = 0
  · have hgroup : longer n = groups 0 ++ [text] := if_pos hzero
    rw [if_pos hzero, hgroup, unlines_concat, ← hlog]
    refine ⟨rfl, fun hmax => (hroom hmax).symm.imp (fun hfits => ?_) fun hempty => ?_⟩
    · rw [length_append, length_append, length_singleton]
      push_cast
      omega
    · rw [unlines_eq_nil (hlog.symm.trans hempty)]
      rfl
  · have hgroup : longer n = groups n := if_neg hzero
    rw [if_neg hzero, hgroup]
    exact hfiles n hn

end

/-- Every call works that the archives in a row from the first need to move up by one, or to be rid of the last. -/
def Works (keep : Nat) (disk : Nat → Option QByteArray) (outcome : RotationOutcome) : Prop :=
  (∀ k < keep, (∀ j < k, (disk (j + 1)).isSome = true) → outcome.rename k = true) ∧
    ((∀ j < keep, (disk (j + 1)).isSome = true) → outcome.remove = true)

instance (keep : Nat) (disk : Nat → Option QByteArray) (outcome : RotationOutcome) : Decidable (Works keep disk outcome) :=
  inferInstanceAs (Decidable ((∀ k < keep, (∀ j < k, (disk (j + 1)).isSome = true) → outcome.rename k = true) ∧
    ((∀ j < keep, (disk (j + 1)).isSome = true) → outcome.remove = true)))

private theorem shiftArchives_zero (outcome : RotationOutcome) (index : Nat) (disk : Nat → Option QByteArray) :
    shiftArchives keep outcome index disk 0 = disk 0 := by
  induction index generalizing disk with
  | zero => rfl
  | succ index ih =>
    rw [shiftArchives, ih]
    split
    · rfl
    · split
      · rw [removeFile]
        split
        · rfl
        · rfl
      · rw [renameFile]
        split
        · rfl
        · rfl

private theorem shiftArchives_above (outcome : RotationOutcome) {index n : Nat} (hindex : index ≤ keep) (hn : keep < n)
    (disk : Nat → Option QByteArray) : shiftArchives keep outcome index disk n = disk n := by
  induction index generalizing disk with
  | zero => rfl
  | succ index ih =>
    rw [shiftArchives, ih (by omega)]
    split
    · rfl
    · split
      · rw [removeFile]
        split
        · rw [putFile, if_neg (by omega)]
        · rfl
      · rw [renameFile]
        split
        · rw [putFile, putFile, if_neg (by omega), if_neg (by omega)]
        · rfl

/-- With a free place among the archives, or next to them, the first place comes free. -/
theorem shiftArchives_one {outcome : RotationOutcome} {index : Nat} (hindex : index < keep)
    (hrename : ∀ k ≤ index, (∀ j < k, (disk (j + 1)).isSome = true) → outcome.rename k = true)
    (hfree : disk (index + 1) = none ∨ ∃ j < index, disk (j + 1) = none) : shiftArchives keep outcome index disk 1 = none := by
  induction index generalizing disk with
  | zero =>
    obtain hfree | ⟨j, hj, -⟩ := hfree
    · exact hfree
    · exact absurd hj (Nat.not_lt_zero j)
  | succ index ih =>
    rw [shiftArchives]
    by_cases hnone : disk (index + 1) = none
    · rw [if_pos (isNone_iff_eq_none.mpr hnone)]
      exact ih (by omega) (fun k hk => hrename k (Nat.le_succ_of_le hk)) (.inl hnone)
    have hthere : (disk (index + 1)).isSome = true := isSome_iff_ne_none.mpr hnone
    rw [if_neg (by rw [isNone_iff_eq_none]; exact hnone), if_neg (Nat.ne_of_lt hindex)]
    have hbelow (j : Nat) (hj : j < index) (works : Bool) : renameFile disk (index + 1) (index + 2) works (j + 1) = disk (j + 1) := by
      rw [renameFile]
      split
      · rw [putFile, putFile, if_neg (by omega), if_neg (by omega)]
      · rfl
    refine ih (by omega) (fun k hk hrow => hrename k (Nat.le_succ_of_le hk) fun j hj => ?_) ?_
    · rw [← hbelow j (by omega)]
      exact hrow j hj
    · by_cases hgap : ∃ j < index, disk (j + 1) = none
      · obtain ⟨j, hj, hnone⟩ := hgap
        exact .inr ⟨j, hj, (hbelow j hj _).trans hnone⟩
      · left
        have hrow (j : Nat) (hj : j < index + 1) : (disk (j + 1)).isSome = true := by
          obtain hlt | rfl := Nat.lt_succ_iff_lt_or_eq.mp hj
          · rw [isSome_iff_ne_none]
            exact fun hnone => hgap ⟨j, hlt, hnone⟩
          · exact hthere
        have hnext : disk (index + 2) = none := by
          obtain hnext | ⟨j, hj, hnone⟩ := hfree
          · exact hnext
          · exact absurd hnone (isSome_iff_ne_none.mp (hrow j hj))
        have hmoves : (true && true && (none : Option QByteArray).isNone) = true := rfl
        rw [renameFile, hrename (index + 1) (Nat.le_refl _) hrow, hthere, hnext, if_pos hmoves, putFile, if_pos rfl]

theorem Holds.rotated (h : Holds maxBytes keep disk lines) (outcome : RotationOutcome) :
    ∃ lost rest, lost ++ rest = lines ∧ unlines lost = (if outcome.remove then (disk keep).getD [] else []) ∧
      Holds maxBytes keep (if keep > 0 then renameFile (shiftArchives keep outcome keep disk) 0 1 (outcome.rename 0)
        else removeFile (shiftArchives keep outcome keep disk) 0 outcome.remove) rest := by
  cases keep with
  | zero =>
    rw [if_neg (Nat.lt_irrefl 0), shiftArchives]
    exact h.removed outcome.remove
  | succ index =>
    rw [if_pos (Nat.succ_pos index), shiftArchives]
    by_cases hnone : disk (index + 1) = none
    · rw [if_pos (isNone_iff_eq_none.mpr hnone)]
      refine ⟨[], lines, rfl, ?_, (h.shifted (Nat.lt_succ_self index) outcome).renamed (Nat.succ_pos index) _⟩
      rw [hnone]
      exact (ite_self []).symm
    · have hthere : ¬ (disk (index + 1)).isNone = true := by
        rw [isNone_iff_eq_none]
        exact hnone
      rw [if_neg hthere, if_pos rfl]
      obtain ⟨lost, rest, horder, hlost, hholds⟩ := h.removed outcome.remove
      exact ⟨lost, rest, horder, hlost, (hholds.shifted (Nat.lt_succ_self index) outcome).renamed (Nat.succ_pos index) _⟩

theorem rotated_zero (keep : Nat) (outcome : RotationOutcome) (disk : Nat → Option QByteArray) :
    let rotated := if keep > 0 then renameFile (shiftArchives keep outcome keep disk) 0 1 (outcome.rename 0)
      else removeFile (shiftArchives keep outcome keep disk) 0 outcome.remove
    rotated 0 = disk 0 ∨ rotated 0 = none := by
  have hzero : shiftArchives keep outcome keep disk 0 = disk 0 := shiftArchives_zero outcome keep disk
  dsimp only
  split
  · rw [renameFile]
    split
    · exact .inr rfl
    · exact .inl hzero
  · rw [removeFile]
    split
    · exact .inr rfl
    · exact .inl hzero

theorem rotated_above {n : Nat} (hn : keep < n) (outcome : RotationOutcome) (disk : Nat → Option QByteArray) :
    (if keep > 0 then renameFile (shiftArchives keep outcome keep disk) 0 1 (outcome.rename 0)
      else removeFile (shiftArchives keep outcome keep disk) 0 outcome.remove) n = disk n := by
  have habove := shiftArchives_above outcome (Nat.le_refl keep) hn disk
  split
  · rw [renameFile]
    split
    · rw [putFile, putFile, if_neg (by omega), if_neg (by omega), habove]
    · exact habove
  · rw [removeFile]
    split
    · rw [putFile, if_neg (by omega), habove]
    · exact habove

/-- One where all the calls work that it needs frees the place of the log. -/
theorem free_of_works {outcome : RotationOutcome} (hworks : Works keep disk outcome) :
    (if keep > 0 then renameFile (shiftArchives keep outcome keep disk) 0 1 (outcome.rename 0)
      else removeFile (shiftArchives keep outcome keep disk) 0 outcome.remove) 0 = none := by
  obtain ⟨hrename, hremove⟩ := hworks
  cases keep with
  | zero =>
    rw [if_neg (Nat.lt_irrefl 0), shiftArchives, removeFile, hremove fun j hj => absurd hj (Nat.not_lt_zero j)]
    rfl
  | succ index =>
    rw [if_pos (Nat.succ_pos index)]
    have hfirst : shiftArchives (index + 1) outcome (index + 1) disk 1 = none := by
      rw [shiftArchives]
      generalize hremoved : (if (disk (index + 1)).isNone then disk
        else if index + 1 = index + 1 then removeFile disk (index + 1) outcome.remove
        else renameFile disk (index + 1) (index + 2) (outcome.rename (index + 1))) = removed
      have hbelow (j : Nat) (hj : j < index) : removed (j + 1) = disk (j + 1) := by
        rw [← hremoved]
        split
        · rfl
        · rw [if_pos rfl, removeFile]
          split
          · rw [putFile, if_neg (by omega)]
          · rfl
      refine shiftArchives_one (Nat.lt_succ_self index) (fun k hk hrow => hrename k (Nat.lt_succ_of_le hk) fun j hj => ?_) ?_
      · rw [← hbelow j (by omega)]
        exact hrow j hj
      · by_cases hgap : ∃ j < index, disk (j + 1) = none
        · obtain ⟨j, hj, hnone⟩ := hgap
          exact .inr ⟨j, hj, (hbelow j hj).trans hnone⟩
        · left
          rw [← hremoved]
          by_cases hnone : disk (index + 1) = none
          · rw [if_pos (isNone_iff_eq_none.mpr hnone)]
            exact hnone
          · have hrow (j : Nat) (hj : j < index + 1) : (disk (j + 1)).isSome = true := by
              rw [isSome_iff_ne_none]
              obtain hlt | rfl := Nat.lt_succ_iff_lt_or_eq.mp hj
              · exact fun hnone => hgap ⟨j, hlt, hnone⟩
              · exact hnone
            rw [if_neg (by rw [isNone_iff_eq_none]; exact hnone), if_pos rfl, removeFile, hremove hrow, if_pos rfl, putFile, if_pos rfl]
    have hzero : shiftArchives (index + 1) outcome (index + 1) disk 0 = disk 0 := shiftArchives_zero outcome (index + 1) disk
    rw [renameFile, hfirst, hzero, hrename 0 (Nat.succ_pos index) fun j hj => absurd hj (Nat.not_lt_zero j)]
    split
    · rfl
    · next hnone =>
      rw [Bool.true_and, isNone_none, Bool.and_true, Bool.not_eq_true, isSome_eq_false_iff, isNone_iff_eq_none] at hnone
      exact hzero.trans hnone

end JsonlExporter
end SynQt
