import Mathlib.Data.List.Induction
import Mathlib.Data.List.Perm.Basic

/-! A list taken apart by a key, one group for each key, in the order the keys were first seen. -/
namespace SynQt.Lib
open List
universe u v
variable {α : Type u} {β : Type v} [DecidableEq β]

def firstSeen (key : α → β) (l : List α) : List β :=
  l.foldl (fun order a => if order.contains (key a) then order else order ++ [key a]) []

def grouped (key : α → β) (l : List α) : List α :=
  (firstSeen key l).flatMap fun b => l.filter (key · = b)

variable (key : α → β)

variable (l : List α)

private theorem firstSeen_append (a : α) :
    firstSeen key (l ++ [a]) =
      if key a ∈ firstSeen key l then firstSeen key l else firstSeen key l ++ [key a] := by
  simp [firstSeen]

theorem mem_firstSeen (b : β) : b ∈ firstSeen key l ↔ ∃ a ∈ l, key a = b := by
  induction l using List.reverseRecOn with
  | nil => simp [firstSeen]
  | append_singleton l a ih =>
    rw [firstSeen_append]
    split
    case isTrue hseen =>
      have hself : key a = b → ∃ x ∈ l, key x = b := fun heq => ih.mp (heq ▸ hseen)
      rw [ih]
      simp only [mem_append, mem_singleton, or_and_right, exists_or, exists_eq_left]
      exact ⟨.inl, fun hall => hall.elim id hself⟩
    case isFalse => simp [ih, or_and_right, exists_or, eq_comm]

private theorem nodup_firstSeen : (firstSeen key l).Nodup := by
  induction l using List.reverseRecOn with
  | nil => exact nodup_nil
  | append_singleton l a ih =>
    rw [firstSeen_append]
    split
    case isTrue => exact ih
    case isFalse hnew => exact nodup_append.mpr ⟨ih, by simp, by aesop⟩

private theorem filter_flatMap_filter {keys : List β} (hnodup : keys.Nodup) (l : List α) (b : β) :
    (keys.flatMap fun k => l.filter (key · = k)).filter (key · = b) =
      if b ∈ keys then l.filter (key · = b) else [] := by
  induction keys with
  | nil => simp
  | cons k keys ih =>
    have hparts := nodup_cons.mp hnodup
    rw [flatMap_cons, filter_append, ih hparts.2, filter_filter]
    by_cases hkey : b = k
    · subst hkey
      simp [hparts.1]
    · have hnone : l.filter (fun a => key a = b && decide (key a = k)) = [] := by
        rw [filter_eq_nil_iff]
        rintro a - hboth
        simp only [Bool.and_eq_true, decide_eq_true_eq] at hboth
        exact hkey (hboth.1.symm.trans hboth.2)
      simp [hnone, hkey]

/-- Within a group nothing moves. -/
theorem filter_grouped (b : β) :
    (grouped key l).filter (key · = b) = l.filter (key · = b) := by
  rw [grouped, filter_flatMap_filter key (nodup_firstSeen key l)]
  split
  case isTrue => rfl
  case isFalse hnone =>
    symm
    rw [filter_eq_nil_iff]
    intro a ha heq
    exact hnone ((mem_firstSeen key l b).mpr ⟨a, ha, of_decide_eq_true heq⟩)

private theorem perm_of_filter_eq [DecidableEq α] {l l' : List α} (h : ∀ b, l.filter (key · = b) = l'.filter (key · = b)) :
    l.Perm l' := by
  rw [perm_iff_count]
  intro a
  have hcount : ∀ l : List α, (l.filter (key · = key a)).count a = l.count a := fun l =>
    count_filter (by simp)
  rw [← hcount l, h, hcount]

/-- Grouping loses nothing and makes nothing up. -/
theorem grouped_perm [DecidableEq α] : (grouped key l).Perm l :=
  perm_of_filter_eq key (filter_grouped key l)

section
variable {l l' : List α}

theorem perm_of_countP (h : ∀ p : α → Bool, l.countP p = l'.countP p) : l.Perm l' := by
  classical
  exact perm_iff_count.mpr fun a => h (· == a)

theorem subperm_of_countP (h : ∀ p : α → Bool, l.countP p ≤ l'.countP p) : l.Subperm l' := by
  classical
  have hrest := subperm_append_diff_self_of_count_le fun a (_ : a ∈ l) => h (· == a)
  exact (sublist_append_left l _).subperm.trans hrest.subperm

end
end SynQt.Lib
