import Mathlib.Data.Option.Basic
import Mathlib.Logic.Relation

/-! Forests given by a labelled parent map, and the order of birth on them. -/
namespace SynQt.Lib
universe u v
variable {α : Type u} {κ : Type v}

/-- `y` descends from `n`: some chain of parents, the empty one included, leads from
`y` up to `n`. -/
def Descends (parent : α → Option (α × κ)) : α → α → Prop :=
  Relation.ReflTransGen (fun p c => ∃ k, parent c = some (p, k))

namespace Descends
variable {parent : α → Option (α × κ)}

@[refl] theorem refl (n : α) : Descends parent n n := Relation.ReflTransGen.refl

theorem tail {n p c : α} {k : κ} (h : Descends parent n p) (hc : parent c = some (p, k)) :
    Descends parent n c := Relation.ReflTransGen.tail h ⟨k, hc⟩

theorem eq_of_childless {n y : α} (hn : ∀ c k, parent c ≠ some (n, k))
    (h : Descends parent n y) : y = n := by
  induction h with
  | refl => rfl
  | tail _ hc ih => obtain ⟨k, hk⟩ := hc; subst ih; exact absurd hk (hn _ k)

theorem iff_of_parent {n p c : α} {k : κ} (hc : parent c = some (p, k)) :
    Descends parent n c ↔ n = c ∨ Descends parent n p := by
  constructor
  · intro h
    cases h with
    | refl => exact .inl rfl
    | tail hp hk =>
      obtain ⟨k', hk'⟩ := hk
      rw [hc] at hk'
      cases hk'
      exact .inr hp
  · rintro (rfl | h)
    · rfl
    · exact h.tail hc

variable [DecidableEq α]

/-- Giving a root a parent adds the paths through the new edge and no other. -/
theorem update_iff {p c n y : α} {k : κ} (hc : parent c = none) :
    Descends (Function.update parent c (some (p, k))) n y ↔
      Descends parent n y ∨ (Descends parent n p ∧ Descends parent c y) := by
  have old {a b : α} (h : Descends parent a b) :
      Descends (Function.update parent c (some (p, k))) a b := by
    induction h with
    | refl => rfl
    | @tail b d _ hd ih =>
      obtain ⟨l, hl⟩ := hd
      have hdc : d ≠ c := fun h => by simp [h, hc] at hl
      exact ih.tail (k := l) (by simpa [hdc] using hl)
  constructor
  · intro h
    induction h with
    | refl => exact .inl (by rfl)
    | @tail b d _ hd ih =>
      obtain ⟨l, hl⟩ := hd
      by_cases hdc : d = c
      · subst hdc
        obtain rfl : p = b := by simp at hl; exact hl.1
        exact .inr ⟨ih.elim id And.left, by rfl⟩
      · have hl' : parent d = some (b, l) := by simpa [hdc] using hl
        exact ih.imp (·.tail hl') (fun h => ⟨h.1, h.2.tail hl'⟩)
  · rintro (h | ⟨hp, hy⟩)
    · exact old h
    · have edge : Descends (Function.update parent c (some (p, k))) n c :=
        (old hp).tail (k := k) (by simp)
      exact Relation.ReflTransGen.trans edge (old hy)

end Descends

/-- Every parent was born, and before its child; age `0` is not born. -/
def Ordered (age : α → Nat) (parent : α → Option (α × κ)) : Prop :=
  ∀ p c k, parent c = some (p, k) → 0 < age p ∧ age p < age c

theorem Ordered.le {age : α → Nat} {parent : α → Option (α × κ)} (ho : Ordered age parent)
    {n y : α} (h : Descends parent n y) : age n ≤ age y := by
  induction h with
  | refl => exact Nat.le_refl _
  | tail _ hc ih =>
    obtain ⟨k, hk⟩ := hc
    exact Nat.le_trans ih (Nat.le_of_lt (ho _ _ _ hk).2)

end SynQt.Lib
