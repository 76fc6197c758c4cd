import Mathlib.Algebra.Order.Ring.Int
import Mathlib.Data.List.Basic

/-! Fixed-window counting: admissions stamped with the window they were counted in. -/
namespace SynQt.Lib
open List

structure Stamp where
  time : Int
  start : Int

/-- What a fixed window of a given length and allowance leaves in the record of admissions:
each falls inside its window, a later window opens after the earlier one ran out, and no
window is spent beyond its allowance. -/
structure Windowed (window : Int) (allowance : Nat) (stamps : List Stamp) : Prop where
  inside : ∀ e ∈ stamps, e.time ≤ e.start + window
  ordered : stamps.Pairwise fun e e' =>
    e.start = e'.start ∨ e.start + window < e'.start ∧ e.time ≤ e'.start ∧ e'.start ≤ e'.time
  spent : ∀ start, stamps.countP (·.start == start) ≤ allowance

namespace Windowed
variable {window : Int} {allowance : Nat} {stamps stamps' : List Stamp}

theorem nil : Windowed window allowance [] where
  inside _ he := by cases he
  ordered := .nil
  spent _ := Nat.zero_le _

section
variable (h : Windowed window allowance stamps)
include h

theorem sublist (hsub : stamps'.Sublist stamps) :
    Windowed window allowance stamps' where
  inside e he := h.inside e (hsub.subset he)
  ordered := h.ordered.sublist hsub
  spent start := (hsub.countP_le).trans (h.spent start)

theorem snoc (e : Stamp) (hin : e.time ≤ e.start + window)
    (hlast : ∀ e' ∈ stamps, e'.start = e.start ∨
      e'.start + window < e.start ∧ e'.time ≤ e.start ∧ e.start ≤ e.time)
    (hroom : stamps.countP (·.start == e.start) < allowance) :
    Windowed window allowance (stamps ++ [e]) where
  inside e' he' := by
    rcases mem_append.mp he' with hold | hnew
    · exact h.inside e' hold
    · rw [mem_singleton.mp hnew]
      exact hin
  ordered := by
    apply pairwise_append.mpr
    refine ⟨h.ordered, pairwise_singleton _ _, fun e' he' last hlast' => ?_⟩
    rw [mem_singleton.mp hlast']
    exact hlast e' he'
  spent start := by
    rw [countP_append, countP_singleton]
    split
    · rename_i heq
      rw [← beq_iff_eq.mp heq]
      exact hroom
    · exact h.spent start

private theorem length_le_of_two (x y : Int)
    (htwo : ∀ e ∈ stamps, e.start = x ∨ e.start = y) : stamps.length ≤ 2 * allowance := by
  have hsplit : stamps.length = stamps.countP (·.start == x) + stamps.countP (fun e => ¬ (e.start == x) = true) :=
    length_eq_countP_add_countP _
  have hrest : stamps.countP (fun e => ¬ (e.start == x) = true) ≤ stamps.countP (·.start == y) := by
    apply countP_mono_left
    intro e he hne
    rcases htwo e he with hx | hy
    · simp [hx] at hne
    · simp [hy]
  have hx := h.spent x
  have hy := h.spent y
  omega

/-- A window that stands between two others is longer than nothing: the admissions around it
are more than a window apart. -/
theorem apart (first last : Stamp) (between : List Stamp)
    (heq : stamps = first :: (between ++ [last])) (hlong : 2 * allowance < stamps.length) :
    window < last.time - first.time := by
  have hord := h.ordered
  rw [heq, pairwise_cons] at hord
  obtain ⟨hfirst, hrest⟩ := hord
  rw [pairwise_append] at hrest
  obtain ⟨-, -, hlast⟩ := hrest
  have hthird : ∃ e ∈ between, e.start ≠ first.start ∧ e.start ≠ last.start := by
    by_contra hnone
    have htwo : ∀ e ∈ stamps, e.start = first.start ∨ e.start = last.start := by
      intro e he
      rw [heq, mem_cons, mem_append, mem_singleton] at he
      rcases he with rfl | hmid | rfl
      · exact .inl rfl
      · by_contra hneither
        rw [not_or] at hneither
        exact hnone ⟨e, hmid, hneither⟩
      · exact .inr rfl
    have hle := h.length_le_of_two _ _ htwo
    omega
  obtain ⟨e, he, hnefirst, hnelast⟩ := hthird
  have hopened := hfirst e (mem_append_left _ he)
  have hclosed := hlast e he last (mem_singleton_self _)
  omega

end

end Windowed
end SynQt.Lib
