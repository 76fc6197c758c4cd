import Mathlib.Data.List.Rotate
import Mathlib.Data.Nat.ModEq

/-! A queue kept in a fixed vector: the cells from a head on, around the end. -/
namespace SynQt.Lib
open List
universe u
variable {α : Type u}

/-- The queue of a ring: `size` cells from `head` on. -/
def held (cells : List α) (head size : Nat) : List α := (cells.rotate head).take size

theorem length_held {cells : List α} {size : Nat} (hsize : size ≤ cells.length) (head : Nat) :
    (held cells head size).length = size := by
  rw [held, length_take, length_rotate]
  exact Nat.min_eq_left hsize

variable (cells : List α)

@[simp] theorem held_zero (head : Nat) : held cells head 0 = [] := take_zero

theorem held_mod (head size : Nat) :
    held cells (head % cells.length) size = held cells head size := by
  rw [held, held, rotate_mod]

/-- A cell is as far from the head after the turn as its index says. -/
theorem rotate_set (head : Nat) {i : Nat} (hi : i < cells.length) (a : α) :
    (cells.set ((head + i) % cells.length) a).rotate head = (cells.rotate head).set i a := by
  apply ext_getElem
  · simp only [length_rotate, length_set]
  · intro j hj hj'
    have hlt : j < cells.length := by simpa using hj
    rw [getElem_rotate, getElem_set, getElem_set, getElem_rotate]
    simp only [length_set]
    have hsame : (head + i) % cells.length = (j + head) % cells.length ↔ i = j := by
      constructor
      · intro hmod
        rw [Nat.add_comm j head] at hmod
        have hcong : Nat.ModEq cells.length i j := Nat.ModEq.add_left_cancel' head hmod
        exact hcong.eq_of_lt_of_lt hi hlt
      · rintro rfl
        rw [Nat.add_comm]
    by_cases heq : i = j
    · rw [if_pos (hsame.mpr heq), if_pos heq]
    · rw [if_neg fun h => heq (hsame.mp h), if_neg heq]

theorem getElem?_held (head : Nat) {size i : Nat} (hsize : size ≤ cells.length) (hi : i < size) :
    (held cells head size)[i]? = cells[(head + i) % cells.length]? := by
  have hlt : i < cells.length := Nat.lt_of_lt_of_le hi hsize
  rw [held, List.getElem?_take_of_lt hi, List.getElem?_rotate hlt, Nat.add_comm]

theorem held_set (head size : Nat) {i : Nat} (hi : i < cells.length) (a : α) :
    held (cells.set ((head + i) % cells.length) a) head size = (held cells head size).set i a := by
  rw [held, rotate_set cells head hi, take_set, held]

theorem held_push (head : Nat) {size : Nat} (hsize : size < cells.length) (a : α) :
    held (cells.set ((head + size) % cells.length) a) head (size + 1) = held cells head size ++ [a] := by
  have hlt : size < (cells.rotate head).length := by rwa [length_rotate]
  rw [held, rotate_set cells head hsize, take_succ_eq_append_getElem (by rwa [length_set]),
    take_set_of_le (Nat.le_refl _), getElem_set_self]
  rfl

theorem held_advance (head : Nat) {size taken : Nat} (hsize : size ≤ cells.length) (htaken : taken ≤ size) :
    held cells (head + taken) (size - taken) = (held cells head size).drop taken := by
  have hle : taken ≤ (cells.rotate head).length := by
    rw [length_rotate]
    exact Nat.le_trans htaken hsize
  have hfits : size - taken ≤ ((cells.rotate head).drop taken).length := by
    rw [length_drop, length_rotate]
    exact Nat.sub_le_sub_right hsize taken
  rw [held, ← rotate_rotate, rotate_eq_drop_append_take hle, take_append_of_le_length hfits, held,
    drop_take]

/-- A full ring: the write lands on the oldest cell, and the head moves past it. -/
theorem held_overwrite (head : Nat) (hne : cells ≠ []) (a : α) :
    held (cells.set ((head + cells.length) % cells.length) a) (head + 1) cells.length =
      (held cells head cells.length).drop 1 ++ [a] := by
  have hpos : 0 < cells.length := length_pos_iff.mpr hne
  have hcell : (head + cells.length) % cells.length = (head + 0) % cells.length := by
    rw [Nat.add_mod_right, Nat.add_zero]
  have hturned : (cells.rotate head).length = cells.length := length_rotate ..
  obtain ⟨first, rest, hrot⟩ := exists_cons_of_length_pos (by rwa [hturned] : 0 < (cells.rotate head).length)
  have hrest : rest.length + 1 = cells.length := by rw [← hturned, hrot, length_cons]
  have hafter : ((a :: rest).rotate 1).length = cells.length := by
    rw [length_rotate, length_cons, hrest]
  have hbefore : (first :: rest).length = cells.length := by rw [length_cons, hrest]
  rw [held, hcell, ← rotate_rotate, rotate_set cells head hpos, hrot, set_cons_zero, held, hrot,
    take_of_length_le (Nat.le_of_eq hafter), take_of_length_le (Nat.le_of_eq hbefore), drop_one,
    tail_cons, rotate_cons_succ, rotate_zero]

end SynQt.Lib
