import SynQt.Service.EventRing
import Mathlib.Data.List.Sublists

namespace SynQt
open Lib List

namespace BoundedFifo
variable {E : Type} {q : BoundedFifo E} {sent : List E}

/-- What a queue owes the events it was sent: all of them counted, and none out of order. -/
structure Accounts (q : BoundedFifo E) (sent : List E) : Prop where
  inOrder : (q.drained ++ q.queue).Sublist sent
  counted : sent.length = q.drained.length + q.queue.length + q.lost.length
  bounded : q.queue.length ≤ q.ceiling

private theorem step_ceiling (q : BoundedFifo E) (op : RingOp E) : (q.step op).ceiling = q.ceiling := by
  cases op with
  | push event =>
    rw [step]
    split <;> rfl
  | drain max_ => rfl

private theorem run_ceiling (q : BoundedFifo E) (ops : List (RingOp E)) : (run step q ops).ceiling = q.ceiling :=
  run_invariant (fun later => later.ceiling = q.ceiling) (fun s op h => (step_ceiling s op).trans h) rfl ops

theorem Accounts.push (h : Accounts q sent) (hceiling : 0 < q.ceiling) (event : E) :
    Accounts (q.step (.push event)) (sent ++ [event]) := by
  have hcounted := h.counted
  have hbounded := h.bounded
  rw [step]
  split
  · next hroom =>
    have hlt : q.queue.length < q.ceiling := of_decide_eq_true hroom
    refine ⟨?_, ?_, ?_⟩
    · rw [← append_assoc]
      exact h.inOrder.append_right [event]
    · simp only [length_append, length_singleton]
      omega
    · rw [length_append]
      exact hlt
  · next hroom =>
    have hfull : ¬ q.queue.length < q.ceiling := fun hlt => hroom (decide_eq_true hlt)
    refine ⟨?_, ?_, ?_⟩
    · rw [← append_assoc]
      have hdropped : (q.drained ++ q.queue.drop 1).Sublist (q.drained ++ q.queue) :=
        (drop_sublist 1 q.queue).append_left q.drained
      exact (hdropped.trans h.inOrder).append_right [event]
    · simp only [length_append, length_drop, length_take, length_singleton]
      omega
    · simp only [length_append, length_drop, length_singleton]
      omega

theorem Accounts.drain (h : Accounts q sent) (max_ : Int) : Accounts (q.step (.drain max_)) sent where
  inOrder := by
    rw [step, append_assoc, take_append_drop]
    exact h.inOrder
  counted := by
    have hcounted := h.counted
    simp only [step, length_append, length_take, length_drop]
    omega
  bounded := by
    have hbounded := h.bounded
    simp only [step, length_drop]
    omega

theorem Accounts.step (h : Accounts q sent) (hceiling : 0 < q.ceiling) (op : RingOp E) :
    Accounts (q.step op) (sent ++ pushed [op]) := by
  cases op with
  | push event => exact h.push hceiling event
  | drain max_ =>
    rw [show pushed [RingOp.drain (E := E) max_] = [] from rfl, append_nil]
    exact h.drain max_

def after (capacity : Int) (ops : List (RingOp E)) : BoundedFifo E :=
  run step { ceiling := (max 1 capacity).toNat } ops

private theorem after_snoc (capacity : Int) (ops : List (RingOp E)) (op : RingOp E) :
    after capacity (ops ++ [op]) = (after capacity ops).step op :=
  run_append ..

private theorem after_ceiling (capacity : Int) (ops : List (RingOp E)) :
    (after capacity ops).ceiling = (max 1 capacity).toNat :=
  run_ceiling _ ops

private theorem accounts_after (capacity : Int) (ops : List (RingOp E)) : Accounts (after capacity ops) (pushed ops) := by
  induction ops using List.reverseRecOn with
  | nil => exact ⟨List.Sublist.refl _, rfl, Nat.zero_le _⟩
  | append_singleton ops op ih =>
    have hceiling : 0 < (after capacity ops).ceiling := by
      rw [after_ceiling]
      omega
    rw [after_snoc, pushed_snoc]
    exact ih.step hceiling op

end BoundedFifo

namespace RingRun
variable {E : Type} {s : RingRun E} {q : BoundedFifo E}

structure Simulates (s : RingRun E) (q : BoundedFifo E) : Prop where
  holds : ∃ head, s.ring.Holds head q.queue
  ceilingIs : s.ring.events.length = q.ceiling
  drainedAre : s.drained = q.drained
  lostAre : s.ring.dropped = q.lost.length

/-- What a run leaves: the queue's answers, and every event pushed accounted for. -/
structure Refines (capacity : Int) (ops : List (RingOp E)) (s : RingRun E) : Prop where
  held : s.ring.contents = (BoundedFifo.after capacity ops).queue
  drained : s.drained = (BoundedFifo.after capacity ops).drained
  inOrder : (s.drained ++ s.ring.contents).Sublist (BoundedFifo.pushed ops)
  capacityIs : s.ring.capacity = max 1 capacity
  bounded : s.ring.size ≤ s.ring.capacity
  sized : s.ring.size = s.ring.contents.length
  counted : (BoundedFifo.pushed ops).length = s.drained.length + s.ring.size + s.ring.dropped

variable {capacity : Int}

private theorem Simulates.refines {ops : List (RingOp E)}
    (h : Simulates s (BoundedFifo.after capacity ops)) : Refines capacity ops s := by
  obtain ⟨head, hholds⟩ := h.holds
  have haccounts := BoundedFifo.accounts_after capacity ops
  have hbounded := haccounts.bounded
  have hcounted := haccounts.counted
  have hcapacity : s.ring.capacity = max 1 capacity := by
    rw [hholds.capacityIs, h.ceilingIs, BoundedFifo.after_ceiling]
    omega
  rw [BoundedFifo.after_ceiling] at hbounded
  refine ⟨hholds.contents_eq, h.drainedAre, ?_, hcapacity, ?_, ?_, ?_⟩
  · rw [h.drainedAre, hholds.contents_eq]
    exact haccounts.inOrder
  · rw [hholds.sizeIs, hcapacity]
    omega
  · rw [hholds.contents_eq]
    exact hholds.sizeIs
  · rw [h.drainedAre, hholds.sizeIs, h.lostAre]
    omega

variable [Inhabited E]

private theorem after_snoc (capacity : Int) (ops : List (RingOp E)) (op : RingOp E) :
    after capacity (ops ++ [op]) = (after capacity ops).bind (·.step op) :=
  run_append ..

theorem Simulates.push (h : Simulates s q) (hsmall : q.ceiling ≤ 1073741824) (event : E) :
    ∃ s', s.step (.push event) = some s' ∧ Simulates s' (q.step (.push event)) := by
  obtain ⟨head, hholds⟩ := h.holds
  have hlength := h.ceilingIs
  have hinside := hholds.inside
  have hfits := hholds.fits
  have hpush := hholds.push_eq (by omega) (by omega) (by omega) event
  rw [step, BoundedFifo.step, hpush]
  by_cases hroom : q.queue.length < s.ring.events.length
  · have hhas : q.hasRoom = true := decide_eq_true (by rwa [← hlength])
    rw [if_pos hroom, if_pos hhas]
    refine ⟨_, rfl, ⟨head, hholds.grown hroom event⟩, ?_, h.drainedAre, h.lostAre⟩
    exact length_set.trans hlength
  · have hhas : ¬ q.hasRoom = true := by
      rw [BoundedFifo.hasRoom, ← hlength]
      simpa using hroom
    have hfull : q.queue.length = s.ring.events.length := by omega
    have hone : (q.queue.take 1).length = 1 := by
      rw [length_take]
      omega
    rw [if_neg hroom, if_neg hhas]
    refine ⟨_, rfl, ⟨_, hholds.evicted hfull event⟩, ?_, h.drainedAre, ?_⟩
    · exact length_set.trans hlength
    · rw [length_append, hone]
      exact congrArg (· + 1) h.lostAre

theorem Simulates.drain (h : Simulates s q) (hsmall : q.ceiling ≤ 1073741824) (max_ : Int) :
    ∃ s', s.step (.drain max_) = some s' ∧ Simulates s' (q.step (.drain max_)) := by
  obtain ⟨head, hholds⟩ := h.holds
  have hlength := h.ceilingIs
  obtain ⟨ring, head', hdrain, hholds', hsame, hdropped⟩ := hholds.drain (by omega) max_
  rw [step, hdrain]
  refine ⟨_, rfl, ⟨head', hholds'⟩, hsame.trans hlength, ?_, hdropped.trans h.lostAre⟩
  exact congrArg (· ++ q.queue.take max_.toNat) h.drainedAre

theorem Simulates.step (h : Simulates s q) (hsmall : q.ceiling ≤ 1073741824) (op : RingOp E) :
    ∃ s', s.step op = some s' ∧ Simulates s' (q.step op) := by
  cases op with
  | push event => exact h.push hsmall event
  | drain max_ => exact h.drain hsmall max_

/-- A ring of at most half of an `int`'s positions answers every run as the queue does. -/
theorem simulates_after (hsmall : capacity ≤ 1073741824) (ops : List (RingOp E)) :
    ∃ s, after capacity ops = some s ∧ Simulates s (BoundedFifo.after capacity ops) := by
  induction ops using List.reverseRecOn with
  | nil => exact ⟨_, rfl, ⟨0, .make capacity⟩, EventRing.length_make capacity, rfl, rfl⟩
  | append_singleton ops op ih =>
    obtain ⟨s, hafter, hsim⟩ := ih
    have hceiling : (BoundedFifo.after capacity ops).ceiling ≤ 1073741824 := by
      rw [BoundedFifo.after_ceiling]
      omega
    rw [after_snoc, BoundedFifo.after_snoc, hafter]
    exact hsim.step hceiling op

/-- A ring past half of an `int`'s positions, filled and pushed on: the head walks away from
the start while the ring stays full, so the position of the next event leaves the type. -/
theorem after_pushes (hlarge : 1073741824 < capacity) (event : E) {count : Nat}
    (hcount : count ≤ 2147483647) :
    ∃ s, after capacity (List.replicate count (.push event)) = some s ∧
      s.ring.Holds (count - capacity.toNat) (List.replicate (min count capacity.toNat) event) ∧
      s.ring.events.length = capacity.toNat := by
  induction count with
  | zero =>
    refine ⟨_, rfl, ?_, ?_⟩
    · rw [Nat.zero_sub, Nat.zero_min]
      exact .make capacity
    · rw [EventRing.length_make]
      omega
  | succ count ih =>
    obtain ⟨s, hafter, hholds, hlength⟩ := ih (by omega)
    have hheld : (List.replicate (min count capacity.toNat) event).length = min count capacity.toNat :=
      length_replicate
    have hpush := hholds.push_eq (by omega) (by omega) (by omega) event
    rw [replicate_succ', after_snoc, hafter, Option.bind_some, step, hpush]
    by_cases hroom : count < capacity.toNat
    · have hgrown := hholds.grown (by omega) event
      have hhead : count + 1 - capacity.toNat = count - capacity.toNat := by omega
      have hmore : List.replicate (min (count + 1) capacity.toNat) event =
          List.replicate (min count capacity.toNat) event ++ [event] := by
        rw [← replicate_succ']
        congr 1
        omega
      rw [if_pos (by omega), hhead, hmore]
      exact ⟨_, rfl, hgrown, length_set.trans hlength⟩
    · have hevicted := hholds.evicted (by omega) event
      have hhead : (count - capacity.toNat + 1) % s.ring.events.length = count + 1 - capacity.toNat := by
        rw [Nat.mod_eq_of_lt (by omega)]
        omega
      have hsame : (List.replicate (min count capacity.toNat) event).drop 1 ++ [event] =
          List.replicate (min (count + 1) capacity.toNat) event := by
        rw [drop_replicate, ← replicate_succ']
        congr 1
        omega
      rw [hhead, hsame] at hevicted
      rw [if_neg (by omega)]
      exact ⟨_, rfl, hevicted, length_set.trans hlength⟩

theorem after_too_many (hlarge : 1073741824 < capacity) (event : E) :
    after capacity (List.replicate 2147483649 (.push event)) = none := by
  obtain ⟨s, hafter, hholds, hlength⟩ := after_pushes hlarge event (Nat.le_refl 2147483647)
  have hheld : (List.replicate (min 2147483647 capacity.toNat) event).length = min 2147483647 capacity.toNat :=
    length_replicate
  have hlast : List.replicate 2147483649 (RingOp.push event) =
      List.replicate 2147483647 (RingOp.push event) ++ [.push event] ++ [.push event] := by
    rw [← replicate_succ', ← replicate_succ']
  rw [hlast, after_snoc, after_snoc, hafter, Option.bind_some]
  by_cases hroom : 2147483647 < capacity.toNat
  · have hnone : s.step (.push event) = none := by
      rw [step, hholds.push_none_of_room (by omega) (by omega)]
      rfl
    rw [hnone]
    rfl
  · have hpush := hholds.push_eq (by omega) (by omega) (by omega) event
    have hevicted := hholds.evicted (by omega) event
    have hhead : (2147483647 - capacity.toNat + 1) % s.ring.events.length = 2147483648 - capacity.toNat := by
      rw [Nat.mod_eq_of_lt (by omega)]
      omega
    rw [hhead] at hevicted
    rw [if_neg (by omega)] at hpush
    have hstep : s.step (.push event) =
        some { s with ring := s.ring.evicted (2147483647 - capacity.toNat) (min 2147483647 capacity.toNat) event } := by
      rw [step, hpush, hheld]
      rfl
    rw [hstep, Option.bind_some, step]
    rw [hheld] at hevicted
    rw [hevicted.push_none_of_sum (by
      rw [length_append, length_drop, hheld, length_singleton]
      omega)]
    rfl

/-- The ring is the queue over every run exactly when twice its capacity is within an `int`'s
positions: `head + size` is summed before it is taken around the end. -/
theorem refines_iff_small (capacity : Int) :
    (∀ ops : List (RingOp E), ∃ s, after capacity ops = some s ∧ Refines capacity ops s) ↔ capacity ≤ 1073741824 := by
  constructor
  · intro hrefines
    by_contra hlarge
    obtain ⟨s, hafter, -⟩ := hrefines (List.replicate 2147483649 (.push default))
    rw [after_too_many (by omega) default] at hafter
    exact absurd hafter (by simp)
  · intro hsmall ops
    obtain ⟨s, hafter, hsim⟩ := simulates_after hsmall ops
    exact ⟨s, hafter, hsim.refines⟩

/-- One event more than half of an `int`'s positions, and a run that fills the ring and goes on. -/
theorem ring_past_half_overflows :
    ¬ ∃ s, after 1073741825 (List.replicate 2147483649 (RingOp.push ())) = some s ∧
      Refines 1073741825 (List.replicate 2147483649 (RingOp.push ())) s := by
  rintro ⟨s, hafter, -⟩
  rw [after_too_many (by decide) ()] at hafter
  exact absurd hafter (by simp)

end RingRun
end SynQt
