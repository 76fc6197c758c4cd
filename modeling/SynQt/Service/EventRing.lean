import SynQt.Lib.Ring
import SynQt.Lib.Run

/-! The bounded queue of events between the threads that record and the one that writes:
a ring over a vector allocated once, and the queue it stands for. -/
namespace SynQt
open List hiding pure_def
open Lib Option

/-- A sum of two `int`s. Past the type's range it is undefined. -/
def addInt (a b : Int) : Option Int :=
  if -2147483648 ≤ a + b ∧ a + b ≤ 2147483647 then some (a + b) else none

structure EventRing (E : Type) where
  events : List E
  capacity : Int
  head : Int
  size : Int
  dropped : Int
deriving DecidableEq

namespace EventRing
variable {E : Type}

/-- A cell of the vector. Outside of it there is nothing to read. -/
def cellAt (events : List E) (index : Int) : Option E := if 0 ≤ index then events[index.toNat]? else none

def put (events : List E) (index : Int) (event : E) : Option (List E) :=
  if 0 ≤ index ∧ index < events.length then some (events.set index.toNat event) else none

def make [Inhabited E] (capacity : Int) : EventRing E where
  events := List.replicate (max 1 capacity).toNat default
  capacity := max 1 capacity
  head := 0
  size := 0
  dropped := 0

/-- Records an event, and whether it fit without evicting anything. -/
def push (r : EventRing E) (event : E) : Option (EventRing E × Bool) := do
  let sum ← addInt r.head r.size
  let events ← put r.events (sum.tmod r.capacity) event
  if r.size < r.capacity then
    let size ← addInt r.size 1
    return ({ r with events := events, size := size }, true)
  else
    let next ← addInt r.head 1
    return ({ r with events := events, head := next.tmod r.capacity, dropped := r.dropped + 1 }, false)

/-- The loop of `drain`: each cell read is left empty. -/
def drainFrom [Inhabited E] (head capacity : Int) : Nat → Int → List E → Option (List E × List E)
  | 0, _, events => some (events, [])
  | left + 1, index, events => do
    let sum ← addInt head index
    let slot := sum.tmod capacity
    let event ← cellAt events slot
    let emptied ← put events slot default
    let rest ← drainFrom head capacity left (index + 1) emptied
    return (rest.1, event :: rest.2)

/-- Up to `max_` of the oldest events. -/
def drain [Inhabited E] (r : EventRing E) (max_ : Int) : Option (EventRing E × List E) := do
  let taken := max 0 (min max_ r.size)
  let drained ← drainFrom r.head r.capacity taken.toNat 0 r.events
  let sum ← addInt r.head taken
  return ({ r with events := drained.1, head := sum.tmod r.capacity, size := r.size - taken }, drained.2)

end EventRing

inductive RingOp (E : Type) where
  | push (event : E)
  | drain (max_ : Int)
deriving DecidableEq

/-- What the ring is for: a queue with a ceiling, which lets go of its oldest event to stay under it. -/
structure BoundedFifo (E : Type) where
  ceiling : Nat
  queue : List E := []
  drained : List E := []
  lost : List E := []
deriving DecidableEq

namespace BoundedFifo
variable {E : Type}

def hasRoom (q : BoundedFifo E) : Bool := decide (q.queue.length < q.ceiling)

def step (q : BoundedFifo E) : RingOp E → BoundedFifo E
  | .push event =>
    if q.hasRoom then { q with queue := q.queue ++ [event] }
    else { q with queue := q.queue.drop 1 ++ [event], lost := q.lost ++ q.queue.take 1 }
  | .drain max_ =>
    { q with queue := q.queue.drop max_.toNat, drained := q.drained ++ q.queue.take max_.toNat }

def pushed (ops : List (RingOp E)) : List E := ops.filterMap fun | .push event => some event | .drain _ => none

theorem pushed_snoc (ops : List (RingOp E)) (op : RingOp E) : pushed (ops ++ [op]) = pushed ops ++ pushed [op] :=
  filterMap_append

end BoundedFifo

structure RingRun (E : Type) where
  ring : EventRing E
  drained : List E := []
deriving DecidableEq

namespace RingRun
variable {E : Type}

def step [Inhabited E] (s : RingRun E) : RingOp E → Option (RingRun E)
  | .push event => (s.ring.push event).map fun answer => { s with ring := answer.1 }
  | .drain max_ => (s.ring.drain max_).map fun answer => { ring := answer.1, drained := s.drained ++ answer.2 }

def stepDefined [Inhabited E] (s : Option (RingRun E)) (op : RingOp E) : Option (RingRun E) := s.bind (·.step op)

def after [Inhabited E] (capacity : Int) (ops : List (RingOp E)) : Option (RingRun E) :=
  run stepDefined (some { ring := .make capacity }) ops

end RingRun

namespace EventRing
variable {E : Type} {r : EventRing E} {queue : List E} {head : Nat}

def contents (r : EventRing E) : List E := held r.events r.head.toNat r.size.toNat

/-- The indices are in range, and the cells from the head on are the queue. -/
structure Holds (r : EventRing E) (head : Nat) (queue : List E) : Prop where
  headAt : r.head = head
  sizeIs : r.size = queue.length
  capacityIs : r.capacity = r.events.length
  inside : head < r.events.length
  fits : queue.length ≤ r.events.length
  cells : held r.events head queue.length = queue

theorem Holds.contents_eq (h : Holds r head queue) : r.contents = queue := by
  rw [contents, h.headAt, h.sizeIs]
  exact h.cells

private theorem addInt_eq {a b : Nat} (h : a + b ≤ 2147483647) : addInt a b = some ((a + b : Nat) : Int) := by
  rw [addInt, if_pos (by omega)]
  rfl

private theorem put_eq {events : List E} {index : Nat} (h : index < events.length) (event : E) :
    put events index event = some (events.set index event) := by
  rw [put, if_pos (by omega)]
  rfl

private theorem cellAt_eq (events : List E) (index : Nat) : cellAt events index = events[index]? := by
  rw [cellAt, if_pos (Int.natCast_nonneg index)]
  rfl

private theorem tmod_cast (a b : Nat) : ((a : Int)).tmod b = ((a % b : Nat) : Int) := rfl

/-- What a push leaves of a ring with room: one cell more. -/
def grown (r : EventRing E) (head size : Nat) (event : E) : EventRing E :=
  { r with events := r.events.set ((head + size) % r.events.length) event, size := ((size + 1 : Nat) : Int) }

/-- What a push leaves of a full one: the oldest event's cell taken, and the head past it. -/
def evicted (r : EventRing E) (head size : Nat) (event : E) : EventRing E :=
  { r with
    events := r.events.set ((head + size) % r.events.length) event
    head := (((head + 1) % r.events.length : Nat) : Int)
    dropped := r.dropped + 1 }

section
variable (h : Holds r head queue)
include h

theorem Holds.push_eq (hsum : head + queue.length ≤ 2147483647)
    (hgrow : queue.length < r.events.length → queue.length + 1 ≤ 2147483647) (hnext : head + 1 ≤ 2147483647) (event : E) :
    r.push event =
      if queue.length < r.events.length then some (r.grown head queue.length event, true)
      else some (r.evicted head queue.length event, false) := by
  have hinside := h.inside
  have hcell : (head + queue.length) % r.events.length < r.events.length := Nat.mod_lt _ (by omega)
  have hone : addInt (head : Int) 1 = some ((head + 1 : Nat) : Int) := addInt_eq (b := 1) hnext
  rw [EventRing.push, h.headAt, h.sizeIs, addInt_eq hsum]
  simp only [bind_eq_bind, bind_some]
  rw [h.capacityIs, tmod_cast, put_eq hcell]
  simp only [bind_some, Int.ofNat_lt, pure_def]
  split
  · next hroom =>
    have hbigger : addInt (queue.length : Int) 1 = some ((queue.length + 1 : Nat) : Int) := addInt_eq (b := 1) (hgrow hroom)
    rw [hbigger, EventRing.grown, h.capacityIs, h.headAt]
    rfl
  · rw [hone, EventRing.evicted, h.capacityIs, h.sizeIs]
    rfl

theorem Holds.push_none_of_sum (hsum : 2147483647 < head + queue.length) (event : E) :
    r.push event = none := by
  have hnone : addInt (head : Int) queue.length = none := if_neg (by omega)
  rw [EventRing.push, h.headAt, h.sizeIs, hnone]
  rfl

theorem Holds.push_none_of_room (hroom : queue.length < r.events.length)
    (hsize : 2147483647 ≤ queue.length) (event : E) : r.push event = none := by
  by_cases hsum : head + queue.length ≤ 2147483647
  · have hinside := h.inside
    have hcell : (head + queue.length) % r.events.length < r.events.length := Nat.mod_lt _ (by omega)
    have hnone : addInt (queue.length : Int) 1 = none := if_neg (by omega)
    rw [EventRing.push, h.headAt, h.sizeIs, addInt_eq hsum]
    simp only [bind_eq_bind, bind_some]
    rw [h.capacityIs, tmod_cast, put_eq hcell]
    simp only [bind_some, Int.ofNat_lt]
    rw [if_pos hroom, hnone]
    rfl
  · exact h.push_none_of_sum (by omega) event

theorem Holds.grown (hroom : queue.length < r.events.length) (event : E) :
    Holds (r.grown head queue.length event) head (queue ++ [event]) where
  headAt := h.headAt
  sizeIs := by
    rw [length_append, length_singleton]
    rfl
  capacityIs := by
    rw [EventRing.grown, length_set]
    exact h.capacityIs
  inside := by
    rw [EventRing.grown, length_set]
    exact h.inside
  fits := by
    rw [EventRing.grown, length_set, length_append, length_singleton]
    exact hroom
  cells := by
    rw [EventRing.grown, length_append, length_singleton, held_push r.events head hroom, h.cells]

theorem Holds.evicted (hfull : queue.length = r.events.length) (event : E) :
    Holds (r.evicted head queue.length event) ((head + 1) % r.events.length) (queue.drop 1 ++ [event]) := by
  have hpos : 0 < r.events.length := Nat.lt_of_le_of_lt (Nat.zero_le _) h.inside
  have hlength : (queue.drop 1 ++ [event]).length = r.events.length := by
    rw [length_append, length_drop, length_singleton, hfull]
    omega
  have hset : (r.events.set ((head + queue.length) % r.events.length) event).length = r.events.length := length_set
  refine ⟨rfl, ?_, ?_, ?_, ?_, ?_⟩
  · rw [hlength, ← hfull]
    exact h.sizeIs
  · rw [EventRing.evicted, hset]
    exact h.capacityIs
  · rw [EventRing.evicted, hset]
    exact Nat.mod_lt _ hpos
  · rw [EventRing.evicted, hset, hlength]
  · have hmod := held_mod (r.events.set ((head + queue.length) % r.events.length) event) (head + 1) r.events.length
    have hcells := h.cells
    rw [hset] at hmod
    rw [hfull] at hcells
    rw [EventRing.evicted, hlength, hmod, hfull, held_overwrite r.events head (ne_nil_of_length_pos hpos), hcells]

end

/-- The loop of a drain reads the queue from the index on, and empties only what it reads. -/
theorem drainFrom_eq [Inhabited E] {events : List E} {head size : Nat} (hsize : size ≤ events.length)
    (hinside : head < events.length) (hsmall : events.length ≤ 1073741824) (left index : Nat) (hleft : index + left ≤ size) :
    ∃ emptied, drainFrom head events.length left index events =
        some (emptied, ((held events head size).drop index).take left) ∧
      emptied.length = events.length ∧
      ∀ later, index + left ≤ later →
        (held emptied head size).drop later = (held events head size).drop later := by
  induction left generalizing events index with
  | zero => exact ⟨events, rfl, rfl, fun _ _ => rfl⟩
  | succ left ih =>
    have hindex : index < size := by omega
    have hcell : (head + index) % events.length < events.length := Nat.mod_lt _ (by omega)
    have hread := getElem?_held events head hsize hindex
    have hheld : index < (held events head size).length := by rwa [length_held hsize]
    rw [List.getElem?_eq_getElem hheld] at hread
    obtain ⟨emptied, hdrain, hlength, hlater⟩ :=
      @ih (events.set ((head + index) % events.length) default) (by rwa [length_set]) (by rwa [length_set])
        (by rwa [length_set]) (index + 1) (by omega)
    have hset := held_set events head size (Nat.lt_of_lt_of_le hindex hsize) default
    have hrest : (held (events.set ((head + index) % events.length) default) head size).drop (index + 1) =
        (held events head size).drop (index + 1) := by
      rw [hset, drop_set_of_lt (Nat.lt_succ_self index)]
    rw [length_set, hrest] at hdrain
    rw [length_set] at hlength
    refine ⟨emptied, ?_, hlength, fun later hle => ?_⟩
    · have hnext : (index : Int) + 1 = ((index + 1 : Nat) : Int) := rfl
      rw [drainFrom, addInt_eq (by omega)]
      simp only [bind_eq_bind, bind_some]
      rw [tmod_cast, cellAt_eq, ← hread, put_eq hcell]
      simp only [bind_some]
      rw [hnext, hdrain, drop_eq_getElem_cons hheld, take_succ_cons]
      rfl
    · rw [hlater later (by omega), hset, drop_set_of_lt (by omega)]

/-- What a drain leaves: the head past what it took, and the cells it took emptied. -/
theorem Holds.drain [Inhabited E] (h : Holds r head queue) (hsmall : r.events.length ≤ 1073741824) (max_ : Int) :
    ∃ r' head', r.drain max_ = some (r', queue.take max_.toNat) ∧ Holds r' head' (queue.drop max_.toNat) ∧
      r'.events.length = r.events.length ∧ r'.dropped = r.dropped := by
  have hinside := h.inside
  have hfits := h.fits
  generalize htaken : min max_.toNat queue.length = taken
  have htaken' : max 0 (min max_ (queue.length : Int)) = (taken : Int) := by omega
  have hle : taken ≤ queue.length := by omega
  obtain ⟨emptied, hdrain, hlength, hlater⟩ := drainFrom_eq hfits h.inside hsmall taken 0 (by omega)
  have hcells := hlater taken (by omega)
  rw [h.cells] at hdrain hcells
  have htake : queue.take taken = queue.take max_.toNat := by rw [← htaken, ← take_eq_take_min]
  have hdrop : queue.drop taken = queue.drop max_.toNat := by rw [← htaken, ← drop_eq_drop_min]
  have hleft : (queue.drop taken).length = queue.length - taken := length_drop
  refine ⟨{ r with
    events := emptied
    head := (((head + taken) % r.events.length : Nat) : Int)
    size := ((queue.length - taken : Nat) : Int) }, (head + taken) % r.events.length, ?_, ?_, hlength, rfl⟩
  · have hsize : (queue.length : Int) - taken = ((queue.length - taken : Nat) : Int) := (Int.ofNat_sub hle).symm
    have hstart : drainFrom r.head r.capacity taken 0 r.events = some (emptied, queue.take taken) := by
      rw [h.headAt, h.capacityIs]
      exact hdrain
    rw [EventRing.drain, h.sizeIs, htaken']
    simp only [bind_eq_bind, Int.toNat_natCast]
    rw [hstart]
    simp only [bind_some]
    rw [h.headAt, addInt_eq (by omega)]
    simp only [bind_some, pure_def]
    rw [h.capacityIs, tmod_cast, hsize, htake]
  · rw [← hdrop]
    refine ⟨rfl, ?_, ?_, ?_, ?_, ?_⟩
    · rw [hleft]
    · rw [hlength]
      exact h.capacityIs
    · rw [hlength]
      exact Nat.mod_lt _ (by omega)
    · rw [hleft, hlength]
      omega
    · have hmod := held_mod emptied (head + taken) (queue.length - taken)
      rw [hlength] at hmod
      rw [hleft, hmod, held_advance emptied head (by omega) hle]
      exact hcells

theorem length_make [Inhabited E] (capacity : Int) :
    (make capacity : EventRing E).events.length = (max 1 capacity).toNat :=
  length_replicate

theorem Holds.make [Inhabited E] (capacity : Int) : Holds (make capacity : EventRing E) 0 [] where
  headAt := rfl
  sizeIs := rfl
  capacityIs := by
    rw [length_make]
    have hpos : 0 ≤ max 1 capacity := by omega
    exact (Int.toNat_of_nonneg hpos).symm
  inside := by
    rw [length_make]
    omega
  fits := Nat.zero_le _
  cells := held_zero _ _

end EventRing
end SynQt
