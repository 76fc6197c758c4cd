import SynQt.Lib.Run
import SynQt.Service.SessionManager

/-! The bounded connection pool of an external relational provider, and the leases held
on it. A lease names its slot by index, and gives it back when it is destroyed. -/
namespace SynQt
open Lib Option List

namespace SqlConnectionPool

structure Slot where
  connectionName : QString
  leased : Bool := false
  broken : Bool := false
deriving DecidableEq

/-- What the engine answers while one connection is being looked for. -/
structure Driver where
  isOpen : QString → Bool
  opens : QString → Bool
  lastError : QString → QString

/-- An engine that is up: idle connections are open, and new ones open. -/
def Driver.up : Driver where
  isOpen _ := true
  opens _ := true
  lastError _ := ""

end SqlConnectionPool

structure SqlConnectionPool where
  driver : QString
  maxSize : Nat
  slots : List SqlConnectionPool.Slot := []
  counter : Nat := 0
deriving DecidableEq

namespace SqlConnectionPool

def create (driver : QString) (maxSize : Int) : SqlConnectionPool where
  driver := driver
  maxSize := if maxSize > 0 then maxSize.toNat else 1

/-- The slot after an attempt to open it, and the error left behind when there was one. -/
def openSlot (engine : Driver) (slot : Slot) (error : QString) : Slot × QString × Bool :=
  if !engine.opens slot.connectionName then (slot, engine.lastError slot.connectionName, false)
  else ({ slot with broken := false }, error, true)

/-- The first idle connection, reopened when it was found dead or flagged broken. -/
def reuse (engine : Driver) : List Slot → Nat → QString → List Slot × QString × Option Nat
  | [], _, error => ([], error, none)
  | slot :: slots, index, error =>
    if slot.leased then
      let rest := reuse engine slots (index + 1) error
      (slot :: rest.1, rest.2)
    else if slot.broken || !engine.isOpen slot.connectionName then
      let opened := openSlot engine slot error
      if opened.2.2 then ({ opened.1 with leased := true } :: slots, opened.2.1, some index)
      else
        let rest := reuse engine slots (index + 1) opened.2.1
        (opened.1 :: rest.1, rest.2)
    else ({ slot with leased := true } :: slots, error, some index)

def nextName (pool : SqlConnectionPool) : QString :=
  "synqt-pool-" ++ String.ofList (pool.driver.toList.map Char.toLower) ++ "-" ++ (pool.counter + 1).repr

def acquire (pool : SqlConnectionPool) (engine : Driver) (error : QString) :
    SqlConnectionPool × QString × Option Nat :=
  let tried := reuse engine pool.slots 0 error
  let pool := { pool with slots := tried.1 }
  if tried.2.2.isSome then (pool, tried.2)
  else if pool.slots.length < pool.maxSize then
    let opened := openSlot engine { connectionName := pool.nextName } tried.2.1
    let pool := { pool with counter := pool.counter + 1 }
    if !opened.2.2 then (pool, opened.2.1, none)
    else
      let pool := { pool with slots := pool.slots ++ [{ opened.1 with leased := true }] }
      (pool, opened.2.1, some (pool.slots.length - 1))
  else (pool, "connection pool exhausted (size " ++ pool.maxSize.repr ++ ")", none)

def release (pool : SqlConnectionPool) (slot : Nat) : SqlConnectionPool :=
  { pool with slots := pool.slots.modify slot fun s => { s with leased := false } }

def setBroken (pool : SqlConnectionPool) (slot : Nat) : SqlConnectionPool :=
  { pool with slots := pool.slots.modify slot fun s => { s with broken := true } }

def closeAll (pool : SqlConnectionPool) : SqlConnectionPool := { pool with slots := [] }

/-- A valid lease: the slot it names, and the connection that slot held when it was given. -/
structure Lease where
  slot : Nat
  given : QString
deriving DecidableEq

end SqlConnectionPool

/-- The pool and the leases still out, each under the variable that owns it. -/
structure PoolRun where
  pool : SqlConnectionPool
  leases : Hash Nat SqlConnectionPool.Lease := ∅

/-- What callers do. A lease that leaves scope and one that is moved into another variable
both end here; the variable moved into gives back what it held. -/
inductive PoolCall where
  | acquire (owner : Nat) (engine : SqlConnectionPool.Driver)
  | destroy (owner : Nat)
  | move (target source : Nat)
  | markBroken (owner : Nat)
  | closeAll

namespace PoolRun
open SqlConnectionPool

def start (driver : QString) (maxSize : Int) : PoolRun := { pool := create driver maxSize }

def destroy (s : PoolRun) (owner : Nat) : PoolRun :=
  match s.leases.find owner with
  | none => s
  | some lease => { pool := s.pool.release lease.slot, leases := s.leases.erase owner }

/-- `owner = pool.acquire(&error)`: the new lease first, and then what the owner held is given back. -/
def acquire (s : PoolRun) (owner : Nat) (engine : Driver) : PoolRun :=
  let answer := s.pool.acquire engine ""
  let s := { s with pool := answer.1 }.destroy owner
  match answer.2.2 with
  | none => s
  | some slot =>
    let given := ((answer.1.slots[slot]?).map (·.connectionName)).getD ""
    { s with leases := s.leases.insert owner { slot := slot, given := given } }

def move (s : PoolRun) (target source : Nat) : PoolRun :=
  if target = source then s
  else
    let s := s.destroy target
    match s.leases.find source with
    | none => s
    | some lease => { s with leases := (s.leases.erase source).insert target lease }

def markBroken (s : PoolRun) (owner : Nat) : PoolRun :=
  match s.leases.find owner with
  | none => s
  | some lease => { s with pool := s.pool.setBroken lease.slot }

def step (s : PoolRun) : PoolCall → PoolRun
  | .acquire owner engine => s.acquire owner engine
  | .destroy owner => s.destroy owner
  | .move target source => s.move target source
  | .markBroken owner => s.markBroken owner
  | .closeAll => { s with pool := s.pool.closeAll }

end PoolRun

namespace SqlConnectionPool
variable {engine : Driver} {pool : SqlConnectionPool} {error : QString}

def marksOf (slots : List Slot) : List (QString × Bool) := slots.map fun slot => (slot.connectionName, slot.leased)

def marks (pool : SqlConnectionPool) : List (QString × Bool) := marksOf pool.slots

@[simp] theorem marksOf_cons (slot : Slot) (slots : List Slot) :
    marksOf (slot :: slots) = (slot.connectionName, slot.leased) :: marksOf slots := rfl

variable (pool : SqlConnectionPool)

@[simp] theorem length_marks : pool.marks.length = pool.slots.length := length_map _

section
variable (engine : Driver)

private theorem openSlot_mark (slot : Slot) (error : QString) :
    (openSlot engine slot error).1.connectionName = slot.connectionName ∧
    (openSlot engine slot error).1.leased = slot.leased := by
  rw [openSlot]
  split <;> exact ⟨rfl, rfl⟩

theorem reuse_marks (slots : List Slot) (index : Nat) (error : QString) :
    ((reuse engine slots index error).2.2 = none ∧ marksOf (reuse engine slots index error).1 = marksOf slots) ∨
    ∃ i name, (reuse engine slots index error).2.2 = some (index + i) ∧
      (marksOf slots)[i]? = some (name, false) ∧
      marksOf (reuse engine slots index error).1 = (marksOf slots).set i (name, true) := by
  induction slots generalizing index error with
  | nil => exact .inl ⟨rfl, rfl⟩
  | cons slot slots ih =>
    -- the rest of the list, behind a slot whose mark stands
    have hlater (slot' : Slot) (error' : QString) (hname : slot'.connectionName = slot.connectionName)
        (hleased : slot'.leased = slot.leased) :
        let rest := reuse engine slots (index + 1) error'
        (rest.2.2 = none ∧ marksOf (slot' :: rest.1) = marksOf (slot :: slots)) ∨
        ∃ i name, rest.2.2 = some (index + i) ∧ (marksOf (slot :: slots))[i]? = some (name, false) ∧
          marksOf (slot' :: rest.1) = (marksOf (slot :: slots)).set i (name, true) := by
      intro rest
      rcases ih (index + 1) error' with ⟨hnone, hmarks⟩ | ⟨i, name, hsome, hidle, hmarks⟩
      · refine .inl ⟨hnone, ?_⟩
        rw [marksOf_cons, marksOf_cons, hname, hleased, hmarks]
      · refine .inr ⟨i + 1, name, ?_, hidle, ?_⟩
        · rw [hsome, Nat.add_assoc, Nat.add_comm 1 i]
        · rw [marksOf_cons, marksOf_cons, hname, hleased, hmarks, set_cons_succ]
    have hopened := openSlot_mark engine slot error
    simp only [reuse]
    split
    · exact hlater slot error rfl rfl
    · rename_i hidle
      rw [Bool.not_eq_true] at hidle
      have hfirst : (marksOf (slot :: slots))[0]? = some (slot.connectionName, false) := by
        rw [marksOf_cons, List.getElem?_cons_zero, hidle]
      split
      · split
        · refine .inr ⟨0, slot.connectionName, rfl, hfirst, ?_⟩
          rw [marksOf_cons, marksOf_cons, hopened.1, set_cons_zero]
        · exact hlater _ _ hopened.1 hopened.2
      · exact .inr ⟨0, slot.connectionName, rfl, hfirst, rfl⟩

/-- What asking for a lease does to the slots: nothing to their marks, or one that no lease
held is leased, and the others stay. -/
theorem acquire_cases (error : QString) :
    ((pool.acquire engine error).2.2 = none ∧ (pool.acquire engine error).1.marks = pool.marks) ∨
    ∃ i name, (pool.acquire engine error).2.2 = some i ∧
      (∀ name', pool.marks[i]? ≠ some (name', true)) ∧
      (pool.acquire engine error).1.marks[i]? = some (name, true) ∧
      (∀ j, j ≠ i → (pool.acquire engine error).1.marks[j]? = pool.marks[j]?) ∧
      (pool.acquire engine error).1.marks.length ≤ max pool.marks.length pool.maxSize := by
  have hreuse := reuse_marks engine pool.slots 0 error
  rw [acquire]
  generalize reuse engine pool.slots 0 error = tried at hreuse
  rcases hreuse with ⟨hnone, hmarks⟩ | ⟨i, name, hsome, hidle, hmarks⟩
  · simp only [hnone, isSome_none, Bool.false_eq_true, if_false]
    have hlength : tried.1.length = pool.marks.length := by
      rw [length_marks, ← length_marks { pool with slots := tried.1 }, marks, hmarks, marksOf, length_map]
    split
    · rename_i hroom
      split
      · exact .inl ⟨rfl, hmarks⟩
      · have hopened := openSlot_mark engine { connectionName := nextName { pool with slots := tried.1 } } tried.2.1
        have hgrown (slot : Slot) (hslot : slot.leased = true) :
            marksOf (tried.1 ++ [slot]) = pool.marks ++ [(slot.connectionName, true)] := by
          rw [marksOf, map_append, ← hslot]
          exact congrArg (· ++ _) hmarks
        right
        simp only [marks]
        rw [hgrown _ rfl]
        refine ⟨pool.marks.length, _, ?_, ?_, List.getElem?_concat_length, ?_, ?_⟩
        · rw [length_append, length_singleton, Nat.add_sub_cancel, hlength]
        · intro name' hlast
          rw [← marks, List.getElem?_eq_none (Nat.le_refl _)] at hlast
          cases hlast
        · intro j hj
          rw [List.getElem?_append]
          split
          · rfl
          · rename_i hbeyond
            rw [← marks, List.getElem?_eq_none (Nat.not_lt.mp hbeyond),
              List.getElem?_eq_none (by rw [length_singleton]; omega)]
        · rw [length_append, length_singleton]
          omega
    · exact .inl ⟨rfl, hmarks⟩
  · simp only [hsome, isSome_some, if_true, marks]
    right
    refine ⟨i, name, ?_, ?_, ?_, ?_, ?_⟩
    · rw [Nat.zero_add]
    · intro name' hleased
      rw [hidle] at hleased
      cases hleased
    · rw [hmarks, List.getElem?_set_self (List.getElem?_eq_some_iff.mp hidle).1]
    · intro j hj
      rw [hmarks, List.getElem?_set_ne (Ne.symm hj)]
    · rw [hmarks, length_set]
      omega

@[simp] theorem acquire_maxSize (error : QString) :
    (pool.acquire engine error).1.maxSize = pool.maxSize := by
  rw [acquire]
  simp only
  split
  · rfl
  · split
    · split <;> rfl
    · rfl

end

theorem release_marks (slot j : Nat) :
    (pool.release slot).marks[j]? = if slot = j then pool.marks[j]?.map fun m => (m.1, false) else pool.marks[j]? := by
  simp only [marks, marksOf, release, List.getElem?_map, List.getElem?_modify]
  split <;> cases pool.slots[j]? <;> rfl

@[simp] theorem length_release (slot : Nat) :
    (pool.release slot).marks.length = pool.marks.length := by
  rw [length_marks, length_marks, release, length_modify]

@[simp] theorem setBroken_marks (slot : Nat) :
    (pool.setBroken slot).marks = pool.marks := by
  apply ext_getElem?
  intro j
  simp only [marks, marksOf, setBroken, List.getElem?_map, List.getElem?_modify]
  split <;> cases pool.slots[j]? <;> rfl

end SqlConnectionPool

namespace PoolRun
open SqlConnectionPool
variable {s : PoolRun}

/-- The promise of the pool in one state: no two live leases name one slot, the slots stay
within the maximum, and giving a lease back frees no slot but the one it was given. -/
structure Exclusive (s : PoolRun) : Prop where
  alone : ∀ owner owner' lease lease', s.leases.find owner = some lease → s.leases.find owner' = some lease' →
    lease.slot = lease'.slot → owner = owner'
  capped : s.pool.slots.length ≤ s.pool.maxSize
  freesOwn : ∀ owner lease, s.leases.find owner = some lease →
    ∀ (i : Nat) (name : QString), s.pool.marks[i]? = some (name, true) →
      (s.destroy owner).pool.marks[i]? = some (name, true) ∨ name = lease.given

/-- A connection is only asked for while every lease still out names a slot of this pool: none
of them is from before a `closeAll`. -/
def Current (s : PoolRun) : PoolCall → Prop
  | .acquire _ _ => ∀ owner lease, s.leases.find owner = some lease →
      ∃ slot ∈ s.pool.slots, slot.connectionName = lease.given
  | _ => True

instance Current.decidable (s : PoolRun) : ∀ call, Decidable (s.Current call)
  | .acquire _ _ =>
    decidable_of_iff (∀ e ∈ s.leases.entries, ∃ slot ∈ s.pool.slots, slot.connectionName = e.2.given)
      ⟨fun h owner lease hlease => h (owner, lease) ((s.leases.mem_entries owner lease).mpr hlease),
        fun h e he => h e.1 e.2 ((s.leases.mem_entries e.1 e.2).mp he)⟩
  | .destroy _ | .move _ _ | .markBroken _ | .closeAll => inferInstanceAs (Decidable True)

/-- The leases and the slots agree, or there are no slots left to agree with. -/
structure Backed (s : PoolRun) : Prop where
  alone : ∀ owner owner' lease lease', s.leases.find owner = some lease → s.leases.find owner' = some lease' →
    lease.slot = lease'.slot → owner = owner'
  capped : s.pool.marks.length ≤ s.pool.maxSize
  held : s.pool.marks = [] ∨
    ∀ owner lease, s.leases.find owner = some lease → s.pool.marks[lease.slot]? = some (lease.given, true)

private theorem destroy_find (s : PoolRun) (owner other : Nat) :
    (s.destroy owner).leases.find other = if other = owner then none else s.leases.find other := by
  rw [destroy]
  cases hheld : s.leases.find owner with
  | none =>
    show s.leases.find other = _
    split
    · rename_i heq
      rw [heq]
      exact hheld
    · rfl
  | some lease => exact Hash.find_erase _ _ _

private theorem destroy_marks (s : PoolRun) (owner j : Nat) :
    (s.destroy owner).pool.marks[j]? = s.pool.marks[j]? ∨
    ∃ lease, s.leases.find owner = some lease ∧ lease.slot = j := by
  rw [destroy]
  cases hheld : s.leases.find owner with
  | none => exact .inl rfl
  | some lease =>
    simp only [release_marks]
    split
    · rename_i heq
      exact .inr ⟨lease, rfl, heq⟩
    · exact .inl rfl

private theorem destroy_length (s : PoolRun) (owner : Nat) :
    (s.destroy owner).pool.marks.length = s.pool.marks.length ∧
    (s.destroy owner).pool.maxSize = s.pool.maxSize := by
  rw [destroy]
  cases s.leases.find owner with
  | none => exact ⟨rfl, rfl⟩
  | some lease => exact ⟨length_release _ _, rfl⟩

section
variable (h : Backed s)
include h

private theorem Backed.exclusive : Exclusive s where
  alone := h.alone
  capped := by
    rw [← length_marks]
    exact h.capped
  freesOwn owner lease hlease i name hname := by
    rcases destroy_marks s owner i with hkept | ⟨lease', hlease', rfl⟩
    · rw [hkept]
      exact .inl hname
    · rw [hlease] at hlease'
      cases hlease'
      rcases h.held with hnone | hheld
      · rw [hnone] at hname
        cases hname
      · have hown := hheld owner lease hlease
        rw [hname] at hown
        cases hown
        exact .inr rfl

theorem Backed.destroy (owner : Nat) : Backed (s.destroy owner) where
  alone a b lease lease' ha hb hslot := by
    rw [destroy_find] at ha hb
    split at ha
    · cases ha
    · split at hb
      · cases hb
      · exact h.alone a b lease lease' ha hb hslot
  capped := by
    rw [(destroy_length s owner).1, (destroy_length s owner).2]
    exact h.capped
  held := by
    rcases h.held with hnone | hheld
    · left
      apply eq_nil_of_length_eq_zero
      rw [(destroy_length s owner).1, hnone, length_nil]
    · refine .inr fun a lease ha => ?_
      rw [destroy_find] at ha
      split at ha
      · cases ha
      · rename_i hother
        rcases destroy_marks s owner lease.slot with hkept | ⟨lease', hlease', hslot⟩
        · rw [hkept]
          exact hheld a lease ha
        · exact absurd (h.alone a owner lease lease' ha hlease' hslot.symm) hother

/-- A lease that names a slot no other lease names, marked if there are slots at all. -/
theorem Backed.give {owner : Nat} {lease : Lease}
    (hmark : s.pool.marks = [] ∨ s.pool.marks[lease.slot]? = some (lease.given, true))
    (halone : ∀ a held, a ≠ owner → s.leases.find a = some held → held.slot ≠ lease.slot) :
    Backed { s with leases := s.leases.insert owner lease } where
  alone a b found found' ha hb hslot := by
    rw [Hash.find_insert] at ha hb
    split at ha <;> split at hb
    · rename_i haown hbown
      rw [haown, hbown]
    · rename_i hbown
      cases ha
      exact absurd hslot.symm (halone b found' hbown hb)
    · rename_i haown _
      cases hb
      exact absurd hslot (halone a found haown ha)
    · exact h.alone a b found found' ha hb hslot
  capped := h.capped
  held := by
    rcases hmark with hnone | hmark
    · exact .inl hnone
    · refine .inr fun a found ha => ?_
      rw [Hash.find_insert] at ha
      split at ha
      · cases ha
        exact hmark
      · rcases h.held with hnone | hback
        · rw [hnone] at hmark
          cases hmark
        · exact hback a found ha

theorem Backed.forget (owner : Nat) : Backed { s with leases := s.leases.erase owner } where
  alone a b lease lease' ha hb hslot := by
    rw [Hash.find_erase] at ha hb
    split at ha
    · cases ha
    · split at hb
      · cases hb
      · exact h.alone a b lease lease' ha hb hslot
  capped := h.capped
  held := by
    rcases h.held with hnone | hback
    · exact .inl hnone
    · refine .inr fun a lease ha => ?_
      rw [Hash.find_erase] at ha
      split at ha
      · cases ha
      · exact hback a lease ha

theorem Backed.acquire (owner : Nat) (engine : Driver) (hcurrent : s.Current (.acquire owner engine)) :
    Backed (s.acquire owner engine) := by
  -- a pool without slots is asked only when no lease is out
  have hheld : ∀ a lease, s.leases.find a = some lease → s.pool.marks[lease.slot]? = some (lease.given, true) := by
    rcases h.held with hnone | hheld
    · intro a lease ha
      obtain ⟨slot, hslot, -⟩ := hcurrent a lease ha
      have hempty : s.pool.slots = [] := map_eq_nil_iff.mp hnone
      rw [hempty] at hslot
      cases hslot
    · exact hheld
  rw [PoolRun.acquire]
  rcases acquire_cases s.pool engine "" with ⟨hanswer, hmarks⟩ | ⟨i, name, hanswer, hfree, hnew, hothers, hlength⟩
  · have hpool : Backed { s with pool := (s.pool.acquire engine "").1 } := by
      refine ⟨h.alone, ?_, .inr fun a lease ha => ?_⟩
      · rw [hmarks, acquire_maxSize]
        exact h.capped
      · rw [hmarks]
        exact hheld a lease ha
    simp only [hanswer]
    exact hpool.destroy owner
  · have hunnamed (a : Nat) (lease : Lease) (ha : s.leases.find a = some lease) : lease.slot ≠ i := by
      intro hslot
      have hleased := hheld a lease ha
      rw [hslot] at hleased
      exact hfree _ hleased
    have hpool : Backed { s with pool := (s.pool.acquire engine "").1 } := by
      refine ⟨h.alone, ?_, .inr fun a lease ha => ?_⟩
      · have hcap := h.capped
        simp only [acquire_maxSize]
        omega
      · rw [hothers _ (hunnamed a lease ha)]
        exact hheld a lease ha
    have hgiven : ((s.pool.acquire engine "").1.slots[i]?.map (·.connectionName)).getD "" = name := by
      have hslot := hnew
      rw [SqlConnectionPool.marks, marksOf, List.getElem?_map, map_eq_some_iff] at hslot
      obtain ⟨slot, hslot, heq⟩ := hslot
      rw [hslot, map_some, getD_some]
      exact congrArg Prod.fst heq
    simp only [hanswer, hgiven]
    have hrest := hpool.destroy owner
    have hnamed : ((PoolRun.destroy { s with pool := (s.pool.acquire engine "").1 } owner).pool.marks[i]?) =
        some (name, true) := by
      rcases destroy_marks { s with pool := (s.pool.acquire engine "").1 } owner i with hkept | ⟨lease, hlease, hslot⟩
      · rw [hkept]
        exact hnew
      · exact absurd hslot (hunnamed owner lease hlease)
    refine hrest.give (.inr hnamed) fun a lease ha hlease => ?_
    rw [destroy_find, if_neg ha] at hlease
    exact hunnamed a lease hlease

theorem Backed.move (target source : Nat) : Backed (s.move target source) := by
  rw [PoolRun.move]
  split
  · exact h
  · rename_i hne
    have hrest := h.destroy target
    generalize s.destroy target = s' at hrest ⊢
    cases hsource : s'.leases.find source with
    | none =>
      simp only [hsource]
      exact hrest
    | some lease =>
      simp only [hsource]
      refine (hrest.forget source).give ?_ fun a held _ hheld hslot => ?_
      · rcases hrest.held with hnone | hback
        · exact .inl hnone
        · exact .inr (hback source lease hsource)
      · -- another lease on the slot would be the source's, which is gone
        rw [Hash.find_erase] at hheld
        split at hheld
        · cases hheld
        · rename_i hkept
          exact hkept (hrest.alone a source held lease hheld hsource hslot)

theorem Backed.step (call : PoolCall) (hcurrent : s.Current call) : Backed (s.step call) := by
  cases call with
  | acquire owner engine => exact h.acquire owner engine hcurrent
  | destroy owner => exact h.destroy owner
  | move target source => exact h.move target source
  | markBroken owner =>
    rw [PoolRun.step, markBroken]
    cases s.leases.find owner with
    | none => exact h
    | some lease =>
      refine ⟨h.alone, ?_, ?_⟩
      · rw [setBroken_marks]
        exact h.capped
      · rw [setBroken_marks]
        exact h.held
  | closeAll => exact ⟨h.alone, Nat.zero_le _, .inl rfl⟩

end

/-- While no connection is asked for under a lease from before a `closeAll`, every lease has
its slot to itself. -/
theorem leases_exclusive (driver : QString) (maxSize : Int) (calls : List PoolCall)
    (hcurrent : Each step Current (start driver maxSize) calls) :
    Exclusive (run step (start driver maxSize) calls) := by
  apply Backed.exclusive
  apply hcurrent.invariant Backed
  · exact fun s call h hcall => h.step call hcall
  · refine ⟨fun a b lease lease' ha => ?_, Nat.zero_le _, .inl rfl⟩
    cases ha

/-- Two leases, given back before the pool is closed and used again. -/
theorem leases_exclusive_reopened :
    Exclusive (run step (start "QPSQL" 2)
      [.acquire 0 .up, .acquire 1 .up, .move 0 1, .destroy 0, .closeAll, .acquire 2 .up]) :=
  leases_exclusive "QPSQL" 2 _ (by decide)

/-- A lease from before a `closeAll` gives back the slot of another. -/
theorem stale_lease_frees_another : ¬ Exclusive (run step (start "QPSQL" 4)
    [.acquire 0 .up, .closeAll, .acquire 1 .up, .destroy 0, .acquire 2 .up]) := by
  intro h
  have hsame := h.alone 1 2 ⟨0, "synqt-pool-qpsql-2"⟩ ⟨0, "synqt-pool-qpsql-2"⟩ (by decide) (by decide) rfl
  exact absurd hsame (by decide)

end PoolRun

end SynQt
