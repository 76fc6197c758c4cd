import SynQt.Lib.Run
import SynQt.Lib.Transactions
import SynQt.Service.SessionManager

/-! Forward-only migrations: the steps run in one transaction, and the row that records how
many have been. -/
namespace SynQt
open Lib List

namespace Migrations

/-- What a database holds of its migrations: the steps it ran, in order, and the rows of
`synqt_migrations`. -/
structure Schema where
  ran : List QString := []
  versions : List Nat := []
deriving DecidableEq

/-- Which statements of one call work. A step is named by its place in the list. -/
structure Engine where
  select : Bool := true
  transaction : Bool := true
  step : Nat → Bool := fun _ => true
  delete : Bool := true
  insert : Bool := true
  commit : Bool := true
  lastError : QString := ""

/-- What `SELECT version FROM synqt_migrations` is read as. -/
def recorded (schema : Schema) : Nat := schema.versions.head?.getD 0

/-- The steps from `index` on. The answer is the place of the one that failed. -/
def runSteps (engine : Engine) : Connection Schema → Nat → List QString → Connection Schema × Option Nat
  | db, _, [] => (db, none)
  | db, index, step :: steps =>
    let answer := db.exec (engine.step index) fun schema => { schema with ran := schema.ran ++ [step] }
    if !answer.2 then (answer.1, some index) else runSteps engine answer.1 (index + 1) steps

structure MigrateAnswer where
  ok : Bool
  error : QString := ""
deriving DecidableEq

def applyMigrations (db : Connection Schema) (engine : Engine) (steps : List QString) :
    Connection Schema × MigrateAnswer :=
  if !engine.select then (db, { ok := false, error := engine.lastError })
  else
    let applied := recorded db.view
    if applied ≥ steps.length then (db, { ok := true })
    else
      let begun := db.transaction engine.transaction
      if !begun.2 then (begun.1, { ok := false, error := engine.lastError })
      else
        let stepped := runSteps engine begun.1 applied (steps.drop applied)
        match stepped.2 with
        | some index =>
          (stepped.1.rollback,
            { ok := false, error := "migration step " ++ (index + 1).repr ++ " failed: " ++ engine.lastError })
        | none =>
          -- the two writes of the version row, whatever they answer
          let cleared := stepped.1.exec engine.delete fun schema => { schema with versions := [] }
          let written := cleared.1.exec engine.insert fun schema =>
            { schema with versions := schema.versions ++ [steps.length] }
          let committed := written.1.commit engine.commit
          (committed.1, { ok := committed.2 })

end Migrations

structure MigrateCall where
  steps : List QString
  engine : Migrations.Engine := {}

namespace Migrations
variable {db : Connection Schema} {call : MigrateCall}

def step (db : Connection Schema) (call : MigrateCall) : Connection Schema :=
  (applyMigrations db call.engine call.steps).1

/-- The law of one call: what it calls done is done, recorded and committed, and what it calls
failed left no trace. -/
def Lawful (db : Connection Schema) (call : MigrateCall) : Prop :=
  if (applyMigrations db call.engine call.steps).2.ok then
    (step db call).working = none ∧ (step db call).committed.ran = call.steps ∧
      recorded (step db call).committed = call.steps.length
  else step db call = db

/-- The call gets as far as the version row: there are steps to run, and they all work. -/
def Reaches (db : Connection Schema) (call : MigrateCall) : Prop :=
  call.engine.select = true ∧ recorded db.view < call.steps.length ∧ call.engine.transaction = true ∧
  ∀ index, recorded db.view ≤ index → index < call.steps.length → call.engine.step index = true

/-- A call that gets so far writes its row, over the old one if there is one, and commits. -/
def Recorded (db : Connection Schema) (call : MigrateCall) : Prop :=
  Reaches db call →
    call.engine.insert = true ∧ call.engine.commit = true ∧ (call.engine.delete = true ∨ db.view.versions = [])

/-- Between calls: no transaction is open, and the row counts the steps that ran. -/
structure Settled (db : Connection Schema) : Prop where
  idle : db.working = none
  counted : db.committed.versions = if db.committed.ran = [] then [] else [db.committed.ran.length]

theorem runSteps_open (engine : Engine) (schema work : Schema) (index : Nat) (steps : List QString) :
    ((∀ k, index ≤ k → k < index + steps.length → engine.step k = true) ∧
      runSteps engine ⟨schema, some work⟩ index steps =
        (⟨schema, some { work with ran := work.ran ++ steps }⟩, none)) ∨
    ∃ k work', index ≤ k ∧ k < index + steps.length ∧ engine.step k = false ∧
      runSteps engine ⟨schema, some work⟩ index steps = (⟨schema, some work'⟩, some k) := by
  induction steps generalizing index work with
  | nil =>
    left
    refine ⟨fun k hle hlt => ?_, ?_⟩
    · rw [length_nil] at hlt
      omega
    · rw [runSteps, append_nil]
  | cons step steps ih =>
    rw [runSteps, Connection.exec_open]
    cases hworks : engine.step index with
    | false =>
      right
      refine ⟨index, work, Nat.le_refl _, ?_, hworks, rfl⟩
      rw [length_cons]
      omega
    | true =>
      have hgo := ih { work with ran := work.ran ++ [step] } (index + 1)
      simp only [if_true, Bool.not_true, Bool.false_eq_true, if_false, length_cons]
      rcases hgo with ⟨hall, hrun⟩ | ⟨k, work', hle, hlt, hfails, hrun⟩
      · left
        refine ⟨fun k hle hlt => ?_, ?_⟩
        · rcases Nat.eq_or_lt_of_le hle with rfl | hmore
          · exact hworks
          · exact hall k hmore (by omega)
        · rw [hrun, append_assoc, singleton_append]
      · exact .inr ⟨k, work', by omega, by omega, hfails, hrun⟩

/-- What a call that reaches the version row leaves: the steps it lacked, and the row as its
two writes worked. -/
def after (schema : Schema) (call : MigrateCall) : Schema where
  ran := schema.ran ++ call.steps.drop (recorded schema)
  versions := (if call.engine.delete then [] else schema.versions) ++
    if call.engine.insert then [call.steps.length] else []

theorem apply_cases (schema : Schema) (call : MigrateCall) :
    (¬ Reaches ⟨schema, none⟩ call ∧ step ⟨schema, none⟩ call = ⟨schema, none⟩ ∧
      ((applyMigrations ⟨schema, none⟩ call.engine call.steps).2.ok = true → call.steps.length ≤ recorded schema)) ∨
    (Reaches ⟨schema, none⟩ call ∧
      (applyMigrations ⟨schema, none⟩ call.engine call.steps).2.ok = call.engine.commit ∧
      step ⟨schema, none⟩ call =
        if call.engine.commit then ⟨after schema call, none⟩ else ⟨schema, some (after schema call)⟩) := by
  rw [step, applyMigrations, Reaches]
  cases hselect : call.engine.select with
  | false => exact .inl ⟨fun h => Bool.false_ne_true h.1, rfl, fun h => by cases h⟩
  | true =>
    simp only [Bool.not_true, Bool.false_eq_true, if_false, Connection.view_idle]
    rcases Nat.lt_or_ge (recorded schema) call.steps.length with hmore | hdone
    · simp only [ge_iff_le, Nat.not_le.mpr hmore, if_false, Connection.transaction_idle]
      cases hbegin : call.engine.transaction with
      | false => exact .inl ⟨fun h => Bool.false_ne_true h.2.2.1, rfl, fun h => by cases h⟩
      | true =>
        simp only [Bool.not_true, Bool.false_eq_true, if_false, if_true]
        have hlength : recorded schema + (call.steps.drop (recorded schema)).length = call.steps.length := by
          rw [length_drop]
          omega
        rcases runSteps_open call.engine schema schema (recorded schema) (call.steps.drop (recorded schema)) with
          ⟨hall, hrun⟩ | ⟨k, work, hle, hlt, hfails, hrun⟩
        · right
          rw [hlength] at hall
          rw [hrun]
          simp only [Connection.exec_open, Connection.commit_open]
          refine ⟨⟨trivial, hmore, trivial, hall⟩, trivial, ?_⟩
          rw [after]
          cases call.engine.delete <;> cases call.engine.insert <;> simp
        · left
          rw [hlength] at hlt
          rw [hrun]
          refine ⟨fun h => ?_, rfl, fun h => by cases h⟩
          rw [h.2.2.2 k hle hlt] at hfails
          cases hfails
    · simp only [ge_iff_le, hdone, if_true]
      exact .inl ⟨fun h => absurd h.2.1 (Nat.not_lt.mpr hdone), trivial, fun _ => trivial⟩

private theorem Settled.recorded_eq (h : Settled db) : recorded db.committed = db.committed.ran.length := by
  rw [recorded, h.counted]
  split
  · rename_i hnone
    rw [hnone]
    rfl
  · rfl

variable {schema : Schema}

private theorem ran_after {call : MigrateCall} (hcount : recorded schema = schema.ran.length)
    (hgrows : schema.ran <+: call.steps) : (after schema call).ran = call.steps := by
  obtain ⟨more, hmore⟩ := hgrows
  rw [after, hcount, ← hmore, drop_left]

private theorem recorded_after {call : MigrateCall} (hsettled : Settled ⟨schema, none⟩)
    (hmore : recorded schema < call.steps.length) :
    recorded (after schema call) = call.steps.length ↔
      call.engine.insert = true ∧ (call.engine.delete = true ∨ schema.versions = []) := by
  have hcounted := hsettled.counted
  have hold : schema.versions = [] ∨ schema.versions = [recorded schema] := by
    rw [hsettled.recorded_eq]
    split at hcounted
    · exact .inl hcounted
    · exact .inr hcounted
  have hne : recorded schema ≠ call.steps.length := Nat.ne_of_lt hmore
  have hpos : 0 ≠ call.steps.length := Nat.ne_of_lt (Nat.lt_of_le_of_lt (Nat.zero_le _) hmore)
  rcases hold with hnone | hrow
  · rw [recorded, after, hnone]
    cases call.engine.delete <;> cases call.engine.insert <;> simp [hpos]
  · rw [recorded, after, hrow]
    cases call.engine.delete <;> cases call.engine.insert <;> simp [hpos, hne]

theorem lawful_step (hsettled : Settled ⟨schema, none⟩) (call : MigrateCall)
    (hgrows : schema.ran <+: call.steps) :
    (Lawful ⟨schema, none⟩ call ↔ Recorded ⟨schema, none⟩ call) ∧
    (Recorded ⟨schema, none⟩ call → ∃ schema', step ⟨schema, none⟩ call = ⟨schema', none⟩ ∧
      Settled ⟨schema', none⟩ ∧ (schema'.ran = schema.ran ∨ schema'.ran = call.steps)) := by
  have hcount := hsettled.recorded_eq
  rw [Lawful]
  rcases apply_cases schema call with ⟨hshort, hstep, hdone⟩ | ⟨hreaches, hok, hstep⟩
  · refine ⟨iff_of_true ?_ fun h => absurd h hshort, fun _ => ⟨schema, hstep, hsettled, .inl rfl⟩⟩
    split
    · rename_i hok
      have hall : schema.ran = call.steps := by
        apply hgrows.eq_of_length_le
        rw [← hcount]
        exact hdone hok
      rw [hstep]
      refine ⟨rfl, hall, ?_⟩
      rw [← hall]
      exact hcount
    · exact hstep
  · have hmore : recorded schema < call.steps.length := hreaches.2.1
    rw [hok, hstep]
    cases hcommit : call.engine.commit with
    | false =>
      constructor
      · refine iff_of_false (fun h => ?_) fun h => ?_
        · have hopen := congrArg Connection.working h
          cases hopen
        · have hcommitted := (h hreaches).2.1
          rw [hcommit] at hcommitted
          cases hcommitted
      · intro h
        have hcommitted := (h hreaches).2.1
        rw [hcommit] at hcommitted
        cases hcommitted
    | true =>
      have hrow := recorded_after hsettled hmore
      have hran := ran_after hcount hgrows
      have hcond : Recorded ⟨schema, none⟩ call ↔
          call.engine.insert = true ∧ (call.engine.delete = true ∨ schema.versions = []) :=
        ⟨fun h => ⟨(h hreaches).1, (h hreaches).2.2⟩, fun h _ => ⟨h.1, hcommit, h.2⟩⟩
      rw [hcond]
      refine ⟨?_, fun hwritten => ⟨after schema call, rfl, ⟨rfl, ?_⟩, .inr hran⟩⟩
      · rw [← hrow]
        exact ⟨fun h => h.2.2, fun h => ⟨rfl, hran, h⟩⟩
      · have hnonempty : call.steps ≠ [] := by
          rintro hnone
          rw [hnone] at hmore
          cases hmore
        rw [if_neg (by rw [hran]; exact hnonempty), hran]
        rw [after, hwritten.1]
        rcases hwritten.2 with hdelete | hnone
        · rw [hdelete]
          rfl
        · rw [hnone]
          cases call.engine.delete <;> rfl

/-- A step fails, the next call goes on from there, and a later one adds a step. -/
def retried : List MigrateCall := [
  { steps := ["CREATE TABLE a(id INTEGER)", "CREATE TABLE b(id INTEGER)"], engine := { step := fun index => index == 0 } },
  { steps := ["CREATE TABLE a(id INTEGER)", "CREATE TABLE b(id INTEGER)"] },
  { steps := ["CREATE TABLE a(id INTEGER)", "CREATE TABLE b(id INTEGER)", "CREATE INDEX i ON a(id)"] }]

end Migrations
end SynQt
