import SynQt.Providers.SqlConnectionPool
import SynQt.Providers.SqlSupport

/-! A relational provider over the connection pool: a lease for each statement, one lease
pinned for the span of a transaction, and one of its own for a migration. -/
namespace SynQt
open Lib

structure DbResult where
  ok : Bool := false
  error : QString := ""
  rows : List QVariantMap := []
  affected : Int := 0
  insertId : Option QString := none
deriving DecidableEq

def DbResult.failure (message : QString) : DbResult := { error := message }

namespace PooledSqlProvider

/-- A statement as the engine takes it: its answer, and whether a transaction is open on the
connection after it, which its text may have begun or ended. -/
structure Statement where
  result : DbResult := { ok := true }
  leaves : Bool → Bool := id

/-- What `commit()` or `rollback()` on a connection comes to. One that fails may leave the
transaction open, or the engine may have dropped it all the same. -/
structure Ending where
  works : Bool := true
  dropped : Bool := false
  lastError : QString := ""
deriving DecidableEq

def Ending.ends (ending : Ending) : Bool := ending.works || ending.dropped

def Ending.leaves (ending : Ending) (inside : Bool) : Bool := inside && !ending.ends

/-- What the engine answers to the calls of one migration, in the order they come. A step is
named by its place in the list. -/
structure MigrationEngine where
  select : DbResult := { ok := true }
  version : Option Nat := none
  transaction : Bool := true
  step : Nat → Statement := fun _ => {}
  commit : Ending := {}
  rollback : Ending := {}
  lastError : QString := ""

/-- A statement as it is sent: on which connection, whether a transaction is open on that
connection, and whether the provider has one open for it. -/
structure Issue where
  connection : QString
  inside : Bool
  within : Bool
deriving DecidableEq

/-- The steps from `index` on: what was sent, whether the transaction is still open, and the
place of the one that failed. -/
def runSteps (connection : QString) (engine : MigrationEngine) :
    Bool → Nat → List QString → List Issue × Bool × Option Nat
  | inside, _, [] => ([], inside, none)
  | inside, index, _ :: steps =>
    let issue : Issue := ⟨connection, inside, true⟩
    let statement := engine.step index
    if !statement.result.ok then ([issue], statement.leaves inside, some index)
    else
      let rest := runSteps connection engine (statement.leaves inside) (index + 1) steps
      (issue :: rest.1, rest.2)

structure Migrated where
  issued : List Issue
  inside : Bool
  ok : Bool
  error : QString := ""

/-- `applyMigrations`, as the calls it makes on one connection. -/
def applyMigrations (connection : QString) (inside : Bool) (engine : MigrationEngine) (steps : List QString) :
    Migrated :=
  let select : Issue := ⟨connection, inside, false⟩
  if !engine.select.ok then ⟨[select], inside, false, engine.select.error⟩
  else
    let applied := engine.version.getD 0
    if applied ≥ steps.length then ⟨[select], inside, true, ""⟩
    else if !engine.transaction then ⟨[select], inside, false, engine.lastError⟩
    else
      let ran := runSteps connection engine true applied (steps.drop applied)
      match ran.2.2 with
      | some index =>
        ⟨select :: ran.1, engine.rollback.leaves ran.2.1, false,
          "migration step " ++ (index + 1).repr ++ " failed: " ++ (engine.step index).result.error⟩
      | none =>
        -- the DELETE and the INSERT of the version row, whatever they answer
        let rows : List Issue := [⟨connection, ran.2.1, true⟩, ⟨connection, ran.2.1, true⟩]
        ⟨select :: ran.1 ++ rows, engine.commit.leaves ran.2.1, engine.commit.works, ""⟩

end PooledSqlProvider

structure PooledSqlProvider where
  pool : Option SqlConnectionPool := none
  txLease : Option SqlConnectionPool.Lease := none
  inTransaction : Bool := false
deriving DecidableEq

/-- The provider, and on which slots' connections the engine has a transaction open. -/
structure PooledRun where
  provider : PooledSqlProvider := {}
  inside : Nat → Bool := fun _ => false

/-- One call, and what the engine answers to the driver calls it makes. -/
inductive DbCall where
  | query (driver : SqlConnectionPool.Driver) (statement : PooledSqlProvider.Statement)
  | exec (driver : SqlConnectionPool.Driver) (statement : PooledSqlProvider.Statement)
  | begin (driver : SqlConnectionPool.Driver) (transaction : Bool) (lastError : QString)
  | commit (ending : PooledSqlProvider.Ending)
  | rollback (ending : PooledSqlProvider.Ending)
  | migrate (driver : SqlConnectionPool.Driver) (engine : PooledSqlProvider.MigrationEngine) (steps : List QString)
  | disconnect

/-- A call's answer. The calls that answer with a `bool` leave an error text beside it. -/
inductive DbAnswer where
  | result (result : DbResult)
  | outcome (ok : Bool) (error : QString)
  | done
deriving DecidableEq

/-- What one call leaves, what it answers, and the statements it sent. -/
structure Called where
  after : PooledRun
  answer : DbAnswer
  issued : List PooledSqlProvider.Issue := []

namespace PooledRun
open SqlConnectionPool PooledSqlProvider

def connectionOf (pool : SqlConnectionPool) (slot : Nat) : QString :=
  ((pool.slots[slot]?).map (·.connectionName)).getD ""

/-- The slots an acquisition closed: those it passed or answered with that it found dead, and
the one it added. No transaction outlives the connection it was open on. -/
def closes (pool : SqlConnectionPool) (driver : Driver) (answer : Option Nat) (i : Nat) : Bool :=
  match pool.slots[i]? with
  | none => true
  | some slot =>
    !slot.leased && (slot.broken || !driver.isOpen slot.connectionName) && answer.all fun last => i ≤ last

/-- `pool.acquire(error)`, its effect on the open transactions with it. -/
def acquire (s : PooledRun) (pool : SqlConnectionPool) (driver : Driver) : PooledRun × Option Lease × QString :=
  let answer := pool.acquire driver ""
  ({ provider := { s.provider with pool := some answer.1 },
     inside := fun i => s.inside i && !closes pool driver answer.2.2 i },
    answer.2.2.map fun slot => ⟨slot, connectionOf answer.1 slot⟩, answer.2.1)

def giveBack (s : PooledRun) (lease : Option Lease) : PooledRun :=
  match lease with
  | none => s
  | some lease => { s with provider := { s.provider with pool := s.provider.pool.map (·.release lease.slot) } }

def setTxLease (s : PooledRun) (lease : Option Lease) : PooledRun :=
  let s := s.giveBack s.provider.txLease
  { s with provider := { s.provider with txLease := lease } }

def setInside (s : PooledRun) (slot : Nat) (inside : Bool) : PooledRun :=
  { s with inside := Function.update s.inside slot inside }

def runStatement (s : PooledRun) (pool : SqlConnectionPool) (slot : Nat) (statement : Statement) : Called where
  after := s.setInside slot (statement.leaves (s.inside slot))
  answer := .result statement.result
  issued := [⟨connectionOf pool slot, s.inside slot, s.provider.inTransaction⟩]

def runOnLease (s : PooledRun) (driver : Driver) (statement : Statement) : Called :=
  match s.provider.pool with
  | none => ⟨s, .result (.failure "provider not connected"), []⟩
  | some pool =>
    match s.provider.inTransaction, s.provider.txLease with
    | true, some lease => s.runStatement pool lease.slot statement
    | _, _ =>
      let leased := s.acquire pool driver
      match leased.2.1 with
      | none => ⟨leased.1, .result (.failure leased.2.2), []⟩
      | some lease =>
        let ran := leased.1.runStatement (pool.acquire driver "").1 lease.slot statement
        { ran with after := ran.after.giveBack (some lease) }

def begin (s : PooledRun) (driver : Driver) (transaction : Bool) (lastError : QString) : Called :=
  match s.provider.pool with
  | none => ⟨s, .outcome false "provider not connected", []⟩
  | some pool =>
    if s.provider.inTransaction then ⟨s, .outcome false "a transaction is already open", []⟩
    else
      let leased := s.acquire pool driver
      let s := leased.1.setTxLease leased.2.1
      match leased.2.1 with
      | none => ⟨s, .outcome false leased.2.2, []⟩
      | some lease =>
        if !transaction then ⟨s.setTxLease none, .outcome false lastError, []⟩
        else
          let s := s.setInside lease.slot true
          ⟨{ s with provider := { s.provider with inTransaction := true } }, .outcome true leased.2.2, []⟩

/-- `commit` and `rollback`, which differ in the driver call they make. -/
def finish (s : PooledRun) (ending : Ending) : Called :=
  if !s.provider.inTransaction then ⟨s, .outcome false "no transaction is open", []⟩
  else
    let ended := match s.provider.txLease with
      | none => s
      | some lease => s.setInside lease.slot (ending.leaves (s.inside lease.slot))
    let s := ended.setTxLease none
    ⟨{ s with provider := { s.provider with inTransaction := false } },
      .outcome ending.works (if ending.works then "" else ending.lastError), []⟩

def commit (s : PooledRun) (ending : Ending) : Called := s.finish ending

def rollback (s : PooledRun) (ending : Ending) : Called := s.finish ending

def migrate (s : PooledRun) (driver : Driver) (engine : MigrationEngine) (steps : List QString) : Called :=
  match s.provider.pool with
  | none => ⟨s, .outcome false "provider not connected", []⟩
  | some pool =>
    let leased := s.acquire pool driver
    match leased.2.1 with
    | none => ⟨leased.1, .outcome false leased.2.2, []⟩
    | some lease =>
      let migrated := applyMigrations lease.given (leased.1.inside lease.slot) engine steps
      ⟨(leased.1.setInside lease.slot migrated.inside).giveBack (some lease),
        .outcome migrated.ok migrated.error, migrated.issued⟩

def disconnect (s : PooledRun) : Called :=
  let s := s.setTxLease none
  ⟨{ provider := { s.provider with inTransaction := false, pool := none } }, .done, []⟩

def call (s : PooledRun) : DbCall → Called
  | .query driver statement => s.runOnLease driver statement
  | .exec driver statement => s.runOnLease driver statement
  | .begin driver transaction lastError => s.begin driver transaction lastError
  | .commit ending => s.commit ending
  | .rollback ending => s.rollback ending
  | .migrate driver engine steps => s.migrate driver engine steps
  | .disconnect => s.disconnect

def step (s : PooledRun) (c : DbCall) : PooledRun := (s.call c).after

/-- `openPool`: one connection now, and the migrations table on it. The statement's text is
fixed, and begins no transaction. -/
def openPool (driverName : QString) (poolSize : Int) (driver : Driver) (table : DbResult) : PooledRun × Bool × QString :=
  let pool := SqlConnectionPool.create driverName poolSize
  let leased := PooledRun.acquire {} pool driver
  match leased.2.1 with
  | none => ({}, false, leased.2.2)
  | some lease => (leased.1.giveBack (some lease), table.ok, leased.2.2)

end PooledRun
end SynQt
