import SynQt.Providers.PooledSqlProvider

namespace SynQt
open Lib Function Option List

namespace SqlConnectionPool
variable {pool : SqlConnectionPool} {driver : Driver} {error : QString}

def usable (driver : Driver) (slot : Slot) : Bool :=
  !slot.leased && (!slot.broken && driver.isOpen slot.connectionName || driver.opens slot.connectionName)

/-- A connection can be had: one is idle, or there is room for another. -/
def available (pool : SqlConnectionPool) (driver : Driver) : Bool :=
  pool.slots.any (usable driver) || pool.slots.length < pool.maxSize && driver.opens pool.nextName

private theorem reuse_isSome (driver : Driver) (slots : List Slot) (index : Nat) (error : QString) :
    (reuse driver slots index error).2.2.isSome = slots.any (usable driver) := by
  induction slots generalizing index error with
  | nil => rfl
  | cons slot slots ih =>
    rw [reuse, any_cons, usable]
    cases hleased : slot.leased with
    | true => exact ih (index + 1) error
    | false =>
      cases hopens : driver.opens slot.connectionName with
      | true => cases slot.broken <;> cases driver.isOpen slot.connectionName <;> simp [openSlot, hopens]
      | false => cases slot.broken <;> cases driver.isOpen slot.connectionName <;> simp [openSlot, hopens, ih]

private theorem acquire_isSome (pool : SqlConnectionPool) (driver : Driver) (error : QString) :
    (pool.acquire driver error).2.2.isSome = pool.available driver := by
  have hreuse := reuse_isSome driver pool.slots 0 error
  have hlength : (reuse driver pool.slots 0 error).1.length = pool.slots.length := by
    have hmarks := reuse_marks driver pool.slots 0 error
    rcases hmarks with ⟨-, hmarks⟩ | ⟨i, name, -, -, hmarks⟩
    · simpa [marksOf] using congrArg List.length hmarks
    · simpa [marksOf] using congrArg List.length hmarks
  rw [acquire, available, ← hreuse]
  generalize reuse driver pool.slots 0 error = tried at hlength
  cases hfound : tried.2.2 with
  | some i => simp [hfound]
  | none =>
    simp only [isSome_none, Bool.false_eq_true, if_false, hlength, Bool.false_or]
    by_cases hroom : pool.slots.length < pool.maxSize
    · have hname : nextName { pool with slots := tried.1 } = pool.nextName := rfl
      simp only [hroom, if_true, decide_true, Bool.true_and, openSlot, hname]
      cases driver.opens pool.nextName <;> rfl
    · simp [hroom]

end SqlConnectionPool

def DbCall.isStatement : DbCall → Bool
  | .query _ _ | .exec _ _ => true
  | _ => false

def DbCall.isEnding : DbCall → Bool
  | .commit _ | .rollback _ | .disconnect => true
  | _ => false

namespace PooledSqlProvider

/-- The answers to a migration's steps from `applied` on, the first failure last. -/
def answered (engine : MigrationEngine) (applied : Nat) : Nat → List Statement
  | 0 => []
  | count + 1 =>
    if (engine.step applied).result.ok then engine.step applied :: answered engine (applied + 1) count
    else [engine.step applied]

def stillOpen (statements : List Statement) (inside : Bool) : Bool :=
  statements.foldl (fun inside statement => statement.leaves inside) inside

/-- A migration that begins its transaction ends it: by its commit when every step works, and
by its rollback otherwise, unless the steps' own texts have ended it. -/
def MigrationEnds (engine : MigrationEngine) (steps : List QString) : Prop :=
  let applied := engine.version.getD 0
  let statements := answered engine applied (steps.length - applied)
  engine.select.ok = true → applied < steps.length → engine.transaction = true → stillOpen statements true = true →
    if statements.all (·.result.ok) then engine.commit.ends = true else engine.rollback.ends = true
deriving Decidable

variable {engine : MigrationEngine} {connection : QString} {inside : Bool}

variable (connection : QString)

private theorem runSteps_answered (engine : MigrationEngine) (inside : Bool) (index : Nat)
    (steps : List QString) :
    (runSteps connection engine inside index steps).2.1 = stillOpen (answered engine index steps.length) inside ∧
    ((runSteps connection engine inside index steps).2.2 = none ↔
      (answered engine index steps.length).all (·.result.ok) = true) := by
  induction steps generalizing inside index with
  | nil => exact ⟨rfl, iff_of_true rfl rfl⟩
  | cons step steps ih =>
    rw [runSteps, length_cons, answered]
    cases hworks : (engine.step index).result.ok with
    | false => simp [stillOpen, hworks]
    | true =>
      obtain ⟨hopen, hall⟩ := ih ((engine.step index).leaves inside) (index + 1)
      refine ⟨?_, ?_⟩
      · simpa [stillOpen] using hopen
      · simpa [hworks] using hall

private theorem runSteps_within (engine : MigrationEngine) (inside : Bool) (index : Nat)
    (steps : List QString) : ∀ issue ∈ (runSteps connection engine inside index steps).1, issue.within = true := by
  induction steps generalizing inside index with
  | nil => exact fun issue hissue => nomatch hissue
  | cons step steps ih =>
    intro issue hissue
    rw [runSteps] at hissue
    simp only at hissue
    split at hissue
    · rw [mem_singleton.mp hissue]
    · rcases mem_cons.mp hissue with rfl | hlater
      · rfl
      · exact ih _ _ issue hlater

private theorem applyMigrations_outside (inside : Bool) (engine : MigrationEngine) (steps : List QString)
    (issue : Issue) (hissue : issue ∈ (applyMigrations connection inside engine steps).issued)
    (houtside : issue.within = false) : issue.inside = inside := by
  have hselect (h : issue ∈ [(⟨connection, inside, false⟩ : Issue)]) : issue.inside = inside := by
    rw [mem_singleton.mp h]
  have hran (h : issue ∈ (runSteps connection engine true (engine.version.getD 0)
      (steps.drop (engine.version.getD 0))).1) : issue.inside = inside := by
    rw [runSteps_within _ _ _ _ _ issue h] at houtside
    cases houtside
  rw [applyMigrations] at hissue
  simp only at hissue
  split at hissue
  · exact hselect hissue
  split at hissue
  · exact hselect hissue
  split at hissue
  · exact hselect hissue
  split at hissue
  · rcases mem_cons.mp hissue with rfl | hlater
    · rfl
    · exact hran hlater
  · rcases mem_append.mp hissue with hfirst | hrows
    · rcases mem_cons.mp hfirst with rfl | hlater
      · rfl
      · exact hran hlater
    · rcases mem_cons.mp hrows with rfl | hrow
      · cases houtside
      · rw [mem_singleton.mp hrow] at houtside
        cases houtside

theorem applyMigrations_ends (engine : MigrationEngine) (steps : List QString) :
    (applyMigrations connection false engine steps).inside = false ↔ MigrationEnds engine steps := by
  rw [applyMigrations, MigrationEnds]
  cases hselect : engine.select.ok with
  | false => exact iff_of_true rfl fun h => nomatch h
  | true =>
    simp only [Bool.not_true, Bool.false_eq_true, if_false, ge_iff_le, forall_const]
    rcases Nat.lt_or_ge (engine.version.getD 0) steps.length with hmore | hdone
    · rw [if_neg (Nat.not_le.mpr hmore)]
      cases hbegin : engine.transaction with
      | false => exact iff_of_true rfl fun _ h => nomatch h
      | true =>
        obtain ⟨hopen, hall⟩ := runSteps_answered connection engine true (engine.version.getD 0)
          (steps.drop (engine.version.getD 0))
        rw [length_drop] at hopen hall
        simp only [Bool.not_true, Bool.false_eq_true, if_false, hmore, forall_const]
        generalize answered engine (engine.version.getD 0) (steps.length - engine.version.getD 0) = statements
          at hopen hall ⊢
        cases hfailed : (runSteps connection engine true (engine.version.getD 0)
            (steps.drop (engine.version.getD 0))).2.2 with
        | none =>
          rw [if_pos (hall.mp hfailed)]
          simp only [Ending.leaves, hopen]
          cases stillOpen statements true <;> simp
        | some index =>
          have hnot : ¬ statements.all (·.result.ok) = true := fun h => by
            rw [hall.mpr h] at hfailed
            cases hfailed
          rw [if_neg hnot]
          simp only [Ending.leaves, hopen]
          cases stillOpen statements true <;> simp
    · rw [if_pos hdone]
      exact iff_of_true rfl fun h => absurd h (Nat.not_lt.mpr hdone)

end PooledSqlProvider

namespace PooledRun
open SqlConnectionPool PooledSqlProvider
variable {s : PooledRun} {pool : SqlConnectionPool} {driver : Driver}

def Returned (s : PooledRun) : Prop :=
  ∀ i, s.inside i = true → ∃ pool name, s.provider.pool = some pool ∧ pool.marks[i]? = some (name, true)

/-- The promise of the provider at one call: a statement sent while it has no transaction open
finds none open, one sent inside a transaction goes to the connection pinned at its beginning,
and no connection is given back inside a transaction. -/
structure Clean (s : PooledRun) (c : DbCall) : Prop where
  outside : ∀ issue ∈ (s.call c).issued, issue.within = false → issue.inside = false
  pinned : s.provider.inTransaction = true → ∃ lease, s.provider.txLease = some lease ∧
    (c.isStatement = true → (s.call c).issued.map (·.connection) = [lease.given]) ∧
    (c.isEnding = false → (s.step c).provider.txLease = some lease ∧ (s.step c).provider.inTransaction = true)
  returned : (s.step c).Returned

def Obtainable (s : PooledRun) (driver : Driver) : Prop :=
  ∃ pool, s.provider.pool = some pool ∧ pool.available driver = true

/-- No call leaves a transaction behind on the connection it gives back: a statement outside a
transaction begins none, and a `commit`, a `rollback` and a migration end theirs. -/
def Ends (s : PooledRun) : DbCall → Prop
  | .query driver statement | .exec driver statement =>
    s.provider.inTransaction = false → s.Obtainable driver → statement.leaves false = false
  | .commit ending | .rollback ending =>
    ∀ lease, s.provider.txLease = some lease → s.inside lease.slot = true → ending.ends = true
  | .migrate driver engine steps => s.Obtainable driver → MigrationEnds engine steps
  | .begin _ _ _ | .disconnect => True

/-- The pinned lease names a slot that is leased to it, and it is the only one whose connection
a transaction is open on. -/
structure Settled (s : PooledRun) : Prop where
  leased : ∀ lease, s.provider.txLease = some lease →
    ∃ pool, s.provider.pool = some pool ∧ pool.marks[lease.slot]? = some (lease.given, true)
  transacting : s.provider.inTransaction = s.provider.txLease.isSome
  alone : ∀ i, s.inside i = true → ∃ lease, s.provider.txLease = some lease ∧ lease.slot = i

theorem Settled.returned (h : Settled s) : s.Returned := by
  intro i hi
  obtain ⟨lease, hlease, rfl⟩ := h.alone i hi
  obtain ⟨pool, hpool, hmark⟩ := h.leased lease hlease
  exact ⟨pool, lease.given, hpool, hmark⟩

private theorem connectionOf_mark {i : Nat} {name : QString} {leased : Bool} (h : pool.marks[i]? = some (name, leased)) :
    connectionOf pool i = name := by
  rw [SqlConnectionPool.marks, marksOf, List.getElem?_map, map_eq_some_iff] at h
  obtain ⟨slot, hslot, heq⟩ := h
  rw [connectionOf, hslot, map_some, getD_some]
  exact congrArg Prod.fst heq

@[simp] theorem acquire_txLease (s : PooledRun) (pool : SqlConnectionPool) (driver : Driver) :
    (s.acquire pool driver).1.provider.txLease = s.provider.txLease := rfl

@[simp] theorem acquire_inTransaction (s : PooledRun) (pool : SqlConnectionPool) (driver : Driver) :
    (s.acquire pool driver).1.provider.inTransaction = s.provider.inTransaction := rfl

private theorem acquire_lease_isSome (s : PooledRun) (pool : SqlConnectionPool) (driver : Driver) :
    (s.acquire pool driver).2.1.isSome = pool.available driver := by
  rw [← acquire_isSome pool driver "", acquire, isSome_map]

/-- A lease taken in a settled state: the state stays settled, and the connection has no
transaction open and is not the pinned one. -/
theorem Settled.acquire (h : Settled s) (hpool : s.provider.pool = some pool) (driver : Driver) :
    Settled (s.acquire pool driver).1 ∧
    ∀ lease, (s.acquire pool driver).2.1 = some lease →
      (s.acquire pool driver).1.provider.pool = some (pool.acquire driver "").1 ∧
      (pool.acquire driver "").1.marks[lease.slot]? = some (lease.given, true) ∧
      (∀ held, s.provider.txLease = some held → held.slot ≠ lease.slot) ∧
      (s.acquire pool driver).1.inside lease.slot = false := by
  have hinside (i : Nat) (hi : (s.acquire pool driver).1.inside i = true) : s.inside i = true := by
    rw [PooledRun.acquire, Bool.and_eq_true] at hi
    exact hi.1
  have hheld (held : Lease) (hlease : s.provider.txLease = some held) :
      pool.marks[held.slot]? = some (held.given, true) := by
    obtain ⟨pool', hpool', hmark⟩ := h.leased held hlease
    rw [hpool] at hpool'
    cases hpool'
    exact hmark
  have halone (i : Nat) (hi : (s.acquire pool driver).1.inside i = true) :
      ∃ lease, s.provider.txLease = some lease ∧ lease.slot = i := h.alone i (hinside i hi)
  rcases acquire_cases pool driver "" with ⟨hanswer, hmarks⟩ | ⟨i, name, hanswer, hfree, hnew, hothers, -⟩
  · refine ⟨⟨fun held hlease => ⟨_, rfl, ?_⟩, h.transacting, halone⟩, fun lease hlease => ?_⟩
    · rw [hmarks]
      exact hheld held hlease
    · rw [PooledRun.acquire, hanswer] at hlease
      cases hlease
  · have hother (held : Lease) (hlease : s.provider.txLease = some held) : held.slot ≠ i := by
      intro hsame
      have hmark := hheld held hlease
      rw [hsame] at hmark
      exact hfree _ hmark
    refine ⟨⟨fun held hlease => ⟨_, rfl, ?_⟩, h.transacting, halone⟩, fun lease hlease => ?_⟩
    · rw [hothers _ (hother held hlease)]
      exact hheld held hlease
    · simp only [PooledRun.acquire, hanswer, map_some, connectionOf_mark hnew, Option.some.injEq] at hlease
      subst hlease
      refine ⟨rfl, hnew, hother, ?_⟩
      rw [← Bool.not_eq_true]
      intro hopen
      obtain ⟨held, hlease, hslot⟩ := halone i hopen
      exact hother held hlease hslot

/-- A lease that is not the pinned one is given back: the state is settled again when its
connection has no transaction open, and only then. -/
theorem Settled.giveBack (h : Settled s) {lease : Lease} (hpool : s.provider.pool = some pool)
    (hmark : pool.marks[lease.slot]? = some (lease.given, true))
    (hother : ∀ held, s.provider.txLease = some held → held.slot ≠ lease.slot) (inside : Bool) :
    (inside = false → Settled ((s.setInside lease.slot inside).giveBack (some lease))) ∧
    (((s.setInside lease.slot inside).giveBack (some lease)).Returned → inside = false) := by
  have hafter : ((s.setInside lease.slot inside).giveBack (some lease)).provider.pool =
      some (pool.release lease.slot) := by
    rw [PooledRun.giveBack, setInside, hpool]
    rfl
  constructor
  · rintro rfl
    refine ⟨fun held hlease => ⟨_, hafter, ?_⟩, h.transacting, fun i hi => ?_⟩
    · obtain ⟨pool', hpool', hheld⟩ := h.leased held hlease
      rw [hpool] at hpool'
      cases hpool'
      rw [release_marks, if_neg (Ne.symm (hother held hlease))]
      exact hheld
    · have hi : update s.inside lease.slot false i = true := hi
      rw [update_apply] at hi
      split at hi
      · cases hi
      · exact h.alone i hi
  · intro hreturned
    rw [← Bool.not_eq_true]
    rintro rfl
    obtain ⟨pool', name, hpool', hleased⟩ := hreturned lease.slot (update_self ..)
    rw [hafter] at hpool'
    cases hpool'
    rw [release_marks, if_pos rfl, hmark] at hleased
    cases hleased

private theorem obtainable_iff (hpool : s.provider.pool = some pool) :
    s.Obtainable driver ↔ (s.acquire pool driver).2.1.isSome = true := by
  rw [acquire_lease_isSome]
  constructor
  · rintro ⟨pool', hpool', havailable⟩
    rw [hpool] at hpool'
    cases hpool'
    exact havailable
  · exact fun h => ⟨pool, hpool, h⟩

theorem Settled.runOnLease_cases (h : Settled s) (driver : Driver) (statement : Statement) :
    (∃ lease, s.provider.txLease = some lease ∧ s.provider.inTransaction = true ∧
      (s.runOnLease driver statement).issued = [⟨lease.given, s.inside lease.slot, true⟩] ∧
      (s.runOnLease driver statement).after = s.setInside lease.slot (statement.leaves (s.inside lease.slot))) ∨
    (s.provider.inTransaction = false ∧ ¬ s.Obtainable driver ∧ (s.runOnLease driver statement).issued = [] ∧
      Settled (s.runOnLease driver statement).after) ∨
    (s.provider.inTransaction = false ∧ s.Obtainable driver ∧
      (∃ connection, (s.runOnLease driver statement).issued = [⟨connection, false, false⟩]) ∧
      (statement.leaves false = false → Settled (s.runOnLease driver statement).after) ∧
      ((s.runOnLease driver statement).after.Returned → statement.leaves false = false)) := by
  have htransacting := h.transacting
  rw [PooledRun.runOnLease]
  cases hlease : s.provider.txLease with
  | some lease =>
    left
    obtain ⟨pool, hpool, hmark⟩ := h.leased lease hlease
    rw [hlease, isSome_some] at htransacting
    rw [hpool, htransacting]
    refine ⟨lease, rfl, rfl, ?_, rfl⟩
    simp only [runStatement, htransacting, connectionOf_mark hmark]
  | none =>
    right
    rw [hlease, isSome_none] at htransacting
    rw [htransacting]
    cases hpool : s.provider.pool with
    | none =>
      left
      refine ⟨rfl, ?_, rfl, h⟩
      rintro ⟨pool, hsome, -⟩
      rw [hpool] at hsome
      cases hsome
    | some pool =>
      obtain ⟨hsettled, hleased⟩ := h.acquire hpool driver
      rw [obtainable_iff hpool]
      cases hanswer : (s.acquire pool driver).2.1 with
      | none =>
        left
        simp only [hanswer]
        exact ⟨trivial, Bool.false_ne_true, trivial, hsettled⟩
      | some lease =>
        obtain ⟨hafter, hmark, hother, hclean⟩ := hleased lease hanswer
        right
        have hback := hsettled.giveBack hafter hmark hother (statement.leaves false)
        simp only [hanswer, runStatement, hclean, acquire_inTransaction, htransacting]
        exact ⟨trivial, rfl, ⟨connectionOf (pool.acquire driver "").1 lease.slot, rfl⟩, hback.1, hback.2⟩

private theorem Settled.migrate_cases (h : Settled s) (driver : Driver) (engine : MigrationEngine) (steps : List QString) :
    (∀ issue ∈ (s.migrate driver engine steps).issued, issue.within = false → issue.inside = false) ∧
    (s.migrate driver engine steps).after.provider.txLease = s.provider.txLease ∧
    (s.migrate driver engine steps).after.provider.inTransaction = s.provider.inTransaction ∧
    ((s.Obtainable driver → MigrationEnds engine steps) → Settled (s.migrate driver engine steps).after) ∧
    ((s.migrate driver engine steps).after.Returned → s.Obtainable driver → MigrationEnds engine steps) := by
  rw [PooledRun.migrate]
  cases hpool : s.provider.pool with
  | none =>
    refine ⟨?_, rfl, rfl, fun _ => h, fun _ => ?_⟩
    · rintro issue ⟨⟩
    · rintro ⟨pool, hsome, -⟩
      rw [hpool] at hsome
      cases hsome
  | some pool =>
    obtain ⟨hsettled, hleased⟩ := h.acquire hpool driver
    rw [obtainable_iff hpool]
    cases hanswer : (s.acquire pool driver).2.1 with
    | none =>
      simp only [hanswer]
      refine ⟨?_, rfl, rfl, fun _ => hsettled, fun _ hsome => nomatch hsome⟩
      rintro issue ⟨⟩
    | some lease =>
      obtain ⟨hafter, hmark, hother, hclean⟩ := hleased lease hanswer
      have hback := hsettled.giveBack hafter hmark hother (applyMigrations lease.given false engine steps).inside
      rw [applyMigrations_ends] at hback
      simp only [hanswer, hclean, isSome_some, forall_const]
      exact ⟨applyMigrations_outside lease.given false engine steps, rfl, rfl, hback.1, hback.2⟩

private theorem settled_idle (hnone : s.provider.txLease = none) (hidle : s.provider.inTransaction = false)
    (hclean : ∀ i, s.inside i = false) : Settled s where
  leased held hheld := by
    rw [hnone] at hheld
    cases hheld
  transacting := by rw [hnone, hidle, isSome_none]
  alone i hi := by
    rw [hclean i] at hi
    cases hi

private theorem Settled.clean (h : Settled s) (hnone : s.provider.txLease = none) (i : Nat) : s.inside i = false := by
  rw [← Bool.not_eq_true]
  intro hi
  obtain ⟨held, hheld, -⟩ := h.alone i hi
  rw [hnone] at hheld
  cases hheld

theorem Settled.begin (h : Settled s) (driver : Driver) (transaction : Bool) (lastError : QString) :
    Settled (s.begin driver transaction lastError).after ∧
    (s.provider.inTransaction = true → (s.begin driver transaction lastError).after = s) ∧
    (s.begin driver transaction lastError).issued = [] := by
  have htransacting := h.transacting
  rw [PooledRun.begin]
  cases hpool : s.provider.pool with
  | none => exact ⟨h, fun _ => rfl, rfl⟩
  | some pool =>
    cases hidle : s.provider.inTransaction with
    | true => exact ⟨h, fun _ => rfl, rfl⟩
    | false =>
      rw [hidle, eq_comm, isSome_eq_false_iff, isNone_iff_eq_none] at htransacting
      obtain ⟨hsettled, hleased⟩ := h.acquire hpool driver
      have hclean := hsettled.clean htransacting
      cases hanswer : (s.acquire pool driver).2.1 with
      | none =>
        simp only [hanswer, setTxLease, acquire_txLease, htransacting, PooledRun.giveBack, Bool.false_eq_true, if_false]
        exact ⟨settled_idle rfl hidle hclean, fun h => h.elim, trivial⟩
      | some lease =>
        obtain ⟨hafter, hmark, -, -⟩ := hleased lease hanswer
        simp only [hanswer, setTxLease, acquire_txLease, htransacting, PooledRun.giveBack, Bool.false_eq_true, if_false]
        cases transaction with
        | false => exact ⟨settled_idle rfl hidle hclean, fun h => h.elim, rfl⟩
        | true =>
          refine ⟨⟨?_, rfl, fun i hi => ⟨lease, rfl, ?_⟩⟩, fun h => h.elim, rfl⟩
          · intro held hheld
            cases hheld
            exact ⟨_, hafter, hmark⟩
          · have hi : update (s.acquire pool driver).1.inside lease.slot true i = true := hi
            rw [update_apply, hclean i] at hi
            split at hi
            · rename_i hslot
              exact hslot.symm
            · cases hi

theorem Settled.finish (h : Settled s) (ending : Ending) :
    (s.finish ending).issued = [] ∧
    ((∀ lease, s.provider.txLease = some lease → s.inside lease.slot = true → ending.ends = true) →
      Settled (s.finish ending).after) ∧
    ((s.finish ending).after.Returned →
      ∀ lease, s.provider.txLease = some lease → s.inside lease.slot = true → ending.ends = true) := by
  have htransacting := h.transacting
  rw [PooledRun.finish]
  cases hlease : s.provider.txLease with
  | none =>
    rw [hlease, isSome_none] at htransacting
    rw [htransacting]
    exact ⟨rfl, fun _ => h, fun _ lease hlease => nomatch hlease⟩
  | some lease =>
    rw [hlease, isSome_some] at htransacting
    obtain ⟨pool, hpool, hmark⟩ := h.leased lease hlease
    rw [htransacting]
    simp only [setTxLease, setInside, PooledRun.giveBack, hlease, hpool, Bool.not_true, Bool.false_eq_true, if_false,
      map_some]
    refine ⟨trivial, fun hends => settled_idle rfl rfl fun i => ?_, fun hreturned held hheld hinside => ?_⟩
    · show update s.inside lease.slot (ending.leaves (s.inside lease.slot)) i = false
      rw [update_apply]
      split
      · cases hinside : s.inside lease.slot with
        | false => rfl
        | true => rw [Ending.leaves, hends lease rfl hinside, Bool.not_true, Bool.and_false]
      · rename_i hslot
        rw [← Bool.not_eq_true]
        intro hi
        obtain ⟨held, hheld, rfl⟩ := h.alone i hi
        rw [hlease] at hheld
        cases hheld
        exact hslot rfl
    · cases hheld
      rw [← Bool.not_eq_false]
      intro hleft
      have hopen : update s.inside lease.slot (ending.leaves (s.inside lease.slot)) lease.slot = true := by
        rw [update_self, Ending.leaves, hinside, hleft]
        rfl
      obtain ⟨pool', name, hpool', hleased⟩ := hreturned lease.slot hopen
      cases hpool'
      rw [release_marks, if_pos rfl, hmark] at hleased
      cases hleased

private theorem settled_disconnect (s : PooledRun) : Settled s.disconnect.after :=
  settled_idle rfl rfl fun _ => rfl

section
variable (h : Settled s)
include h

section
variable (c : DbCall)

theorem Settled.step (hends : s.Ends c) : Settled (s.step c) := by
  have hstatement (driver : Driver) (statement : Statement)
      (hends : s.provider.inTransaction = false → s.Obtainable driver → statement.leaves false = false) :
      Settled (s.runOnLease driver statement).after := by
    rcases h.runOnLease_cases driver statement with ⟨lease, hlease, -, -, hafter⟩ | ⟨-, -, -, hsettled⟩ |
      ⟨hidle, hsome, -, hsettled, -⟩
    · rw [hafter]
      refine ⟨h.leased, h.transacting, fun i hi => ?_⟩
      have hi : update s.inside lease.slot (statement.leaves (s.inside lease.slot)) i = true := hi
      rw [update_apply] at hi
      split at hi
      · rename_i hslot
        exact ⟨lease, hlease, hslot.symm⟩
      · exact h.alone i hi
    · exact hsettled
    · exact hsettled (hends hidle hsome)
  cases c with
  | query driver statement | exec driver statement => exact hstatement driver statement hends
  | begin driver transaction lastError => exact (h.begin driver transaction lastError).1
  | commit ending | rollback ending => exact (h.finish ending).2.1 hends
  | migrate driver engine steps => exact (h.migrate_cases driver engine steps).2.2.2.1 hends
  | disconnect => exact settled_disconnect s

theorem Settled.ends (hreturned : (s.step c).Returned) : s.Ends c := by
  have hstatement (driver : Driver) (statement : Statement) (hreturned : (s.runOnLease driver statement).after.Returned) :
      s.provider.inTransaction = false → s.Obtainable driver → statement.leaves false = false := by
    intro hidle hsome
    rcases h.runOnLease_cases driver statement with ⟨-, -, htransacting, -, -⟩ | ⟨-, hnone, -, -⟩ | ⟨-, -, -, -, hback⟩
    · rw [hidle] at htransacting
      cases htransacting
    · exact absurd hsome hnone
    · exact hback hreturned
  cases c with
  | query driver statement | exec driver statement => exact hstatement driver statement hreturned
  | commit ending | rollback ending => exact (h.finish ending).2.2 hreturned
  | migrate driver engine steps => exact (h.migrate_cases driver engine steps).2.2.2.2 hreturned
  | begin _ _ _ => trivial
  | disconnect => trivial

theorem Settled.outside :
    ∀ issue ∈ (s.call c).issued, issue.within = false → issue.inside = false := by
  have hstatement (driver : Driver) (statement : Statement) :
      ∀ issue ∈ (s.runOnLease driver statement).issued, issue.within = false → issue.inside = false := by
    intro issue hissue hwithin
    rcases h.runOnLease_cases driver statement with ⟨lease, -, -, hissued, -⟩ | ⟨-, -, hissued, -⟩ |
      ⟨-, -, ⟨connection, hissued⟩, -, -⟩
    · rw [hissued, mem_singleton] at hissue
      rw [hissue] at hwithin
      cases hwithin
    · rw [hissued] at hissue
      cases hissue
    · rw [hissued, mem_singleton] at hissue
      rw [hissue]
  cases c with
  | query driver statement | exec driver statement => exact hstatement driver statement
  | begin driver transaction lastError =>
    intro issue hissue
    rw [PooledRun.call, (h.begin driver transaction lastError).2.2] at hissue
    cases hissue
  | commit ending =>
    intro issue hissue
    rw [PooledRun.call, PooledRun.commit, (h.finish ending).1] at hissue
    cases hissue
  | rollback ending =>
    intro issue hissue
    rw [PooledRun.call, PooledRun.rollback, (h.finish ending).1] at hissue
    cases hissue
  | migrate driver engine steps => exact (h.migrate_cases driver engine steps).1
  | disconnect =>
    rintro issue ⟨⟩

theorem Settled.pinned (hopen : s.provider.inTransaction = true) :
    ∃ lease, s.provider.txLease = some lease ∧
      (c.isStatement = true → (s.call c).issued.map (·.connection) = [lease.given]) ∧
      (c.isEnding = false → (s.step c).provider.txLease = some lease ∧ (s.step c).provider.inTransaction = true) := by
  have htransacting := h.transacting
  rw [hopen] at htransacting
  obtain ⟨lease, hlease⟩ := isSome_iff_exists.mp htransacting.symm
  refine ⟨lease, hlease, ?_⟩
  have hstatement (driver : Driver) (statement : Statement) :
      (s.runOnLease driver statement).issued.map (·.connection) = [lease.given] ∧
      (s.runOnLease driver statement).after.provider = s.provider := by
    rcases h.runOnLease_cases driver statement with ⟨held, hheld, -, hissued, hafter⟩ | ⟨hidle, -⟩ | ⟨hidle, -⟩
    · rw [hlease] at hheld
      cases hheld
      rw [hissued, hafter]
      exact ⟨rfl, rfl⟩
    · rw [hopen] at hidle
      cases hidle
    · rw [hopen] at hidle
      cases hidle
  cases c with
  | query driver statement | exec driver statement =>
    refine ⟨fun _ => (hstatement driver statement).1, fun _ => ?_⟩
    rw [PooledRun.step, PooledRun.call, (hstatement driver statement).2]
    exact ⟨hlease, hopen⟩
  | begin driver transaction lastError =>
    refine ⟨fun hnot => absurd hnot Bool.false_ne_true, fun _ => ?_⟩
    rw [PooledRun.step, PooledRun.call, (h.begin driver transaction lastError).2.1 hopen]
    exact ⟨hlease, hopen⟩
  | migrate driver engine steps =>
    refine ⟨fun hnot => absurd hnot Bool.false_ne_true, fun _ => ?_⟩
    rw [PooledRun.step, PooledRun.call, (h.migrate_cases driver engine steps).2.1,
      (h.migrate_cases driver engine steps).2.2.1]
    exact ⟨hlease, hopen⟩
  | commit ending | rollback ending
  | disconnect => exact ⟨fun hnot => absurd hnot Bool.false_ne_true, fun hnot => absurd hnot Bool.false_ne_true.symm⟩

private theorem Settled.clean_iff : s.Clean c ↔ s.Ends c :=
  ⟨fun hclean => h.ends c hclean.returned,
    fun hends => ⟨h.outside c, h.pinned c, (h.step c hends).returned⟩⟩

end

end

private theorem settled_openPool (driverName : QString) (poolSize : Int) (driver : Driver) (table : DbResult) :
    Settled (openPool driverName poolSize driver table).1 := by
  rw [openPool]
  split
  · exact settled_idle rfl rfl fun _ => rfl
  · exact settled_idle rfl rfl fun _ => rfl

/-- From the moment the pool is open: every call of a run keeps the provider's promise exactly
when none leaves a transaction behind on a connection it gives back. -/
theorem clean_iff_ends (driverName : QString) (poolSize : Int) (driver : Driver) (table : DbResult)
    (calls : List DbCall) :
    Each step Clean (openPool driverName poolSize driver table).1 calls ↔
      Each step Ends (openPool driverName poolSize driver table).1 calls :=
  each_congr Settled (fun _ c h => h.clean_iff c) (fun _ c h hends => h.step c hends)
    (settled_openPool driverName poolSize driver table) calls

def swallowed : List DbCall := [
  .begin .up true "", .commit { works := false, lastError := "server closed the connection" }, .exec .up {}]

/-- The next caller's write is sent inside the transaction whose commit failed. -/
theorem lost_commit_swallows : ¬ Each step Clean (openPool "QPSQL" 4 .up { ok := true }).1 swallowed := by
  rintro ⟨-, -, hexec, -⟩
  have hinside : true = false := hexec.outside ⟨"synqt-pool-qpsql-1", true, false⟩ (by decide) rfl
  cases hinside

end PooledRun
end SynQt
