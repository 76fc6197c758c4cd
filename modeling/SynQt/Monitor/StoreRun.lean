import SynQt.Monitor.Retention

namespace SynQt
open Lib List

namespace EventStore
variable {compact : QVariantMap → QString} {hasFts : Bool} {t : Tables} {s : EventStore}

def batchRows (compact : QVariantMap → QString) (start : Nat) (events : List TraceEvent) : List EventRow :=
  List.zipWith (rowOf compact) (List.range' start events.length) events

def indexedRows (index : Nat → Bool) : Nat → List EventRow → List FtsRow
  | _, [] => []
  | place, row :: rows =>
    if index place then ftsOf row :: indexedRows index (place + 1) rows else indexedRows index (place + 1) rows

private theorem batchRows_cons (start : Nat) (event : TraceEvent) (events : List TraceEvent) :
    batchRows compact start (event :: events) = rowOf compact start event :: batchRows compact (start + 1) events := by
  rw [batchRows, length_cons, List.range'_succ, zipWith_cons_cons, batchRows]

private theorem batchRows_length (start : Nat) (events : List TraceEvent) :
    (batchRows compact start events).length = events.length := by
  simp [batchRows]

private theorem batchRows_ids (start : Nat) (events : List TraceEvent) :
    (batchRows compact start events).map (·.id) = List.range' start events.length := by
  induction events generalizing start with
  | nil => rfl
  | cons event events ih => rw [batchRows_cons, map_cons, ih, length_cons, List.range'_succ, rowOf]

private theorem indexedRows_length_le (index : Nat → Bool) (place : Nat) (rows : List EventRow) :
    (indexedRows index place rows).length ≤ rows.length := by
  induction rows generalizing place with
  | nil => exact Nat.le_refl _
  | cons row rows ih =>
    rw [indexedRows, length_cons]
    split
    · exact Nat.succ_le_succ (ih (place + 1))
    · exact Nat.le_succ_of_le (ih (place + 1))

private theorem indexedRows_eq_iff (index : Nat → Bool) (place : Nat) (rows : List EventRow) :
    indexedRows index place rows = rows.map ftsOf ↔ ∀ i < rows.length, index (place + i) = true := by
  induction rows generalizing place with
  | nil => exact iff_of_true rfl fun _ hi => absurd hi (Nat.not_lt_zero _)
  | cons row rows ih =>
    have hsplit : (∀ i < rows.length + 1, index (place + i) = true) ↔
        index place = true ∧ ∀ i < rows.length, index (place + 1 + i) = true := by
      rw [Nat.forall_lt_succ_left, Nat.add_zero]
      refine and_congr_right fun _ => forall₂_congr fun i _ => ?_
      rw [Nat.add_right_comm, Nat.add_assoc]
    rw [indexedRows, map_cons, length_cons, hsplit, ← ih]
    cases hindex : index place with
    | true => simp
    | false =>
      rw [if_neg Bool.false_ne_true]
      refine iff_of_false (fun heq => ?_) fun h => Bool.false_ne_true h.1
      have hle := indexedRows_length_le index (place + 1) rows
      rw [heq, length_cons, length_map] at hle
      exact absurd hle (Nat.not_succ_le_self _)

private theorem le_foldr_max {ids : List Nat} {id : Nat} (h : id ∈ ids) : id ≤ ids.foldr max 0 := by
  induction ids with
  | nil => cases h
  | cons first ids ih =>
    rw [foldr_cons]
    obtain rfl | hmem := mem_cons.mp h
    · exact Nat.le_max_left _ _
    · exact Nat.le_trans (ih hmem) (Nat.le_max_right _ _)

private theorem id_lt_nextId {events : List EventRow} {r : EventRow} (h : r ∈ events) : r.id < nextId events :=
  Nat.lt_succ_of_le (le_foldr_max (mem_map_of_mem h))

private theorem nextId_snoc (events : List EventRow) {row : EventRow} (hid : row.id = nextId events) :
    nextId (events ++ [row]) = nextId events + 1 := by
  have hmax (ids : List Nat) (n : Nat) (hn : ids.foldr max 0 < n) : (ids ++ [n]).foldr max 0 = n := by
    induction ids with
    | nil => simp
    | cons first ids ih =>
      rw [foldr_cons] at hn
      rw [cons_append, foldr_cons, ih (by omega)]
      omega
  rw [nextId, map_append, map_singleton, hid, hmax _ (nextId events) (Nat.lt_succ_self _)]

variable {events : List TraceEvent}

private theorem insertEvents_fails (engine : AppendEngine) {place : Nat} (w : Tables)
    (h : ∃ i < events.length, engine.insert (place + i) = false) :
    ∃ w', insertEvents compact hasFts engine ⟨t, some w⟩ place events = (⟨t, some w'⟩, false) := by
  induction events generalizing place w with
  | nil =>
    obtain ⟨i, hi, _⟩ := h
    cases hi
  | cons event events ih =>
    rw [insertEvents]
    simp only [Connection.exec_open]
    cases hinsert : engine.insert place with
    | false => exact ⟨w, rfl⟩
    | true =>
      have hlater : ∃ i < events.length, engine.insert (place + 1 + i) = false := by
        obtain ⟨i, hi, hfails⟩ := h
        cases i with
        | zero =>
          rw [Nat.add_zero, hinsert] at hfails
          cases hfails
        | succ i => exact ⟨i, Nat.lt_of_succ_lt_succ hi, by rw [Nat.add_right_comm]; exact hfails⟩
      cases hasFts
      · exact ih _ hlater
      · exact ih _ hlater

/-- Every insert works: the batch is there, and what of its full-text rows got in. No row that
is already there stands in the way of a number that has not been given yet. -/
theorem insertEvents_works (engine : AppendEngine) {place : Nat} (w : Tables)
    (hbelow : ∀ f ∈ w.fts, f.rowid < nextId w.events) (h : ∀ i < events.length, engine.insert (place + i) = true) :
    insertEvents compact hasFts engine ⟨t, some w⟩ place events =
      (⟨t, some {
        events := w.events ++ batchRows compact (nextId w.events) events
        fts := w.fts ++ if hasFts then
            indexedRows engine.index place (batchRows compact (nextId w.events) events)
          else [] }⟩, true) := by
  induction events generalizing place w with
  | nil =>
    rw [insertEvents]
    cases hasFts <;> simp [batchRows, indexedRows]
  | cons event events ih =>
    have hnow : engine.insert place = true := h 0 (Nat.succ_pos _)
    have hlater : ∀ i < events.length, engine.insert (place + 1 + i) = true := by
      intro i hi
      have hthis := h (i + 1) (Nat.succ_lt_succ hi)
      rw [Nat.add_right_comm]
      exact hthis
    generalize hrow : rowOf compact (nextId w.events) event = row
    have hid : row.id = nextId w.events := by rw [← hrow, rowOf]
    have hnext := nextId_snoc w.events hid
    have hfree : w.fts.any (·.rowid == row.id) = false := by
      rw [any_eq_false]
      intro f hf
      rw [beq_iff_eq, hid]
      exact Nat.ne_of_lt (hbelow f hf)
    rw [insertEvents, batchRows_cons, indexedRows, hrow]
    simp only [Connection.view, Option.getD_some, hrow]
    simp only [Connection.exec_open, hnow, if_true, Option.getD_some, hfree, Bool.not_true, Bool.false_eq_true,
      if_false, Bool.not_false, Bool.and_true]
    have hstill : ∀ f ∈ w.fts, f.rowid < nextId (w.events ++ [row]) := by
      intro f hf
      rw [hnext]
      exact Nat.lt_succ_of_lt (hbelow f hf)
    cases hasFts with
    | false =>
      rw [if_neg Bool.false_ne_true, ih { w with events := w.events ++ [row] } hstill hlater, hnext, if_neg Bool.false_ne_true,
        if_neg Bool.false_ne_true, append_assoc, singleton_append]
    | true =>
      rw [if_pos rfl]
      cases hindex : engine.index place with
      | false =>
        rw [if_neg Bool.false_ne_true, ih { w with events := w.events ++ [row] } hstill hlater, hnext, append_assoc,
          singleton_append]
        rfl
      | true =>
        have hgrown : ∀ f ∈ w.fts ++ [ftsOf row], f.rowid < nextId (w.events ++ [row]) := by
          intro f hf
          obtain hf | hf := mem_append.mp hf
          · exact hstill f hf
          · rw [mem_singleton.mp hf, hnext, ftsOf, hid]
            exact Nat.lt_succ_self _
        rw [if_pos rfl, ih ⟨w.events ++ [row], w.fts ++ [ftsOf row]⟩ hgrown hlater, hnext]
        simp [append_assoc]

structure Ready (s : EventStore) : Prop where
  isOpen : s.isOpen = true
  idle : s.db.working = none
  sane : Sane s.hasFts s.db.committed

/-- One call to the store, with what its statements meet; or the process ends and another opens
the same store. -/
inductive Call where
  | append (engine : AppendEngine) (events : List TraceEvent)
  | retire (engine : RetireEngine) (now maxAgeDays maxBytes : Int)
  | reopen

def reopen (s : EventStore) : EventStore :=
  { s with db := { committed := if s.inMemory then {} else s.db.committed } }

def step (compact : QVariantMap → QString) (s : EventStore) : Call → EventStore
  | .append engine events => (s.append compact engine events).1
  | .retire engine now maxAgeDays maxBytes => (s.retire engine now maxAgeDays maxBytes).1
  | .reopen => s.reopen

/-- An append on which every statement works goes through. -/
def Accepts (compact : QVariantMap → QString) (s : EventStore) : Prop :=
  ∀ events, (s.append compact {} events).2 = true

/-- The events of a batch in one table and their full-text rows in the other, and nothing else. -/
def Added (compact : QVariantMap → QString) (hasFts : Bool) (events : List TraceEvent) (t t' : Tables) : Prop :=
  ∃ ids : List Nat, ids.length = events.length ∧
    t'.events = t.events ++ List.zipWith (rowOf compact) ids events ∧
    t'.fts = t.fts ++ if hasFts then (List.zipWith (rowOf compact) ids events).map ftsOf else []

/-- What a call promises of the tables as queries see them. -/
def Does (compact : QVariantMap → QString) (s : EventStore) : Call → Prop
  | .append engine events =>
    let after := s.append compact engine events
    if after.2 then Added compact s.hasFts events s.db.view after.1.db.committed ∧ after.1.db.working = none
    else after.1.db.view = s.db.view ∧ Accepts compact after.1
  | .retire engine now maxAgeDays maxBytes =>
    Trims s.db.view.events (s.retire engine now maxAgeDays maxBytes).1.db.view.events
  | .reopen => True

/-- The call keeps its promise, and the two tables correspond after it. -/
def Lawful (compact : QVariantMap → QString) (s : EventStore) (call : Call) : Prop :=
  Does compact s call ∧ Corresponding s.hasFts (step compact s call).db.view

def unaged (s : EventStore) (now maxAgeDays : Int) : Nat :=
  if 0 < maxAgeDays then s.db.view.events.countP fun r => !decide (r.ts < now - maxAgeDays * 86400000)
  else s.db.view.events.length

/-- An append whose event inserts all work gets its index inserts and its commit through too; each
pair of deletes that has something to delete works or fails as one. -/
def Sound (s : EventStore) : Call → Prop
  | .append engine events =>
    events ≠ [] → engine.transaction = true → (∀ place < events.length, engine.insert place = true) →
      engine.commit = true ∧ (s.hasFts = true → ∀ place < events.length, engine.index place = true)
  | .retire engine now maxAgeDays maxBytes =>
    s.hasFts = true →
      (0 < maxAgeDays → (∃ r ∈ s.db.view.events, r.ts < now - maxAgeDays * 86400000) → engine.dropIndex = engine.drop) ∧
      ((0 < maxAgeDays → engine.drop = true) → 0 < maxBytes → s.inMemory = false →
        PassesAgree maxBytes engine.pass 24 0 (unaged s now maxAgeDays))
  | .reopen => True

theorem Ready.view_eq (h : Ready s) : s.db.view = s.db.committed := by
  rw [Connection.view, h.idle, Option.getD_none]

/-- The tables with a batch in them. -/
def grown (compact : QVariantMap → QString) (hasFts : Bool) (index : Nat → Bool) (events : List TraceEvent)
    (t : Tables) : Tables where
  events := t.events ++ batchRows compact (nextId t.events) events
  fts := t.fts ++ if hasFts then indexedRows index 0 (batchRows compact (nextId t.events) events) else []

theorem Sane.below (h : Sane hasFts t) : ∀ f ∈ t.fts, f.rowid < nextId t.events := by
  intro f hf
  rw [h.pairs] at hf
  split at hf
  · obtain ⟨r, hr, rfl⟩ := mem_map.mp hf
    exact id_lt_nextId hr
  · cases hf

def Inserts (engine : AppendEngine) (events : List TraceEvent) : Prop :=
  engine.transaction = true ∧ ∀ place < events.length, engine.insert place = true

section
variable (hready : Ready s)
include hready

theorem append_nil (engine : AppendEngine) : s.append compact engine [] = (s, true) := by
  rw [append, hready.isOpen]
  rfl

private theorem append_unable {engine : AppendEngine} (hsome : events ≠ [])
    (hfails : ¬ Inserts engine events) : s.append compact engine events = (s, false) := by
  obtain ⟨⟨committed, working⟩, isOpen, hasFts, inMemory⟩ := s
  obtain ⟨rfl, rfl, _⟩ := hready
  rw [append, isEmpty_eq_false_iff.mpr hsome]
  simp only [Connection.transaction_idle, Bool.not_true, Bool.or_self, Bool.false_eq_true, if_false]
  cases hbegins : engine.transaction with
  | false => rfl
  | true =>
    have hinsert : ∃ i < events.length, engine.insert (0 + i) = false := by
      by_contra hall
      refine hfails ⟨hbegins, fun i hi => ?_⟩
      by_contra hnot
      exact hall ⟨i, hi, by simpa using hnot⟩
    obtain ⟨w', hw'⟩ : ∃ w', insertEvents compact hasFts engine ⟨committed, some committed⟩ 0 events =
        (⟨committed, some w'⟩, false) := insertEvents_fails engine committed hinsert
    simp only [Bool.not_true, Bool.false_eq_true, if_false, if_true, hw', Bool.not_false, Connection.rollback_open]

private theorem append_able {engine : AppendEngine} (hsome : events ≠ [])
    (hinserts : Inserts engine events) :
    s.append compact engine events =
      ({ s with db := if engine.commit then ⟨grown compact s.hasFts engine.index events s.db.committed, none⟩
          else ⟨s.db.committed, some (grown compact s.hasFts engine.index events s.db.committed)⟩ }, engine.commit) := by
  have hworks : ∀ i < events.length, engine.insert (0 + i) = true := by
    intro i hi
    rw [Nat.zero_add]
    exact hinserts.2 i hi
  obtain ⟨⟨committed, working⟩, isOpen, hasFts, inMemory⟩ := s
  obtain ⟨rfl, rfl, hsane⟩ := hready
  rw [append, isEmpty_eq_false_iff.mpr hsome]
  simp only [Connection.transaction_idle, hinserts.1, Bool.not_true, Bool.or_self, Bool.false_eq_true, if_false, if_true,
    insertEvents_works engine committed hsane.below hworks, Connection.commit_open]
  rfl

theorem Ready.accepts : Accepts compact s := by
  intro events
  by_cases hsome : events = []
  · rw [hsome, append_nil hready]
  · rw [append_able hready hsome ⟨rfl, fun _ _ => rfl⟩]

end

private theorem not_accepts_open (hopen : s.db.working ≠ none) : ¬ Accepts compact s := by
  intro h
  have hone := h [{}]
  rw [append] at hone
  obtain ⟨w, hw⟩ := Option.ne_none_iff_exists'.mp hopen
  have hdb : s.db = ⟨s.db.committed, some w⟩ := by rw [← hw]
  rw [hdb] at hone
  cases hisOpen : s.isOpen <;> rw [hisOpen] at hone <;> simp at hone

private theorem ids_grown (hids : (t.events.map (·.id)).Nodup) (hasFts : Bool) (index : Nat → Bool) (events : List TraceEvent) :
    ((grown compact hasFts index events t).events.map (·.id)).Nodup := by
  rw [grown, map_append, batchRows_ids, nodup_append]
  refine ⟨hids, nodup_range', fun a ha b hb heq => ?_⟩
  obtain ⟨r, hr, rfl⟩ := mem_map.mp ha
  have hlt := id_lt_nextId hr
  have hle := (mem_range'_1.mp hb).1
  omega

private theorem corresponding_grown (hsane : Sane hasFts t) (index : Nat → Bool) (events : List TraceEvent) :
    Corresponding hasFts (grown compact hasFts index events t) ↔
      (hasFts = true → ∀ place < events.length, index place = true) := by
  rw [Corresponding, grown, hsane.pairs]
  cases hasFts with
  | false => exact iff_of_true rfl fun hfalse => by cases hfalse
  | true =>
    have hall := indexedRows_eq_iff index 0 (batchRows compact (nextId t.events) events)
    simp only [Nat.zero_add, batchRows_length] at hall
    simp only [if_true, map_append, append_cancel_left_eq, forall_const, hall]

private theorem added_grown (hasFts : Bool) {index : Nat → Bool} (t : Tables)
    (hall : hasFts = true → ∀ place < events.length, index place = true) :
    Added compact hasFts events t (grown compact hasFts index events t) := by
  refine ⟨List.range' (nextId t.events) events.length, length_range', rfl, ?_⟩
  rw [grown]
  cases hasFts with
  | false => rfl
  | true =>
    have hrows := (indexedRows_eq_iff index 0 (batchRows compact (nextId t.events) events)).mpr fun i hi => by
      rw [batchRows_length] at hi
      rw [Nat.zero_add]
      exact hall rfl i hi
    simp only [if_true, hrows]
    rfl

/-- An append keeps its promise exactly when it is sound, and then leaves the store ready. -/
theorem append_lawful (hready : Ready s) (engine : AppendEngine) (events : List TraceEvent) :
    (Lawful compact s (.append engine events) ↔ Sound s (.append engine events)) ∧
    (Sound s (.append engine events) → Ready (step compact s (.append engine events))) := by
  by_cases hsome : events = []
  · subst hsome
    rw [Lawful, Does, Sound, step, append_nil hready]
    refine ⟨iff_of_true ⟨?_, ?_⟩ fun h => absurd rfl h, fun _ => hready⟩
    · rw [if_pos rfl]
      refine ⟨⟨[], rfl, ?_, ?_⟩, hready.idle⟩
      · simp [hready.view_eq]
      · cases s.hasFts <;> simp [hready.view_eq]
    · rw [hready.view_eq]
      exact hready.sane.pairs
  · by_cases hinserts : Inserts engine events
    · have hsound : Sound s (.append engine events) ↔
          engine.commit = true ∧ (s.hasFts = true → ∀ place < events.length, engine.index place = true) :=
        ⟨fun h => h hsome hinserts.1 hinserts.2, fun h _ _ _ => h⟩
      rw [hsound, Lawful, Does, step, append_able hready hsome hinserts]
      cases hcommit : engine.commit with
      | false =>
        refine ⟨iff_of_false (fun h => ?_) fun h => Bool.false_ne_true h.1, fun h => absurd h.1 Bool.false_ne_true⟩
        rw [if_neg Bool.false_ne_true] at h
        exact not_accepts_open (by simp) h.1.2
      | true =>
        simp only [if_true, Connection.view_idle, true_and, and_true]
        have hpairs : Corresponding s.hasFts (grown compact s.hasFts engine.index events s.db.committed) ↔
            (s.hasFts = true → ∀ place < events.length, engine.index place = true) :=
          corresponding_grown hready.sane engine.index events
        constructor
        · rw [hpairs, hready.view_eq]
          exact ⟨fun h => h.2, fun hall => ⟨added_grown s.hasFts s.db.committed hall, hall⟩⟩
        · exact fun hall => ⟨hready.isOpen, rfl, ids_grown hready.sane.ids _ _ _, hpairs.mpr hall⟩
    · have hsound : Sound s (.append engine events) := fun _ hbegins hall => absurd ⟨hbegins, hall⟩ hinserts
      rw [Lawful, Does, step, append_unable hready hsome hinserts]
      refine ⟨iff_of_true ⟨?_, ?_⟩ hsound, fun _ => hready⟩
      · rw [if_neg Bool.false_ne_true]
        exact ⟨rfl, hready.accepts⟩
      · rw [hready.view_eq]
        exact hready.sane.pairs

/-- After the age limit the passes go on from what it left; a pass never mends the tables. -/
theorem sizePasses_after (inMemory : Bool) (maxBytes : Int) (pass : Nat → Pass) (hids : (t.events.map (·.id)).Nodup)
    (hlost : ¬ Corresponding hasFts t → Orphaned t) :
    ∃ t', (if decide (maxBytes > 0) && !inMemory then sizePasses hasFts maxBytes pass 24 0 ⟨t, none⟩
        else ((⟨t, none⟩ : Connection Tables), true)).1 = ⟨t', none⟩ ∧
      (t'.events.map (·.id)).Nodup ∧ Trims t.events t'.events ∧
      (Corresponding hasFts t' ↔ Corresponding hasFts t ∧ (hasFts = true → 0 < maxBytes → inMemory = false →
        PassesAgree maxBytes pass 24 0 t.events.length)) := by
  by_cases hsized : 0 < maxBytes ∧ inMemory = false
  · obtain ⟨hbytes, rfl⟩ := hsized
    rw [if_pos (by simpa using hbytes)]
    obtain ⟨t', hend, hids', htrims, horphan, hpairs⟩ := @sizePasses_idle hasFts t maxBytes pass 24 0 hids
    refine ⟨t', hend, hids', htrims, ?_⟩
    by_cases hbefore : Corresponding hasFts t
    · rw [hpairs hbefore]
      exact ⟨fun h => ⟨hbefore, fun hfts _ _ => h hfts⟩, fun h hfts => h.2 hfts hbytes rfl⟩
    · exact iff_of_false (horphan (hlost hbefore)).not_corresponding fun h => hbefore h.1
  · have hskips : (decide (maxBytes > 0) && !inMemory) = false := by
      rw [Bool.eq_false_iff]
      intro hboth
      rw [Bool.and_eq_true, decide_eq_true_eq, Bool.not_eq_true'] at hboth
      exact hsized hboth
    rw [hskips, if_neg Bool.false_ne_true]
    refine ⟨t, rfl, hids, Trims.refl _, fun h => ⟨h, fun _ hbytes hfile => absurd ⟨hbytes, hfile⟩ hsized⟩, fun h => h.1⟩

section
variable (hready : Ready s)
include hready

theorem retire_ready (engine : RetireEngine) (now maxAgeDays maxBytes : Int) :
    ∃ t', (s.retire engine now maxAgeDays maxBytes).1 = { s with db := ⟨t', none⟩ } ∧
      (t'.events.map (·.id)).Nodup ∧ Trims s.db.committed.events t'.events ∧
      (Corresponding s.hasFts t' ↔ Sound s (.retire engine now maxAgeDays maxBytes)) := by
  obtain ⟨⟨t, working⟩, isOpen, hasFts, inMemory⟩ := s
  obtain ⟨rfl, rfl, hsane⟩ := hready
  rw [retire]
  simp only [Bool.not_true, Bool.false_eq_true, if_false, Sound, unaged, Connection.view_idle]
  by_cases hage : 0 < maxAgeDays
  · simp only [gt_iff_lt, hage, if_true, dropSelected_eq, forall_const]
    generalize hselects : olderThan (now - maxAgeDays * 86400000) = selects
    have hids := ids_dropped hsane.ids hasFts engine.dropIndex engine.drop selects
    have htrims := trims_dropped hasFts engine.dropIndex engine.drop
      (hselects ▸ downward_olderThan (now - maxAgeDays * 86400000) t.events)
    have hpairs : Corresponding hasFts (dropped hasFts engine.dropIndex engine.drop selects t) ↔
        (hasFts = true → (∃ r ∈ t.events, r.ts < now - maxAgeDays * 86400000) → engine.dropIndex = engine.drop) := by
      rw [corresponding_dropped hsane, Agrees, ← hselects]
      simp only [olderThan, decide_eq_true_eq]
    cases hdrop : engine.drop with
    | false =>
      rw [hdrop] at hids htrims hpairs
      refine ⟨_, rfl, hids, htrims, ?_⟩
      rw [hpairs]
      exact ⟨fun h hfts => ⟨h hfts, fun hfalse => by cases hfalse⟩, fun h hfts => (h hfts).1⟩
    | true =>
      rw [hdrop] at hids htrims hpairs
      have hlength : (dropped hasFts engine.dropIndex true selects t).events.length =
          t.events.countP fun r => !decide (r.ts < now - maxAgeDays * 86400000) := by
        rw [dropped_events, if_pos rfl, ← hselects, countP_eq_length_filter]
        rfl
      have hlost (hparted : ¬ Corresponding hasFts (dropped hasFts engine.dropIndex true selects t)) :
          Orphaned (dropped hasFts engine.dropIndex true selects t) := by
        rw [hpairs, Classical.not_imp, Classical.not_imp, Bool.not_eq_true] at hparted
        obtain ⟨rfl, ⟨r, hr, hold⟩, hfails⟩ := hparted
        rw [hfails]
        refine orphaned_dropped hsane selects ⟨r, hr, ?_⟩
        rw [← hselects, olderThan, decide_eq_true_eq]
        exact hold
      obtain ⟨t', hend, hids', htrims', hafter⟩ := sizePasses_after inMemory maxBytes engine.pass hids hlost
      refine ⟨t', ?_, hids', htrims.trans htrims', ?_⟩
      · simp only [Bool.not_true, Bool.false_eq_true, if_false]
        rw [← hend]
        split <;> rfl
      · rw [hafter, hpairs, hlength, ← forall_and]
        simp only [forall_const]
  · simp only [gt_iff_lt, hage, if_false, false_implies, true_and, forall_const, Bool.not_true, Bool.false_eq_true]
    obtain ⟨t', hend, hids', htrims', hafter⟩ := sizePasses_after inMemory maxBytes engine.pass hsane.ids
      fun hparted => absurd hsane.pairs hparted
    refine ⟨t', ?_, hids', htrims', ?_⟩
    · rw [← hend]
      split <;> rfl
    · rw [hafter]
      exact and_iff_right hsane.pairs

/-- A retirement keeps its promise exactly when it is sound, and then leaves the store ready. -/
theorem retire_lawful (engine : RetireEngine) (now maxAgeDays maxBytes : Int) :
    (Lawful compact s (.retire engine now maxAgeDays maxBytes) ↔ Sound s (.retire engine now maxAgeDays maxBytes)) ∧
    (Sound s (.retire engine now maxAgeDays maxBytes) → Ready (step compact s (.retire engine now maxAgeDays maxBytes))) := by
  obtain ⟨t', hend, hids, htrims, hpairs⟩ := retire_ready hready engine now maxAgeDays maxBytes
  rw [Lawful, Does, step, hend, hready.view_eq, ← hpairs, Connection.view_idle]
  exact ⟨and_iff_right htrims, fun h => ⟨hready.isOpen, rfl, hids, h⟩⟩

private theorem reopen_lawful :
    Lawful compact s .reopen ∧ Ready (step compact s .reopen) := by
  have hsane : Sane s.hasFts (if s.inMemory then {} else s.db.committed) := by
    cases s.inMemory with
    | false => exact hready.sane
    | true =>
      refine ⟨nodup_nil, ?_⟩
      rw [Corresponding]
      cases s.hasFts <;> rfl
  exact ⟨⟨trivial, hsane.pairs⟩, hready.isOpen, rfl, hsane⟩

private theorem lawful_call (call : Call) :
    (Lawful compact s call ↔ Sound s call) ∧ (Sound s call → Ready (step compact s call)) := by
  cases call with
  | append engine events => exact append_lawful hready engine events
  | retire engine now maxAgeDays maxBytes => exact retire_lawful hready engine now maxAgeDays maxBytes
  | reopen =>
    have ⟨hlawful, hnext⟩ : Lawful compact s .reopen ∧ Ready (step compact s .reopen) := reopen_lawful hready
    exact ⟨iff_of_true hlawful trivial, fun _ => hnext⟩

end

def opened (hasFts inMemory : Bool) : EventStore := { hasFts := hasFts, inMemory := inMemory }

private theorem ready_opened (hasFts inMemory : Bool) : Ready (opened hasFts inMemory) where
  isOpen := rfl
  idle := rfl
  sane := ⟨nodup_nil, by cases hasFts <;> rfl⟩

/-- Over any run of calls: every call keeps its promise, with the tables corresponding after it,
exactly when every call is sound. -/
theorem lawful_iff_sound (compact : QVariantMap → QString) (hasFts inMemory : Bool) (calls : List Call) :
    Each (step compact) (Lawful compact) (opened hasFts inMemory) calls ↔
      Each (step compact) Sound (opened hasFts inMemory) calls := by
  have hgo (s : EventStore) (hready : Ready s) :
      Each (step compact) (Lawful compact) s calls ↔ Each (step compact) Sound s calls := by
    induction calls generalizing s with
    | nil => exact Iff.rfl
    | cons call calls ih =>
      rw [Each, Each, (lawful_call hready call).1]
      exact and_congr_right fun hsound => ih (step compact s call) ((lawful_call hready call).2 hsound)
  exact hgo (opened hasFts inMemory) (ready_opened hasFts inMemory)

/-- The commit of an append fails: the transaction is left open, its events are what a query now
sees, and no later append gets in. -/
theorem failed_commit_wedges :
    ¬ Lawful (fun _ => "") (opened true false) (.append { commit := false } [{ message := "disk full" }]) := by
  intro h
  have hsound := (append_lawful (ready_opened true false) _ _).1.mp h
  have hcommit := (hsound (by simp) rfl fun _ _ => rfl).1
  cases hcommit

end EventStore
end SynQt
