import SynQt.Lib.Run
import SynQt.Lib.Transactions
import SynQt.Service.SessionManager

/-! The monitor's event store: a table of events and a full-text table beside it, which grow
by batches and are trimmed from the oldest end. -/
namespace SynQt
open Lib

inductive Severity where
  | trace | debug | info | warning | error | fatal
deriving DecidableEq

inductive Category where
  | lifecycle | transport | authorization | call | data | application
deriving DecidableEq

structure TraceEvent where
  timestampMs : Int := 0
  severity : Severity := .info
  category : Category := .lifecycle
  entity : QString := ""
  traceId : QString := ""
  spanId : QString := ""
  parentSpanId : QString := ""
  durationUs : Int := -1
  ok : Bool := true
  message : QString := ""
  attributes : QVariantMap := []
  untrusted : Bool := false
deriving DecidableEq

def Severity.toInt : Severity → Nat
  | .trace => 0 | .debug => 1 | .info => 2 | .warning => 3 | .error => 4 | .fatal => 5

def Category.toInt : Category → Nat
  | .lifecycle => 0 | .transport => 1 | .authorization => 2 | .call => 3 | .data => 4 | .application => 5

namespace EventStore

structure EventRow where
  id : Nat
  ts : Int
  severity : Nat
  category : Nat
  entity : QString
  traceId : QString
  spanId : QString
  parentSpanId : QString
  durationUs : Int
  ok : Nat
  untrusted : Nat
  message : QString
  attributes : QString
deriving DecidableEq

structure FtsRow where
  rowid : Nat
  message : QString
  attributes : QString
deriving DecidableEq

structure Tables where
  events : List EventRow := []
  fts : List FtsRow := []
deriving DecidableEq

/-- Attributes as compact JSON text; `compact` is the JSON writer. -/
def attributesJson (compact : QVariantMap → QString) (attributes : QVariantMap) : QString :=
  if attributes.isEmpty then "" else compact attributes

def rowOf (compact : QVariantMap → QString) (id : Nat) (event : TraceEvent) : EventRow where
  id := id
  ts := event.timestampMs
  severity := event.severity.toInt
  category := event.category.toInt
  entity := event.entity
  traceId := event.traceId
  spanId := event.spanId
  parentSpanId := event.parentSpanId
  durationUs := event.durationUs
  ok := if event.ok then 1 else 0
  untrusted := if event.untrusted then 1 else 0
  message := event.message
  attributes := attributesJson compact event.attributes

def ftsOf (row : EventRow) : FtsRow := ⟨row.id, row.message, row.attributes⟩

/-- An `INTEGER PRIMARY KEY` takes one more than the largest in use. -/
def nextId (events : List EventRow) : Nat := (events.map (·.id)).foldr max 0 + 1

/-- Which statements of one append work; a row is named by its place in the batch. -/
structure AppendEngine where
  transaction : Bool := true
  insert : Nat → Bool := fun _ => true
  index : Nat → Bool := fun _ => true
  commit : Bool := true

/-- One measurement of a retirement by size, and which of its statements work. -/
structure Pass where
  size : Int
  counts : Bool := true
  dropIndex : Bool := true
  drop : Bool := true

/-- What one retirement meets: by age first, and then pass by pass. -/
structure RetireEngine where
  dropIndex : Bool := true
  drop : Bool := true
  pass : Nat → Pass := fun _ => { size := 0 }

/-- An event's row, and then its full-text row. An index insert that fails is not looked at. -/
def insertEvents (compact : QVariantMap → QString) (hasFts : Bool) (engine : AppendEngine) :
    Connection Tables → Nat → List TraceEvent → Connection Tables × Bool
  | db, _, [] => (db, true)
  | db, place, event :: events =>
    let row := rowOf compact (nextId db.view.events) event
    let inserted := db.exec (engine.insert place) fun t => { t with events := t.events ++ [row] }
    if !inserted.2 then (inserted.1, false)
    else
      let taken := inserted.1.view.fts.any (·.rowid == row.id)
      let indexed := inserted.1.exec (engine.index place && !taken) fun t => { t with fts := t.fts ++ [ftsOf row] }
      insertEvents compact hasFts engine (if hasFts then indexed.1 else inserted.1) (place + 1) events

/-- The order retirement goes by: `ORDER BY ts ASC, id ASC`. -/
def earlier (r r' : EventRow) : Bool := decide (r.ts < r'.ts) || r.ts == r'.ts && decide (r.id < r'.id)

/-- The first `limit` rows of that order: those with fewer than `limit` rows before them. -/
def oldest (limit : Nat) (events : List EventRow) (r : EventRow) : Bool :=
  decide (events.countP (earlier · r) < limit)

def olderThan (cutoff : Int) (_ : List EventRow) (r : EventRow) : Bool := decide (r.ts < cutoff)

/-- The two deletes of a retirement, over the same selection: the index, whatever it answers,
and then the events. -/
def dropSelected (hasFts : Bool) (dropIndex drop : Bool) (selects : List EventRow → EventRow → Bool)
    (db : Connection Tables) : Connection Tables × Bool :=
  let unindexed := db.exec dropIndex fun t =>
    { t with fts := t.fts.filter fun f => !(t.events.filter (selects t.events)).any (·.id == f.rowid) }
  (if hasFts then unindexed.1 else db).exec drop fun t =>
    { t with events := t.events.filter fun r => !selects t.events r }

def toRemove (size maxBytes rows : Int) : Nat :=
  let perRow := max 1 (Int.tdiv size rows)
  (min rows (max 1 (Int.tdiv (size - maxBytes) perRow + Int.tdiv rows 20))).toNat

def sizePasses (hasFts : Bool) (maxBytes : Int) (pass : Nat → Pass) :
    Nat → Nat → Connection Tables → Connection Tables × Bool
  | 0, _, db => (db, true)
  | fuel + 1, place, db =>
    if (pass place).size ≤ maxBytes then (db, true)
    else
      let rows : Int := if (pass place).counts then db.view.events.length else 0
      if rows ≤ 0 then (db, true)
      else
        let remove := toRemove (pass place).size maxBytes rows
        let dropped := dropSelected hasFts (pass place).dropIndex (pass place).drop (oldest remove) db
        if !dropped.2 then (dropped.1, false)
        else sizePasses hasFts maxBytes pass fuel (place + 1) dropped.1

end EventStore

structure EventStore where
  db : Connection EventStore.Tables := ⟨{}, none⟩
  isOpen : Bool := true
  hasFts : Bool := true
  inMemory : Bool := false

namespace EventStore

def append (compact : QVariantMap → QString) (s : EventStore) (engine : AppendEngine) (events : List TraceEvent) :
    EventStore × Bool :=
  if !s.isOpen || events.isEmpty then (s, s.isOpen)
  else
    let begun := s.db.transaction engine.transaction
    if !begun.2 then ({ s with db := begun.1 }, false)
    else
      let inserted := insertEvents compact s.hasFts engine begun.1 0 events
      if !inserted.2 then ({ s with db := inserted.1.rollback }, false)
      else
        let committed := inserted.1.commit engine.commit
        ({ s with db := committed.1 }, committed.2)

def retire (s : EventStore) (engine : RetireEngine) (now maxAgeDays maxBytes : Int) : EventStore × Bool :=
  if !s.isOpen then (s, false)
  else
    let cutoff := now - maxAgeDays * 86400000
    let aged :=
      if maxAgeDays > 0 then dropSelected s.hasFts engine.dropIndex engine.drop (olderThan cutoff) s.db
      else (s.db, true)
    if !aged.2 then ({ s with db := aged.1 }, false)
    else if decide (maxBytes > 0) && !s.inMemory then
      let sized := sizePasses s.hasFts maxBytes engine.pass 24 0 aged.1
      ({ s with db := sized.1 }, sized.2)
    else ({ s with db := aged.1 }, true)

end EventStore
end SynQt
