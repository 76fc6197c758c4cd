import SynQt.Lib.Hash

/-! The session table of one process: the records, the hand-offs a rotated credential
leaves behind, and the queue of expiry hints. Times are milliseconds. -/
namespace SynQt
open Lib

abbrev QByteArray := List UInt8
abbrev QString := String

instance : LawfulBEq QByteArray := inferInstanceAs (LawfulBEq (List UInt8))

/-- A variant map as the session code reads one: empty or not, and copied whole. -/
abbrev QVariantMap := List (QString × QString)

structure SessionRecord where
  id : QByteArray
  scope : QString
  identity : QVariantMap
  createdMs : Int
  rotatedFrom : QByteArray := []
  deriving DecidableEq

structure Rotation where
  to_ : QByteArray
  atMs : Int
  deriving DecidableEq

/-- Whether a rotation leaves a hand-off behind for the browser still holding the old id. -/
inductive Handoff where
  | keep | none
  deriving DecidableEq

structure SessionManager where
  sessions : Hash QByteArray SessionRecord
  expiryQueue : List (Int × QByteArray)
  rotations : Hash QByteArray Rotation
  defaultScope : QString
  ttlMs : Int
  maximumSessions : Nat
  /-- Whether a SessionStore Replica is attached. -/
  remote : Bool
  deriving DecidableEq

inductive Signal where
  | sessionUpserted (token : QByteArray) (scope : QString) (identity : QVariantMap) (createdMs : Int)
  | sessionRemoved (token : QByteArray)
  | rotationRecorded (from_ to_ : QByteArray)
  | sessionRotated (from_ to_ : QByteArray)
  | sessionExpired (token : QByteArray)
  deriving DecidableEq

/-- A signal, and the manager its receivers read while it is being delivered. -/
structure Emission where
  signal : Signal
  manager : SessionManager

inductive StoreCall where
  | putSession (token : QByteArray) (scope : QString) (identity : QVariantMap) (createdMs : Int)
  | rotateSession (from_ to_ : QByteArray)
  | removeSession (token : QByteArray)
  deriving DecidableEq

structure Effect where
  manager : SessionManager
  emitted : List Emission
  calls : List StoreCall

namespace SessionManager

def rotationGraceMs : Int := 10 * 60 * 1000
def defaultMaximumSessions : Nat := 100000
def evictionSearchDepth : Nat := 4096

def make (defaultScope : QString) (ttlMinutes : Int) : SessionManager where
  sessions := ∅
  expiryQueue := []
  rotations := ∅
  defaultScope := defaultScope
  ttlMs := ttlMinutes * 60 * 1000
  maximumSessions := defaultMaximumSessions
  remote := false

def setMaximumSessions (m : SessionManager) (maximum : Int) : SessionManager :=
  { m with maximumSessions := maximum.toNat }

def attachRemote (m : SessionManager) : SessionManager := { m with remote := true }

def lookup (m : SessionManager) (now : Int) (id : QByteArray) : Option SessionRecord :=
  match m.sessions.find id with
  | none => none
  | some record => if 0 < m.ttlMs ∧ m.ttlMs < now - record.createdMs then none else some record

def isLive (m : SessionManager) (now : Int) (id : QByteArray) : Bool := (m.lookup now id).isSome

/-- The id a rotated-away credential became; empty when there is none worth knowing. -/
def rotationOf (m : SessionManager) (now : Int) (id : QByteArray) : QByteArray :=
  match m.rotations.find id with
  | none => []
  | some entry =>
    if rotationGraceMs < now - entry.atMs then []
    else if m.isLive now entry.to_ then entry.to_ else []

def trackExpiry (m : SessionManager) (record : SessionRecord) : SessionManager :=
  if m.ttlMs ≤ 0 then m
  else { m with expiryQueue := m.expiryQueue ++ [(record.createdMs, record.id)] }

def dropRotationTo (m : SessionManager) (record : SessionRecord) : SessionManager :=
  if record.rotatedFrom.isEmpty then m
  else { m with rotations := m.rotations.erase record.rotatedFrom }

def isEvictable (m : SessionManager) (inUse : QByteArray → Bool) (record : SessionRecord) : Bool :=
  if !record.identity.isEmpty || record.scope != m.defaultScope then false else !inUse record.id

def evictable (m : SessionManager) (inUse : QByteArray → Bool) (hint : Int × QByteArray) :
    Option SessionRecord :=
  (m.sessions.find hint.2).filter
    (fun record => record.createdMs == hint.1 && m.isEvictable inUse record)

def hasRoom (m : SessionManager) (inUse : QByteArray → Bool) : Bool :=
  if m.maximumSessions == 0 || m.sessions.size < m.maximumSessions then true
  else (m.expiryQueue.take evictionSearchDepth).any (fun hint => (m.evictable inUse hint).isSome)

def storeCalls (m : SessionManager) (calls : List StoreCall) : List StoreCall :=
  if m.remote then calls else []

def upserted (record : SessionRecord) : Signal :=
  .sessionUpserted record.id record.scope record.identity record.createdMs

def putCall (record : SessionRecord) : StoreCall :=
  .putSession record.id record.scope record.identity record.createdMs

def evictOne (m : SessionManager) (inUse : QByteArray → Bool) : Option Effect :=
  match (m.expiryQueue.take evictionSearchDepth).find? (fun hint => (m.evictable inUse hint).isSome) with
  | none => none
  | some hint =>
    (m.evictable inUse hint).map fun record =>
      let dropped := m.dropRotationTo record
      let m' : SessionManager := { dropped with
        sessions := dropped.sessions.erase hint.2
        expiryQueue := dropped.expiryQueue.erase hint }
      { manager := m'
        emitted := [⟨.sessionRemoved record.id, m'⟩]
        calls := m'.storeCalls [.removeSession record.id] }

/-- The sweep of the hint queue: hints are taken from the front while they are past the
time-to-live, and one that still matches its record takes the record with it. -/
def drainExpired (now : Int) (m : SessionManager) :
    List (Int × QByteArray) → SessionManager × List Emission
  | [] => ({ m with expiryQueue := [] }, [])
  | (createdMs, id) :: queue =>
    if now - createdMs ≤ m.ttlMs then ({ m with expiryQueue := (createdMs, id) :: queue }, [])
    else match m.sessions.find id with
      | some record =>
        if record.createdMs = createdMs then
          let m' : SessionManager := { m.dropRotationTo record with
            sessions := m.sessions.erase id, expiryQueue := queue }
          let rest := drainExpired now m' queue
          (rest.1, ⟨.sessionExpired id, m'⟩ :: rest.2)
        else drainExpired now m queue
      | none => drainExpired now m queue

/-- Hand-offs past their grace or leading to a record that is gone are dropped. -/
def sweepRotations (m : SessionManager) (now : Int) : SessionManager :=
  { m with rotations := Hash.filter (fun _ entry =>
      !(decide (rotationGraceMs < now - entry.atMs) || (m.sessions.find entry.to_).isNone)) m.rotations }

def purgeExpired (m : SessionManager) (now : Int) : SessionManager × List Emission :=
  let swept := m.sweepRotations now
  if swept.ttlMs ≤ 0 then (swept, []) else drainExpired now swept swept.expiryQueue

/-- Store a record under its id and hint at its expiry. -/
def insertRecord (m : SessionManager) (record : SessionRecord) : SessionManager :=
  ({ m with sessions := m.sessions.insert record.id record } : SessionManager).trackExpiry record

/-- `fresh` is what `newToken` answers. An empty id is a refusal. -/
def createSession (m : SessionManager) (now : Int) (inUse : QByteArray → Bool) (fresh : QByteArray)
    (scope : QString) (identity : QVariantMap) : Effect × QByteArray :=
  let (purged, expired) := m.purgeExpired now
  let room : Option Effect :=
    if purged.maximumSessions > 0 ∧ purged.sessions.size ≥ purged.maximumSessions then
      purged.evictOne inUse
    else some ⟨purged, [], []⟩
  match room with
  | none => (⟨purged, expired, []⟩, [])
  | some evicted =>
    let record : SessionRecord :=
      { id := fresh
        scope := if scope.isEmpty then m.defaultScope else scope
        identity := identity
        createdMs := now }
    let m' := evicted.manager.insertRecord record
    ({ manager := m'
       emitted := expired ++ evicted.emitted ++ [⟨upserted record, m'⟩]
       calls := evicted.calls ++ m'.storeCalls [putCall record] }, fresh)

/-- The record an elevation stores in the place of `previous`. -/
def elevated (m : SessionManager) (now : Int) (fresh previous : QByteArray) (record : SessionRecord)
    (scope : QString) (identity : QVariantMap) (handoff : Handoff) : SessionRecord where
  id := fresh
  scope := if scope.isEmpty then m.defaultScope else scope
  identity := if identity.isEmpty then record.identity else identity
  createdMs := now
  rotatedFrom := if handoff = .keep then previous else record.rotatedFrom

/-- The hand-off a Keep elevation records, and the head of the chain it moves along. -/
def recordHandoff (m : SessionManager) (now : Int) (previous chained next : QByteArray) : SessionManager :=
  let rotations := m.rotations.insert previous ⟨next, now⟩
  match rotations.find chained with
  | none => { m with rotations := rotations }
  | some head => { m with rotations := rotations.insert chained { head with to_ := next } }

def setScope (m : SessionManager) (now : Int) (fresh wasId : QByteArray) (scope : QString)
    (identity : QVariantMap) (handoff : Handoff) : Effect × QByteArray :=
  match m.sessions.find wasId with
  | none => (⟨m, [], []⟩, [])
  | some old =>
    let record := m.elevated now fresh wasId old scope identity handoff
    let rotated := ({ m with sessions := m.sessions.erase wasId } : SessionManager).insertRecord record
    let m' := if handoff = .keep then rotated.recordHandoff now wasId old.rotatedFrom fresh else rotated
    ({ manager := m'
       emitted := [⟨upserted record, m'⟩, ⟨.sessionRotated wasId fresh, m'⟩]
         ++ (if handoff = .keep then [⟨.rotationRecorded wasId fresh, m'⟩] else [])
         ++ [⟨.sessionRemoved wasId, m'⟩]
       calls := m'.storeCalls ([putCall record]
         ++ (if handoff = .keep then [.rotateSession wasId fresh] else [])
         ++ [.removeSession wasId]) }, fresh)

/-- Erase one record and the hand-off its back-pointer names. -/
def removeRecord (m : SessionManager) (token : QByteArray) (record : SessionRecord) : SessionManager :=
  { m.dropRotationTo record with sessions := m.sessions.erase token }

def revoke (m : SessionManager) (id : QByteArray) : Effect :=
  match m.sessions.find id with
  | none => ⟨m, [], m.storeCalls [.removeSession id]⟩
  | some record =>
    let m' := m.removeRecord id record
    ⟨m', [⟨.sessionRemoved id, m'⟩], m'.storeCalls [.removeSession id]⟩

/-- `keyFor` is the digest the source takes of an id. -/
def revokeByKey (m : SessionManager) (keyFor : QByteArray → QString) (key : QString) : Effect :=
  if key.isEmpty then ⟨m, [], []⟩
  else match m.sessions.entries.find? (fun entry => keyFor entry.1 == key) with
    | none => ⟨m, [], []⟩
    | some entry => m.revoke entry.1

def applyUpsert (m : SessionManager) (token : QByteArray) (scope : QString) (identity : QVariantMap)
    (createdMs : Int) : Effect :=
  let record : SessionRecord := ⟨token, scope, identity, createdMs, []⟩
  let m' := m.insertRecord record
  ⟨m', [⟨upserted record, m'⟩], []⟩

/-- Point the record of `next`, when there is one, back at what it was rotated from. -/
def pointBack (m : SessionManager) (next previous : QByteArray) : SessionManager :=
  match m.sessions.find next with
  | none => m
  | some record =>
    { m with sessions := m.sessions.insert next { record with rotatedFrom := previous } }

def applyRotation (m : SessionManager) (now : Int) (previous next : QByteArray) : Effect :=
  if previous.isEmpty ∨ next.isEmpty ∨ previous = next then ⟨m, [], []⟩
  else if (m.rotations.find previous).isSome then ⟨m, [], []⟩
  else
    let m' := ({ m with rotations := m.rotations.insert previous ⟨next, now⟩ } : SessionManager).pointBack
      next previous
    ⟨m', [⟨.sessionRotated previous next, m'⟩, ⟨.rotationRecorded previous next, m'⟩], []⟩

def applyRemove (m : SessionManager) (token : QByteArray) : Effect :=
  match m.sessions.find token with
  | none => ⟨m, [], []⟩
  | some record =>
    let m' := m.removeRecord token record
    ⟨m', [⟨.sessionRemoved token, m'⟩], []⟩

/-- The live rows, for replaying to a newly connected consumer. -/
def snapshot (m : SessionManager) (now : Int) : List SessionRecord :=
  (m.sessions.entries.map (·.2)).filter
    (fun record => !(decide (0 < m.ttlMs) && decide (m.ttlMs < now - record.createdMs)))

end SessionManager
end SynQt
