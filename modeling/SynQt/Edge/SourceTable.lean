import SynQt.Service.SessionManager

/-! The Sources an edge keeps for its sessions: one entry a session that has a connection
open, holding how many there are and the Source of each connect point. -/
namespace SynQt
open Lib

structure WebEdgeConnectPoint where
  name : QString
  contract : QString
  serverFile : QString
  /-- The scope a session must meet; empty for everybody. -/
  scope : QString
  shared : Bool
  /-- The entity that answers a scope, on a front. -/
  behind : List (QString × QString)

structure ScopeOrder where
  scopes : List QString
  hierarchical : Bool

/-- What Qt answers while a connection is hosted: whether a file loads, whether a contract
has a Source, whether a connection's node takes one. -/
structure Runtime where
  componentError : QString → Option QString
  registered : QString → Bool
  remotes : QString → Bool

structure SessionSources where
  connections : Int := 0
  byConnectPoint : Hash QString Nat := ∅

/-- Objects are numbered in the order they are made, and `live` are the ones of sessions
that have not been deleted. -/
structure SourceTable where
  sessionSources : Hash QByteArray SessionSources
  live : List Nat
  sharedSources : Hash QString Nat
  relayTargets : Hash Nat QString
  /-- The Replica each relay follows. -/
  following : Hash Nat Nat
  rejected : List QString
  next : Nat

/-- A visitor as a gate sees one: the scope of the session, when there is one. -/
abbrev Visitor := Option QString

namespace Visitor

def of (m : SessionManager) (now : Int) (id : QByteArray) : Visitor := (m.lookup now id).map (·.scope)

def scope (v : Visitor) : QString := v.getD ""

end Visitor

namespace ScopeOrder

def rank (o : ScopeOrder) (scope : QString) : Option Nat := o.scopes.findIdx? (· == scope)

def hasScope (o : ScopeOrder) (v : Visitor) (scope : QString) : Bool :=
  match v with
  | none => false
  | some granted =>
    if granted == scope then true
    else if o.hierarchical && !o.scopes.isEmpty then
      match o.rank granted, o.rank scope with
      | some held, some required => required ≤ held
      | _, _ => false
    else false

/-- The entity that answers for a scope: its own, or the highest tier at or below it. -/
def entityFor (o : ScopeOrder) (point : WebEdgeConnectPoint) (scope : QString) : QString :=
  let named := (point.behind.lookup scope).getD ""
  if !named.isEmpty then named
  else if !o.hierarchical then ""
  else match o.rank scope with
    | none => ""
    | some held =>
      let best := point.behind.foldl (fun (best : QString × Option Nat) tier =>
        match o.rank tier.1 with
        | none => best
        | some rank => if rank ≤ held && best.2.all (· < rank) then (tier.2, some rank) else best) ("", none)
      best.1

def servesScope (o : ScopeOrder) (replicaOf : QString → Option Nat) (point : WebEdgeConnectPoint) (v : Visitor) : Bool :=
  if !point.scope.isEmpty && !o.hasScope v point.scope then false
  else if point.behind.isEmpty then true
  else
    let entity := o.entityFor point v.scope
    !entity.isEmpty && (replicaOf entity).isSome

end ScopeOrder

namespace SourceTable
variable (order : ScopeOrder) (qt : Runtime) (replicaOf : QString → Option Nat)

def empty : SourceTable := ⟨∅, [], ∅, ∅, ∅, [], 0⟩

def made (t : SourceTable) : SourceTable := { t with live := t.live ++ [t.next], next := t.next + 1 }

def pointRelay (t : SourceTable) (source : Nat) (entity : QString) : SourceTable :=
  if entity.isEmpty then
    { t with relayTargets := t.relayTargets.erase source, following := t.following.erase source }
  else
    { t with
      relayTargets := t.relayTargets.insert source entity
      following := match replicaOf entity with
        | some replica => t.following.insert source replica
        | none => t.following.erase source }

/-- Every relay already pointed at this entity follows the replacement. -/
def setEntityBehind (t : SourceTable) (entity : QString) (replica : Nat) : SourceTable :=
  let pointed := t.relayTargets.entries.filter (·.2 == entity)
  { t with following := t.following.insertAll (pointed.map fun relay => (relay.1, replica)) }

def createSource (t : SourceTable) (point : WebEdgeConnectPoint) : SourceTable × Except QString Nat :=
  match qt.componentError point.serverFile with
  | some error => (t, .error ("failed to load " ++ point.serverFile ++ ": " ++ error))
  | none => (t.made, .ok t.next)

def sharedSource (t : SourceTable) (point : WebEdgeConnectPoint) : SourceTable × Option QString :=
  match t.sharedSources.find point.name, qt.componentError point.serverFile with
  | some _, _ => (t, none)
  | none, some error => (t, some ("failed to load " ++ point.serverFile ++ ": " ++ error))
  | none, none => ({ t with sharedSources := t.sharedSources.insert point.name t.next, next := t.next + 1 }, none)

def mirrorFor (t : SourceTable) (point : WebEdgeConnectPoint) : SourceTable × Except QString Nat :=
  let shared := sharedSource qt t point
  match shared.2 with
  | some error => (shared.1, .error error)
  | none =>
    if !qt.registered point.contract then
      (shared.1, .error ("no Source registered for contract " ++ point.contract))
    else (shared.1.made, .ok shared.1.next)

def relayFor (t : SourceTable) (point : WebEdgeConnectPoint) (v : Visitor) : SourceTable × Except QString Nat :=
  let entity := order.entityFor point v.scope
  if entity.isEmpty then
    (t, .error (point.name ++ ": nothing behind it serves scope '" ++ v.scope ++ "'"))
  else if (replicaOf entity).isNone then (t, .error (point.name ++ ": '" ++ entity ++ "' is not reachable yet"))
  else if !qt.registered point.contract then
    (t, .error ("no Source registered for contract " ++ point.contract))
  else (t.made.pointRelay replicaOf t.next entity, .ok t.next)

def newSource (t : SourceTable) (point : WebEdgeConnectPoint) (v : Visitor) : SourceTable × Except QString Nat :=
  if !point.behind.isEmpty then relayFor order qt replicaOf t point v
  else if point.shared then mirrorFor qt t point
  else createSource qt t point

/-- The entry a subscript answers with, made where there was none. -/
def entryOf (t : SourceTable) (sessionId : QByteArray) : SessionSources :=
  (t.sessionSources.find sessionId).getD {}

def setEntry (t : SourceTable) (sessionId : QByteArray) (entry : SessionSources) : SourceTable :=
  { t with sessionSources := t.sessionSources.insert sessionId entry }

def sourceForConnection (t : SourceTable) (point : WebEdgeConnectPoint) (sessionId : QByteArray) (v : Visitor) :
    SourceTable × Except QString Nat :=
  let sources := t.entryOf sessionId
  let t' := t.setEntry sessionId sources
  match sources.byConnectPoint.find point.name with
  | some existing => (t', .ok existing)
  | none =>
    let built := newSource order qt replicaOf t' point v
    match built.2 with
    | .error error => (built.1, .error error)
    | .ok source =>
      (built.1.setEntry sessionId { sources with byConnectPoint := sources.byConnectPoint.insert point.name source },
        .ok source)

/-- `hosted` is what the connection hosts so far. -/
def hostConnectPoint (t : SourceTable) (point : WebEdgeConnectPoint) (sessionId : QByteArray) (v : Visitor)
    (hosted : Hash QString Nat) : SourceTable × Hash QString Nat :=
  let acquired := sourceForConnection order qt replicaOf t point sessionId v
  match acquired.2 with
  | .error error => ({ acquired.1 with rejected := acquired.1.rejected ++ [error] }, hosted)
  | .ok source =>
    if !qt.remotes point.name then
      ({ acquired.1 with rejected := acquired.1.rejected ++ ["enableRemoting failed for " ++ point.name] }, hosted)
    else (acquired.1, hosted.insert point.name source)

def hostPoints (points : List WebEdgeConnectPoint) (t : SourceTable) (sessionId : QByteArray) (v : Visitor) :
    SourceTable × Hash QString Nat :=
  points.foldl (fun acc point =>
    if order.servesScope replicaOf point v then hostConnectPoint order qt replicaOf acc.1 point sessionId v acc.2
    else acc) (t, ∅)

def decideAgain (t : SourceTable) (point : WebEdgeConnectPoint) (sessionId : QByteArray) (v : Visitor)
    (hosted : Hash QString Nat) : SourceTable × Hash QString Nat :=
  let fronted := !point.behind.isEmpty
  if point.scope.isEmpty && !fronted then (t, hosted)
  else match order.servesScope replicaOf point v, hosted.find point.name with
    | true, none =>
      let acc := hostConnectPoint order qt replicaOf t point sessionId v hosted
      match acc.2.find point.name with
      | none => acc
      | some source =>
        if fronted then (acc.1.pointRelay replicaOf source (order.entityFor point v.scope), acc.2) else acc
    | false, some source =>
      (if fronted then t.pointRelay replicaOf source "" else t, hosted.erase point.name)
    | true, some source =>
      let entity := order.entityFor point v.scope
      if fronted && (t.relayTargets.find source).getD "" != entity then (t.pointRelay replicaOf source entity, hosted)
      else (t, hosted)
    | false, none => (t, hosted)

def decidePoints (points : List WebEdgeConnectPoint) (t : SourceTable) (sessionId : QByteArray) (v : Visitor)
    (hosted : Hash QString Nat) : SourceTable × Hash QString Nat :=
  points.foldl (fun acc point => decideAgain order qt replicaOf acc.1 point sessionId v acc.2) (t, hosted)

def claim (t : SourceTable) (sessionId : QByteArray) : SourceTable :=
  let entry := t.entryOf sessionId
  t.setEntry sessionId { entry with connections := entry.connections + 1 }

/-- The Sources belong to the session and are moved once: the first connection told finds the
old key, and every other one finds nothing left to move. -/
def followRotation (t : SourceTable) (from_ to_ : QByteArray) : SourceTable :=
  match t.sessionSources.find from_ with
  | none => t
  | some leaving =>
    let t' := { t with sessionSources := t.sessionSources.erase from_ }
    let arriving := t'.entryOf to_
    t'.setEntry to_
      { connections := arriving.connections + leaving.connections
        byConnectPoint := arriving.byConnectPoint.insertAll leaving.byConnectPoint.entries }

def releaseSessionSources (t : SourceTable) (sessionId : QByteArray) : SourceTable :=
  match t.sessionSources.find sessionId with
  | none => t
  | some entry =>
    if entry.connections - 1 > 0 then t.setEntry sessionId { entry with connections := entry.connections - 1 }
    else
      let gone := entry.byConnectPoint.entries.map (·.2)
      { t with
        sessionSources := t.sessionSources.erase sessionId
        live := t.live.filter (!gone.contains ·)
        relayTargets := t.relayTargets.filter fun source _ => !gone.contains source
        following := t.following.filter fun source _ => !gone.contains source }

section Keeps
variable {P : SourceTable → Prop} {sessionId : QByteArray} {v : Visitor} {t : SourceTable}
  (hhost : ∀ t point hosted, P t → P (hostConnectPoint order qt replicaOf t point sessionId v hosted).1)
include hhost

/-- What hosting at one connect point keeps, hosting at all of them keeps. -/
theorem hostPoints_keeps (h : P t) (points : List WebEdgeConnectPoint) :
    P (hostPoints order qt replicaOf points t sessionId v).1 := by
  unfold hostPoints
  generalize (∅ : Hash QString Nat) = hosted
  induction points generalizing t hosted with
  | nil => exact h
  | cons point points ih =>
    rw [List.foldl_cons]
    split
    · exact ih (hhost t point hosted h) _
    · exact ih h _

variable (hpoint : ∀ t source entity, P t → P (t.pointRelay replicaOf source entity))
include hpoint

theorem decideAgain_keeps (h : P t) (point : WebEdgeConnectPoint) (hosted : Hash QString Nat) :
    P (decideAgain order qt replicaOf t point sessionId v hosted).1 := by
  have hnew := hhost t point hosted h
  unfold decideAgain
  simp only
  split
  · exact h
  · split
    · split
      · exact hnew
      · split
        · exact hpoint _ _ _ hnew
        · exact hnew
    · rename_i source _ _
      split
      · exact hpoint t source "" h
      · exact h
    · split
      · exact hpoint _ _ _ h
      · exact h
    · exact h

/-- And what pointing a relay keeps too, deciding about all of them again keeps. -/
theorem decidePoints_keeps (h : P t) (points : List WebEdgeConnectPoint) (hosted : Hash QString Nat) :
    P (decidePoints order qt replicaOf points t sessionId v hosted).1 := by
  unfold decidePoints
  induction points generalizing t hosted with
  | nil => exact h
  | cons point points ih => exact ih (decideAgain_keeps order qt replicaOf hhost hpoint h point hosted) _

end Keeps

end SourceTable
end SynQt
