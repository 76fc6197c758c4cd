import SynQt.Service.Mesh

/-! The Callers of one session manager: what a slot knows of whoever called it, and how each follows the session it
names while scopes change. Handlers of a Caller's signals are application code, which may change scopes again. -/
namespace SynQt
open Lib

/-- The two identifiers of a trace that travel with a call. -/
structure TraceContext where
  traceId : QString
  spanId : QString
deriving DecidableEq

namespace TraceContext

def isHexIdentifier (value : QString) (length : Nat) : Bool :=
  value.length == length && value.toList.all (fun c => c.isDigit || ('a' ≤ c && c ≤ 'f')) && value.toList.any (· != '0')

def fromWire (traceId spanId : QString) : TraceContext :=
  if !isHexIdentifier traceId 32 || !isHexIdentifier spanId 16 then ⟨"", ""⟩ else ⟨traceId, spanId⟩

end TraceContext

/-- The three keys a session is made of when a calling entity sends it. -/
structure ForwardedSession where
  key : QString
  scope : QString
  identity : QVariantMap
deriving DecidableEq

/-- What an entity sends with a call: the session it acts for, and the trace. -/
structure Assertion where
  session : ForwardedSession
  traceId : QString
  spanId : QString
deriving DecidableEq

structure Caller where
  sessionId : QByteArray
  forwarded : Option ForwardedSession
  trace : TraceContext
  entity : QString
  isUser : Bool
  entityVerified : Bool
  scopeOrder : List QString
  hierarchical : Bool
deriving DecidableEq

namespace Caller

def forUser (sessionId : QByteArray) : Caller := ⟨sessionId, none, ⟨"", ""⟩, "", true, false, [], true⟩

/-- A user's session is the one its connection was accepted for, and no call says otherwise. -/
def assumeSession (caller : Caller) (assertion : Assertion) : Caller :=
  if caller.isUser then caller
  else
    let traced := { caller with trace := TraceContext.fromWire assertion.traceId assertion.spanId }
    if assertion.session.key.isEmpty then { traced with forwarded := none }
    else { traced with forwarded := some assertion.session }

def differs (caller other : Caller) : Bool :=
  caller.sessionId != other.sessionId || caller.forwarded != other.forwarded || caller.entity != other.entity ||
    caller.isUser != other.isUser || caller.entityVerified != other.entityVerified

end Caller

/-- What ends a rotation once every Caller has been told: the store is, and the Caller that asked takes the id it
gets back; or the store has told this manager, and the removal comes last. -/
inductive Closing where
  | setScope (caller : Option Nat) (calls : List StoreCall)
  | applied
deriving DecidableEq

/-- What is on the stack: a rotation with the Callers still to be told, or application code. -/
inductive Turn where
  | rotating (from_ to_ : QByteArray) (left : List Nat) (close : Closing)
  | app
deriving DecidableEq

/-- A manager and its user Callers, in the order they were made. `log` is what the store has been told, in its order.
The rest is history: the rotations, the ids revoked, and the id each Caller last took other than by following. -/
structure CallerRun where
  manager : SessionManager
  callers : Nat → Caller
  count : Nat
  stack : List Turn
  log : List StoreCall
  moved : List (QByteArray × QByteArray)
  revoked : List QByteArray
  named : Nat → QByteArray

inductive CallerInput where
  | tick
  | turn
  | leave
  | setScope (caller : Nat) (now : Int) (fresh : QByteArray) (scope : QString) (identity : QVariantMap)
  | elevate (id : QByteArray) (now : Int) (fresh : QByteArray) (scope : QString) (identity : QVariantMap) (handoff : Handoff)
  | adopt (caller other : Nat)
  | revoke (id : QByteArray)
  | assumeSession (caller : Nat) (assertion : Assertion)
  /-- What the store tells of a rotation made elsewhere: the new session, the hand-off, the removal. -/
  | elsewhere (now : Int) (from_ to_ : QByteArray) (scope : QString) (identity : QVariantMap) (createdMs : Int)

namespace CallerRun

def start (manager : SessionManager) (count : Nat) (ids : Nat → QByteArray) : CallerRun where
  manager := manager
  callers := fun caller => .forUser (ids caller)
  count := count
  stack := []
  log := []
  moved := []
  revoked := []
  named := ids

def setCaller (s : CallerRun) (caller : Nat) (changed : Caller) : CallerRun :=
  { s with callers := Function.update s.callers caller changed }

/-- The table is changed, and `sessionRotated` goes out to every Caller. -/
def rotate (s : CallerRun) (caller : Option Nat) (id : QByteArray) (now : Int) (fresh : QByteArray) (scope : QString)
    (identity : QVariantMap) (handoff : Handoff) : CallerRun :=
  match s.manager.sessions.find id with
  | none => s
  | some _ =>
    let effect := (s.manager.setScope now fresh id scope identity handoff).1
    { s with
      manager := effect.manager
      stack := .rotating id fresh (List.range s.count) (.setScope caller effect.calls) :: s.stack
      moved := s.moved ++ [(id, fresh)] }

/-- The next Caller is told; one that names the old id takes the new one, and its `scopeChanged` and `callerChanged`
are handled. With none left the rotation ends. -/
def tick (s : CallerRun) : CallerRun :=
  match s.stack with
  | .rotating from_ to_ (caller :: left) close :: rest =>
    if (s.callers caller).sessionId = from_ then
      { s.setCaller caller { s.callers caller with sessionId := to_ } with
        stack := .app :: .app :: .rotating from_ to_ left close :: rest }
    else { s with stack := .rotating from_ to_ left close :: rest }
  | .rotating _ to_ [] (.setScope (some caller) calls) :: rest =>
    { (if to_.isEmpty then s else s.setCaller caller { s.callers caller with sessionId := to_ }) with
      log := s.log ++ calls, stack := rest }
  | .rotating _ _ [] (.setScope none calls) :: rest => { s with log := s.log ++ calls, stack := rest }
  | .rotating from_ _ [] .applied :: rest => { s with manager := (s.manager.applyRemove from_).manager, stack := rest }
  | _ => s

def inApp (s : CallerRun) : Bool :=
  match s.stack with
  | .app :: _ => true
  | _ => false

def adopt (s : CallerRun) (caller other : Nat) : CallerRun :=
  let changed := (s.callers caller).differs (s.callers other)
  { s.setCaller caller (s.callers other) with
    named := Function.update s.named caller (s.named other)
    stack := if changed then .app :: s.stack else s.stack }

def revoke (s : CallerRun) (id : QByteArray) : CallerRun :=
  let effect := s.manager.revoke id
  { s with manager := effect.manager, log := s.log ++ effect.calls, revoked := s.revoked ++ [id] }

def elsewhere (s : CallerRun) (now : Int) (from_ to_ : QByteArray) (scope : QString) (identity : QVariantMap)
    (createdMs : Int) : CallerRun :=
  let upserted := (s.manager.applyUpsert to_ scope identity createdMs).manager
  let rotated := (upserted.applyRotation now from_ to_).manager
  let told : CallerRun := { s with
    log := s.log ++ [ .putSession to_ scope identity createdMs, .rotateSession from_ to_, .removeSession from_] }
  if upserted.TakesRotation from_ to_ then
    { told with
      manager := rotated
      stack := .rotating from_ to_ (List.range s.count) .applied :: s.stack
      moved := s.moved ++ [(from_, to_)] }
  else { told with manager := (rotated.applyRemove from_).manager }

def step (s : CallerRun) : CallerInput → CallerRun
  | .tick => s.tick
  | .turn => if s.stack = [] then { s with stack := [ .app] } else s
  | .leave =>
    match s.stack with
    | .app :: rest => { s with stack := rest }
    | _ => s
  | .setScope caller now fresh scope identity =>
    if s.inApp ∧ caller < s.count ∧ (s.callers caller).isUser then
      s.rotate (some caller) (s.callers caller).sessionId now fresh scope identity .keep
    else s
  | .elevate id now fresh scope identity handoff =>
    if s.inApp then s.rotate none id now fresh scope identity handoff else s
  | .adopt caller other =>
    if s.inApp ∧ caller < s.count ∧ other < s.count ∧ caller ≠ other then s.adopt caller other else s
  | .revoke id => if s.inApp then s.revoke id else s
  | .assumeSession caller assertion => s.setCaller caller ((s.callers caller).assumeSession assertion)
  | .elsewhere now from_ to_ scope identity createdMs =>
    if s.stack = [] then s.elsewhere now from_ to_ scope identity createdMs else s

end CallerRun
end SynQt
