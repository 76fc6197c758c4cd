import Mathlib.Data.List.Nodup
import SynQt.Lib.Run

/-! The promises of a consumer facade: what a returning call hands out, how it settles, and what runs when it
does. Application code is whatever it chooses to do while a frame of its own is the innermost of the stack. -/
namespace SynQt.Consumer
open Lib
universe u
variable {V : Type u}

inductive Outcome (V : Type u) where
  | fulfilled (v : V)
  | rejected (reason : String)
deriving DecidableEq

inductive Reply (V : Type u) where
  | value (v : V)
  | failed
deriving DecidableEq

def Reply.outcome : Reply V → Outcome V
  | .value v => .fulfilled v
  | .failed => .rejected "the remote call failed"

/-- What a handler's own outcome settles its promise with. -/
def outcomeOf : Except String V → Outcome V
  | .ok value => .fulfilled value
  | .error reason => .rejected reason

/-- What was attached with `then` or `catchError`. A handler is known by the promise made for it. -/
structure Handler where
  callable : Bool
  next : Nat
  onRejected : Bool
deriving DecidableEq

structure Promise (V : Type u) where
  state : Option (Outcome V)
  handlers : List Handler
  /-- The Replica its call was sent on. -/
  sentOn : Option Nat
  /-- A child of the facade, rather than of the promise it is chained from. -/
  held : Bool
  disposalScheduled : Bool
  disposed : Bool
deriving DecidableEq

/-- What is on the stack: the loop over a promise's handlers, a handler's own code, the loop over the promises a
replaced Replica still owed, and application code that is no handler. -/
inductive Frame where
  | flush (p : Nat) (handlers : List Handler)
  | body (p : Nat) (handler : Handler)
  | abandon (held : List Nat) (replica : Option Nat)
  | app
deriving DecidableEq

/-- The facade, its promises by number, and what has happened: every handler attached, every handler that ran and
what for, and every answer that arrived. -/
structure Facade (V : Type u) where
  className : String
  point : String
  replica : Option Nat
  promises : Nat → Promise V
  count : Nat
  stack : List Frame
  attached : List (Nat × Handler)
  ran : List (Nat × Nat × Outcome V)
  answered : List (Nat × Outcome V)

inductive Input (V : Type u) where
  | tick
  /-- A returning slot is called, and has its answer at once or not. -/
  | call (answer : Option (Reply V))
  | attach (p : Nat) (callable onRejected : Bool)
  /-- A handler returns its value, or throws. -/
  | ret (result : Except String V)
  /-- Application code that is no handler ends, and begins. -/
  | leave
  | turn
  | reply (p : Nat) (answer : Reply V)
  | setReplica (replica : Option Nat)
  /-- The stack has unwound: what was scheduled for deletion is deleted. -/
  | unwind

namespace Facade

def make (className point : String) (replica : Option Nat) : Facade V where
  className := className
  point := point
  replica := replica
  promises := fun _ => ⟨none, [], none, false, false, false⟩
  count := 0
  stack := []
  attached := []
  ran := []
  answered := []

def unavailable (f : Facade V) : String := "the '" ++ f.className ++ "' connect point is not available"

def dropped (f : Facade V) : String :=
  "the '" ++ f.point ++ "' connect point's link dropped before the answer arrived"

def setPromise (f : Facade V) (p : Nat) (promise : Promise V) : Facade V :=
  { f with promises := Function.update f.promises p promise }

def flush (f : Facade V) (p : Nat) : Facade V :=
  { f.setPromise p { f.promises p with handlers := [] } with stack := .flush p (f.promises p).handlers :: f.stack }

/-- `settleFulfilled` and `settleRejected`: only a pending promise settles. -/
def settle (f : Facade V) (p : Nat) (outcome : Outcome V) : Facade V :=
  if (f.promises p).state.isSome then f
  else (f.setPromise p { f.promises p with state := some outcome }).flush p

def settleFromCall (f : Facade V) (p : Nat) (answer : Reply V) : Facade V :=
  { f with answered := f.answered ++ [(p, answer.outcome)] }.settle p answer.outcome

/-- A new promise, of the number `count`. -/
def add (f : Facade V) (sentOn : Option Nat) (held : Bool) : Facade V :=
  { f.setPromise f.count ⟨none, [], sentOn, held, false, false⟩ with count := f.count + 1 }

def callSlot (f : Facade V) (answer : Option (Reply V)) : Facade V :=
  match f.replica with
  | none => (f.add none true).settle f.count (.rejected f.unavailable)
  | some replica =>
    let f' := f.add (some replica) true
    match answer with
    | some answer => f'.settleFromCall f.count answer
    | none => f'

def addHandler (f : Facade V) (p : Nat) (callable onRejected : Bool) : Facade V :=
  let handler : Handler := ⟨callable, f.count, onRejected⟩
  let added := f.add none false
  let promise := added.promises p
  let attached : Facade V := { added.setPromise p { promise with handlers := promise.handlers ++ [handler] } with
    attached := f.attached ++ [(p, handler)] }
  if promise.state.isSome then attached.flush p else attached

def runs (outcome : Outcome V) (handler : Handler) : Bool :=
  match outcome with
  | .fulfilled _ => !handler.onRejected
  | .rejected _ => handler.onRejected

def dispatch (f : Facade V) (p : Nat) (handler : Handler) : Facade V :=
  match (f.promises p).state with
  | none => f
  | some outcome =>
    if runs outcome handler && handler.callable then
      { f with ran := f.ran ++ [(handler.next, p, outcome)], stack := .body p handler :: f.stack }
    else f.settle handler.next outcome

def scheduleDisposal (f : Facade V) (p : Nat) : Facade V :=
  f.setPromise p { f.promises p with disposalScheduled := true }

def children (f : Facade V) : List Nat :=
  (List.range f.count).filter fun p => (f.promises p).held && !(f.promises p).disposed

def setReplica (f : Facade V) (replica : Option Nat) : Facade V :=
  if f.replica = replica then f else { f with stack := .abandon f.children replica :: f.stack }

def tick (f : Facade V) : Facade V :=
  match f.stack with
  | .flush p [] :: rest => { f.scheduleDisposal p with stack := rest }
  | .flush p (handler :: handlers) :: rest => { f with stack := .flush p handlers :: rest }.dispatch p handler
  -- `readyChanged` and the property changes are application code again.
  | .abandon [] replica :: rest => { f with replica := replica, stack := .app :: rest }
  | .abandon (p :: held) replica :: rest =>
    { f with stack := .abandon held replica :: rest }.settle p (.rejected f.dropped)
  | _ => f

def inApp (f : Facade V) : Bool :=
  match f.stack with
  | .body _ _ :: _ => true
  | .app :: _ => true
  | _ => false

def step (f : Facade V) : Input V → Facade V
  | .tick => f.tick
  | .call answer => if f.inApp then f.callSlot answer else f
  | .attach p callable onRejected =>
    if f.inApp ∧ p < f.count ∧ (f.promises p).disposed = false then f.addHandler p callable onRejected else f
  | .ret result =>
    match f.stack with
    | .body _ handler :: rest => { f with stack := rest }.settle handler.next (outcomeOf result)
    | _ => f
  | .leave =>
    match f.stack with
    | .app :: rest => { f with stack := rest }
    | _ => f
  | .turn => if f.stack = [] then { f with stack := [ .app] } else f
  | .reply p answer => if f.stack = [] ∧ (f.promises p).sentOn.isSome then f.settleFromCall p answer else f
  | .setReplica replica => if f.stack = [] ∨ f.inApp then f.setReplica replica else f
  | .unwind =>
    if f.stack = [] then
      { f with promises := fun p => { f.promises p with disposed := (f.promises p).disposed || (f.promises p).disposalScheduled } }
    else f

end Facade
end SynQt.Consumer
