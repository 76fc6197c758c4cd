import SynQt.Lib.Run
import SynQt.Service.Spool

/-! The half of monitoring that lives in every reporting entity: a publish on the tracer's writer
thread, and on the entity's own thread the replica and the replay of the spool to it. A step is one
section under a lock, or one call. -/
namespace SynQt
open Lib

def kMaxBatch : Nat := 512

abbrev ReplicaId := Nat

inductive WriterCall (E : Type) where
  | idle
  | slicing (rest : List E)
  | sending (replica : ReplicaId) (slice rest : List E)
  | spooling (slice rest : List E)

structure Metacall (E : Type) where
  replica : ReplicaId
  payload : List E

/-- A replay, and how many slices had been published when it began. -/
structure ReplayMark where
  number : Nat
  began : Nat
  deriving DecidableEq

inductive ReplayStage (E : Type) where
  | entered
  /-- It has its own copy of the replica, and the spool is not taken yet. -/
  | holding (replica : Option ReplicaId)
  | running (replica : Option ReplicaId) (dropped : Nat) (batches : List (List E))
  | calling (replica : Option ReplicaId) (dropped : Nat) (batches : List (List E))
  | reporting

structure Replay (E : Type) where
  mark : ReplayMark
  stage : ReplayStage E

/-- A batch that reached the monitor, and the replay it came with, if it did with one. -/
structure Arrival (E : Type) where
  replay : Option ReplayMark
  batch : List E

structure IngestClient (E : Type) where
  /-- What `publish` hands batches to: nothing, or a replica that may have gone since. -/
  replica : Option ReplicaId
  attached : Option ReplicaId
  spool : SpoolFile
  writer : WriterCall E
  posted : List (Metacall E)
  /-- The replays on the entity's thread, each begun in a call of the next. -/
  replays : List (Replay E)
  destroyed : ReplicaId → Bool
  valid : ReplicaId → Bool
  published : List (List E)
  handedOff : List (List E)
  arrivals : List (Arrival E)
  reported : Nat
  begun : Nat

namespace IngestClient
variable {E : Type} (stream : Codec UInt8 (List E))

def pointed (s : IngestClient E) (replica : Option ReplicaId) : Option ReplicaId :=
  replica.filter fun r => !s.destroyed r

/-- The entity's thread is in its event loop, or in a call that a replay makes. -/
def listening (s : IngestClient E) : Bool :=
  match s.replays with
  | [] => true
  | ⟨_, .calling ..⟩ :: _ | ⟨_, .reporting⟩ :: _ => true
  | _ => false

def deliver (s : IngestClient E) (replica : ReplicaId) (arrival : Arrival E) : IngestClient E :=
  if s.valid replica then { s with arrivals := s.arrivals ++ [arrival] } else s

def replay (s : IngestClient E) : IngestClient E :=
  { s with replays := ⟨⟨s.begun, s.published.length⟩, .entered⟩ :: s.replays, begun := s.begun + 1 }

def setReplica (s : IngestClient E) (replica : Option ReplicaId) : IngestClient E :=
  let s := { s with attached := replica, replica := replica }
  match replica with
  | none => s
  | some _ => s.replay

def onReplicaStateChanged (s : IngestClient E) (live : Bool) : IngestClient E :=
  if live ∧ s.pointed s.replica = none ∧ s.pointed s.attached ≠ none then
    { s with replica := s.attached }.replay
  else if ¬ live ∧ s.pointed s.replica ≠ none then { s with replica := none }
  else s

/-- Only the replica that was handed over last is listened to. -/
def stateChanged (s : IngestClient E) (replica : ReplicaId) (live : Bool) : IngestClient E :=
  let s := { s with valid := Function.update s.valid replica live }
  if s.pointed s.attached = some replica then s.onReplicaStateChanged live else s

def publish (s : IngestClient E) (batch : List E) : IngestClient E :=
  if batch.isEmpty then s else { s with writer := .slicing batch }

/-- The next section of `publish`: `send` reads the replica, posts to it or gives the slice to the spool. -/
def write (s : IngestClient E) : IngestClient E :=
  match s.writer with
  | .idle => s
  | .slicing rest =>
    if rest.isEmpty then { s with writer := .idle }
    else
      let slice := rest.take kMaxBatch
      let rest := rest.drop kMaxBatch
      { s with
        published := s.published ++ [slice]
        writer := match s.pointed s.replica with
          | none => .spooling slice rest
          | some replica => .sending replica slice rest }
  | .sending replica slice rest =>
    { s with
      posted := s.posted ++ [⟨replica, slice⟩]
      handedOff := s.handedOff ++ [slice]
      writer := .slicing rest }
  | .spooling slice rest => { s with spool := s.spool.spool stream .ok slice, writer := .slicing rest }

def takeHandoff (s : IngestClient E) : IngestClient E :=
  match s.posted with
  | [] => s
  | handoff :: posted =>
    let s := { s with posted := posted }
    match s.pointed (some handoff.replica) with
    | none => s
    | some replica => s.deliver replica ⟨none, handoff.payload⟩

/-- The next section of the replay that is running, or the next call it makes. -/
def goOn (s : IngestClient E) : IngestClient E :=
  match s.replays with
  | [] => s
  | ⟨mark, stage⟩ :: outer =>
    match stage with
    | .entered => { s with replays := ⟨mark, .holding s.replica⟩ :: outer }
    | .holding replica =>
      let taken := s.spool.takeSpooledLocked stream .ok
      { s with
        spool := { taken.2 with droppedBatches := 0 }
        replays := ⟨mark, .running replica s.spool.droppedBatches taken.1⟩ :: outer }
    | .running replica dropped [] =>
      match s.pointed replica with
      | none => { s with replays := outer }
      | some r =>
        if 0 < dropped then
          { s with
            reported := if s.valid r then s.reported + dropped else s.reported
            replays := ⟨mark, .reporting⟩ :: outer }
        else { s with replays := outer }
    | .running replica dropped (batch :: batches) =>
      match s.pointed replica with
      | none =>
        let restored := s.spool.restoreLocked stream .ok (batch :: batches)
        { s with
          spool := { restored with droppedBatches := restored.droppedBatches + dropped }
          replays := outer }
      | some r => { s with replays := ⟨mark, .calling replica dropped batches⟩ :: outer }.deliver r ⟨some mark, batch⟩
    | .calling replica dropped batches => { s with replays := ⟨mark, .running replica dropped batches⟩ :: outer }
    | .reporting => { s with replays := outer }

inductive IngestOp (E : Type) where
  | publish (batch : List E)
  | write
  | setReplica (replica : Option ReplicaId)
  | stateChanged (replica : ReplicaId) (live : Bool)
  | destroy (replica : ReplicaId)
  | takeHandoff
  | goOn

/-- What a thread is in the middle of it finishes first, but for what is raised in a call it makes. -/
def step (s : IngestClient E) : IngestOp E → IngestClient E
  | .publish batch =>
    match s.writer with
    | .idle => s.publish batch
    | _ => s
  | .write => s.write stream
  | .setReplica replica => if s.listening ∧ s.pointed replica = replica then s.setReplica replica else s
  | .stateChanged replica live => if s.listening ∧ ¬ s.destroyed replica then s.stateChanged replica live else s
  | .destroy replica => if s.listening then { s with destroyed := Function.update s.destroyed replica true } else s
  | .takeHandoff => if s.replays.isEmpty then s.takeHandoff else s
  | .goOn => s.goOn stream

/-- A client that nothing was published to yet. Without a path there is no spool. -/
def start (enabled : Bool) (capBytes : Int) (valid : ReplicaId → Bool) : IngestClient E where
  replica := none
  attached := none
  spool := ⟨enabled, capBytes, none, 0⟩
  writer := .idle
  posted := []
  replays := []
  destroyed _ := false
  valid := valid
  published := []
  handedOff := []
  arrivals := []
  reported := 0
  begun := 0

def Quiescent (s : IngestClient E) : Prop :=
  (match s.writer with | .idle => True | _ => False) ∧ s.replays = []

/-- The slices that `publish` cuts a batch into. -/
def slicesOf (batch : List E) : List (List E) :=
  if batch.isEmpty then [] else batch.take kMaxBatch :: slicesOf (batch.drop kMaxBatch)
termination_by batch.length
decreasing_by
  rename_i hsome
  have hlength : batch.length ≠ 0 := fun hzero => hsome (by rw [List.length_eq_zero_iff.mp hzero]; rfl)
  rw [List.length_drop]
  exact Nat.sub_lt (Nat.pos_of_ne_zero hlength) (by decide)

/-- The slices of what an operation hands to `publish`; the writer thread is in one call of it at a time. -/
def cutBy (s : IngestClient E) : IngestOp E → List (List E)
  | .publish batch =>
    match s.writer with
    | .idle => slicesOf batch
    | _ => []
  | _ => []

/-- The slices of every batch that is published in a run, in order. -/
def cutIn : IngestClient E → List (IngestOp E) → List (List E)
  | _, [] => []
  | s, op :: ops => s.cutBy op ++ cutIn (s.step stream op) ops

/-- The slices the replays delivered to a live replica. -/
def replayed (s : IngestClient E) : List (List E) := (s.arrivals.filter (·.replay.isSome)).map (·.batch)

end IngestClient
end SynQt
