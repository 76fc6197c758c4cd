import SynQt.Transport.SocketChannel

/-! The write side of the split transports of one thread: the batches they gather, the drain that
is posted for all of them at once, and the threads their channels are on. -/
namespace SynQt
open Lib Function

abbrev Thread := Nat

def hostThread : Thread := 0

/-- One connection's worth of a pass, on its way to the thread its socket lives on. -/
structure ChannelBatch where
  channel : Nat
  batch : Frame

inductive Receiver where
  | dispatcher (id : Nat)
  | channel (id : Nat)
  deriving DecidableEq

inductive QueuedCall where
  | drainBatches
  | send (batches : List ChannelBatch)
  | shutdown (channel : Nat) (closeCode : Nat) (reason : String)
  | deleteLater (channel : Nat)

structure Posted where
  receiver : Receiver
  call : QueuedCall

inductive ChannelCall where
  | send (batch : Frame)
  | shutdown (closeCode : Nat) (reason : String)

structure WriteChannel where
  alive : Bool
  calls : List ChannelCall

/-- The device's fields that its write side uses. A channel keeps the thread it was handed to. -/
structure WebSocketTransport where
  alive : Bool
  isOpen : Bool
  thread : Thread
  writeBatch : Frame
  writeBatchLimit : Int
  writeBufferOverflowed : Bool
  flushQueued : Bool

/-- The split transports of the thread with a batch waiting to cross. -/
structure PendingFlushes where
  batched : List Nat
  drainQueued : Bool

/-- A device and its channel go by one number. -/
structure SplitHost where
  dispatcher : Thread → Option Nat
  dispatchers : Nat
  posted : Thread → List Posted
  pending : PendingFlushes
  transports : Nat → WebSocketTransport
  channels : Nat → WriteChannel

namespace SplitHost

def setTransport (s : SplitHost) (i : Nat) (transport : WebSocketTransport) : SplitHost :=
  { s with transports := update s.transports i transport }

def setChannel (s : SplitHost) (i : Nat) (channel : WriteChannel) : SplitHost :=
  { s with channels := update s.channels i channel }

def post (s : SplitHost) (thread : Thread) (posted : Posted) : SplitHost :=
  { s with posted := update s.posted thread (s.posted thread ++ [posted]) }

def leave (s : SplitHost) (thread : Thread) (rest : List Posted) : SplitHost :=
  { s with posted := update s.posted thread rest }

def callChannel (s : SplitHost) (i : Nat) (call : ChannelCall) : SplitHost :=
  if (s.channels i).alive then
    s.setChannel i { s.channels i with calls := (s.channels i).calls ++ [call] }
  else s

def sendItem (s : SplitHost) (item : ChannelBatch) : SplitHost := s.callChannel item.channel (.send item.batch)

/-- Put one thread's share of a pass on that thread, in one crossing. Without an event loop there
the channels are called themselves, at once when they are on this thread. -/
def deliverBatches (s : SplitHost) (thread : Thread) (batches : List ChannelBatch) : SplitHost :=
  if batches.isEmpty then s
  else match s.dispatcher thread with
    | some context => s.post thread ⟨.dispatcher context, .send batches⟩
    | none =>
      if thread = hostThread then batches.foldl sendItem s
      else batches.foldl (fun s item => s.post thread ⟨.channel item.channel, .send [item]⟩) s

def sendBatch (s : SplitHost) (i : Nat) : SplitHost :=
  if (s.transports i).writeBatch.isEmpty then s
  else
    (s.setTransport i { s.transports i with writeBatch := [] }).deliverBatches (s.transports i).thread
      [⟨i, (s.transports i).writeBatch⟩]

/-- Without an event loop on this thread there is no later to wait for. -/
def scheduleBatchFlush (s : SplitHost) (i : Nat) : SplitHost :=
  if (s.transports i).flushQueued then s
  else
    let due := s.setTransport i { s.transports i with flushQueued := true }
    let due := { due with pending := { s.pending with batched := s.pending.batched ++ [i] } }
    if s.pending.drainQueued then due
    else match s.dispatcher hostThread with
      | none =>
        let undone := due.setTransport i { s.transports i with flushQueued := false }
        let undone := { undone with pending := { due.pending with batched := due.pending.batched.filter (· != i) } }
        undone.sendBatch i
      | some dispatcher =>
        { due with pending := { due.pending with drainQueued := true } }.post hostThread
          ⟨.dispatcher dispatcher, .drainBatches⟩

/-- The ceiling is on what goes on the wire, so what is already gathered leaves first. -/
def batchData (s : SplitHost) (i : Nat) (message : Frame) : SplitHost :=
  let transport := s.transports i
  let s := if ¬ transport.writeBatch.isEmpty ∧ 0 < transport.writeBatchLimit ∧
      transport.writeBatchLimit < transport.writeBatch.length + message.length then s.sendBatch i else s
  (s.setTransport i { s.transports i with writeBatch := (s.transports i).writeBatch ++ message }).scheduleBatchFlush i

def writeData (s : SplitHost) (i : Nat) (message : Frame) : SplitHost :=
  if (s.transports i).writeBufferOverflowed then s
  else s.batchData i message

def takeBatches (transports : Nat → WebSocketTransport) :
    List Nat → List ChannelBatch × (Nat → WebSocketTransport)
  | [] => ([], transports)
  | i :: due =>
    if ¬ (transports i).alive then takeBatches transports due
    else if (transports i).writeBatch.isEmpty then
      takeBatches (update transports i { transports i with flushQueued := false }) due
    else
      let rest := takeBatches
        (update transports i { transports i with flushQueued := false, writeBatch := [] }) due
      (⟨i, (transports i).writeBatch⟩ :: rest.1, rest.2)

/-- One crossing a thread. The threads are gone through in no order that shows: what one is handed
does not depend on what another is. -/
def drainBatches (s : SplitHost) : SplitHost :=
  let due := takeBatches s.transports s.pending.batched
  let byThread := fun thread => due.1.filter fun item => (s.transports item.channel).thread == thread
  (due.1.map fun item => (s.transports item.channel).thread).dedup.foldl
    (fun s thread => s.deliverBatches thread (byThread thread))
    { s with pending := ⟨[], false⟩, transports := due.2 }

def shutdown (s : SplitHost) (i : Nat) (closeCode : Nat) (reason : String) : SplitHost :=
  let s := s.sendBatch i
  if (s.transports i).thread = hostThread then s.callChannel i (.shutdown closeCode reason)
  else s.post (s.transports i).thread ⟨.channel i, .shutdown i closeCode reason⟩

def CloseCodeNormal : Nat := 1000

def close (s : SplitHost) (i : Nat) : SplitHost :=
  let s := s.shutdown i CloseCodeNormal ""
  s.setTransport i { s.transports i with isOpen := false }

/-- The channel aborted its socket where it measured. The batch the device was still gathering is
dropped with the rest. -/
def discardOnWriteOverflow (s : SplitHost) (i : Nat) : SplitHost :=
  s.setTransport i { s.transports i with writeBufferOverflowed := true, isOpen := false, writeBatch := [] }

def destroy (s : SplitHost) (i : Nat) : SplitHost :=
  (s.setTransport i { s.transports i with alive := false, isOpen := false }).post (s.transports i).thread
    ⟨.channel i, .deleteLater i⟩

def deliver (s : SplitHost) : QueuedCall → SplitHost
  | .drainBatches => s.drainBatches
  | .send batches => batches.foldl sendItem s
  | .shutdown i closeCode reason => s.callChannel i (.shutdown closeCode reason)
  | .deleteLater i => s.setChannel i { s.channels i with alive := false }

inductive HostOp where
  | write (transport : Nat) (message : Frame)
  | shutdown (transport : Nat) (closeCode : Nat) (reason : String)
  | close (transport : Nat)
  | writeBufferOverflowed (transport : Nat)
  | destroy (transport : Nat)
  /-- A thread's event loop takes the next call that is queued for it. -/
  | loop (thread : Thread)
  | dispatcherGone (thread : Thread)
  | dispatcherStarted (thread : Thread)

/-- What is addressed to a dispatcher goes with it. A device that is not open takes no write. -/
def step (s : SplitHost) : HostOp → SplitHost
  | .write i message => if (s.transports i).alive ∧ (s.transports i).isOpen then s.writeData i message else s
  | .shutdown i closeCode reason => if (s.transports i).alive then s.shutdown i closeCode reason else s
  | .close i => if (s.transports i).alive then s.close i else s
  | .writeBufferOverflowed i =>
    if (s.transports i).alive ∧ ¬ (s.transports i).writeBufferOverflowed then s.discardOnWriteOverflow i else s
  | .destroy i => if (s.transports i).alive then s.destroy i else s
  | .loop thread =>
    match s.dispatcher thread, s.posted thread with
    | some _, next :: rest => (s.leave thread rest).deliver next.call
    | _, _ => s
  | .dispatcherGone thread =>
    match s.dispatcher thread with
    | none => s
    | some gone =>
      { s with dispatcher := update s.dispatcher thread none
               posted := update s.posted thread
                 ((s.posted thread).filter fun posted => posted.receiver != .dispatcher gone) }
  | .dispatcherStarted thread =>
    match s.dispatcher thread with
    | some _ => s
    | none =>
      { s with dispatcher := update s.dispatcher thread (some s.dispatchers)
               dispatchers := s.dispatchers + 1 }

/-- Connections that have written nothing yet, on whatever threads their sockets were handed to
and with whatever ceiling each was given. -/
def start (dispatcher : Thread → Option Nat) (dispatchers : Nat) (thread : Nat → Thread) (limit : Nat → Int) :
    SplitHost where
  dispatcher := dispatcher
  dispatchers := dispatchers
  posted _ := []
  pending := ⟨[], false⟩
  transports i := ⟨true, true, thread i, [], limit i, false, false⟩
  channels _ := ⟨true, []⟩

end SplitHost
end SynQt
