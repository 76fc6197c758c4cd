import SynQt.Lib.Run

/-! The read side of a split transport: the channel that takes frames off the wire on the socket's
thread, the device they are read from on another, and what is under way between the two. -/
namespace SynQt
open Lib

abbrev Frame := List UInt8

structure SocketChannel where
  readBufferLimit : Int
  /-- Sent across to the device and not yet acknowledged as read. -/
  unread : Int
  readOverflowed : Bool
  aborted : Bool

/-- The channel's signals, queued for the device's thread. -/
inductive ChannelSignal where
  | received (message : Frame)
  | readBufferOverflowed (unread incoming : Int)

namespace SocketChannel

def setReadBufferLimit (channel : SocketChannel) (bytes : Int) : SocketChannel :=
  { channel with readBufferLimit := bytes }

def forward (channel : SocketChannel) (message : Frame) : SocketChannel × List ChannelSignal :=
  if channel.readOverflowed then (channel, [])
  else if 0 < channel.readBufferLimit ∧ channel.readBufferLimit < channel.unread + message.length then
    ({ channel with readOverflowed := true, aborted := true },
      [.readBufferOverflowed channel.unread message.length])
  else ({ channel with unread := channel.unread + message.length }, [.received message])

def acknowledgeRead (channel : SocketChannel) (bytes : Int) : SocketChannel :=
  { channel with unread := max 0 (channel.unread - bytes) }

end SocketChannel

def QIODEVICE_BUFFERSIZE : Nat := 16384

/-- The device's fields that its read side uses. The edge opens it buffered. -/
structure SplitReader where
  isOpen : Bool
  ioBuffer : Frame
  readBuffer : Frame
  readOffset : Nat
  unacknowledged : Int
  readBufferLimit : Int
  readBufferOverflowed : Bool

namespace SplitReader

def pending (device : SplitReader) : Frame := device.readBuffer.drop device.readOffset

def pendingBytes (device : SplitReader) : Int := device.pending.length

/-- The device is closed, and both buffers go with it. -/
def discardOnOverflow (device : SplitReader) : SplitReader :=
  { device with readBufferOverflowed := true, readBuffer := [], readOffset := 0, isOpen := false,
                ioBuffer := [] }

def deliver (device : SplitReader) (message : Frame) : SplitReader :=
  if device.readBufferOverflowed then device
  else if 0 < device.readBufferLimit ∧ device.readBufferLimit < device.pendingBytes + message.length then
    device.discardOnOverflow
  else
    let device := { device with unacknowledged := device.unacknowledged + message.length }
    if device.readOffset = device.readBuffer.length then { device with readBuffer := message, readOffset := 0 }
    else { device with readBuffer := device.pending ++ message, readOffset := 0 }

def handle (device : SplitReader) : ChannelSignal → SplitReader
  | .received message => device.deliver message
  | .readBufferOverflowed _ _ => if device.readBufferOverflowed then device else device.discardOnOverflow

def acknowledgeRead (device : SplitReader) : SplitReader × List Int :=
  if device.unacknowledged ≤ 0 then (device, [])
  else ({ device with unacknowledged := 0 }, [device.unacknowledged])

/-- The bytes handed to the reader, and the acknowledgements posted. -/
def readData (device : SplitReader) (maxSize : Nat) : SplitReader × Frame × List Int :=
  let size := min maxSize device.pending.length
  if size = 0 then (device, [], [])
  else
    let data := device.pending.take size
    let device := { device with readOffset := device.readOffset + size }
    if device.readOffset = device.readBuffer.length then
      let (device, posted) := { device with readBuffer := [], readOffset := 0 }.acknowledgeRead
      (device, data, posted)
    else (device, data, [])

/-- `QIODevice::read` of a sequential device: what is buffered goes first, and for a short rest the buffer is filled. -/
def read (device : SplitReader) (maxSize : Nat) : SplitReader × Frame × List Int :=
  let buffered := device.ioBuffer.take maxSize
  let device := { device with ioBuffer := device.ioBuffer.drop maxSize }
  let rest := maxSize - buffered.length
  if rest = 0 then (device, buffered, [])
  else if QIODEVICE_BUFFERSIZE ≤ rest then
    let (device, data, posted) := device.readData rest
    (device, buffered ++ data, posted)
  else
    let (device, data, posted) := device.readData QIODEVICE_BUFFERSIZE
    ({ device with ioBuffer := data.drop rest }, buffered ++ data.take rest, posted)

end SplitReader

/-- A connection: the two objects, what is queued for each by the other, every frame that came
off the wire and every byte the reader was handed. -/
structure ReadLink where
  channel : SocketChannel
  device : SplitReader
  signals : List ChannelSignal
  acknowledgements : List Int
  received : List Frame
  read : Frame

inductive ReadOp where
  | frame (message : Frame)
  | signal
  | read (maxSize : Nat)
  | acknowledgement

namespace ReadLink

/-- A new connection, its ceiling set before the channel moves to its thread. -/
def start (limit : Int) : ReadLink where
  channel := SocketChannel.setReadBufferLimit ⟨0, 0, false, false⟩ limit
  device := ⟨true, [], [], 0, 0, limit, false⟩
  signals := []
  acknowledgements := []
  received := []
  read := []

/-- Each side takes what is queued for it in the order it was posted. A closed device hands a
reader nothing. -/
def step (s : ReadLink) : ReadOp → ReadLink
  | .frame message =>
    let (channel, emitted) := s.channel.forward message
    { s with channel := channel, signals := s.signals ++ emitted, received := s.received ++ [message] }
  | .signal =>
    match s.signals with
    | [] => s
    | signal :: signals => { s with device := s.device.handle signal, signals := signals }
  | .read maxSize =>
    if s.device.isOpen then
      let (device, data, posted) := s.device.read maxSize
      { s with device := device, read := s.read ++ data, acknowledgements := s.acknowledgements ++ posted }
    else s
  | .acknowledgement =>
    match s.acknowledgements with
    | [] => s
    | bytes :: rest => { s with channel := s.channel.acknowledgeRead bytes, acknowledgements := rest }

end ReadLink
end SynQt
