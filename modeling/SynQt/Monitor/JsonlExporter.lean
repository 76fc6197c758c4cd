import SynQt.Monitor.EventStore

/-! The exporter of JSON lines: a file that events are written to, a line each, and that is shifted into a chain of
archives when it is full. Each call of the file system may fail. -/
namespace SynQt
open Lib

/-- What a write does: nothing taken, when it fails, or that many bytes; and how many bytes of the buffer reach the
disk meanwhile. -/
structure WriteOutcome where
  taken : Option Nat
  spilled : Nat := 0
deriving DecidableEq

/-- What a rotation meets: how many bytes of the buffer are written when the file is closed, whether the file past
the last may be removed, and which may be renamed. -/
structure RotationOutcome where
  closes : Nat
  remove : Bool := true
  rename : Nat → Bool := fun _ => true

structure EventOutcome where
  rotation : RotationOutcome
  reopens : Bool := true
  text : WriteOutcome
  newline : WriteOutcome

structure Taking where
  opens : Bool := true
  events : List (TraceEvent × EventOutcome)
  flushes : Nat

/-- The log is file 0 and its archives are numbered from 1, the newest first. The rest is history: `log` are the lines
written, those of earlier processes first, `gone` the bytes of the files that rotation removed, `taken` the events,
`failed` whether an open or a write has failed since the last line, and `bared` whether an archived line was removed after
one, with no line in the log to put in its place. -/
structure JsonlExporter where
  maxBytes : Int
  keep : Nat
  disk : Nat → Option QByteArray
  isOpen : Bool := false
  buffer : QByteArray := []
  written : Int := 0
  exported : Nat := 0
  dropped : Nat := 0
  log : List QByteArray
  gone : QByteArray
  taken : Nat := 0
  failed : Bool := false
  bared : Bool := false

namespace JsonlExporter

def lineFeed : UInt8 := 10

def putFile (disk : Nat → Option QByteArray) (n : Nat) (content : Option QByteArray) : Nat → Option QByteArray :=
  fun m => if m = n then content else disk m

def removeFile (disk : Nat → Option QByteArray) (n : Nat) (works : Bool) : Nat → Option QByteArray :=
  if works then putFile disk n none else disk

/-- A file is not renamed over another. -/
def renameFile (disk : Nat → Option QByteArray) (from_ to_ : Nat) (works : Bool) : Nat → Option QByteArray :=
  if works && (disk from_).isSome && (disk to_).isNone then putFile (putFile disk to_ (disk from_)) from_ none else disk

/-- The first bytes of the buffer reach the disk. -/
def spill (s : JsonlExporter) (n : Nat) : JsonlExporter :=
  { s with
    disk := putFile s.disk 0 ((s.disk 0).map (· ++ s.buffer.take n))
    buffer := s.buffer.drop n }

def flush (s : JsonlExporter) (n : Nat) : JsonlExporter := if s.isOpen then s.spill n else s

/-- What is left in the buffer is gone. -/
def close (s : JsonlExporter) (n : Nat) : JsonlExporter :=
  if s.isOpen then { s.spill n with isOpen := false, buffer := [] } else s

def ensureOpen (s : JsonlExporter) (opens : Bool) : JsonlExporter × Bool :=
  if s.isOpen then (s, true)
  else if opens then
    let content := (s.disk 0).getD []
    ({ s with disk := putFile s.disk 0 (some content), isOpen := true, written := content.length }, true)
  else (s, false)

/-- The archives from `index` down, each to the next place. -/
def shiftArchives (keep : Nat) (outcome : RotationOutcome) : Nat → (Nat → Option QByteArray) → Nat → Option QByteArray
  | 0, disk => disk
  | index + 1, disk =>
    let shifted :=
      if (disk (index + 1)).isNone then disk
      else if index + 1 = keep then removeFile disk (index + 1) outcome.remove
      else renameFile disk (index + 1) (index + 2) (outcome.rename (index + 1))
    shiftArchives keep outcome index shifted

def rotate (s : JsonlExporter) (outcome : RotationOutcome) : JsonlExporter :=
  let closed := s.close outcome.closes
  let shifted := shiftArchives closed.keep outcome closed.keep closed.disk
  { closed with
    gone := closed.gone ++ if outcome.remove then (closed.disk closed.keep).getD [] else []
    disk := if closed.keep > 0 then renameFile shifted 0 1 (outcome.rename 0) else removeFile shifted 0 outcome.remove
    bared := closed.bared || closed.failed && decide (closed.keep > 0) && !((closed.disk closed.keep).getD []).isEmpty &&
      outcome.remove && ((closed.disk 0).getD []).isEmpty }

def write (s : JsonlExporter) (data : QByteArray) (outcome : WriteOutcome) : JsonlExporter × Bool :=
  if !s.isOpen then (s, false)
  else
    match outcome.taken with
    | none => (s.spill outcome.spilled, false)
    | some n => ({ s with buffer := s.buffer ++ data.take n }.spill outcome.spilled, true)

section
variable (line : TraceEvent → QByteArray)

def overflows (s : JsonlExporter) (event : TraceEvent) : Bool :=
  decide (s.maxBytes > 0) && decide (s.written + (line event).length + 1 > s.maxBytes)

def drop (s : JsonlExporter) : JsonlExporter := { s with dropped := s.dropped + 1, failed := true }

def writeLine (s : JsonlExporter) (event : TraceEvent) (outcome : EventOutcome) : JsonlExporter :=
  let text := s.write (line event) outcome.text
  if !text.2 then text.1.drop
  else
    let ended := text.1.write [lineFeed] outcome.newline
    if !ended.2 then ended.1.drop
    else
      { ended.1 with
        written := ended.1.written + (line event).length + 1
        exported := ended.1.exported + 1
        log := ended.1.log ++ [line event]
        failed := false }

def takeOne (s : JsonlExporter) (given : TraceEvent × EventOutcome) : JsonlExporter :=
  let s := { s with taken := s.taken + 1 }
  if s.overflows line given.1 then
    let opened := (s.rotate given.2.rotation).ensureOpen given.2.reopens
    if !opened.2 then opened.1.drop else opened.1.writeLine line given.1 given.2
  else s.writeLine line given.1 given.2

def take (s : JsonlExporter) (taking : Taking) : JsonlExporter :=
  if taking.events.isEmpty then s
  else
    let opened := s.ensureOpen taking.opens
    if !opened.2 then
      { opened.1 with
        dropped := opened.1.dropped + taking.events.length
        taken := opened.1.taken + taking.events.length
        failed := true }
    else (taking.events.foldl (takeOne line) opened.1).flush taking.flushes

end

/-- An exporter over what an earlier process left, which had written the lines `log` and removed the bytes `gone`. -/
def make (maxBytes : Int) (keep : Nat) (disk : Nat → Option QByteArray) (log : List QByteArray) (gone : QByteArray) : JsonlExporter :=
  { maxBytes := maxBytes, keep := keep, disk := disk, log := log, gone := gone }

def unlines (lines : List QByteArray) : QByteArray := lines.flatMap (· ++ [lineFeed])

def oldestFirst (groups : Nat → List QByteArray) : Nat → List QByteArray
  | 0 => groups 0
  | n + 1 => groups (n + 1) ++ oldestFirst groups n

end JsonlExporter
end SynQt
