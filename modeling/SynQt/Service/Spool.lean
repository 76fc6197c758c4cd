import SynQt.Lib.Records

/-! The spool: the file an entity keeps of what the monitor did not get, and the batches that
file stands for. -/
namespace SynQt
open Lib

/-- The format's version, written ahead of every batch. -/
def kSpoolVersion : List UInt8 := [0, 0, 0, 1]

def spoolRecord {α : Type} (stream : Codec UInt8 α) : Codec UInt8 α := stream.tagged kSpoolVersion

structure FileOutcome where
  append : Bool
  read : Bool
  rewrite : Bool
  commit : Bool

def FileOutcome.ok : FileOutcome := ⟨true, true, true, true⟩

/-- The newest that fit, taken newest first, and how many older ones do not. The newest is kept
however large it is. -/
def keepNewest {α : Type} (size : α → Nat) (cap : Int) (bytes : Nat) (kept : List α) : List α → List α × Nat
  | [] => (kept, 0)
  | batch :: older =>
    if ¬ kept.isEmpty ∧ cap < bytes + size batch then (kept, older.length + 1)
    else keepNewest size cap (bytes + size batch) (batch :: kept) older

structure SpoolFile where
  /-- Whether there is a path to spool to. -/
  enabled : Bool
  capBytes : Int
  file : Option (List UInt8)
  droppedBatches : Nat

namespace SpoolFile
variable {α : Type} (stream : Codec UInt8 α)

/-- Every batch the file holds, oldest first, up to one that does not read. -/
def readSpoolLocked (outcome : FileOutcome) (s : SpoolFile) : List α :=
  match s.file with
  | none => []
  | some bytes => if s.enabled ∧ outcome.read then (spoolRecord stream).decodeAll bytes else []

/-- The file rewritten with the newest that fit the cap. -/
def trimLocked (outcome : FileOutcome) (s : SpoolFile) : SpoolFile :=
  if s.capBytes ≤ 0 ∨ (s.file.getD []).length ≤ s.capBytes then s
  else
    let kept := keepNewest (fun batch => ((spoolRecord stream).encode batch).length) s.capBytes 0 []
      (s.readSpoolLocked stream outcome).reverse
    let s := { s with droppedBatches := s.droppedBatches + kept.2 }
    if outcome.rewrite ∧ outcome.commit then { s with file := some ((spoolRecord stream).encodeAll kept.1) } else s

def spool (outcome : FileOutcome) (s : SpoolFile) (batch : α) : SpoolFile :=
  if ¬ s.enabled ∨ ¬ outcome.append then { s with droppedBatches := s.droppedBatches + 1 }
  else { s with file := some (s.file.getD [] ++ (spoolRecord stream).encode batch) }.trimLocked stream outcome

def takeSpooledLocked (outcome : FileOutcome) (s : SpoolFile) : List α × SpoolFile :=
  (s.readSpoolLocked stream outcome, if s.enabled then { s with file := none } else s)

/-- Batches put back ahead of anything spooled since they were taken. -/
def restoreLocked (outcome : FileOutcome) (s : SpoolFile) (pending : List α) : SpoolFile :=
  if pending.isEmpty then s
  else if ¬ s.enabled then { s with droppedBatches := s.droppedBatches + pending.length }
  else
    let (since, s) := s.takeSpooledLocked stream outcome
    if ¬ outcome.rewrite then { s with droppedBatches := s.droppedBatches + pending.length + since.length }
    else
      let rewritten := (spoolRecord stream).encodeAll (pending ++ since)
      { s with file := if outcome.commit then some rewritten else s.file }.trimLocked stream outcome

/-- What a replay publishes to a replica that stays, and how many it then reports dropped. -/
def replay (s : SpoolFile) : List α × Nat := ((s.takeSpooledLocked stream .ok).1, s.droppedBatches)

/-- A boolean as the stream writes a variant that holds one: its type, that it is not null, and its value. -/
def writeBool (b : Bool) : List UInt8 := [0, 0, 0, 1, 0, if b then 1 else 0]

def readBool : List UInt8 → Option (Bool × List UInt8)
  | 0 :: 0 :: 0 :: 1 :: 0 :: value :: rest => some (if value = 0 then false else true, rest)
  | _ => none

private theorem readBool_writeBool (b : Bool) (rest : List UInt8) : readBool (writeBool b ++ rest) = some (b, rest) := by
  cases b <;> rfl

private theorem readBool_torn (b : Bool) {n : Nat} (hn : n < (writeBool b).length) : readBool ((writeBool b).take n) = none := by
  have hlength : (writeBool b).length = 6 := rfl
  obtain rfl | rfl | rfl | rfl | rfl | rfl : n = 0 ∨ n = 1 ∨ n = 2 ∨ n = 3 ∨ n = 4 ∨ n = 5 := by omega
  all_goals rfl

private theorem readBool_shrinks {input rest : List UInt8} {b : Bool} (h : readBool input = some (b, rest)) :
    rest.length < input.length := by
  rw [readBool.eq_def] at h
  split at h
  · cases h
    simp only [List.length_cons]
    omega
  · cases h

def boolVariant : Codec UInt8 Bool :=
  ⟨fun _ => True, writeBool, readBool, fun b _ => readBool_writeBool b, fun b _ _ => readBool_torn b,
    fun _ _ _ => readBool_shrinks⟩

def boolVariants : Codec UInt8 (List Bool) := .counted boolVariant

theorem boolVariants_fits (l : List Bool) (h : l.length < 4294967296) : boolVariants.Fits l := ⟨h, fun _ _ => trivial⟩

end SpoolFile

/-- What the file is for: the batches kept for the monitor, oldest first, and how many were not. -/
structure Backlog (α : Type) where
  enabled : Bool
  capBytes : Int
  batches : List α
  droppedBatches : Nat

namespace Backlog
variable {α : Type} (size : α → Nat)

def bytes : List α → Nat
  | [] => 0
  | batch :: batches => size batch + bytes batches

def trim (s : Backlog α) : Backlog α :=
  if s.capBytes ≤ 0 ∨ bytes size s.batches ≤ s.capBytes then s
  else
    let kept := keepNewest size s.capBytes 0 [] s.batches.reverse
    { s with batches := kept.1, droppedBatches := s.droppedBatches + kept.2 }

def spool (s : Backlog α) (batch : α) : Backlog α :=
  if s.enabled then { s with batches := s.batches ++ [batch] }.trim size
  else { s with droppedBatches := s.droppedBatches + 1 }

def take (s : Backlog α) : List α × Backlog α := (s.batches, { s with batches := [] })

def restore (s : Backlog α) (pending : List α) : Backlog α :=
  if pending.isEmpty then s
  else if s.enabled then { s with batches := pending ++ s.batches }.trim size
  else { s with droppedBatches := s.droppedBatches + pending.length }

end Backlog
end SynQt
