import SynQt.Service.SpoolContents

namespace SynQt
open Lib List

variable {α : Type}

namespace SpoolFile

def start (capBytes : Int) : SpoolFile := ⟨true, capBytes, none, 0⟩

def spoolAll (stream : Codec UInt8 α) (s : SpoolFile) (batches : List α) : SpoolFile :=
  batches.foldl (fun s batch => s.spool stream .ok batch) s

/-- What the next process finds: the first bytes of the file, and a count of its own. -/
def crash (s : SpoolFile) (n : Nat) (capBytes : Int) : SpoolFile :=
  { s with capBytes := capBytes, file := s.file.map (·.take n), droppedBatches := 0 }

private theorem represents_start (stream : Codec UInt8 α) (capBytes : Int) :
    Represents stream (start capBytes) ⟨true, capBytes, [], 0⟩ :=
  ⟨rfl, rfl, rfl, rfl, nofun, nofun⟩

private theorem Represents.spoolAll {stream : Codec UInt8 α} {s : SpoolFile} {backlog : Backlog α}
    (h : Represents stream s backlog) {batches : List α} (hfits : ∀ batch ∈ batches, stream.Fits batch) :
    Represents stream (s.spoolAll stream batches)
      (batches.foldl (fun backlog batch => backlog.spool (recordSize stream) batch) backlog) := by
  induction batches generalizing s backlog with
  | nil => exact h
  | cons batch batches ih => exact ih (h.spool (hfits batch (.head _))) fun b hmem => hfits b (.tail _ hmem)

end SpoolFile

namespace Backlog
variable {size : α → Nat}

private theorem spool_eq {s : Backlog α} (henabled : s.enabled = true) (size : α → Nat) (batch : α) :
    ∃ n ≤ s.batches.length + 1, s.spool size batch =
      { s with batches := (s.batches ++ [batch]).drop n, droppedBatches := s.droppedBatches + n } := by
  obtain ⟨n, hn, htrim⟩ := trim_eq size { s with batches := s.batches ++ [batch] }
  refine ⟨n, by simpa using hn, ?_⟩
  rw [spool, if_pos henabled, htrim]

private theorem spoolAll_eq {s : Backlog α} (henabled : s.enabled = true) (all : List α) (size : α → Nat) (batches : List α)
    (hle : s.droppedBatches ≤ all.length) (hall : s.batches = all.drop s.droppedBatches) :
    ∃ n ≤ (all ++ batches).length, batches.foldl (fun s batch => s.spool size batch) s =
      { s with batches := (all ++ batches).drop n, droppedBatches := n } := by
  induction batches generalizing s all with
  | nil =>
    rw [append_nil]
    exact ⟨s.droppedBatches, hle, hall ▸ rfl⟩
  | cons batch batches ih =>
    obtain ⟨n, hn, hspool⟩ := spool_eq henabled size batch
    have hlength : s.batches.length = all.length - s.droppedBatches := by rw [hall, length_drop]
    have hbound : s.droppedBatches + n ≤ (all ++ [batch]).length := by
      rw [length_append, length_singleton]
      omega
    have hnext : (s.batches ++ [batch]).drop n = (all ++ [batch]).drop (s.droppedBatches + n) := by
      rw [hall, ← drop_drop, drop_append_of_le_length hle]
    obtain ⟨n', hn', hrest⟩ := ih (s := s.spool size batch) (by rw [hspool]; exact henabled) (all ++ [batch])
      (by rw [hspool]; exact hbound) (by rw [hspool]; exact hnext)
    rw [append_assoc] at hn' hrest
    refine ⟨n', hn', ?_⟩
    rw [foldl_cons, hrest, hspool]
    rfl

end Backlog

namespace SpoolFile

def wholeBefore (stream : Codec UInt8 α) (n : Nat) (held : List α) : List α := (spoolRecord stream).wholeWithin n held

/-- The cut leaves no part of a record at the end of the file. -/
def CutsBetween (stream : Codec UInt8 α) (n : Nat) (held : List α) : Prop :=
  min n ((spoolRecord stream).encodeAll held).length = ((spoolRecord stream).encodeAll (wholeBefore stream n held)).length
deriving Decidable

variable {stream : Codec UInt8 α} {s : SpoolFile}

private theorem read_eq (henabled : s.enabled = true) :
    s.readSpoolLocked stream .ok = (spoolRecord stream).decodeAll (s.file.getD []) := by
  rw [readSpoolLocked]
  cases hfile : s.file with
  | none => rfl
  | some bytes => exact if_pos ⟨henabled, rfl⟩

/-- Whatever is spooled to a file that holds the batches, it then holds all but the oldest, which are counted. -/
theorem Represents.replay_spoolAll {capBytes : Int} {held : List α}
    (h : Represents stream s ⟨true, capBytes, held, 0⟩) {batches : List α}
    (hfits : ∀ batch ∈ batches, stream.Fits batch) :
    ((s.spoolAll stream batches).replay stream).2 ≤ (held ++ batches).length ∧
    ((s.spoolAll stream batches).replay stream).1 = (held ++ batches).drop ((s.spoolAll stream batches).replay stream).2 := by
  obtain ⟨n, hn, hall⟩ :=
    Backlog.spoolAll_eq (s := ⟨true, capBytes, held, 0⟩) rfl held (recordSize stream) batches (Nat.zero_le _) drop_zero.symm
  have hnow := h.spoolAll hfits
  rw [hall] at hnow
  have hdropped : ((s.spoolAll stream batches).replay stream).2 = n := hnow.dropped
  have hread : ((s.spoolAll stream batches).replay stream).1 = (held ++ batches).drop n := hnow.take.1
  rw [hdropped]
  exact ⟨hn, hread⟩

section
variable {backlog : Backlog α} (h : Represents stream s backlog)
include h

private theorem Represents.crash (henabled : backlog.enabled = true) (n : Nat) (capBytes : Int) (hcut : CutsBetween stream n backlog.batches) :
    Represents stream (s.crash n capBytes) ⟨true, capBytes, wholeBefore stream n backlog.batches, 0⟩ := by
  refine ⟨h.enabled.trans henabled, rfl, rfl, ?_, fun batch hmem => ?_, nofun⟩
  · rw [SpoolFile.crash, wholeBefore, ← Codec.take_eq_encodeAll hcut, ← h.contents]
    cases s.file with
    | none => exact take_nil.symm
    | some bytes => rfl
  · exact h.fits batch (Codec.wholeWithin_subset n _ hmem)

private theorem Represents.read_crash (henabled : backlog.enabled = true) (n : Nat) (capBytes : Int) :
    (s.crash n capBytes).readSpoolLocked stream .ok = wholeBefore stream n backlog.batches := by
  have hfile : (s.crash n capBytes).file.getD [] = ((spoolRecord stream).encodeAll backlog.batches).take n := by
    rw [SpoolFile.crash, ← h.contents]
    cases s.file with
    | none => exact take_nil.symm
    | some bytes => rfl
  have hpath : (s.crash n capBytes).enabled = true := h.enabled.trans henabled
  have hfits : ∀ batch ∈ backlog.batches, (spoolRecord stream).Fits batch := h.fits
  rw [read_eq hpath, hfile]
  exact Codec.decodeAll_take hfits n

end

/-- A process that spools `before` is killed with `n` bytes of the file written, and the next spools `after`. What the
replay then delivers, and what it counts as dropped, is all that was whole and all of `after`: wherever the cut is,
while nothing is spooled behind it, and behind a cut between two records whatever is spooled there. -/
theorem clean_cut_keeps_all {before after : List α} (capBytes capBytes' : Int) (n : Nat)
    (hbefore : ∀ batch ∈ before, stream.Fits batch) (hafter : ∀ batch ∈ after, stream.Fits batch)
    (hcut : after = [] ∨ CutsBetween stream n (((start capBytes).spoolAll stream before).readSpoolLocked stream .ok)) :
    let held := ((start capBytes).spoolAll stream before).readSpoolLocked stream .ok
    let next := (((start capBytes).spoolAll stream before).crash n capBytes').spoolAll stream after
    (next.replay stream).2 ≤ (wholeBefore stream n held ++ after).length ∧
    (next.replay stream).1 = (wholeBefore stream n held ++ after).drop (next.replay stream).2 := by
  obtain ⟨m, -, hall⟩ :=
    Backlog.spoolAll_eq (s := ⟨true, capBytes, [], 0⟩) rfl [] (recordSize stream) before (Nat.zero_le _) rfl
  have hnow := (represents_start stream capBytes).spoolAll hbefore
  rw [hall] at hnow
  rw [hnow.read] at hcut ⊢
  obtain rfl | hcut := hcut
  · refine ⟨Nat.zero_le _, ?_⟩
    rw [append_nil]
    exact hnow.read_crash rfl n capBytes'
  · exact (hnow.crash rfl n capBytes' hcut).replay_spoolAll hafter

/-- Two whole records, a third spooled and cut off to the byte, and one more from the next process. -/
theorem clean_cut_keeps_all_two :
    let held := ((start 1000).spoolAll boolVariants [[true], [false, true], [true]]).readSpoolLocked boolVariants .ok
    let next := (((start 1000).spoolAll boolVariants [[true], [false, true], [true]]).crash 34 1000).spoolAll boolVariants
      [[false]]
    (next.replay boolVariants).2 ≤ (wholeBefore boolVariants 34 held ++ [[false]]).length ∧
    (next.replay boolVariants).1 = (wholeBefore boolVariants 34 held ++ [[false]]).drop (next.replay boolVariants).2 :=
  clean_cut_keeps_all 1000 1000 34 (by simp [boolVariants_fits]) (by simp [boolVariants_fits]) (.inr (by decide))

/-- Three bytes of a version at the end of the file, and what is spooled behind them is gone with it, and not counted. -/
theorem torn_version_loses_next :
    let next := (((start 1000).spoolAll boolVariants [[true]]).crash 3 1000).spoolAll boolVariants [[false], [true]]
    next.replay boolVariants = ([], 0) ∧ (next.takeSpooledLocked boolVariants .ok).2.file = none ∧
    wholeBefore boolVariants 3 [[true]] = [] := by
  decide

end SpoolFile
end SynQt
