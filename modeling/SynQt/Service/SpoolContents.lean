import SynQt.Service.Spool

/-! The file holds the batches it stands for: while the file operations succeed, each of them does to
the file what it is meant to do to the batches. -/
namespace SynQt
open Lib List

variable {α : Type}

/-- What does not fit is the oldest. -/
theorem keepNewest_eq (size : α → Nat) (cap : Int) (bytes : Nat) (kept older : List α) :
    (keepNewest size cap bytes kept older).2 ≤ older.length ∧
    (keepNewest size cap bytes kept older).1 =
      older.reverse.drop (keepNewest size cap bytes kept older).2 ++ kept := by
  induction older generalizing bytes kept with
  | nil => exact ⟨Nat.le_refl 0, rfl⟩
  | cons batch older ih =>
    rw [keepNewest]
    split
    · refine ⟨Nat.le_refl _, ?_⟩
      rw [drop_of_length_le (by simp), nil_append]
    · obtain ⟨hle, hkept⟩ := ih (bytes + size batch) (batch :: kept)
      refine ⟨Nat.le_succ_of_le hle, ?_⟩
      rw [hkept, reverse_cons, drop_append_of_le_length (by simpa using hle), append_assoc]
      rfl

namespace Backlog
variable {size : α → Nat} {s : Backlog α}

/-- The cap takes whole batches, from the old end, and counts them. -/
theorem trim_eq (size : α → Nat) (s : Backlog α) :
    ∃ n ≤ s.batches.length, s.trim size =
      { s with batches := s.batches.drop n, droppedBatches := s.droppedBatches + n } := by
  rw [trim]
  split
  · exact ⟨0, Nat.zero_le _, rfl⟩
  · obtain ⟨hle, hkept⟩ := keepNewest_eq size s.capBytes 0 [] s.batches.reverse
    rw [length_reverse] at hle
    rw [reverse_reverse, append_nil] at hkept
    refine ⟨(keepNewest size s.capBytes 0 [] s.batches.reverse).2, hle, ?_⟩
    simp only [hkept]

end Backlog

namespace SpoolFile
variable {stream : Codec UInt8 α}

def recordSize (stream : Codec UInt8 α) (batch : α) : Nat := ((spoolRecord stream).encode batch).length

theorem bytes_eq (stream : Codec UInt8 α) (batches : List α) :
    Backlog.bytes (recordSize stream) batches = ((spoolRecord stream).encodeAll batches).length := by
  induction batches with
  | nil => rfl
  | cons batch batches ih => rw [Backlog.bytes, ih, Codec.encodeAll_cons, length_append, recordSize]

structure Represents (stream : Codec UInt8 α) (s : SpoolFile) (backlog : Backlog α) : Prop where
  enabled : s.enabled = backlog.enabled
  cap : s.capBytes = backlog.capBytes
  dropped : s.droppedBatches = backlog.droppedBatches
  contents : s.file.getD [] = (spoolRecord stream).encodeAll backlog.batches
  fits : ∀ batch ∈ backlog.batches, stream.Fits batch
  disabled : backlog.enabled = false → backlog.batches = []

namespace Represents
variable {s : SpoolFile} {backlog : Backlog α}

section
variable (h : Represents stream s backlog)
include h

theorem read : s.readSpoolLocked stream .ok = backlog.batches := by
  have hwhole : (spoolRecord stream).decodeAll (s.file.getD []) = backlog.batches := by
    rw [h.contents]
    exact Codec.decodeAll_encodeAll h.fits
  rw [readSpoolLocked]
  cases hfile : s.file with
  | none =>
    rw [hfile] at hwhole
    exact hwhole
  | some bytes =>
    rw [hfile] at hwhole
    cases henabled : s.enabled with
    | true => simpa [FileOutcome.ok] using hwhole
    | false => simp [h.disabled (h.enabled.symm.trans henabled)]

theorem trim :
    Represents stream (s.trimLocked stream .ok) (backlog.trim (recordSize stream)) := by
  rw [trimLocked, Backlog.trim]
  have hlength : ((s.file.getD []).length : Int) = Backlog.bytes (recordSize stream) backlog.batches := by
    rw [bytes_eq, h.contents]
  rw [hlength, h.cap]
  split
  · exact h
  · obtain ⟨-, hkept⟩ := keepNewest_eq (recordSize stream) backlog.capBytes 0 [] backlog.batches.reverse
    rw [reverse_reverse, append_nil] at hkept
    refine ⟨h.enabled, rfl, ?_, ?_, fun batch hmem => ?_, fun hdisabled => ?_⟩
    · simp only [h.read, h.dropped]
      rfl
    · simp only [h.read]
      rfl
    · simp only [hkept] at hmem
      exact h.fits batch (mem_of_mem_drop hmem)
    · refine hkept.trans ?_
      rw [h.disabled hdisabled, drop_nil]

theorem spool {batch : α} (hfits : stream.Fits batch) :
    Represents stream (s.spool stream .ok batch) (backlog.spool (recordSize stream) batch) := by
  rw [SpoolFile.spool, Backlog.spool]
  by_cases henabled : backlog.enabled = true
  · have hfile : ¬(¬ s.enabled = true ∨ ¬ FileOutcome.ok.append = true) := by
      rw [h.enabled, henabled]
      decide
    rw [if_neg hfile, if_pos henabled]
    refine trim ⟨h.enabled, h.cap, h.dropped, ?_, fun b hmem => ?_, fun hdisabled => ?_⟩
    · rw [Option.getD_some, h.contents, Codec.encodeAll_append, Codec.encodeAll_singleton]
    · obtain hmem | hmem := mem_append.mp hmem
      · exact h.fits b hmem
      · exact mem_singleton.mp hmem ▸ hfits
    · exact absurd (henabled.symm.trans hdisabled) (by simp)
  · rw [if_pos (.inl (h.enabled ▸ henabled)), if_neg henabled]
    exact ⟨h.enabled, h.cap, congrArg (· + 1) h.dropped, h.contents, h.fits, h.disabled⟩

theorem take :
    (s.takeSpooledLocked stream .ok).1 = backlog.take.1 ∧
    Represents stream (s.takeSpooledLocked stream .ok).2 backlog.take.2 := by
  refine ⟨h.read, ?_⟩
  rw [takeSpooledLocked, Backlog.take]
  by_cases henabled : s.enabled = true
  · simp only [if_pos henabled]
    exact ⟨h.enabled, h.cap, h.dropped, rfl, nofun, fun _ => rfl⟩
  · simp only [if_neg henabled]
    rw [Bool.not_eq_true] at henabled
    have hnil := h.disabled (h.enabled.symm.trans henabled)
    refine ⟨h.enabled, h.cap, h.dropped, ?_, nofun, fun _ => rfl⟩
    rw [h.contents, hnil]

theorem restore {pending : List α} (hfits : ∀ batch ∈ pending, stream.Fits batch) :
    Represents stream (s.restoreLocked stream .ok pending) (backlog.restore (recordSize stream) pending) := by
  rw [restoreLocked, Backlog.restore]
  split
  · exact h
  · obtain ⟨-, htaken⟩ := h.take
    by_cases henabled : backlog.enabled = true
    · have hfile : ¬ ¬ s.enabled = true := by
        rw [h.enabled, henabled]
        decide
      rw [if_neg hfile, if_pos henabled]
      refine trim ⟨htaken.enabled, htaken.cap, htaken.dropped, ?_, fun b hmem => ?_, fun hdisabled => ?_⟩
      · simp only [h.read]
        rfl
      · obtain hmem | hmem := mem_append.mp hmem
        · exact hfits b hmem
        · exact h.fits b hmem
      · exact absurd (henabled.symm.trans hdisabled) (by simp)
    · rw [if_pos (h.enabled ▸ henabled), if_neg henabled]
      exact ⟨h.enabled, h.cap, congrArg (· + pending.length) h.dropped, h.contents, h.fits, h.disabled⟩

end

end Represents
def Holds (stream : Codec UInt8 α) (s : SpoolFile) (held : List α) : Prop :=
  ∃ backlog, Represents stream s backlog ∧ backlog.batches = held

namespace Holds
variable {s : SpoolFile} {held : List α}

section
variable (h : Holds stream s held)
include h

theorem read : s.readSpoolLocked stream .ok = held := by
  obtain ⟨backlog, hrep, rfl⟩ := h
  exact hrep.read

theorem fits {batch : α} (hmem : batch ∈ held) : stream.Fits batch := by
  obtain ⟨backlog, hrep, rfl⟩ := h
  exact hrep.fits batch hmem

theorem setDropped (n : Nat) : Holds stream { s with droppedBatches := n } held := by
  obtain ⟨backlog, hrep, rfl⟩ := h
  exact ⟨{ backlog with droppedBatches := n },
    ⟨hrep.enabled, hrep.cap, rfl, hrep.contents, hrep.fits, hrep.disabled⟩, rfl⟩

theorem take :
    (s.takeSpooledLocked stream .ok).1 = held ∧ Holds stream (s.takeSpooledLocked stream .ok).2 [] ∧
    (s.takeSpooledLocked stream .ok).2.droppedBatches = s.droppedBatches := by
  obtain ⟨backlog, hrep, rfl⟩ := h
  obtain ⟨hread, hrest⟩ := hrep.take
  exact ⟨hread, ⟨_, hrest, rfl⟩, hrest.dropped.trans hrep.dropped.symm⟩

/-- What a spooled batch pushes out is from the old end, and counted. -/
theorem spool {batch : α} (hfits : stream.Fits batch) :
    ∃ gone kept, held ++ [batch] = gone ++ kept ∧ Holds stream (s.spool stream .ok batch) kept ∧
      (s.spool stream .ok batch).droppedBatches = s.droppedBatches + gone.length := by
  obtain ⟨backlog, hrep, rfl⟩ := h
  have hnext := hrep.spool hfits
  by_cases henabled : backlog.enabled = true
  · obtain ⟨n, hn, htrim⟩ := Backlog.trim_eq (recordSize stream) { backlog with batches := backlog.batches ++ [batch] }
    rw [Backlog.spool, if_pos henabled, htrim] at hnext
    refine ⟨(backlog.batches ++ [batch]).take n, (backlog.batches ++ [batch]).drop n, (take_append_drop n _).symm,
      ⟨_, hnext, rfl⟩, ?_⟩
    rw [hnext.dropped, hrep.dropped, length_take_of_le hn]
  · have hnil := hrep.disabled (Bool.not_eq_true _ ▸ henabled)
    rw [Backlog.spool, if_neg henabled] at hnext
    refine ⟨[batch], [], by rw [hnil]; rfl, ⟨_, hnext, hnil⟩, ?_⟩
    rw [hnext.dropped, hrep.dropped]
    rfl

/-- What does not fit once the batches are back is the oldest of them, and counted. -/
theorem restore {pending : List α} (hfits : ∀ batch ∈ pending, stream.Fits batch) :
    ∃ gone kept, pending ++ held = gone ++ kept ∧ Holds stream (s.restoreLocked stream .ok pending) kept ∧
      (s.restoreLocked stream .ok pending).droppedBatches = s.droppedBatches + gone.length := by
  obtain ⟨backlog, hrep, rfl⟩ := h
  have hnext := hrep.restore hfits
  by_cases hpending : pending.isEmpty = true
  · obtain rfl := isEmpty_iff.mp hpending
    exact ⟨[], backlog.batches, rfl, ⟨_, hrep, rfl⟩, rfl⟩
  · by_cases henabled : backlog.enabled = true
    · obtain ⟨n, hn, htrim⟩ := Backlog.trim_eq (recordSize stream) { backlog with batches := pending ++ backlog.batches }
      rw [Backlog.restore, if_neg hpending, if_pos henabled, htrim] at hnext
      refine ⟨(pending ++ backlog.batches).take n, (pending ++ backlog.batches).drop n, (take_append_drop n _).symm,
        ⟨_, hnext, rfl⟩, ?_⟩
      rw [hnext.dropped, hrep.dropped, length_take_of_le hn]
    · have hnil := hrep.disabled (Bool.not_eq_true _ ▸ henabled)
      rw [Backlog.restore, if_neg hpending, if_neg henabled] at hnext
      refine ⟨pending, [], by rw [hnil], ⟨_, hnext, hnil⟩, ?_⟩
      rw [hnext.dropped, hrep.dropped]

end

end Holds
end SpoolFile
end SynQt
