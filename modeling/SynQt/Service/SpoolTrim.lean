import SynQt.Service.SpoolContents

namespace SynQt
open Lib List

variable {α : Type}

variable (size : α → Nat)

private theorem Backlog.bytes_reverse (batches : List α) :
    Backlog.bytes size batches.reverse = Backlog.bytes size batches := by
  have hsum (l : List α) : Backlog.bytes size l = (l.map size).sum := by
    induction l with
    | nil => rfl
    | cons batch rest ih => rw [Backlog.bytes, ih, map_cons, sum_cons]
  rw [hsum, hsum, map_reverse, sum_reverse]

private theorem keepNewest_bytes (cap : Int) {bytes : Nat} {kept : List α} (older : List α)
    (hbytes : Backlog.bytes size kept = bytes) (h : (bytes : Int) ≤ cap ∨ kept.length ≤ 1) :
    (Backlog.bytes size (keepNewest size cap bytes kept older).1 : Int) ≤ cap ∨
      (keepNewest size cap bytes kept older).1.length ≤ 1 := by
  induction older generalizing bytes kept with
  | nil =>
    rw [keepNewest, hbytes]
    exact h
  | cons batch older ih =>
    rw [keepNewest]
    split
    · rw [hbytes]
      exact h
    · next hfits =>
      have hsum : Backlog.bytes size (batch :: kept) = bytes + size batch := by
        rw [Backlog.bytes, hbytes, Nat.add_comm]
      refine ih hsum ?_
      by_cases hempty : kept.isEmpty = true
      · rw [isEmpty_iff.mp hempty]
        exact .inr (Nat.le_refl 1)
      · have hle : ¬ cap < (bytes : Int) + size batch := fun hover => hfits ⟨hempty, by exact_mod_cast hover⟩
        left
        push_cast
        omega

private theorem keepNewest_all (cap : Int) {bytes : Nat} {kept : List α} (older : List α) (hkept : kept ≠ []) :
    (keepNewest size cap bytes kept older).2 = 0 ↔ older = [] ∨ (bytes + Backlog.bytes size older : Int) ≤ cap := by
  induction older generalizing bytes kept with
  | nil => exact iff_of_true rfl (.inl rfl)
  | cons batch older ih =>
    have hsome : ¬ kept.isEmpty = true := fun hempty => hkept (isEmpty_iff.mp hempty)
    rw [keepNewest, Backlog.bytes]
    by_cases hover : cap < ((bytes + size batch : Nat) : Int)
    · rw [if_pos ⟨hsome, by exact_mod_cast hover⟩]
      refine iff_of_false (Nat.succ_ne_zero _) ?_
      rintro (hnil | hle)
      · cases hnil
      · push_cast at hover hle
        omega
    · rw [if_neg fun h => hover (by exact_mod_cast h.2), ih (cons_ne_nil _ _)]
      push_cast at hover ⊢
      constructor
      · rintro (rfl | hle)
        · have hnone : Backlog.bytes size ([] : List α) = 0 := rfl
          rw [hnone]
          right
          push_cast
          omega
        · right
          omega
      · rintro (hnil | hle)
        · cases hnil
        · right
          omega

private theorem keepNewest_none (cap : Int) (batches : List α) :
    (keepNewest size cap 0 [] batches.reverse).2 = 0 ↔
      batches.length ≤ 1 ∨ (Backlog.bytes size batches : Int) ≤ cap := by
  rw [← Backlog.bytes_reverse, ← length_reverse]
  cases batches.reverse with
  | nil => exact iff_of_true rfl (.inl (Nat.zero_le 1))
  | cons newest older =>
    have hfirst : keepNewest size cap 0 [] (newest :: older) = keepNewest size cap (size newest) [newest] older := by
      rw [keepNewest, if_neg fun h => h.1 rfl, Nat.zero_add]
    rw [hfirst, keepNewest_all size cap older (cons_ne_nil _ _), Backlog.bytes, length_cons,
      Nat.succ_le_succ_iff, Nat.le_zero, length_eq_zero_iff]
    push_cast
    exact Iff.rfl

namespace SpoolFile
variable {stream : Codec UInt8 α} {s s' : SpoolFile} {batches : List α} {outcome : FileOutcome}

/-- The file holds the batches but for the `n` oldest, which the count says. Rewritten, it is within the cap
or holds the newest alone, which is larger; where the rewrite failed it is the file it was. -/
structure TrimmedBy (stream : Codec UInt8 α) (batches : List α) (outcome : FileOutcome) (s s' : SpoolFile) (n : Nat) :
    Prop where
  contents : s'.file.getD [] = (spoolRecord stream).encodeAll (batches.drop n)
  counted : s'.droppedBatches = s.droppedBatches + n
  within : outcome.rewrite = true ∧ outcome.commit = true →
    (Backlog.bytes (recordSize stream) (batches.drop n) : Int) ≤ s.capBytes ∨
      (batches.drop n).length = 1 ∧ s.capBytes < Backlog.bytes (recordSize stream) (batches.drop n)
  untouched : ¬ (outcome.rewrite = true ∧ outcome.commit = true) → s'.file = s.file

def Trimmed (stream : Codec UInt8 α) (batches : List α) (outcome : FileOutcome) (s s' : SpoolFile) : Prop :=
  ∃ n ≤ batches.length, TrimmedBy stream batches outcome s s' n

structure Whole (stream : Codec UInt8 α) (s : SpoolFile) (batches : List α) : Prop where
  enabled : s.enabled = true
  capped : 0 < s.capBytes
  contents : s.file.getD [] = (spoolRecord stream).encodeAll batches
  fits : ∀ batch ∈ batches, stream.Fits batch

section
variable (h : Whole stream s batches)
include h

theorem Whole.represents :
    Represents stream s { enabled := true, capBytes := s.capBytes, batches := batches, droppedBatches := s.droppedBatches } :=
  ⟨h.enabled, rfl, rfl, h.contents, h.fits, fun hdisabled => by cases hdisabled⟩

theorem Whole.read :
    s.readSpoolLocked stream outcome = if outcome.read then batches else [] := by
  by_cases hread : outcome.read = true
  · have hsame : s.readSpoolLocked stream outcome = s.readSpoolLocked stream .ok := by
      rw [readSpoolLocked, readSpoolLocked, hread]
      rfl
    rw [if_pos hread, hsame]
    exact h.represents.read
  · rw [if_neg hread, readSpoolLocked]
    cases s.file with
    | none => rfl
    | some bytes => exact if_neg fun hboth => hread hboth.2

theorem Whole.trimLocked :
    s.trimLocked stream outcome =
      if (Backlog.bytes (recordSize stream) batches : Int) ≤ s.capBytes then s
      else
        let kept := keepNewest (recordSize stream) s.capBytes 0 [] (if outcome.read then batches else []).reverse
        { s with
          droppedBatches := s.droppedBatches + kept.2
          file := if outcome.rewrite ∧ outcome.commit then some ((spoolRecord stream).encodeAll kept.1) else s.file } := by
  have hlength : ((s.file.getD []).length : Int) = Backlog.bytes (recordSize stream) batches := by
    rw [bytes_eq, h.contents]
  have hcapped := h.capped
  rw [SpoolFile.trimLocked, hlength, h.read]
  by_cases hfits : (Backlog.bytes (recordSize stream) batches : Int) ≤ s.capBytes
  · rw [if_pos (.inr hfits), if_pos hfits]
  · rw [if_neg (fun hor => hor.elim (fun hcap => by omega) hfits), if_neg hfits]
    dsimp only
    split <;> rfl

private theorem trimmed_self (hfits : (Backlog.bytes (recordSize stream) batches : Int) ≤ s.capBytes) : Trimmed stream batches outcome s s :=
  ⟨0, Nat.zero_le _, h.contents, rfl, fun _ => .inl hfits, fun _ => rfl⟩

end

section
variable (hover : ¬ (Backlog.bytes (recordSize stream) batches : Int) ≤ s.capBytes)
include hover

private theorem unread_iff (h : Whole stream s batches) (hread : ¬ outcome.read = true) :
    Trimmed stream batches outcome s (s.trimLocked stream outcome) ↔
      ¬ (outcome.rewrite = true ∧ outcome.commit = true) := by
  have hcapped := h.capped
  rw [h.trimLocked, if_neg hover, if_neg hread]
  by_cases hwritten : outcome.rewrite = true ∧ outcome.commit = true
  · dsimp only
    rw [if_pos hwritten]
    refine iff_of_false ?_ (not_not_intro hwritten)
    rintro ⟨n, hn, hcontents, hcounted, -, -⟩
    have hzero : n = 0 := Nat.left_eq_add.mp hcounted
    rw [hzero, drop_zero] at hcontents
    have hall : ∀ batch ∈ batches, (spoolRecord stream).Fits batch := h.fits
    have hnone := congrArg (spoolRecord stream).decodeAll hcontents
    rw [Codec.decodeAll_encodeAll hall] at hnone
    have hempty : batches = [] := hnone.symm.trans (Codec.decodeAll_encodeAll fun batch hin => by cases hin)
    rw [hempty] at hover
    exact hover (Int.le_of_lt hcapped)
  · dsimp only
    rw [if_neg hwritten]
    exact iff_of_true ⟨0, Nat.zero_le _, h.contents, rfl, fun hdone => absurd hdone hwritten, fun _ => rfl⟩ hwritten

/-- A trim of a spool that is read is as it should be exactly where the rewrite comes about or leaves nothing out. -/
theorem read_iff (h : Whole stream s batches) (hread : outcome.read = true) :
    Trimmed stream batches outcome s (s.trimLocked stream outcome) ↔
      (outcome.rewrite = true ∧ outcome.commit = true) ∨ batches.length ≤ 1 := by
  rw [h.trimLocked, if_neg hover, if_pos hread]
  dsimp only
  obtain ⟨hle, hkept⟩ := keepNewest_eq (recordSize stream) s.capBytes 0 [] batches.reverse
  have hcount : _ ↔ batches.length ≤ 1 :=
    (keepNewest_none (recordSize stream) s.capBytes batches).trans (or_iff_left hover)
  have hnothing : ([] : List α).length ≤ 1 := Nat.zero_le 1
  have hzero : Backlog.bytes (recordSize stream) ([] : List α) = 0 := rfl
  have hbytes := keepNewest_bytes (recordSize stream) s.capBytes batches.reverse hzero (.inr hnothing)
  generalize keepNewest (recordSize stream) s.capBytes 0 [] batches.reverse = kept at hle hkept hcount hbytes
  rw [length_reverse] at hle
  rw [reverse_reverse, append_nil] at hkept
  by_cases hwritten : outcome.rewrite = true ∧ outcome.commit = true
  · rw [if_pos hwritten]
    refine iff_of_true ⟨kept.2, hle, ?_, rfl, fun _ => ?_, fun hnot => absurd hwritten hnot⟩ (.inl hwritten)
    · rw [← hkept]
      rfl
    · rw [← hkept]
      by_cases hwithin : (Backlog.bytes (recordSize stream) kept.1 : Int) ≤ s.capBytes
      · exact .inl hwithin
      · refine .inr ⟨Nat.le_antisymm (hbytes.resolve_left hwithin) ?_, Int.not_le.mp hwithin⟩
        refine Nat.pos_of_ne_zero fun hzero => hwithin ?_
        rw [length_eq_zero_iff.mp hzero]
        exact Int.le_of_lt h.capped
  · rw [if_neg hwritten]
    constructor
    · rintro ⟨n, hn, hcontents, hcounted, -, -⟩
      have hwhole : batches.drop n = batches := by
        have hall : ∀ batch ∈ batches, (spoolRecord stream).Fits batch := h.fits
        have hrest : ∀ batch ∈ batches.drop n, (spoolRecord stream).Fits batch := fun batch hin =>
          hall batch (mem_of_mem_drop hin)
        have hsame := congrArg (spoolRecord stream).decodeAll (hcontents.symm.trans h.contents)
        rwa [Codec.decodeAll_encodeAll hrest, Codec.decodeAll_encodeAll hall] at hsame
      have hlength := congrArg List.length hwhole
      rw [length_drop] at hlength
      dsimp only at hcounted
      have hnone : kept.2 = 0 := by omega
      exact .inr (hcount.mp hnone)
    · intro hor
      have hnone : kept.2 = 0 := hcount.mpr (hor.resolve_left hwritten)
      refine ⟨0, Nat.zero_le _, h.contents, ?_, fun hdone => absurd hdone hwritten, fun _ => rfl⟩
      dsimp only
      rw [hnone]

end

/-- A trim is as it should be exactly where all fits the cap already, or the batches were read and the rewrite
comes about or has nothing to leave out, or neither came about. -/
theorem trimLocked_iff (h : Whole stream s batches) :
    Trimmed stream batches outcome s (s.trimLocked stream outcome) ↔
      (Backlog.bytes (recordSize stream) batches : Int) ≤ s.capBytes ∨
        (outcome.read = true ∧ ((outcome.rewrite = true ∧ outcome.commit = true) ∨ batches.length ≤ 1)) ∨
        (outcome.read = false ∧ ¬ (outcome.rewrite = true ∧ outcome.commit = true)) := by
  by_cases hfits : (Backlog.bytes (recordSize stream) batches : Int) ≤ s.capBytes
  · rw [h.trimLocked, if_pos hfits]
    exact iff_of_true (trimmed_self h hfits) (.inl hfits)
  · cases hread : outcome.read with
    | true => simp only [read_iff hfits h hread, hfits, false_or, true_and, or_false, reduceCtorEq, false_and]
    | false =>
      have hunread : ¬ outcome.read = true := by
        rw [hread]
        exact Bool.false_ne_true
      simp only [unread_iff hfits h hunread, hfits, false_or, true_and, reduceCtorEq, false_and]

/-- Two batches, of which the cap leaves room for one. -/
def overCap : SpoolFile where
  enabled := true
  capBytes := 20
  file := some ((spoolRecord boolVariants).encodeAll [[true], [false]])
  droppedBatches := 0

private theorem overCap_whole : Whole boolVariants overCap [[true], [false]] :=
  ⟨rfl, by decide, rfl, fun batch hin => boolVariants_fits batch (by
    obtain rfl | rfl : batch = [true] ∨ batch = [false] := by simpa using hin
    all_goals decide)⟩

theorem overCap_trimmed : Trimmed boolVariants [[true], [false]] .ok overCap (overCap.trimLocked boolVariants .ok) :=
  (trimLocked_iff overCap_whole).mpr (.inr (.inl ⟨rfl, .inl ⟨rfl, rfl⟩⟩))

/-- The rewritten file is not committed: the count has gone up, and both batches are there. -/
theorem uncommitted_counted :
    ¬ Trimmed boolVariants [[true], [false]] ⟨true, true, true, false⟩ overCap
      (overCap.trimLocked boolVariants ⟨true, true, true, false⟩) := by
  rintro ⟨n, -, hcontents, hcounted, -, -⟩
  have hone : 1 = 0 + n := hcounted
  rw [← (by omega : 1 = n)] at hcontents
  exact absurd hcontents (by decide)

end SpoolFile
end SynQt
