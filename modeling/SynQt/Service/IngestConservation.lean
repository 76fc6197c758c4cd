import SynQt.Lib.Grouping
import SynQt.Service.IngestClient
import SynQt.Service.SpoolContents

namespace SynQt
open Lib List

variable {E : Type}

def WriterCall.slices : WriterCall E → List (List E)
  | .sending _ slice _ | .spooling slice _ => [slice]
  | .idle | .slicing _ => []

namespace ReplayStage

def batches : ReplayStage E → List (List E)
  | .running _ _ batches | .calling _ _ batches => batches
  | _ => []

/-- What a replay has taken of the count, and not reported yet. -/
def dropped : ReplayStage E → Nat
  | .running _ dropped _ | .calling _ dropped _ => dropped
  | _ => 0

end ReplayStage

namespace IngestClient

def batchesOf (replays : List (Replay E)) : List (List E) := replays.flatMap (·.stage.batches)

def droppedOf : List (Replay E) → Nat
  | [] => 0
  | replay :: outer => replay.stage.dropped + droppedOf outer

section Published
variable {stream : Codec UInt8 (List E)} {s : IngestClient E}

private theorem deliver_writer (replica : ReplicaId) (arrival : Arrival E) :
    (s.deliver replica arrival).published = s.published ∧ (s.deliver replica arrival).writer = s.writer := by
  rw [deliver]
  split <;> exact ⟨rfl, rfl⟩

private theorem goOn_writer : (s.goOn stream).published = s.published ∧ (s.goOn stream).writer = s.writer := by
  rw [goOn]
  split
  · exact ⟨rfl, rfl⟩
  · next mark stage outer _ =>
    cases stage with
    | running replica dropped batches =>
      cases batches <;> dsimp only <;> split
      · exact ⟨rfl, rfl⟩
      · split <;> exact ⟨rfl, rfl⟩
      · exact ⟨rfl, rfl⟩
      · exact deliver_writer _ _
    | _ => exact ⟨rfl, rfl⟩

/-- What the writer thread has yet to cut of the batch it has in hand. -/
def uncut (s : IngestClient E) : List E :=
  match s.writer with
  | .idle => []
  | .slicing rest | .sending _ _ rest | .spooling _ rest => rest

private theorem slicesOf_nil : slicesOf ([] : List E) = [] := by
  rw [slicesOf]
  rfl

private theorem step_published (op : IngestOp E) :
    (s.step stream op).published ++ slicesOf (s.step stream op).uncut = s.published ++ slicesOf s.uncut ++ s.cutBy op := by
  have hnone : slicesOf ([] : List E) = [] := slicesOf_nil
  have hsame {s' : IngestClient E} (h : s'.published = s.published ∧ s'.writer = s.writer) :
      s'.published ++ slicesOf s'.uncut = s.published ++ slicesOf s.uncut ++ [] := by
    rw [append_nil, uncut, uncut, h.1, h.2]
  cases op with
  | publish batch =>
    rw [step, cutBy, uncut, uncut]
    cases hwriter : s.writer with
    | idle =>
      dsimp only
      rw [publish]
      split
      · next hempty => rw [hwriter, isEmpty_iff.mp hempty, hnone, append_nil, append_nil]
      · rw [hnone, append_nil]
    | slicing rest | sending replica slice rest | spooling slice rest => rw [hwriter, append_nil]
  | write =>
    have hcut : s.cutBy .write = [] := rfl
    rw [step, hcut, append_nil, uncut, uncut, write]
    cases hwriter : s.writer with
    | slicing rest =>
      dsimp only
      rw [slicesOf.eq_1 rest]
      split
      · rw [hnone]
      · cases s.pointed s.replica <;> exact append_assoc _ [_] _
    | idle => rw [hwriter]
    | sending replica slice rest | spooling slice rest => rfl
  | setReplica replica =>
    apply hsame
    rw [step]
    split
    · cases replica <;> exact ⟨rfl, rfl⟩
    · exact ⟨rfl, rfl⟩
  | stateChanged replica live =>
    apply hsame
    rw [step]
    split
    · rw [stateChanged, onReplicaStateChanged]
      split
      · split
        · exact ⟨rfl, rfl⟩
        · split <;> exact ⟨rfl, rfl⟩
      · exact ⟨rfl, rfl⟩
    · exact ⟨rfl, rfl⟩
  | destroy replica =>
    apply hsame
    rw [step]
    split <;> exact ⟨rfl, rfl⟩
  | takeHandoff =>
    apply hsame
    rw [step, takeHandoff]
    split
    · split
      · exact ⟨rfl, rfl⟩
      · dsimp only
        split
        · exact ⟨rfl, rfl⟩
        · exact deliver_writer _ _
    · exact ⟨rfl, rfl⟩
  | goOn => exact hsame goOn_writer

private theorem run_published (ops : List (IngestOp E)) :
    (run (step stream) s ops).published ++ slicesOf (run (step stream) s ops).uncut =
      s.published ++ slicesOf s.uncut ++ s.cutIn stream ops := by
  induction ops generalizing s with
  | nil => exact (append_nil _).symm
  | cons op ops ih => rw [run_cons, ih, step_published, cutIn, append_assoc]

variable (stream) (enabled : Bool) (capBytes : Int) (valid : ReplicaId → Bool)

/-- What is published are the slices of the batches, in order, but for those the last one has yet to be cut into. -/
theorem published_cut (ops : List (IngestOp E)) :
    (run (step stream) (start enabled capBytes valid) ops).published ++
      slicesOf (run (step stream) (start enabled capBytes valid) ops).uncut = (start enabled capBytes valid).cutIn stream ops := by
  rw [run_published]
  exact congrArg (· ++ (start enabled capBytes valid).cutIn stream ops) slicesOf_nil

end Published

theorem batchesOf_cons (replay : Replay E) (outer : List (Replay E)) :
    batchesOf (replay :: outer) = replay.stage.batches ++ batchesOf outer := rfl

/-- A replay that is about to publish a batch holds a replica that is gone or that the call gets through to; and one
that is about to report what was dropped holds one that the call gets through to. -/
def replaysLive (s : IngestClient E) : IngestOp E → Bool
  | .goOn =>
    match s.replays with
    | ⟨_, .running replica _ (_ :: _)⟩ :: _ => (s.pointed replica).all s.valid
    | ⟨_, .running replica dropped []⟩ :: _ => dropped == 0 || (s.pointed replica).any s.valid
    | _ => true
  | _ => true

structure Conserved (stream : Codec UInt8 (List E)) (s : IngestClient E) (held lost : List (List E)) : Prop where
  holds : s.spool.Holds stream held
  /-- Every slice is in one place, with the ones that are counted as dropped. -/
  count : ∀ p : List E → Bool, s.published.countP p = s.handedOff.countP p + s.replayed.countP p + held.countP p +
    (batchesOf s.replays).countP p + s.writer.slices.countP p + lost.countP p
  dropped : lost.length = s.spool.droppedBatches + droppedOf s.replays + s.reported
  fits : ∀ batch ∈ batchesOf s.replays ++ s.writer.slices, stream.Fits batch

variable {stream : Codec UInt8 (List E)} {s s' : IngestClient E} {held lost : List (List E)}

private theorem replayed_deliver (s : IngestClient E) (replica : ReplicaId) (batch : List E) :
    (s.deliver replica ⟨none, batch⟩).replayed = s.replayed := by
  rw [deliver]
  split
  · simp [replayed]
  · rfl

/-- What fits goes on fitting when the writer thread has cut another slice that does. -/
theorem fits_cut (s : IngestClient E) (hfits : ∀ batch ∈ batchesOf s.replays ++ s.writer.slices, stream.Fits batch)
    {slice : List E} (hslice : stream.Fits slice) {writer : WriterCall E} (hcut : writer.slices = [slice]) :
    ∀ batch ∈ batchesOf s.replays ++ writer.slices, stream.Fits batch := by
  intro batch hbatch
  rw [hcut] at hbatch
  obtain hbatch | hbatch := mem_append.mp hbatch
  · exact hfits batch (mem_append_left _ hbatch)
  · exact mem_singleton.mp hbatch ▸ hslice

namespace Conserved

section
variable (h : Conserved stream s held lost)
include h

theorem same (hspool : s'.spool = s.spool) (hpublished : s'.published = s.published)
    (hhanded : s'.handedOff = s.handedOff) (hreplayed : s'.replayed = s.replayed)
    (hbatches : batchesOf s'.replays = batchesOf s.replays) (hdropped : droppedOf s'.replays = droppedOf s.replays)
    (hslices : s'.writer.slices = s.writer.slices) (hreported : s'.reported = s.reported) :
    Conserved stream s' held lost := by
  refine ⟨hspool ▸ h.holds, fun p => ?_, ?_, ?_⟩
  · rw [hpublished, hhanded, hreplayed, hbatches, hslices]
    exact h.count p
  · rw [hspool, hdropped, hreported]
    exact h.dropped
  · rw [hbatches, hslices]
    exact h.fits

theorem setReplica (replica : Option ReplicaId) :
    Conserved stream (s.setReplica replica) held lost := by
  cases replica with
  | none => exact h.same rfl rfl rfl rfl rfl rfl rfl rfl
  | some r => exact h.same rfl rfl rfl rfl rfl (Nat.zero_add _) rfl rfl

theorem onReplicaStateChanged (live : Bool) :
    Conserved stream (s.onReplicaStateChanged live) held lost := by
  rw [IngestClient.onReplicaStateChanged]
  split
  · exact h.same rfl rfl rfl rfl rfl (Nat.zero_add _) rfl rfl
  · split
    · exact h.same rfl rfl rfl rfl rfl rfl rfl rfl
    · exact h

theorem stateChanged (replica : ReplicaId) (live : Bool) :
    Conserved stream (s.stateChanged replica live) held lost := by
  have hnow : Conserved stream { s with valid := Function.update s.valid replica live } held lost :=
    h.same rfl rfl rfl rfl rfl rfl rfl rfl
  rw [IngestClient.stateChanged]
  split
  · exact hnow.onReplicaStateChanged live
  · exact hnow

theorem takeHandoff : Conserved stream s.takeHandoff held lost := by
  rw [IngestClient.takeHandoff]
  split
  · exact h
  · next handoff posted _ =>
    have hnow : Conserved stream { s with posted := posted } held lost := h.same rfl rfl rfl rfl rfl rfl rfl rfl
    dsimp only
    split
    · exact hnow
    · next replica _ =>
      refine hnow.same ?_ ?_ ?_ (replayed_deliver _ replica _) ?_ ?_ ?_ ?_
      all_goals
        rw [deliver]
        split <;> rfl

/-- The writer thread cuts another slice, and has it in hand with a replica to send it to or without one. -/
theorem cut (hslices : s.writer.slices = []) {slice : List E} (hslice : stream.Fits slice)
    {writer : WriterCall E} (hcut : writer.slices = [slice]) :
    Conserved stream { s with published := s.published ++ [slice], writer := writer } held lost := by
  refine ⟨h.holds, fun p => ?_, h.dropped, fits_cut s h.fits hslice hcut⟩
  have hcount := h.count p
  rw [hslices] at hcount
  simp only [hcut, countP_append, countP_nil, replayed] at hcount ⊢
  omega

theorem write (hfits : ∀ l : List E, l.length ≤ kMaxBatch → stream.Fits l) :
    ∃ held' lost', Conserved stream (s.write stream) held' lost' := by
  rw [IngestClient.write]
  cases hwriter : s.writer with
  | idle => exact ⟨held, lost, h⟩
  | slicing rest =>
    have hslices : s.writer.slices = [] := by rw [hwriter]; rfl
    dsimp only
    split
    · exact ⟨held, lost, h.same rfl rfl rfl rfl rfl rfl hslices.symm rfl⟩
    · have hslice : stream.Fits (rest.take kMaxBatch) := hfits _ (length_take_le _ _)
      refine ⟨held, lost, h.cut hslices hslice ?_⟩
      cases s.pointed s.replica <;> rfl
  | sending replica slice rest =>
    have hslices : s.writer.slices = [slice] := by rw [hwriter]; rfl
    refine ⟨held, lost, h.holds, fun p => ?_, h.dropped, fun batch hbatch => ?_⟩
    · have hcount := h.count p
      rw [hslices] at hcount
      simp only [countP_append, WriterCall.slices, countP_nil, replayed] at hcount ⊢
      omega
    · rw [WriterCall.slices, append_nil] at hbatch
      exact h.fits batch (mem_append_left _ hbatch)
  | spooling slice rest =>
    have hslices : s.writer.slices = [slice] := by rw [hwriter]; rfl
    have hslice : stream.Fits slice := h.fits slice (by rw [hslices]; simp)
    obtain ⟨gone, kept, hsplit, hholds, hdropped⟩ := h.holds.spool hslice
    refine ⟨kept, lost ++ gone, hholds, fun p => ?_, ?_, fun batch hbatch => ?_⟩
    · have hcount := h.count p
      have hmoved := congrArg (List.countP p) hsplit
      rw [hslices] at hcount
      simp only [countP_append, WriterCall.slices, countP_nil, replayed] at hcount hmoved ⊢
      omega
    · have hlost := h.dropped
      simp only [length_append, hdropped]
      omega
    · rw [WriterCall.slices, append_nil] at hbatch
      exact h.fits batch (mem_append_left _ hbatch)

end

variable {outer : List (Replay E)} {mark : ReplayMark}

/-- The replay on top goes, and what it had taken of the count with it. -/
theorem leave (h : Conserved stream s held lost) {stage : ReplayStage E}
    (hreplays : s.replays = ⟨mark, stage⟩ :: outer) (hbatches : stage.batches = []) (hdropped : stage.dropped = 0) :
    Conserved stream { s with replays := outer } held lost := by
  refine h.same rfl rfl rfl rfl ?_ ?_ rfl rfl
  · rw [hreplays, batchesOf_cons, hbatches, nil_append]
  · rw [hreplays, droppedOf, hdropped, Nat.zero_add]

variable {replica : Option ReplicaId}

section
variable (h : Conserved stream s held lost)
include h

theorem takeSpool (hreplays : s.replays = ⟨mark, .holding replica⟩ :: outer) :
    Conserved stream (s.goOn stream) [] lost := by
  obtain ⟨htaken, hholds, -⟩ := h.holds.take
  have hbatches : batchesOf s.replays = batchesOf outer := by rw [hreplays]; rfl
  have hcounted : droppedOf s.replays = droppedOf outer := by rw [hreplays]; exact Nat.zero_add _
  rw [IngestClient.goOn, hreplays]
  refine ⟨hholds.setDropped 0, fun p => ?_, ?_, fun batch hbatch => ?_⟩
  · have hcount := h.count p
    rw [hbatches] at hcount
    simp only [htaken, batchesOf_cons, ReplayStage.batches, countP_append, countP_nil, replayed] at hcount ⊢
    omega
  · have hlost := h.dropped
    rw [hcounted] at hlost
    simp only [droppedOf, ReplayStage.dropped]
    omega
  · simp only [htaken, batchesOf_cons, ReplayStage.batches, append_assoc] at hbatch
    obtain hbatch | hbatch := mem_append.mp hbatch
    · exact h.holds.fits hbatch
    · exact h.fits batch (by rw [hbatches]; exact hbatch)

theorem report {dropped : Nat}
    (hreplays : s.replays = ⟨mark, .running replica dropped []⟩ :: outer) :
    Conserved stream { s with reported := s.reported + dropped, replays := ⟨mark, .reporting⟩ :: outer } held lost := by
  have hbatches : batchesOf s.replays = batchesOf outer := by rw [hreplays]; rfl
  have hcounted : droppedOf s.replays = dropped + droppedOf outer := by rw [hreplays]; rfl
  refine ⟨h.holds, fun p => ?_, ?_, fun batch hbatch => h.fits batch ?_⟩
  · have hcount := h.count p
    rw [hbatches] at hcount
    exact hcount
  · have hlost := h.dropped
    rw [hcounted] at hlost
    simp only [droppedOf, ReplayStage.dropped]
    omega
  · rw [hbatches]
    exact hbatch

/-- The replica is gone: what the replay had yet to publish goes back in front of what was spooled since. -/
theorem restore {dropped : Nat}
    {pending : List (List E)}
    (hreplays : s.replays = ⟨mark, .running replica dropped pending⟩ :: outer) :
    let restored := s.spool.restoreLocked stream .ok pending
    ∃ held' lost', Conserved stream
      { s with spool := { restored with droppedBatches := restored.droppedBatches + dropped }, replays := outer }
      held' lost' := by
  have hbatches : batchesOf s.replays = pending ++ batchesOf outer := by rw [hreplays]; rfl
  have hcounted : droppedOf s.replays = dropped + droppedOf outer := by rw [hreplays]; rfl
  have hpending : ∀ b ∈ pending, stream.Fits b := fun b hb =>
    h.fits b (mem_append_left _ (by rw [hbatches]; exact mem_append_left _ hb))
  obtain ⟨gone, kept, hsplit, hholds, hdropped⟩ := h.holds.restore hpending
  refine ⟨kept, lost ++ gone, hholds.setDropped _, fun p => ?_, ?_, fun b hb => h.fits b ?_⟩
  · have hcount := h.count p
    have hmoved := congrArg (List.countP p) hsplit
    rw [hbatches] at hcount
    simp only [countP_append, replayed] at hcount hmoved ⊢
    omega
  · have hlost := h.dropped
    rw [hcounted] at hlost
    simp only [length_append]
    omega
  · rw [hbatches, append_assoc]
    exact mem_append_right _ hb

theorem publishNext {dropped : Nat}
    {batch : List E} {batches : List (List E)}
    (hreplays : s.replays = ⟨mark, .running replica dropped (batch :: batches)⟩ :: outer) {r : ReplicaId}
    (hvalid : s.valid r = true) :
    Conserved stream ({ s with replays := ⟨mark, .calling replica dropped batches⟩ :: outer }.deliver r ⟨some mark, batch⟩)
      held lost := by
  have hbatches : batchesOf s.replays = batch :: (batches ++ batchesOf outer) := by rw [hreplays]; rfl
  have hcounted : droppedOf s.replays = dropped + droppedOf outer := by rw [hreplays]; rfl
  simp only [deliver, hvalid, if_true]
  refine ⟨h.holds, fun p => ?_, ?_, fun b hb => h.fits b ?_⟩
  · have hcount := h.count p
    rw [hbatches] at hcount
    simp only [batchesOf_cons, ReplayStage.batches, countP_append, countP_cons, replayed,
      filter_append, map_append, filter_cons, Option.isSome_some, if_true, filter_nil,
      map_cons, map_nil, countP_nil] at hcount ⊢
    omega
  · have hlost := h.dropped
    rw [hcounted] at hlost
    exact hlost
  · rw [hbatches]
    exact mem_cons_of_mem batch hb

theorem goOn (hlive : s.replaysLive .goOn = true) :
    ∃ held' lost', Conserved stream (s.goOn stream) held' lost' := by
  cases hreplays : s.replays with
  | nil => exact ⟨held, lost, by rw [IngestClient.goOn, hreplays]; exact h⟩
  | cons replay outer =>
    obtain ⟨mark, stage⟩ := replay
    have hbatches : batchesOf s.replays = stage.batches ++ batchesOf outer := by rw [hreplays]; rfl
    have hcounted : droppedOf s.replays = stage.dropped + droppedOf outer := by rw [hreplays]; rfl
    rw [replaysLive, hreplays] at hlive
    cases stage with
    | holding replica => exact ⟨[], lost, h.takeSpool hreplays⟩
    | entered =>
      rw [IngestClient.goOn, hreplays]
      exact ⟨held, lost, h.same rfl rfl rfl rfl hbatches.symm hcounted.symm rfl rfl⟩
    | calling replica dropped batches =>
      rw [IngestClient.goOn, hreplays]
      exact ⟨held, lost, h.same rfl rfl rfl rfl hbatches.symm hcounted.symm rfl rfl⟩
    | reporting =>
      rw [IngestClient.goOn, hreplays]
      exact ⟨held, lost, h.leave hreplays rfl rfl⟩
    | running replica dropped batches =>
      rw [IngestClient.goOn, hreplays]
      cases batches with
      | nil =>
        dsimp only at hlive ⊢
        cases hpointed : s.pointed replica with
        | none =>
          rw [hpointed] at hlive
          have hnone : dropped = 0 := by simpa using hlive
          exact ⟨held, lost, h.leave hreplays rfl hnone⟩
        | some r =>
          rw [hpointed] at hlive
          dsimp only
          split
          · next hsome =>
            have hvalid : s.valid r = true := by
              simpa [Nat.pos_iff_ne_zero.mp hsome] using hlive
            rw [if_pos hvalid]
            exact ⟨held, lost, h.report hreplays⟩
          · next hnone => exact ⟨held, lost, h.leave hreplays rfl (Nat.eq_zero_of_not_pos hnone)⟩
      | cons batch batches =>
        dsimp only at hlive ⊢
        cases hpointed : s.pointed replica with
        | none => exact h.restore hreplays
        | some r =>
          rw [hpointed] at hlive
          have hvalid : s.valid r = true := by simpa using hlive
          exact ⟨held, lost, h.publishNext hreplays hvalid⟩

theorem step (hfits : ∀ l : List E, l.length ≤ kMaxBatch → stream.Fits l)
    (op : IngestOp E) (hlive : s.replaysLive op = true) : ∃ held' lost', Conserved stream (s.step stream op) held' lost' := by
  cases op with
  | publish batch =>
    cases hwriter : s.writer with
    | idle =>
      simp only [IngestClient.step, hwriter, IngestClient.publish]
      split
      · exact ⟨held, lost, h⟩
      · exact ⟨held, lost, h.same rfl rfl rfl rfl rfl rfl (by rw [hwriter]; rfl) rfl⟩
    | slicing rest => exact ⟨held, lost, by simpa only [IngestClient.step, hwriter] using h⟩
    | sending replica slice rest => exact ⟨held, lost, by simpa only [IngestClient.step, hwriter] using h⟩
    | spooling slice rest => exact ⟨held, lost, by simpa only [IngestClient.step, hwriter] using h⟩
  | write => exact h.write hfits
  | setReplica replica =>
    refine ⟨held, lost, ?_⟩
    rw [IngestClient.step]
    split
    · exact h.setReplica replica
    · exact h
  | stateChanged replica live =>
    refine ⟨held, lost, ?_⟩
    rw [IngestClient.step]
    split
    · exact h.stateChanged replica live
    · exact h
  | destroy replica =>
    refine ⟨held, lost, ?_⟩
    rw [IngestClient.step]
    split
    · exact h.same rfl rfl rfl rfl rfl rfl rfl rfl
    · exact h
  | takeHandoff =>
    refine ⟨held, lost, ?_⟩
    rw [IngestClient.step]
    split
    · exact h.takeHandoff
    · exact h
  | goOn => exact h.goOn hlive

end

theorem start (stream : Codec UInt8 (List E)) (enabled : Bool) (capBytes : Int) (valid : ReplicaId → Bool) :
    Conserved stream (start enabled capBytes valid) [] [] :=
  ⟨⟨⟨enabled, capBytes, [], 0⟩, ⟨rfl, rfl, rfl, rfl, nofun, fun _ => rfl⟩, rfl⟩, fun _ => rfl, rfl, nofun⟩

/-- With nothing in hand, every slice is in one of the places it may be, or is one of those that are counted. -/
theorem quiescent (h : Conserved stream s held lost) (hquiet : s.Quiescent) :
    s.published.Perm (s.handedOff ++ s.replayed ++ s.spool.readSpoolLocked stream .ok ++ lost) ∧
    lost.length = s.spool.droppedBatches + s.reported := by
  obtain ⟨hidle, hreplays⟩ := hquiet
  have hslices : s.writer.slices = [] := by
    cases hwriter : s.writer with
    | idle => rfl
    | slicing rest => rfl
    | sending replica slice rest | spooling slice rest => simp [hwriter] at hidle
  refine ⟨perm_of_countP fun p => ?_, ?_⟩
  · have hcount := h.count p
    rw [hreplays, hslices] at hcount
    simp only [h.holds.read, countP_append, batchesOf, flatMap_nil, countP_nil] at hcount ⊢
    omega
  · have hlost := h.dropped
    rw [hreplays] at hlost
    exact hlost

end Conserved

/-- Whatever the two threads do in whatever order, no slice of what was published and no count of dropped ones is lost,
as long as no replay publishes to a replica whose link is down, or loses the replica it would report the dropped ones to. -/
theorem batches_conserved (stream : Codec UInt8 (List E)) (hfits : ∀ l : List E, l.length ≤ kMaxBatch → stream.Fits l)
    (enabled : Bool) (capBytes : Int) (valid : ReplicaId → Bool) (ops : List (IngestOp E))
    (hlive : Each (step stream) (fun s op => s.replaysLive op = true) (start enabled capBytes valid) ops) :
    let s := run (step stream) (start enabled capBytes valid) ops
    s.Quiescent → s.published = (start enabled capBytes valid).cutIn stream ops ∧ ∃ lost,
      s.published.Perm (s.handedOff ++ s.replayed ++ s.spool.readSpoolLocked stream .ok ++ lost) ∧
      lost.length = s.spool.droppedBatches + s.reported := by
  intro s hquiet
  have hs : ∃ held lost, Conserved stream s held lost := by
    apply hlive.invariant fun s => ∃ held lost, Conserved stream s held lost
    · intro s op h hop
      obtain ⟨held, lost, h⟩ := h
      exact h.step hfits op hop
    · exact ⟨[], [], Conserved.start stream enabled capBytes valid⟩
  obtain ⟨held, lost, h⟩ := hs
  have huncut : s.uncut = [] := by
    have hidle := hquiet.1
    rw [uncut]
    cases hwriter : s.writer with
    | idle => rfl
    | slicing rest | sending replica slice rest | spooling slice rest =>
      rw [hwriter] at hidle
      exact hidle.elim
  have hcut : s.published ++ slicesOf s.uncut = _ := published_cut stream enabled capBytes valid ops
  rw [huncut, slicesOf_nil, append_nil] at hcut
  exact ⟨hcut, lost, h.quiescent hquiet⟩

/-- An outage, its replay, and the link dropping again while the replay publishes the first of two batches. -/
def replayCutShort (live : Bool) : List (IngestOp Bool) :=
  [.publish [true], .write, .write, .write, .publish [false], .write, .write, .write, .setReplica (some 0), .goOn, .goOn,
    .goOn, .stateChanged 0 live, .goOn, .goOn, .goOn, .goOn]

theorem batches_conserved_oneOutage :
    let s := run (step SpoolFile.boolVariants) (start true 1000 fun _ => true) (replayCutShort true)
    s.Quiescent → s.published = (start true 1000 fun _ => true).cutIn SpoolFile.boolVariants (replayCutShort true) ∧ ∃ lost,
      s.published.Perm (s.handedOff ++ s.replayed ++ s.spool.readSpoolLocked SpoolFile.boolVariants .ok ++ lost) ∧
      lost.length = s.spool.droppedBatches + s.reported :=
  batches_conserved SpoolFile.boolVariants (fun l hl => SpoolFile.boolVariants_fits l (Nat.lt_of_le_of_lt hl (by decide)))
    true 1000 (fun _ => true) (replayCutShort true) (by decide)

/-- The second batch is published to a replica that is not valid any more, and is nowhere afterwards. -/
theorem replay_loses_batch :
    let s := run (step SpoolFile.boolVariants) (start true 1000 fun _ => true) (replayCutShort false)
    s.Quiescent ∧ s.published = [[true], [false]] ∧ ¬ ∃ lost,
      s.published.Perm (s.handedOff ++ s.replayed ++ s.spool.readSpoolLocked SpoolFile.boolVariants .ok ++ lost) ∧
      lost.length = s.spool.droppedBatches + s.reported := by
  intro s
  have hpublished : s.published = [[true], [false]] := by decide
  have hplaces : s.handedOff ++ s.replayed ++ s.spool.readSpoolLocked SpoolFile.boolVariants .ok = [[true]] := by decide
  have hcounted : s.spool.droppedBatches + s.reported = 0 := by decide
  refine ⟨⟨trivial, by decide⟩, hpublished, ?_⟩
  rintro ⟨lost, hperm, hlost⟩
  have hlength := hperm.length_eq
  rw [hpublished, hplaces, length_append, hlost, hcounted] at hlength
  exact absurd hlength (by decide)

end IngestClient
end SynQt
