import SynQt.Service.IngestConservation

namespace SynQt
open Lib List

variable {E : Type}

/-- The slice that found no replica and is not in the spool yet. -/
def WriterCall.unsent : WriterCall E → List (List E)
  | .spooling slice _ => [slice]
  | .idle | .slicing _ | .sending .. => []

def ReplayStage.pending : ReplayStage E → Bool
  | .entered | .holding _ => true
  | .running .. | .calling .. | .reporting => false

def arrivalsOf (mark : ReplayMark) (arrivals : List (Arrival E)) : List (List E) :=
  (arrivals.filter (·.replay == some mark)).map (·.batch)

/-- What arrived so far and the batches still to come with the replay were published before it began, and those of the
replay come in the order they were published. -/
structure Going (arrivals : List (Arrival E)) (published : List (List E)) (mark : ReplayMark)
    (batches : List (List E)) : Prop where
  count : ∀ p : List E → Bool,
    (arrivals.map (·.batch)).countP p + batches.countP p ≤ (published.take mark.began).countP p
  order : (arrivalsOf mark arrivals ++ batches).Sublist (published.take mark.began)

structure Logged (arrivals : List (Arrival E)) (published : List (List E)) (begun : Nat) : Prop where
  marks : ∀ arrival ∈ arrivals, ∀ mark, arrival.replay = some mark →
    mark.number < begun ∧ mark.began ≤ published.length
  oldest : ∀ mark, (arrivalsOf mark arrivals).Sublist (published.take mark.began)
  first : ∀ before arrival after mark, arrivals = before ++ arrival :: after → arrival.replay = some mark →
    ∀ p : List E → Bool, ((before ++ [arrival]).map (·.batch)).countP p ≤ (published.take mark.began).countP p

variable {arrivals : List (Arrival E)} {published batches : List (List E)} {mark : ReplayMark} {begun : Nat}

private theorem arrivalsOf_append (mark : ReplayMark) (arrivals later : List (Arrival E)) :
    arrivalsOf mark (arrivals ++ later) = arrivalsOf mark arrivals ++ arrivalsOf mark later := by
  rw [arrivalsOf, filter_append, map_append]
  rfl

private theorem arrivalsOf_self (mark : ReplayMark) (batch : List E) : arrivalsOf mark [⟨some mark, batch⟩] = [batch] := by
  simp [arrivalsOf]

private theorem arrivalsOf_other {arrival : Arrival E} (h : arrival.replay ≠ some mark) : arrivalsOf mark [arrival] = [] := by
  simp [arrivalsOf, h]

namespace Going

theorem publish (h : Going arrivals published mark batches) (hbegan : mark.began ≤ published.length)
    (slice : List E) : Going arrivals (published ++ [slice]) mark batches := by
  have htake : (published ++ [slice]).take mark.began = published.take mark.began := take_append_of_le_length hbegan
  exact ⟨htake.symm ▸ h.count, htake.symm ▸ h.order⟩

theorem less (h : Going arrivals published mark batches) {fewer : List (List E)} (hless : fewer.Sublist batches) :
    Going arrivals published mark fewer := by
  refine ⟨fun p => ?_, ?_⟩
  · have hcount := h.count p
    have hle : fewer.countP p ≤ batches.countP p := hless.countP_le
    omega
  · exact ((List.Sublist.refl _).append hless).trans h.order

theorem deliver {batch : List E} (h : Going arrivals published mark (batch :: batches)) :
    Going (arrivals ++ [⟨some mark, batch⟩]) published mark batches := by
  refine ⟨fun p => ?_, ?_⟩
  · have hcount := h.count p
    simp only [map_append, countP_append, map_cons, map_nil, countP_cons,
      countP_nil] at hcount ⊢
    omega
  · rw [arrivalsOf_append, arrivalsOf_self, append_assoc]
    exact h.order

end Going

namespace Logged

section
variable (h : Logged arrivals published begun)
include h

theorem publish (slice : List E) :
    Logged arrivals (published ++ [slice]) begun := by
  have htake (n : Nat) (hn : n ≤ published.length) : (published ++ [slice]).take n = published.take n :=
    take_append_of_le_length hn
  refine ⟨fun arrival hmem mark hmark => ?_, fun mark => ?_, fun before arrival after mark hsplit hmark p => ?_⟩
  · obtain ⟨hnumber, hbegan⟩ := h.marks arrival hmem mark hmark
    exact ⟨hnumber, by rw [length_append]; omega⟩
  · rw [take_append]
    exact (h.oldest mark).trans (sublist_append_left _ _)
  · obtain ⟨-, hbegan⟩ := h.marks arrival (by rw [hsplit]; simp) mark hmark
    rw [htake _ hbegan]
    exact h.first before arrival after mark hsplit hmark p

theorem begin : Logged arrivals published (begun + 1) :=
  ⟨fun arrival hmem mark hmark => (h.marks arrival hmem mark hmark).imp_left Nat.lt_succ_of_lt, h.oldest, h.first⟩

/-- The log grows at its end, and what it says of the last of it is said then. -/
theorem snoc {arrival : Arrival E}
    (hmark : ∀ mark, arrival.replay = some mark → mark.number < begun ∧ mark.began ≤ published.length ∧
      ∃ batches, Going arrivals published mark (arrival.batch :: batches)) :
    Logged (arrivals ++ [arrival]) published begun := by
  refine ⟨fun other hmem mark hother => ?_, fun mark => ?_, fun before other after mark hsplit hother p => ?_⟩
  · obtain hmem | hmem := mem_append.mp hmem
    · exact h.marks other hmem mark hother
    · obtain rfl := mem_singleton.mp hmem
      obtain ⟨hnumber, hbegan, -⟩ := hmark mark hother
      exact ⟨hnumber, hbegan⟩
  · rw [arrivalsOf_append]
    by_cases hwhose : arrival.replay = some mark
    · obtain ⟨-, -, batches, hgoing⟩ := hmark mark hwhose
      have hone : arrivalsOf mark [arrival] = [arrival.batch] := by simp [arrivalsOf, hwhose]
      rw [hone]
      have hhead : [arrival.batch].Sublist (arrival.batch :: batches) := (nil_sublist batches).cons_cons _
      exact ((List.Sublist.refl _).append hhead).trans hgoing.order
    · rw [arrivalsOf_other hwhose, append_nil]
      exact h.oldest mark
  · obtain rfl | ⟨init, last, rfl⟩ := eq_nil_or_concat after
    · obtain ⟨rfl, hlast⟩ := append_inj' hsplit rfl
      obtain rfl := singleton_inj.mp hlast
      obtain ⟨-, -, batches, hgoing⟩ := hmark mark hother
      have hcount := hgoing.count p
      simp only [map_append, countP_append, map_cons, map_nil, countP_cons,
        countP_nil] at hcount ⊢
      omega
    · have hinit : arrivals = before ++ other :: init := by
        have hcut : arrivals ++ [arrival] = (before ++ other :: init) ++ [last] := by rw [hsplit]; simp
        exact (append_inj' hcut rfl).1
      exact h.first before other init mark hinit hother p

end

end Logged
namespace IngestClient

def LinkUp (s : IngestClient E) : Prop := s.pointed s.replica ≠ none

/-- Replicas are handed over and links come back while no replay is in a call, and the spool is taken while the writer
thread has no slice on its way to it. -/
def unraced (s : IngestClient E) : IngestOp E → Bool
  | .setReplica _ => s.replays.isEmpty
  | .stateChanged _ live => !live || s.replays.isEmpty
  | .goOn =>
    match s.replays with
    | ⟨_, .holding _⟩ :: _ => s.writer.unsent.isEmpty
    | _ => true
  | _ => true

/-- What a replay still has to publish, of which `waiting` is not taken yet while it is pending. -/
def Follows (s : IngestClient E) (waiting : List (List E)) (mark : ReplayMark) : ReplayStage E → Prop
  | .entered => Going s.arrivals s.published mark waiting ∧ s.LinkUp
  | .holding replica => Going s.arrivals s.published mark waiting ∧ replica = s.replica ∧ s.LinkUp
  | .running replica _ batches | .calling replica _ batches =>
    Going s.arrivals s.published mark batches ∧ (s.replica = none ∨ s.replica = replica)
  | .reporting => True

/-- At most one replay at a time, begun after every one that is over. -/
inductive OneReplay (s : IngestClient E) (waiting : List (List E)) : List (Replay E) → Prop where
  | none : OneReplay s waiting []
  | one (mark : ReplayMark) (stage : ReplayStage E) (number : mark.number < s.begun)
      (began : mark.began ≤ s.published.length) (follows : s.Follows waiting mark stage) :
      OneReplay s waiting [⟨mark, stage⟩]

structure Ordered (stream : Codec UInt8 (List E)) (s : IngestClient E) (held : List (List E)) : Prop where
  holds : s.spool.Holds stream held
  fits : ∀ batch ∈ batchesOf s.replays ++ s.writer.slices, stream.Fits batch
  count : ∀ p : List E → Bool, (s.arrivals.map (·.batch)).countP p + (s.posted.map (·.payload)).countP p +
    (batchesOf s.replays).countP p + held.countP p + s.writer.slices.countP p ≤ s.published.countP p
  sorted : (batchesOf s.replays ++ held ++ s.writer.unsent).Sublist s.published
  logged : Logged s.arrivals s.published s.begun
  replay : s.OneReplay (held ++ s.writer.unsent) s.replays
  empty : s.LinkUp → (∀ replay ∈ s.replays, replay.stage.pending = false) → held ++ s.writer.unsent = []

variable {stream : Codec UInt8 (List E)} {s s' : IngestClient E} {held waiting : List (List E)} {stage : ReplayStage E}

section
variable (h : s.Follows waiting mark stage)
include h

theorem Follows.less {fewer : List (List E)}
    (hless : stage.pending = true → fewer.Sublist waiting) : s.Follows fewer mark stage := by
  cases stage with
  | entered | holding replica => exact ⟨h.1.less (hless rfl), h.2⟩
  | running replica dropped batches => exact h
  | calling replica dropped batches => exact h
  | reporting => trivial

theorem Follows.publish (hbegan : mark.began ≤ s.published.length)
    (slice : List E) : Follows { s with published := s.published ++ [slice] } waiting mark stage := by
  cases stage with
  | entered | holding replica | running replica dropped batches
  | calling replica dropped batches => exact ⟨h.1.publish hbegan slice, h.2⟩
  | reporting => trivial

/-- A replay is pending only while there is a replica to publish to. -/
theorem Follows.linkUp (hpending : stage.pending = true) : s.LinkUp := by
  cases stage with
  | entered => exact h.2
  | holding replica => exact h.2.2
  | running replica dropped batches | calling replica dropped batches | reporting => cases hpending

end

theorem OneReplay.imp {replays : List (Replay E)} {fewer : List (List E)} (h : s.OneReplay waiting replays)
    (hbegun : s.begun ≤ s'.begun) (hpublished : s.published.length ≤ s'.published.length)
    (hfollows : ∀ mark stage, mark.began ≤ s.published.length → s.Follows waiting mark stage →
      s'.Follows fewer mark stage) : s'.OneReplay fewer replays := by
  cases h with
  | none => exact .none
  | one mark stage number began follows =>
    exact .one mark stage (by omega) (by omega) (hfollows mark stage began follows)

namespace Ordered

section
variable (h : Ordered stream s held)
include h

theorem writer (writer : WriterCall E) (hslices : writer.slices = s.writer.slices)
    (hunsent : writer.unsent = s.writer.unsent) : Ordered stream { s with writer := writer } held := by
  refine ⟨h.holds, ?_, fun p => ?_, ?_, h.logged, ?_, ?_⟩
  · rw [hslices]
    exact h.fits
  · rw [hslices]
    exact h.count p
  · rw [hunsent]
    exact h.sorted
  · rw [hunsent]
    exact h.replay.imp (Nat.le_refl _) (Nat.le_refl _) fun _ _ _ hfollows => hfollows
  · rw [hunsent]
    exact h.empty

/-- The writer thread cuts another slice, which is on its way to the spool only if there is no replica. -/
theorem cut (hslices : s.writer.slices = []) (hunsent : s.writer.unsent = [])
    {slice : List E} (hslice : stream.Fits slice) {writer : WriterCall E} (hcut : writer.slices = [slice])
    (hleft : writer.unsent = [] ∨ ¬ s.LinkUp ∧ writer.unsent = [slice]) :
    Ordered stream { s with published := s.published ++ [slice], writer := writer } held := by
  have hsorted := h.sorted
  rw [hunsent, append_nil] at hsorted
  have hgrown : s.published.Sublist (s.published ++ [slice]) := sublist_append_left _ _
  refine ⟨h.holds, fits_cut s h.fits hslice hcut, fun p => ?_, ?_, h.logged.publish _, ?_, fun hup htaken => ?_⟩
  · have hcount := h.count p
    rw [hslices] at hcount
    simp only [hcut, countP_append, countP_nil] at hcount ⊢
    omega
  · obtain hleft | ⟨-, hleft⟩ := hleft
    · rw [hleft, append_nil]
      exact hsorted.trans hgrown
    · rw [hleft]
      exact hsorted.append (List.Sublist.refl _)
  · refine h.replay.imp (Nat.le_refl _) hgrown.length_le fun mark stage hbegan hfollows => ?_
    have hpublished := hfollows.publish hbegan slice
    refine hpublished.less fun hpending => ?_
    obtain hleft | ⟨hdown, -⟩ := hleft
    · rw [hleft, hunsent]
    · exact absurd (hfollows.linkUp hpending) hdown
  · have hempty := h.empty hup htaken
    rw [hunsent] at hempty
    obtain hleft | ⟨hdown, -⟩ := hleft
    · rw [hleft]
      exact hempty
    · exact absurd hup hdown

theorem write (hfits : ∀ l : List E, l.length ≤ kMaxBatch → stream.Fits l) :
    ∃ held', Ordered stream (s.write stream) held' := by
  rw [IngestClient.write]
  cases hwriter : s.writer with
  | idle => exact ⟨held, h⟩
  | slicing rest =>
    have hslices : s.writer.slices = [] := by rw [hwriter]; rfl
    have hunsent : s.writer.unsent = [] := by rw [hwriter]; rfl
    dsimp only
    split
    · exact ⟨held, h.writer .idle hslices.symm hunsent.symm⟩
    · have hslice : stream.Fits (rest.take kMaxBatch) := hfits _ (length_take_le _ _)
      refine ⟨held, h.cut hslices hunsent hslice ?_ ?_⟩
      · cases s.pointed s.replica <;> rfl
      · cases hreplica : s.pointed s.replica with
        | none => exact .inr ⟨fun hup => hup hreplica, rfl⟩
        | some r => exact .inl rfl
  | sending replica slice rest =>
    have hslices : s.writer.slices = [slice] := by rw [hwriter]; rfl
    have hunsent : s.writer.unsent = [] := by rw [hwriter]; rfl
    refine ⟨held, h.holds, fun batch hbatch => ?_, fun p => ?_, ?_, h.logged, ?_, ?_⟩
    · rw [WriterCall.slices, append_nil] at hbatch
      exact h.fits batch (mem_append_left _ hbatch)
    · have hcount := h.count p
      rw [hslices] at hcount
      simp only [map_append, countP_append, map_cons, map_nil, WriterCall.slices,
        countP_nil] at hcount ⊢
      omega
    · have hsorted := h.sorted
      rw [hunsent] at hsorted
      exact hsorted
    · have hreplay := h.replay
      rw [hunsent] at hreplay
      exact hreplay.imp (Nat.le_refl _) (Nat.le_refl _) fun _ _ _ hfollows => hfollows
    · have hempty := h.empty
      rw [hunsent] at hempty
      exact hempty
  | spooling slice rest =>
    have hslices : s.writer.slices = [slice] := by rw [hwriter]; rfl
    have hunsent : s.writer.unsent = [slice] := by rw [hwriter]; rfl
    have hslice : stream.Fits slice := h.fits slice (by rw [hslices]; simp)
    obtain ⟨gone, kept, hsplit, hholds, -⟩ := h.holds.spool hslice
    have hless : kept.Sublist (held ++ [slice]) := hsplit ▸ sublist_append_right gone kept
    refine ⟨kept, hholds, fun batch hbatch => ?_, fun p => ?_, ?_, h.logged, ?_, fun hup htaken => ?_⟩
    · rw [WriterCall.slices, append_nil] at hbatch
      exact h.fits batch (mem_append_left _ hbatch)
    · have hcount := h.count p
      have hmoved := congrArg (List.countP p) hsplit
      rw [hslices] at hcount
      simp only [countP_append, WriterCall.slices, countP_nil] at hcount hmoved ⊢
      omega
    · have hsorted := h.sorted
      rw [hunsent, append_assoc] at hsorted
      simp only [WriterCall.unsent, append_nil]
      exact ((List.Sublist.refl _).append hless).trans hsorted
    · have hreplay := h.replay
      rw [hunsent] at hreplay
      simp only [WriterCall.unsent, append_nil]
      exact hreplay.imp (Nat.le_refl _) (Nat.le_refl _) fun _ _ _ hfollows => hfollows.less fun _ => hless
    · have hempty := h.empty hup htaken
      rw [hunsent] at hempty
      exact absurd hempty (by simp)

/-- A replay begins: all there is to replay was published before it. -/
theorem begin (hidle : s.replays = []) (replica attached : Option ReplicaId)
    (hup : s.pointed replica ≠ none) :
    Ordered stream { s with replica := replica, attached := attached }.replay held := by
  have hbatches : batchesOf s.replays = [] := by rw [hidle]; rfl
  have hfresh : arrivalsOf ⟨s.begun, s.published.length⟩ s.arrivals = [] := by
    rw [arrivalsOf, map_eq_nil_iff, filter_eq_nil_iff]
    intro arrival hmem hmark
    have hlt := (h.logged.marks arrival hmem _ (beq_iff_eq.mp hmark)).1
    exact Nat.lt_irrefl _ hlt
  have hsorted := h.sorted
  rw [hbatches, nil_append] at hsorted
  have hgoing : Going s.arrivals s.published ⟨s.begun, s.published.length⟩ (held ++ s.writer.unsent) := by
    refine ⟨fun p => ?_, ?_⟩
    · have hcount := h.count p
      have hunsent : s.writer.unsent.countP p ≤ s.writer.slices.countP p := by
        cases s.writer <;> simp [WriterCall.unsent, WriterCall.slices]
      rw [take_length, countP_append]
      omega
    · rw [hfresh, take_length]
      exact hsorted
  refine ⟨h.holds, ?_, ?_, ?_, h.logged.begin, ?_, fun _ htaken => ?_⟩
  · intro batch hbatch
    simp only [IngestClient.replay, batchesOf_cons, ReplayStage.batches, nil_append] at hbatch
    exact h.fits batch hbatch
  · intro p
    exact h.count p
  · exact h.sorted
  · simp only [IngestClient.replay, hidle]
    exact .one _ _ (Nat.lt_succ_self _) (Nat.le_refl _) ⟨hgoing, hup⟩
  · have hpending := htaken ⟨⟨s.begun, s.published.length⟩, .entered⟩ (.head _)
    cases hpending

end

variable {replica : Option ReplicaId}

section
variable (h : Ordered stream s held)
include h

/-- A replica goes, or its link does, in the event loop or in a call of the replay. -/
theorem unlink (hlistening : s.listening = true)
    (hreplica : replica = s.replica ∨ replica = none) (attached : Option ReplicaId) (valid destroyed : ReplicaId → Bool)
    (hlink : replica.filter (fun r => !destroyed r) ≠ none → s.LinkUp) :
    Ordered stream { s with replica := replica, attached := attached, valid := valid, destroyed := destroyed } held := by
  refine ⟨h.holds, h.fits, h.count, h.sorted, h.logged, ?_, fun hup => h.empty (hlink hup)⟩
  have hcalling : ∀ replay ∈ s.replays, replay.stage.pending = false := by
    have hone := h.replay
    rw [listening] at hlistening
    intro replay hmem
    cases hreplays : s.replays with
    | nil =>
      rw [hreplays] at hmem
      cases hmem
    | cons top outer =>
      rw [hreplays] at hmem hone hlistening
      cases hone with
      | one mark stage number began follows =>
        obtain rfl := mem_singleton.mp hmem
        cases stage with
        | entered => cases hlistening
        | holding replica => cases hlistening
        | running replica dropped batches => rfl
        | calling replica dropped batches => rfl
        | reporting => rfl
  generalize hreplays : s.replays = replays at hcalling
  have hone := h.replay
  rw [hreplays] at hone
  cases hone with
  | none => exact .none
  | one mark stage number began follows =>
    refine .one mark stage number began ?_
    have hstill := hcalling _ (.head _)
    cases stage with
    | entered => cases hstill
    | holding replica => cases hstill
    | running taken dropped batches =>
      obtain ⟨hgoing, hwhich⟩ := follows
      obtain rfl | rfl := hreplica
      · exact ⟨hgoing, hwhich⟩
      · exact ⟨hgoing, .inl rfl⟩
    | calling taken dropped batches =>
      obtain ⟨hgoing, hwhich⟩ := follows
      obtain rfl | rfl := hreplica
      · exact ⟨hgoing, hwhich⟩
      · exact ⟨hgoing, .inl rfl⟩
    | reporting => trivial

theorem setReplica (hidle : s.replays = []) (replica : Option ReplicaId)
    (hexists : s.pointed replica = replica) : Ordered stream (s.setReplica replica) held := by
  cases replica with
  | none =>
    have hlistening : s.listening = true := by rw [listening, hidle]
    exact h.unlink hlistening (.inr rfl) none s.valid s.destroyed fun hup => absurd rfl hup
  | some r => exact h.begin hidle (some r) (some r) (by rw [hexists]; exact Option.some_ne_none r)

theorem stateChanged (hlistening : s.listening = true) (replica : ReplicaId) (live : Bool)
    (hidle : live = true → s.replays = []) : Ordered stream (s.stateChanged replica live) held := by
  have hnow := h.unlink hlistening (.inl rfl) s.attached (Function.update s.valid replica live) s.destroyed id
  rw [IngestClient.stateChanged]
  split
  · rw [onReplicaStateChanged]
    split
    · next hback =>
      obtain ⟨hlive, -, hattached⟩ := hback
      exact hnow.begin (hidle hlive) s.attached s.attached hattached
    · split
      · exact h.unlink hlistening (.inr rfl) s.attached _ s.destroyed fun hup => absurd rfl hup
      · exact hnow
  · exact hnow

theorem destroy (hlistening : s.listening = true) (replica : ReplicaId) :
    Ordered stream { s with destroyed := Function.update s.destroyed replica true } held := by
  refine h.unlink hlistening (.inl rfl) s.attached s.valid _ fun hup hnone => hup ?_
  rw [pointed] at hnone
  cases hreplica : s.replica with
  | none => rfl
  | some r =>
    rw [hreplica] at hnone
    have hgone : s.destroyed r = true := by simpa using hnone
    by_cases hself : r = replica
    · simp [hself]
    · simp [Function.update_of_ne hself, hgone]

theorem takeHandoff (hidle : s.replays = []) : Ordered stream s.takeHandoff held := by
  rw [IngestClient.takeHandoff]
  cases hposted : s.posted with
  | nil => exact h
  | cons handoff posted =>
    have hcount := h.count
    rw [hposted] at hcount
    have hless : Ordered stream { s with posted := posted } held := by
      refine ⟨h.holds, h.fits, fun p => ?_, h.sorted, h.logged, ?_, h.empty⟩
      · have hthese := hcount p
        simp only [map_cons, countP_cons] at hthese
        dsimp only
        omega
      · exact h.replay.imp (Nat.le_refl _) (Nat.le_refl _) fun _ _ _ hfollows => hfollows
    dsimp only
    cases pointed { s with posted := posted } (some handoff.replica) with
    | none => exact hless
    | some replica =>
      dsimp only
      rw [deliver]
      split
      · refine ⟨h.holds, h.fits, fun p => ?_, h.sorted, h.logged.snoc fun mark hmark => ?_, ?_, h.empty⟩
        · have hthese := hcount p
          simp only [map_append, map_cons, map_nil, countP_append, countP_cons,
            countP_nil] at hthese ⊢
          omega
        · exact absurd hmark (Option.some_ne_none mark).symm
        · rw [hidle]
          exact .none
      · exact hless

end

variable {mark : ReplayMark}

section
variable (h : Ordered stream s held)
include h

theorem leave (hreplays : s.replays = [⟨mark, stage⟩])
    (hbatches : stage.batches = []) (hpending : stage.pending = false) :
    Ordered stream { s with replays := [] } held := by
  have hnothing : batchesOf s.replays = [] := by rw [hreplays, batchesOf_cons, hbatches]; rfl
  have hfits := h.fits
  have hcount := h.count
  have hsorted := h.sorted
  rw [hnothing] at hfits hsorted
  refine ⟨h.holds, hfits, fun p => ?_, hsorted, h.logged, .none, fun hup _ => h.empty hup ?_⟩
  · have hthese := hcount p
    rw [hnothing] at hthese
    exact hthese
  · rw [hreplays]
    intro replay hmem
    rw [mem_singleton.mp hmem]
    exact hpending

/-- A replay goes from one of its sections to the next with nothing new in hand. -/
theorem enter (hreplays : s.replays = [⟨mark, stage⟩])
    (next : ReplayStage E) (hbatches : next.batches = stage.batches) (hpending : next.pending = stage.pending)
    (hfollows : s.Follows (held ++ s.writer.unsent) mark stage → s.Follows (held ++ s.writer.unsent) mark next) :
    Ordered stream { s with replays := [⟨mark, next⟩] } held := by
  have hsame : batchesOf s.replays = batchesOf [⟨mark, next⟩] := by
    rw [hreplays, batchesOf_cons, batchesOf_cons, hbatches]
  have hfits := h.fits
  have hcount := h.count
  have hsorted := h.sorted
  have hreplay := h.replay
  rw [hsame] at hfits hsorted
  rw [hreplays] at hreplay
  refine ⟨h.holds, hfits, fun p => ?_, hsorted, h.logged, ?_, fun hup htaken => h.empty hup ?_⟩
  · have hthese := hcount p
    rw [hsame] at hthese
    exact hthese
  · cases hreplay with
    | one mark stage number began follows => exact .one mark next number began (hfollows follows)
  · rw [hreplays]
    intro replay hmem
    rw [mem_singleton.mp hmem]
    exact hpending.symm.trans (htaken _ (.head _))

theorem takeSpool (hreplays : s.replays = [⟨mark, .holding replica⟩]) (hunsent : s.writer.unsent = []) :
    Ordered stream (s.goOn stream) [] := by
  obtain ⟨htaken, hholds, -⟩ := h.holds.take
  have hbatches : batchesOf s.replays = [] := by rw [hreplays]; rfl
  have hnext : batchesOf [⟨mark, ReplayStage.running replica s.spool.droppedBatches held⟩] = held := append_nil held
  have hreplay := h.replay
  have hsorted := h.sorted
  rw [hreplays, hunsent, append_nil] at hreplay
  rw [hbatches, hunsent, append_nil, nil_append] at hsorted
  simp only [goOn, hreplays, htaken]
  refine ⟨hholds.setDropped 0, fun batch hbatch => ?_, fun p => ?_, ?_, h.logged, ?_, fun _ _ => ?_⟩
  · rw [hnext] at hbatch
    obtain hbatch | hbatch := mem_append.mp hbatch
    · exact h.holds.fits hbatch
    · exact h.fits batch (mem_append_right _ hbatch)
  · have hcount := h.count p
    rw [hbatches] at hcount
    simp only [hnext, countP_nil] at hcount ⊢
    omega
  · rw [hnext, hunsent, append_nil, append_nil]
    exact hsorted
  · cases hreplay with
    | one mark stage number began follows =>
      obtain ⟨hgoing, hreplica, -⟩ := follows
      exact .one mark _ number began ⟨hgoing, .inr hreplica.symm⟩
  · exact hunsent

theorem restore {dropped : Nat}
    {pending : List (List E)} (hreplays : s.replays = [⟨mark, .running replica dropped pending⟩])
    (hgone : s.pointed replica = none) (n : Nat) :
    ∃ held', Ordered stream
      { s with spool := { s.spool.restoreLocked stream .ok pending with droppedBatches := n }, replays := [] } held' := by
  have hbatches : batchesOf s.replays = pending := by
    rw [hreplays, batchesOf_cons]
    exact append_nil pending
  have hpending : ∀ b ∈ pending, stream.Fits b := fun b hb =>
    h.fits b (mem_append_left _ (by rw [hbatches]; exact hb))
  obtain ⟨gone, kept, hsplit, hholds, -⟩ := h.holds.restore hpending
  have hless : kept.Sublist (pending ++ held) := hsplit ▸ sublist_append_right gone kept
  have hreplay := h.replay
  have hsorted := h.sorted
  rw [hreplays] at hreplay
  rw [hbatches] at hsorted
  refine ⟨kept, hholds.setDropped n, fun b hb => ?_, fun p => ?_, ?_, h.logged, .none, fun hup _ => ?_⟩
  · exact h.fits b (mem_append_right _ hb)
  · have hcount := h.count p
    have hmoved := congrArg (List.countP p) hsplit
    rw [hbatches] at hcount
    simp only [countP_append, batchesOf, flatMap_nil, countP_nil] at hcount hmoved ⊢
    omega
  · exact (hless.append (List.Sublist.refl _)).trans hsorted
  · have hdown : s.pointed s.replica = none := by
      cases hreplay with
      | one mark stage number began follows =>
        obtain ⟨-, hnone | hsame⟩ := follows
        · rw [hnone]
          rfl
        · rw [hsame]
          exact hgone
    exact absurd hdown hup

theorem publishNext {dropped : Nat}
    {batch : List E} {batches : List (List E)} (hreplays : s.replays = [⟨mark, .running replica dropped (batch :: batches)⟩])
    (r : ReplicaId) :
    Ordered stream ({ s with replays := [⟨mark, .calling replica dropped batches⟩] }.deliver r ⟨some mark, batch⟩) held := by
  have hbatches : batchesOf s.replays = batch :: batches := by
    rw [hreplays, batchesOf_cons]
    exact append_nil _
  have hnext : batchesOf [⟨mark, ReplayStage.calling replica dropped batches⟩] = batches := append_nil batches
  have hfits := h.fits
  have hsorted := h.sorted
  have hreplay := h.replay
  rw [hbatches] at hfits hsorted
  rw [hreplays] at hreplay
  have hless : (batches ++ held ++ s.writer.unsent).Sublist s.published := by
    refine List.Sublist.trans ?_ hsorted
    exact sublist_cons_self batch _
  have hempty : s.LinkUp → held ++ s.writer.unsent = [] := by
    refine fun hup => h.empty hup ?_
    rw [hreplays]
    intro replay hmem
    rw [mem_singleton.mp hmem]
    rfl
  cases hreplay with
  | one _ _ number began follows =>
    obtain ⟨hgoing, hwhich⟩ := follows
    rw [deliver]
    split
    · refine ⟨h.holds, fun b hb => hfits b ?_, fun p => ?_, ?_, ?_, ?_, fun hup _ => hempty hup⟩
      · rw [hnext] at hb
        exact mem_cons_of_mem batch hb
      · have hcount := h.count p
        rw [hbatches] at hcount
        simp only [hnext, map_append, map_cons, map_nil, countP_append, countP_cons,
          countP_nil] at hcount ⊢
        omega
      · rw [hnext]
        exact hless
      · refine h.logged.snoc fun other hother => ?_
        obtain rfl := Option.some.inj hother
        exact ⟨number, began, batches, hgoing⟩
      · exact .one mark _ number began ⟨hgoing.deliver, hwhich⟩
    · refine ⟨h.holds, fun b hb => hfits b ?_, fun p => ?_, ?_, h.logged, ?_, fun hup _ => hempty hup⟩
      · rw [hnext] at hb
        exact mem_cons_of_mem batch hb
      · have hcount := h.count p
        rw [hbatches] at hcount
        simp only [hnext, countP_cons] at hcount ⊢
        omega
      · rw [hnext]
        exact hless
      · exact .one mark _ number began ⟨hgoing.less (sublist_cons_self batch batches), hwhich⟩

theorem goOn (hunraced : s.unraced .goOn = true) :
    ∃ held', Ordered stream (s.goOn stream) held' := by
  have hreplay := h.replay
  cases hreplays : s.replays with
  | nil => exact ⟨held, by rw [IngestClient.goOn, hreplays]; exact h⟩
  | cons replay outer =>
    rw [hreplays] at hreplay
    cases hreplay with
    | one mark stage number began follows =>
      cases stage with
      | entered =>
        refine ⟨held, ?_⟩
        rw [IngestClient.goOn, hreplays]
        exact h.enter hreplays _ rfl rfl fun hfollows => ⟨hfollows.1, rfl, hfollows.2⟩
      | holding replica =>
        rw [unraced, hreplays] at hunraced
        exact ⟨[], h.takeSpool hreplays (isEmpty_iff.mp hunraced)⟩
      | running replica dropped batches =>
        rw [IngestClient.goOn, hreplays]
        cases batches with
        | nil =>
          dsimp only
          split
          · exact ⟨held, h.leave hreplays rfl rfl⟩
          · split
            · have hover := h.enter hreplays .reporting rfl rfl fun _ => trivial
              exact ⟨held, hover.holds, hover.fits, hover.count, hover.sorted, hover.logged,
                hover.replay.imp (Nat.le_refl _) (Nat.le_refl _) fun _ _ _ hfollows => hfollows, hover.empty⟩
            · exact ⟨held, h.leave hreplays rfl rfl⟩
        | cons batch batches =>
          dsimp only
          split
          · next hgone => exact h.restore hreplays hgone _
          · next r _ => exact ⟨held, h.publishNext hreplays r⟩
      | calling replica dropped batches =>
        refine ⟨held, ?_⟩
        rw [IngestClient.goOn, hreplays]
        exact h.enter hreplays _ rfl rfl id
      | reporting =>
        refine ⟨held, ?_⟩
        rw [IngestClient.goOn, hreplays]
        exact h.leave hreplays rfl rfl

theorem step (hfits : ∀ l : List E, l.length ≤ kMaxBatch → stream.Fits l)
    (op : IngestOp E) (hunraced : s.unraced op = true) : ∃ held', Ordered stream (s.step stream op) held' := by
  cases op with
  | publish batch =>
    cases hwriter : s.writer with
    | idle =>
      simp only [IngestClient.step, hwriter, IngestClient.publish]
      split
      · exact ⟨held, h⟩
      · exact ⟨held, h.writer _ (by rw [hwriter]; rfl) (by rw [hwriter]; rfl)⟩
    | slicing rest => exact ⟨held, by simpa only [IngestClient.step, hwriter] using h⟩
    | sending replica slice rest => exact ⟨held, by simpa only [IngestClient.step, hwriter] using h⟩
    | spooling slice rest => exact ⟨held, by simpa only [IngestClient.step, hwriter] using h⟩
  | write => exact h.write hfits
  | setReplica replica =>
    refine ⟨held, ?_⟩
    rw [IngestClient.step]
    split
    · next hready => exact h.setReplica (isEmpty_iff.mp hunraced) replica hready.2
    · exact h
  | stateChanged replica live =>
    refine ⟨held, ?_⟩
    rw [IngestClient.step]
    split
    · next hready =>
      refine h.stateChanged hready.1 replica live fun hlive => isEmpty_iff.mp ?_
      simpa [unraced, hlive] using hunraced
    · exact h
  | destroy replica =>
    refine ⟨held, ?_⟩
    rw [IngestClient.step]
    split
    · next hready => exact h.destroy hready replica
    · exact h
  | takeHandoff =>
    refine ⟨held, ?_⟩
    rw [IngestClient.step]
    split
    · next hidle => exact h.takeHandoff (isEmpty_iff.mp hidle)
    · exact h
  | goOn => exact h.goOn hunraced

end

theorem start (stream : Codec UInt8 (List E)) (enabled : Bool) (capBytes : Int) (valid : ReplicaId → Bool) :
    Ordered stream (start enabled capBytes valid) [] where
  holds := ⟨⟨enabled, capBytes, [], 0⟩, ⟨rfl, rfl, rfl, rfl, nofun, fun _ => rfl⟩, rfl⟩
  fits := nofun
  count _ := Nat.le_refl 0
  sorted := List.Sublist.refl []
  logged := ⟨nofun, fun _ => nil_sublist _, fun before arrival after _ hsplit =>
    absurd hsplit.symm (append_ne_nil_of_right_ne_nil before (cons_ne_nil arrival after))⟩
  replay := .none
  empty hup := absurd rfl hup

end Ordered

/-- While no replay begins in a call of another, and none takes the spool while a slice is on its way to it: with a
replica to publish to and no call in progress nothing is spooled, and what a replay delivers comes in the order it was
published, after nothing that was published since the replay began. -/
theorem replays_in_order (stream : Codec UInt8 (List E)) (hfits : ∀ l : List E, l.length ≤ kMaxBatch → stream.Fits l)
    (enabled : Bool) (capBytes : Int) (valid : ReplicaId → Bool) (ops : List (IngestOp E))
    (hunraced : Each (step stream) (fun s op => s.unraced op = true) (start enabled capBytes valid) ops) :
    let s := run (step stream) (start enabled capBytes valid) ops
    (s.LinkUp → s.Quiescent → s.spool.readSpoolLocked stream .ok = []) ∧
    s.published <+: (start enabled capBytes valid).cutIn stream ops ∧
    (∀ mark, (arrivalsOf mark s.arrivals).Sublist (s.published.take mark.began)) ∧
    ∀ before arrival after mark, s.arrivals = before ++ arrival :: after → arrival.replay = some mark →
      ((before ++ [arrival]).map (·.batch)).Subperm (s.published.take mark.began) := by
  intro s
  have hs : ∃ held, Ordered stream s held := by
    apply hunraced.invariant fun s => ∃ held, Ordered stream s held
    · intro s op h hop
      obtain ⟨held, h⟩ := h
      exact h.step hfits op hop
    · exact ⟨[], Ordered.start stream enabled capBytes valid⟩
  obtain ⟨held, h⟩ := hs
  refine ⟨fun hup hquiet => ?_, ⟨_, published_cut stream enabled capBytes valid ops⟩, h.logged.oldest, fun before arrival after mark hsplit hmark => ?_⟩
  · have hnothing := h.empty hup (by rw [hquiet.2]; nofun)
    rw [h.holds.read]
    exact (append_eq_nil_iff.mp hnothing).1
  · exact subperm_of_countP (h.logged.first before arrival after mark hsplit hmark)

/-- A slice that found no replica, the replica arriving, and the slice spooled before or after the replay takes the
spool. -/
def lateSlice (late : Bool) : List (IngestOp Bool) :=
  [.publish [true], .write] ++ (if late then [] else [.write]) ++ [.setReplica (some 0), .goOn, .goOn] ++
    (if late then [.write] else []) ++ [.write, .goOn, .goOn, .goOn]

theorem replays_in_order_afterOutage :
    let s := run (step SpoolFile.boolVariants) (start true 1000 fun _ => true) (lateSlice false)
    (s.LinkUp → s.Quiescent → s.spool.readSpoolLocked SpoolFile.boolVariants .ok = []) ∧
    s.published <+: (start true 1000 fun _ => true).cutIn SpoolFile.boolVariants (lateSlice false) ∧
    (∀ mark, (arrivalsOf mark s.arrivals).Sublist (s.published.take mark.began)) ∧
    ∀ before arrival after mark, s.arrivals = before ++ arrival :: after → arrival.replay = some mark →
      ((before ++ [arrival]).map (·.batch)).Subperm (s.published.take mark.began) := by
  have hfits : ∀ l : List Bool, l.length ≤ kMaxBatch → SpoolFile.boolVariants.Fits l := by
    intro l hl
    exact SpoolFile.boolVariants_fits l (Nat.lt_of_le_of_lt hl (by decide))
  exact replays_in_order SpoolFile.boolVariants hfits true 1000 (fun _ => true) (lateSlice false) (by decide +kernel)

/-- The link is up, nothing is in progress, and the slice waits in the spool. -/
theorem late_slice_stuck :
    let s := run (step SpoolFile.boolVariants) (start true 1000 fun _ => true) (lateSlice true)
    s.LinkUp ∧ s.Quiescent ∧ s.spool.readSpoolLocked SpoolFile.boolVariants .ok = [[true]] ∧ s.arrivals.length = 0 := by
  intro s
  have hlink : s.pointed s.replica = some 0 := by decide +kernel
  refine ⟨?_, ⟨trivial, by decide +kernel⟩, by decide +kernel, by decide +kernel⟩
  rw [LinkUp, hlink]
  exact Option.some_ne_none 0

end IngestClient
end SynQt
