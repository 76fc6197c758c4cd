import SynQt.Transport.SocketChannel

/-! The read ceiling over every order of frames, deliveries, reads and acknowledgements: what the
reader has is a prefix of what arrived, and the channel's count is the bytes it has not heard of
being read, which is what it closes the connection over. -/
namespace SynQt
open Lib List

def totalBytes : List Int → Int
  | [] => 0
  | bytes :: acknowledgements => bytes + totalBytes acknowledgements

private theorem totalBytes_append (acknowledgements later : List Int) :
    totalBytes (acknowledgements ++ later) = totalBytes acknowledgements + totalBytes later := by
  induction acknowledgements with
  | nil => simp [totalBytes]
  | cons bytes acknowledgements ih =>
    rw [cons_append, totalBytes, totalBytes, ih]
    omega

private theorem totalBytes_nonneg {acknowledgements : List Int} (h : ∀ bytes ∈ acknowledgements, 0 < bytes) :
    0 ≤ totalBytes acknowledgements := by
  induction acknowledgements with
  | nil => exact Int.le_refl 0
  | cons bytes acknowledgements ih =>
    have hbytes := h bytes (.head _)
    have hrest := ih fun later hmem => h later (.tail _ hmem)
    rw [totalBytes]
    omega

namespace ReadLink

def messages (signals : List ChannelSignal) : List Frame :=
  signals.filterMap fun
    | .received message => some message
    | .readBufferOverflowed _ _ => none

def inFlight (s : ReadLink) : Frame := (messages s.signals).flatten

/-- Every byte sent across that the channel has not been told of as read: the consumer may be
part of the way through it, or the acknowledgement still be under way. -/
def unacknowledgedBytes (s : ReadLink) : Int :=
  s.inFlight.length + s.device.unacknowledged + totalBytes s.acknowledgements

def heldBytes (s : ReadLink) : Int := s.inFlight.length + s.device.pendingBytes

/-- The bytes the consumer has not read: those held, and those `QIODevice` has read ahead of it. -/
def unreadBytes (s : ReadLink) : Int := s.heldBytes + s.device.ioBuffer.length

@[simp] theorem messages_nil : messages [] = [] := rfl

@[simp] theorem messages_received (message : Frame) (signals : List ChannelSignal) :
    messages (.received message :: signals) = message :: messages signals := rfl

@[simp] theorem messages_overflowed (unread incoming : Int) (signals : List ChannelSignal) :
    messages (.readBufferOverflowed unread incoming :: signals) = messages signals := rfl

@[simp] theorem messages_append (signals signals' : List ChannelSignal) :
    messages (signals ++ signals') = messages signals ++ messages signals' := filterMap_append

end ReadLink

namespace SplitReader

private theorem deliver_kept {device : SplitReader} {message : Frame} (hopen : device.readBufferOverflowed = false)
    (hroom : ¬(0 < device.readBufferLimit ∧ device.readBufferLimit < device.pendingBytes + message.length)) :
    (device.deliver message).pending = device.pending ++ message ∧
    (device.deliver message).unacknowledged = device.unacknowledged + message.length ∧
    (device.deliver message).readBufferOverflowed = false ∧
    (device.deliver message).readBufferLimit = device.readBufferLimit ∧
    (device.deliver message).ioBuffer = device.ioBuffer := by
  by_cases hdrained : device.readOffset = device.readBuffer.length
  · have hdeliver : device.deliver message =
        { device with unacknowledged := device.unacknowledged + message.length, readBuffer := message, readOffset := 0 } := by
      rw [deliver, if_neg (by simp [hopen]), if_neg hroom]
      exact if_pos hdrained
    have hpending : device.pending = [] := by
      rw [pending, hdrained, drop_length]
    rw [hdeliver, hpending]
    exact ⟨rfl, rfl, hopen, rfl, rfl⟩
  · have hdeliver : device.deliver message =
        { device with unacknowledged := device.unacknowledged + message.length,
                      readBuffer := device.pending ++ message, readOffset := 0 } := by
      rw [deliver, if_neg (by simp [hopen]), if_neg hroom]
      exact if_neg hdrained
    rw [hdeliver]
    exact ⟨rfl, rfl, hopen, rfl, rfl⟩

structure Counts (device after : SplitReader) (posted : List Int) : Prop where
  count : after.unacknowledged + totalBytes posted = device.unacknowledged
  posted : ∀ bytes ∈ posted, 0 < bytes
  held : device.pendingBytes ≤ device.unacknowledged → after.pendingBytes ≤ after.unacknowledged
  overflowed : after.readBufferOverflowed = device.readBufferOverflowed
  limit : after.readBufferLimit = device.readBufferLimit
  /-- The last byte of what was pending is what has it reported, all at once. -/
  drained : 0 ≤ device.unacknowledged → device.pending ≠ [] → after.pending = [] → after.unacknowledged = 0
  idle : device.pending = [] → after.pending = [] ∧ after.unacknowledged = device.unacknowledged

section
variable (device : SplitReader)

private theorem counts_self : Counts device device [] :=
  ⟨by simp [totalBytes], by simp, id, rfl, rfl, fun _ hne hnil => absurd hnil hne, fun hnil => ⟨hnil, rfl⟩⟩

theorem readData_reads (maxSize : Nat) :
    (device.readData maxSize).2.1 ++ (device.readData maxSize).1.pending = device.pending ∧
    (device.readData maxSize).2.1.length ≤ maxSize ∧
    (device.readData maxSize).1.ioBuffer = device.ioBuffer ∧
    Counts device (device.readData maxSize).1 (device.readData maxSize).2.2 := by
  by_cases hsize : min maxSize device.pending.length = 0
  · have hread : device.readData maxSize = (device, [], []) := by
      rw [readData, if_pos hsize]
    rw [hread]
    exact ⟨rfl, Nat.zero_le _, rfl, counts_self device⟩
  have hpending : device.pending ≠ [] := by
    intro hnil
    simp [hnil] at hsize
  have hlength : device.pending.length = device.readBuffer.length - device.readOffset := length_drop
  by_cases hdrained : device.readOffset + min maxSize device.pending.length = device.readBuffer.length
  · have htake : device.pending.take (min maxSize device.pending.length) = device.pending :=
      take_of_length_le (by omega)
    by_cases hack : device.unacknowledged ≤ 0
    · have hread : device.readData maxSize =
          ({ device with readBuffer := [], readOffset := 0 }, device.pending, []) := by
        rw [readData, if_neg hsize]
        simp only [hdrained, if_true, acknowledgeRead, if_pos hack, htake]
      rw [hread]
      refine ⟨append_nil _, by dsimp only; omega, rfl, by simp [totalBytes], by simp, fun hheld => ?_, rfl, rfl,
        fun hpos _ _ => ?_, fun hnil => absurd hnil hpending⟩
      · exact Int.le_trans (Int.natCast_nonneg device.pending.length) hheld
      · exact Int.le_antisymm hack hpos
    · have hread : device.readData maxSize =
          ({ device with readBuffer := [], readOffset := 0, unacknowledged := 0 }, device.pending,
            [device.unacknowledged]) := by
        rw [readData, if_neg hsize]
        simp only [hdrained, if_true, acknowledgeRead, if_neg hack, htake]
      rw [hread]
      exact ⟨append_nil _, by dsimp only; omega, rfl, by simp [totalBytes], by simpa using hack, fun _ => Int.le_refl 0,
        rfl, rfl, fun _ _ _ => rfl, fun hnil => absurd hnil hpending⟩
  · have hread : device.readData maxSize =
        ({ device with readOffset := device.readOffset + min maxSize device.pending.length },
          device.pending.take (min maxSize device.pending.length), []) := by
      rw [readData, if_neg hsize]
      simp only [if_neg hdrained]
    have hrest : SplitReader.pending { device with readOffset := device.readOffset + min maxSize device.pending.length } =
        device.pending.drop (min maxSize device.pending.length) := drop_drop.symm
    rw [hread]
    refine ⟨?_, ?_, rfl, by simp [totalBytes], by simp, fun hheld => ?_, rfl, rfl, fun _ _ hnil => ?_,
      fun hnil => absurd hnil hpending⟩
    · rw [hrest]
      exact take_append_drop _ _
    · rw [length_take]
      omega
    · refine Int.le_trans ?_ hheld
      rw [pendingBytes, pendingBytes, hrest, length_drop]
      omega
    · -- an offset short of the end leaves a byte pending
      have hshort := congrArg List.length (hrest.symm.trans hnil)
      rw [length_drop, length_nil] at hshort
      omega

theorem read_reads (maxSize : Nat) :
    (device.read maxSize).2.1 ++ (device.read maxSize).1.ioBuffer ++ (device.read maxSize).1.pending =
      device.ioBuffer ++ device.pending ∧
    (device.ioBuffer.length ≤ QIODEVICE_BUFFERSIZE → (device.read maxSize).1.ioBuffer.length ≤ QIODEVICE_BUFFERSIZE) ∧
    Counts device (device.read maxSize).1 (device.read maxSize).2.2 := by
  generalize htaken : { device with ioBuffer := device.ioBuffer.drop maxSize } = taken
  have hpending : taken.pending = device.pending := htaken ▸ rfl
  have hcounts (after : SplitReader) (posted : List Int) (h : Counts taken after posted) : Counts device after posted := by
    subst htaken
    exact { h with }
  by_cases hdone : maxSize - (device.ioBuffer.take maxSize).length = 0
  · have hread : device.read maxSize = (taken, device.ioBuffer.take maxSize, []) := by
      simp only [read, htaken, if_pos hdone]
    rw [hread]
    refine ⟨?_, fun hle => ?_, hcounts _ _ (counts_self taken)⟩
    · rw [← htaken]
      exact congrArg (· ++ device.pending) (take_append_drop _ _)
    · rw [← htaken, length_drop]
      omega
  have hshort : device.ioBuffer.length ≤ maxSize := by
    rw [length_take] at hdone
    omega
  have htake : device.ioBuffer.take maxSize = device.ioBuffer := take_of_length_le hshort
  have hdrop : taken.ioBuffer = [] := htaken ▸ drop_of_length_le hshort
  by_cases hdirect : QIODEVICE_BUFFERSIZE ≤ maxSize - (device.ioBuffer.take maxSize).length
  · obtain ⟨hstream, -, hbuffer, hafter⟩ := taken.readData_reads (maxSize - (device.ioBuffer.take maxSize).length)
    have hread : device.read maxSize =
        ((taken.readData (maxSize - (device.ioBuffer.take maxSize).length)).1,
          device.ioBuffer.take maxSize ++ (taken.readData (maxSize - (device.ioBuffer.take maxSize).length)).2.1,
          (taken.readData (maxSize - (device.ioBuffer.take maxSize).length)).2.2) := by
      simp only [read, htaken, if_neg hdone, if_pos hdirect]
    rw [hread]
    refine ⟨?_, fun _ => ?_, hcounts _ _ hafter⟩
    · rw [hbuffer, hdrop, append_nil, append_assoc, hstream, hpending, htake]
    · rw [hbuffer, hdrop]
      exact Nat.zero_le _
  · obtain ⟨hstream, hlength, hbuffer, hafter⟩ := taken.readData_reads QIODEVICE_BUFFERSIZE
    generalize hfill : taken.readData QIODEVICE_BUFFERSIZE = filled at hstream hlength hbuffer hafter
    have hread : device.read maxSize =
        ({ filled.1 with ioBuffer := filled.2.1.drop (maxSize - (device.ioBuffer.take maxSize).length) },
          device.ioBuffer.take maxSize ++ filled.2.1.take (maxSize - (device.ioBuffer.take maxSize).length),
          filled.2.2) := by
      simp only [read, htaken, if_neg hdone, if_neg hdirect, hfill]
    rw [hread]
    refine ⟨?_, fun _ => ?_, hcounts _ _ { hafter with }⟩
    · rw [append_assoc (device.ioBuffer.take maxSize), take_append_drop, append_assoc, htake]
      exact congrArg (device.ioBuffer ++ ·) (hstream.trans hpending)
    · rw [length_drop]
      omega

end

end SplitReader

namespace ReadLink

structure Accounted (s : ReadLink) : Prop where
  limits : s.device.readBufferLimit = s.channel.readBufferLimit
  /-- Only the last signal can be the overflow, since the channel forwards nothing after it. -/
  queue : s.signals = (messages s.signals).map .received ∨ s.channel.readOverflowed = true ∧
    ∃ unread incoming, s.signals = (messages s.signals).map .received ++ [.readBufferOverflowed unread incoming]
  closed : s.device.readBufferOverflowed = true → s.channel.readOverflowed = true ∧ s.signals = []
  stream : s.read ++ s.device.ioBuffer ++ s.device.pending ++ s.inFlight <+: s.received.flatten
  whole : s.channel.readOverflowed = false → s.read ++ s.device.ioBuffer ++ s.device.pending ++ s.inFlight = s.received.flatten
  count : s.channel.unread = s.unacknowledgedBytes
  pending : s.device.pendingBytes ≤ s.device.unacknowledged
  reported : ∀ bytes ∈ s.acknowledgements, 0 < bytes
  drained : s.device.readBufferOverflowed = false → s.device.pending = [] → s.device.unacknowledged = 0
  ahead : s.device.ioBuffer.length ≤ QIODEVICE_BUFFERSIZE
  bound : 0 < s.channel.readBufferLimit → s.channel.unread ≤ s.channel.readBufferLimit

private theorem accounted_start (limit : Int) : Accounted (start limit) where
  limits := rfl
  queue := .inl rfl
  closed := nofun
  stream := prefix_rfl
  whole _ := rfl
  count := rfl
  pending := Int.le_refl 0
  reported := by simp [start]
  drained _ _ := rfl
  ahead := Nat.zero_le _
  bound hlimit := Int.le_of_lt hlimit

namespace Accounted
variable {s : ReadLink}

section
variable (h : s.Accounted)
include h

private theorem acknowledgements_nonneg : 0 ≤ totalBytes s.acknowledgements :=
  totalBytes_nonneg h.reported

/-- A frame off the wire: over the ceiling it closes the connection, and under it it is counted. -/
theorem frame (message : Frame) : (s.step (.frame message)).Accounted := by
  have hflat : (s.received ++ [message]).flatten = s.received.flatten ++ message := by simp
  by_cases hover : s.channel.readOverflowed = true
  · have hstep : s.step (.frame message) = { s with received := s.received ++ [message] } := by
      simp [step, SocketChannel.forward, hover]
    rw [hstep]
    refine { h with stream := ?_, whole := fun hno => absurd (hno.symm.trans hover) (by simp) }
    rw [hflat]
    exact h.stream.trans (prefix_append _ _)
  rw [Bool.not_eq_true] at hover
  have hdevice : s.device.readBufferOverflowed = false := by
    by_contra hclosed
    rw [Bool.not_eq_false] at hclosed
    exact absurd ((h.closed hclosed).1.symm.trans hover) (by simp)
  have hqueue : s.signals = (messages s.signals).map .received := by
    obtain hqueue | ⟨hno, -⟩ := h.queue
    · exact hqueue
    · exact absurd (hno.symm.trans hover) (by simp)
  by_cases hroom : 0 < s.channel.readBufferLimit ∧ s.channel.readBufferLimit < s.channel.unread + message.length
  · have hstep : s.step (.frame message) =
        { s with channel := { s.channel with readOverflowed := true, aborted := true },
                 signals := s.signals ++ [.readBufferOverflowed s.channel.unread message.length],
                 received := s.received ++ [message] } := by
      simp only [step, SocketChannel.forward, hover, Bool.false_eq_true, if_false, if_pos hroom]
    have hflight : messages (s.signals ++ [.readBufferOverflowed s.channel.unread message.length]) =
        messages s.signals := by simp
    rw [hstep]
    refine { limits := h.limits, queue := .inr ⟨rfl, s.channel.unread, message.length, ?_⟩, closed := fun hno => ?_,
             stream := ?_, whole := nofun, count := ?_, pending := h.pending, reported := h.reported,
             drained := h.drained, ahead := h.ahead, bound := h.bound }
    · simp only [hflight, ← hqueue]
    · exact absurd (hno.symm.trans hdevice) (by simp)
    · simp only [inFlight, hflight, hflat]
      exact h.stream.trans (prefix_append _ _)
    · simp only [unacknowledgedBytes, inFlight, hflight]
      exact h.count
  · have hstep : s.step (.frame message) =
        { s with channel := { s.channel with unread := s.channel.unread + message.length },
                 signals := s.signals ++ [.received message], received := s.received ++ [message] } := by
      simp only [step, SocketChannel.forward, hover, Bool.false_eq_true, if_false, if_neg hroom]
    have hflight : messages (s.signals ++ [.received message]) = messages s.signals ++ [message] := by simp
    have hwhole : s.read ++ s.device.ioBuffer ++ s.device.pending ++ (messages (s.signals ++ [.received message])).flatten =
        (s.received ++ [message]).flatten := by
      rw [hflight, hflat, ← h.whole hover, inFlight]
      simp
    rw [hstep]
    refine { limits := h.limits, queue := .inl ?_, closed := fun hno => absurd (hno.symm.trans hdevice) (by simp),
             stream := hwhole ▸ prefix_rfl, whole := fun _ => hwhole, count := ?_, pending := h.pending,
             reported := h.reported, drained := h.drained, ahead := h.ahead, bound := fun hlimit => ?_ }
    · simp only [hflight, map_append, ← hqueue, map_cons, map_nil]
    · have hcount := h.count
      simp only [unacknowledgedBytes, inFlight, hflight] at hcount ⊢
      simp only [flatten_append, length_append, flatten_cons, flatten_nil, append_nil]
      omega
    · exact Int.not_lt.mp fun hlt => hroom ⟨hlimit, hlt⟩

/-- What the device takes of a message the channel let across, its own ceiling let through as well. -/
theorem signal : (s.step .signal).Accounted := by
  cases hsignals : s.signals with
  | nil =>
    have hstep : s.step .signal = s := by simp [step, hsignals]
    rwa [hstep]
  | cons first rest =>
    have hstep : s.step .signal = { s with device := s.device.handle first, signals := rest } := by
      simp [step, hsignals]
    have hopen : s.device.readBufferOverflowed = false := by
      by_contra hclosed
      rw [Bool.not_eq_false] at hclosed
      exact absurd ((h.closed hclosed).2.symm.trans hsignals) (by simp)
    rw [hstep]
    cases first with
    | received message =>
      have hflight : s.inFlight = message ++ (messages rest).flatten := by
        simp [inFlight, hsignals]
      have hcount := h.count
      have hpending := h.pending
      have hacks := h.acknowledgements_nonneg
      have hbound := h.bound
      rw [unacknowledgedBytes, hflight, length_append] at hcount
      have hroom : ¬(0 < s.device.readBufferLimit ∧
          s.device.readBufferLimit < s.device.pendingBytes + message.length) := by
        rw [h.limits]
        intro hfull
        have := hbound hfull.1
        omega
      obtain ⟨hkept, hunack, hstill, hlimit, hahead⟩ := SplitReader.deliver_kept hopen hroom
      have hsame : s.read ++ (s.device.deliver message).ioBuffer ++ (s.device.deliver message).pending ++
          (messages rest).flatten =
          s.read ++ s.device.ioBuffer ++ s.device.pending ++ s.inFlight := by
        rw [hkept, hflight, hahead]
        simp
      refine { limits := hlimit.trans h.limits, queue := ?_, closed := fun hno => absurd (hno.symm.trans hstill) (by simp),
               stream := hsame.symm ▸ h.stream, whole := fun hno => hsame.trans (h.whole hno), count := ?_,
               pending := ?_, reported := h.reported, drained := fun _ hnil => ?_, ahead := hahead ▸ h.ahead,
               bound := h.bound }
      · simpa [hsignals] using h.queue
      · simp only [unacknowledgedBytes, inFlight, SplitReader.handle, hunack]
        omega
      · simp only [SplitReader.pendingBytes, SplitReader.handle, hkept, hunack, length_append] at hpending ⊢
        omega
      · simp only [SplitReader.handle, hkept, hunack, append_eq_nil_iff] at hnil ⊢
        rw [h.drained hopen hnil.1, hnil.2]
        rfl
    | readBufferOverflowed unread incoming =>
      obtain hqueue | ⟨hover, unread', incoming', hqueue⟩ := h.queue
      · rw [hsignals, messages_overflowed] at hqueue
        cases hm : messages rest <;> simp [hm] at hqueue
      · have hrest : rest = [] := by
          rw [hsignals, messages_overflowed] at hqueue
          cases hm : messages rest with
          | nil =>
            simp only [hm, map_nil, nil_append, List.cons.injEq] at hqueue
            exact hqueue.2
          | cons message tail => simp [hm] at hqueue
        have hdevice : s.device.handle (.readBufferOverflowed unread incoming) = s.device.discardOnOverflow := by
          simp [SplitReader.handle, hopen]
        have hcount := h.count
        have hpending := h.pending
        have hnone : s.inFlight = [] := by simp [inFlight, hsignals, hrest]
        rw [hdevice, hrest]
        refine { limits := h.limits, queue := .inl rfl, closed := fun _ => ⟨hover, rfl⟩, stream := ?_,
                 whole := fun hno => absurd (hno.symm.trans hover) (by simp), count := ?_, pending := ?_,
                 reported := h.reported, drained := nofun, ahead := Nat.zero_le _, bound := h.bound }
        · refine List.IsPrefix.trans ?_ h.stream
          simp [SplitReader.discardOnOverflow, SplitReader.pending, inFlight]
        · rw [unacknowledgedBytes, hnone] at hcount
          exact hcount
        · simp only [SplitReader.pendingBytes, SplitReader.discardOnOverflow, SplitReader.pending] at hpending ⊢
          simp only [drop_nil, length_nil]
          omega

theorem read (maxSize : Nat) : (s.step (.read maxSize)).Accounted := by
  by_cases hisOpen : s.device.isOpen = true
  · obtain ⟨hstream, hahead, hreads⟩ := SplitReader.read_reads s.device maxSize
    have hstep : s.step (.read maxSize) =
        { s with device := (s.device.read maxSize).1, read := s.read ++ (s.device.read maxSize).2.1,
                 acknowledgements := s.acknowledgements ++ (s.device.read maxSize).2.2 } := by
      simp [step, hisOpen]
    rw [hstep]
    generalize (s.device.read maxSize).1 = after at hstream hahead hreads
    generalize (s.device.read maxSize).2.1 = data at hstream
    generalize (s.device.read maxSize).2.2 = posted at hreads
    have hsame : s.read ++ data ++ after.ioBuffer ++ after.pending ++ s.inFlight =
        s.read ++ s.device.ioBuffer ++ s.device.pending ++ s.inFlight := by
      rw [append_assoc s.read, append_assoc s.read, hstream, append_assoc s.read s.device.ioBuffer]
    have hcount := h.count
    have hafter := hreads.count
    have hpending := h.pending
    refine { limits := hreads.limit.trans h.limits, queue := h.queue, closed := fun hno => h.closed (hreads.overflowed ▸ hno),
             stream := hsame.symm ▸ h.stream, whole := fun hno => hsame.trans (h.whole hno), count := ?_,
             pending := ?_, reported := ?_, drained := fun hno hnil => ?_, ahead := hahead h.ahead, bound := h.bound }
    · simp only [unacknowledgedBytes, inFlight, totalBytes_append] at hcount ⊢
      omega
    · exact hreads.held hpending
    · intro bytes hmem
      obtain hmem | hmem := mem_append.mp hmem
      · exact h.reported bytes hmem
      · exact hreads.posted bytes hmem
    · by_cases hempty : s.device.pending = []
      · exact (hreads.idle hempty).2.trans (h.drained (hreads.overflowed ▸ hno) hempty)
      · have hpos : 0 ≤ s.device.unacknowledged := Int.le_trans (Int.natCast_nonneg _) hpending
        exact hreads.drained hpos hempty hnil
  · have hstep : s.step (.read maxSize) = s := by
      simp [step, hisOpen]
    rwa [hstep]

theorem acknowledgement : (s.step .acknowledgement).Accounted := by
  cases hacks : s.acknowledgements with
  | nil =>
    have hstep : s.step .acknowledgement = s := by simp [step, hacks]
    rwa [hstep]
  | cons bytes rest =>
    have hstep : s.step .acknowledgement =
        { s with channel := s.channel.acknowledgeRead bytes, acknowledgements := rest } := by
      simp [step, hacks]
    have hreported : ∀ b ∈ bytes :: rest, 0 < b := hacks ▸ h.reported
    have hrest : 0 ≤ totalBytes rest := totalBytes_nonneg fun b hmem => hreported b (.tail _ hmem)
    have hbytes : 0 < bytes := hreported bytes (.head _)
    have hcount := h.count
    have hpending := h.pending
    have hpos : 0 ≤ s.device.pendingBytes := Int.natCast_nonneg _
    simp only [unacknowledgedBytes, hacks, totalBytes] at hcount
    have hunread : (s.channel.acknowledgeRead bytes).unread = s.channel.unread - bytes := by
      simp only [SocketChannel.acknowledgeRead]
      omega
    rw [hstep]
    refine { h with count := ?_, reported := fun b hmem => hreported b (.tail _ hmem), bound := fun hlimit => ?_ }
    · simp only [unacknowledgedBytes, hunread, inFlight] at hcount ⊢
      omega
    · have := h.bound hlimit
      rw [hunread]
      simp only [SocketChannel.acknowledgeRead]
      omega

theorem step : ∀ op, (s.step op).Accounted
  | .frame message => h.frame message
  | .signal => h.signal
  | .read maxSize => h.read maxSize
  | .acknowledgement => h.acknowledgement

end

end Accounted

private theorem accounted_run (limit : Int) (ops : List ReadOp) : (run step (start limit) ops).Accounted :=
  run_invariant Accounted (fun _ op h => h.step op) (accounted_start limit) ops

private theorem step_limit (s : ReadLink) (op : ReadOp) :
    (s.step op).channel.readBufferLimit = s.channel.readBufferLimit := by
  cases op with
  | frame message =>
    simp only [step, SocketChannel.forward]
    split
    · rfl
    · split <;> rfl
  | signal | read maxSize | acknowledgement =>
    simp only [step]
    split <;> rfl

private theorem run_limit (limit : Int) (ops : List ReadOp) : (run step (start limit) ops).channel.readBufferLimit = limit :=
  run_invariant (fun s => s.channel.readBufferLimit = limit) (fun s op h => (step_limit s op).trans h) rfl ops

/-- The channel closes the connection at the frame that would take its count over the ceiling. -/
theorem frame_overflows {s : ReadLink} (h : s.Accounted) (hover : s.channel.readOverflowed = false) (message : Frame) :
    (s.step (.frame message)).channel.readOverflowed = true ↔
      0 < s.channel.readBufferLimit ∧ s.channel.readBufferLimit < s.unacknowledgedBytes + message.length := by
  rw [← h.count]
  simp only [step, SocketChannel.forward, hover, Bool.false_eq_true, if_false]
  split <;> simp_all

/-- The reader has a prefix of what arrived, and no more than the ceiling is held for the device. The
connection is closed for read overflow at the frame that would take the bytes the device has not
acknowledged over the ceiling, and for no other reason: the device's own check never finds
more than the channel let across. What is held is never more than these, nor less once the device
has drained it and been heard; what `QIODevice` has read ahead counts as read. -/
theorem readCeiling_exact (limit : Int) (ops : List ReadOp) :
    let s := run step (start limit) ops
    s.read ++ s.device.ioBuffer ++ s.device.pending ++ s.inFlight <+: s.received.flatten ∧
    (0 < limit → s.heldBytes ≤ limit) ∧
    (∀ message, s.channel.readOverflowed = false →
      ((run step (start limit) (ops ++ [.frame message])).channel.readOverflowed = true ↔
        0 < limit ∧ limit < s.unacknowledgedBytes + message.length)) ∧
    (s.device.readBufferOverflowed = true → s.channel.readOverflowed = true) ∧
    s.heldBytes ≤ s.unacknowledgedBytes ∧
    (s.device.readBufferOverflowed = false → s.device.pending = [] → s.acknowledgements = [] →
      s.unacknowledgedBytes = s.heldBytes) ∧
    s.unreadBytes ≤ s.heldBytes + QIODEVICE_BUFFERSIZE := by
  have h := accounted_run limit ops
  have hlimit := run_limit limit ops
  simp only [run_append, run_cons, run_nil]
  generalize run step (start limit) ops = s at h hlimit
  subst hlimit
  have hheld : s.heldBytes ≤ s.unacknowledgedBytes := by
    have hpending := h.pending
    have hacks := h.acknowledgements_nonneg
    simp only [heldBytes, unacknowledgedBytes]
    omega
  refine ⟨h.stream, fun hpos => ?_, fun message hover => frame_overflows h hover message, fun hclosed => (h.closed hclosed).1,
    hheld, fun hopen hnil hacks => ?_, ?_⟩
  · have hbound := h.bound hpos
    rw [h.count] at hbound
    exact Int.le_trans hheld hbound
  · simp [unacknowledgedBytes, heldBytes, SplitReader.pendingBytes, totalBytes, hacks, h.drained hopen hnil, hnil]
  · have hahead := h.ahead
    rw [unreadBytes]
    omega

/-- All three bytes are read, and while the channel has not heard of it they count. -/
theorem late_acknowledgement_overflows :
    ¬ ∀ (limit : Int) (ops : List ReadOp),
      (run step (start limit) ops).read <+: (run step (start limit) ops).received.flatten ∧
      (0 < limit → (run step (start limit) ops).heldBytes ≤ limit) ∧
      ∀ message, (run step (start limit) ops).channel.readOverflowed = false →
        (run step (start limit) (ops ++ [.frame message])).channel.readOverflowed = true →
        limit < (run step (start limit) ops).unreadBytes + message.length := by
  intro h
  have hclosed := (h 4 [.frame [1, 2, 3], .signal, .read 3]).2.2 [4, 5] (by decide) (by decide)
  exact absurd hclosed (by decide)

end ReadLink
end SynQt
