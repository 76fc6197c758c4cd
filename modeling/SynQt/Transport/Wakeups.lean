import Mathlib.Data.List.Dedup
import SynQt.Transport.WebSocketTransport

/-! Whether a batch that waits has a drain to wait for. The flag that says one is posted is the
thread's, and the post is the dispatcher's: they agree as long as no dispatcher goes with a drain
posted on it. -/
namespace SynQt
open Lib Function List

namespace SplitHost

variable (s : SplitHost)

theorem post_posted_self (thread : Thread) (posted : Posted) :
    (s.post thread posted).posted thread = s.posted thread ++ [posted] := update_self _ _ _

theorem post_posted_of_ne {thread other : Thread} (h : other ≠ thread) (posted : Posted) :
    (s.post thread posted).posted other = s.posted other := update_of_ne h _ _

theorem leave_posted_self (thread : Thread) (rest : List Posted) :
    (s.leave thread rest).posted thread = rest := update_self _ _ _

theorem leave_posted_of_ne {thread other : Thread} (h : other ≠ thread) (rest : List Posted) :
    (s.leave thread rest).posted other = s.posted other := update_of_ne h _ _

theorem setTransport_self (i : Nat) (transport : WebSocketTransport) :
    (s.setTransport i transport).transports i = transport := update_self _ _ _

theorem setTransport_of_ne {i j : Nat} (h : j ≠ i) (transport : WebSocketTransport) :
    (s.setTransport i transport).transports j = s.transports j := update_of_ne h _ _

structure Crosses (s s' : SplitHost) : Prop where
  dispatcher : s'.dispatcher = s.dispatcher
  pending : s'.pending = s.pending
  transports : s'.transports = s.transports
  posted : ∀ thread, s.posted thread <+: s'.posted thread

namespace Crosses

variable (s : SplitHost)

theorem refl : Crosses s s := ⟨rfl, rfl, rfl, fun _ => prefix_rfl⟩

theorem trans {s s' s'' : SplitHost} (h : Crosses s s') (h' : Crosses s' s'') : Crosses s s'' where
  dispatcher := h'.dispatcher.trans h.dispatcher
  pending := h'.pending.trans h.pending
  transports := h'.transports.trans h.transports
  posted thread := (h.posted thread).trans (h'.posted thread)

theorem foldl {α : Type} {f : SplitHost → α → SplitHost} (hf : ∀ s a, Crosses s (f s a)) (l : List α) (s : SplitHost) :
    Crosses s (l.foldl f s) := by
  induction l generalizing s with
  | nil => exact refl s
  | cons a l ih => exact (hf s a).trans (ih (f s a))

theorem post (thread : Thread) (posted : Posted) : Crosses s (s.post thread posted) := by
  refine ⟨rfl, rfl, rfl, fun t => ?_⟩
  by_cases ht : t = thread
  · subst ht
    rw [post_posted_self]
    exact prefix_append _ _
  · exact ⟨[], (append_nil _).trans (post_posted_of_ne s ht posted).symm⟩

theorem callChannel (i : Nat) (call : ChannelCall) : Crosses s (s.callChannel i call) := by
  rw [SplitHost.callChannel]
  split
  · exact ⟨rfl, rfl, rfl, fun _ => prefix_rfl⟩
  · exact refl s

theorem sendItem (item : ChannelBatch) : Crosses s (s.sendItem item) :=
  callChannel s item.channel (.send item.batch)

theorem sendItems (batches : List ChannelBatch) : Crosses s (batches.foldl SplitHost.sendItem s) :=
  foldl sendItem batches s

theorem deliverBatches (thread : Thread) (batches : List ChannelBatch) :
    Crosses s (s.deliverBatches thread batches) := by
  rw [SplitHost.deliverBatches]
  split
  · exact refl s
  · split
    · exact post _ _ _
    · split
      · exact sendItems s batches
      · exact foldl (fun s item => post s thread _) batches s

end Crosses

/-- What is handed to a thread with an event loop is queued for it. -/
theorem deliverBatches_posts {s : SplitHost} {thread : Thread} {batches : List ChannelBatch} {item : ChannelBatch}
    (hmem : item ∈ batches) (hqueued : s.dispatcher thread ≠ none ∨ thread ≠ hostThread) :
    ∃ posted ∈ (s.deliverBatches thread batches).posted thread, ∃ sent, posted.call = .send sent ∧ item ∈ sent := by
  have hne : ¬ batches.isEmpty := by
    intro hempty
    rw [isEmpty_iff.mp hempty] at hmem
    exact absurd hmem not_mem_nil
  cases hdispatcher : s.dispatcher thread with
  | some context =>
    have hdeliver : s.deliverBatches thread batches = s.post thread ⟨.dispatcher context, .send batches⟩ := by
      rw [deliverBatches, if_neg hne, hdispatcher]
    rw [hdeliver, post_posted_self]
    exact ⟨_, mem_append_right _ (mem_singleton_self _), batches, rfl, hmem⟩
  | none =>
    have hother : thread ≠ hostThread := by
      obtain hsome | hother := hqueued
      · exact absurd hdispatcher hsome
      · exact hother
    have hdeliver : s.deliverBatches thread batches =
        batches.foldl (fun s item => s.post thread ⟨.channel item.channel, .send [item]⟩) s := by
      rw [deliverBatches, if_neg hne, hdispatcher]
      exact if_neg hother
    obtain ⟨before, after, rfl⟩ := append_of_mem hmem
    have hlater := Crosses.foldl (fun s (item : ChannelBatch) => Crosses.post s thread ⟨.channel item.channel, .send [item]⟩)
      after ((before.foldl (fun s item => s.post thread ⟨.channel item.channel, .send [item]⟩) s).post thread
        ⟨.channel item.channel, .send [item]⟩)
    rw [hdeliver, foldl_append, foldl_cons]
    refine ⟨⟨.channel item.channel, .send [item]⟩, (hlater.posted thread).subset ?_, [item], rfl,
      mem_singleton_self _⟩
    rw [post_posted_self]
    exact mem_append_right _ (mem_singleton_self _)

/-- A due transport is emptied once, however often it is named. -/
private theorem takeBatches_at (due : List Nat) (transports : Nat → WebSocketTransport) (i : Nat) :
    (takeBatches transports due).2 i =
      (if i ∈ due ∧ (transports i).alive = true then { transports i with flushQueued := false, writeBatch := [] }
      else transports i) ∧
    (takeBatches transports due).1.filter (·.channel == i) =
      if i ∈ due ∧ (transports i).alive = true ∧ (transports i).writeBatch ≠ [] then [⟨i, (transports i).writeBatch⟩]
      else [] := by
  induction due generalizing transports with
  | nil => simp [takeBatches]
  | cons j due ih =>
    rw [takeBatches]
    by_cases hj : i = j
    · subst hj
      by_cases halive : (transports i).alive = true
      · by_cases hempty : (transports i).writeBatch = []
        · simp [halive, ih, hempty]
        · simp [halive, ih, hempty]
      · simp [halive, ih]
    · have hupdate (t : WebSocketTransport) : update transports j t i = transports i := update_of_ne hj _ _
      have hji : (j == i) = false := beq_false_of_ne fun heq => hj heq.symm
      have hmem : i ∈ j :: due ↔ i ∈ due := by simp [hj]
      split
      · simp only [ih, hmem, and_self]
      · split
        · simp only [ih, hupdate, hmem, and_self]
        · simp only [filter_cons, hji, ih, hupdate, hmem, Bool.false_eq_true, if_false, and_self]

theorem takeBatches_transports (due : List Nat) (transports : Nat → WebSocketTransport) (i : Nat) :
    (takeBatches transports due).2 i =
      if i ∈ due ∧ (transports i).alive = true then { transports i with flushQueued := false, writeBatch := [] }
      else transports i := (takeBatches_at due transports i).1

theorem takeBatches_items (due : List Nat) (transports : Nat → WebSocketTransport) (i : Nat) :
    (takeBatches transports due).1.filter (·.channel == i) =
      if i ∈ due ∧ (transports i).alive = true ∧ (transports i).writeBatch ≠ [] then [⟨i, (transports i).writeBatch⟩]
      else [] := (takeBatches_at due transports i).2

/-- The current dispatcher of the devices' thread has a drain to run. -/
def DrainPosted (s : SplitHost) : Prop :=
  ∃ dispatcher, s.dispatcher hostThread = some dispatcher ∧
    ⟨.dispatcher dispatcher, .drainBatches⟩ ∈ s.posted hostThread

/-- The flags say what is so: a drain is posted, a transport is in line for it, a batch will be taken. -/
structure Awake (s : SplitHost) : Prop where
  posted : s.pending.drainQueued = true → s.DrainPosted
  queued : s.pending.batched ≠ [] → s.pending.drainQueued = true
  registered : ∀ i, (s.transports i).alive = true → (s.transports i).flushQueued = true → i ∈ s.pending.batched
  waiting : ∀ i, (s.transports i).alive = true → (s.transports i).writeBatch ≠ [] → (s.transports i).flushQueued = true

theorem awake_start (dispatcher : Thread → Option Nat) (dispatchers : Nat) (thread : Nat → Thread) (limit : Nat → Int) :
    Awake (start dispatcher dispatchers thread limit) where
  posted := nofun
  queued h := absurd rfl h
  registered _ _ := nofun
  waiting _ _ h := absurd rfl h

theorem DrainPosted.mono {s s' : SplitHost} (h : s.DrainPosted) (hd : s'.dispatcher hostThread = s.dispatcher hostThread)
    (hp : ∀ posted ∈ s.posted hostThread, posted.call = .drainBatches → posted ∈ s'.posted hostThread) :
    s'.DrainPosted := by
  obtain ⟨dispatcher, hsome, hmem⟩ := h
  exact ⟨dispatcher, hd.trans hsome, hp _ hmem rfl⟩

namespace Awake
variable {s s' : SplitHost}

/-- Nothing wakes up for less: the drains stay posted, and no batch comes up that was not there. -/
theorem congr (h : s.Awake) (hd : s'.dispatcher hostThread = s.dispatcher hostThread) (hpending : s'.pending = s.pending)
    (hp : ∀ posted ∈ s.posted hostThread, posted.call = .drainBatches → posted ∈ s'.posted hostThread)
    (ht : ∀ i, (s'.transports i).alive = true → (s.transports i).alive = true ∧
      (s'.transports i).flushQueued = (s.transports i).flushQueued ∧
      ((s'.transports i).writeBatch ≠ [] → (s.transports i).writeBatch ≠ [])) : s'.Awake where
  posted hqueued := (h.posted (hpending ▸ hqueued)).mono hd hp
  queued hne := by
    rw [hpending] at hne ⊢
    exact h.queued hne
  registered i halive hflush := by
    obtain ⟨halive, hsame, -⟩ := ht i halive
    rw [hpending]
    exact h.registered i halive (hsame ▸ hflush)
  waiting i halive hne := by
    obtain ⟨halive, hsame, hbatch⟩ := ht i halive
    rw [hsame]
    exact h.waiting i halive (hbatch hne)

theorem crosses (h : s.Awake) (hc : Crosses s s') : s'.Awake := by
  refine h.congr (by rw [hc.dispatcher]) hc.pending (fun posted hmem _ => (hc.posted _).subset hmem) fun i halive => ?_
  rw [hc.transports] at halive ⊢
  exact ⟨halive, rfl, id⟩

theorem setTransport (h : s.Awake) (i : Nat) (t : WebSocketTransport)
    (halive : t.alive = true → (s.transports i).alive = true) (hflush : t.flushQueued = (s.transports i).flushQueued)
    (hbatch : t.writeBatch ≠ [] → (s.transports i).writeBatch ≠ []) : (s.setTransport i t).Awake := by
  refine h.congr rfl rfl (fun posted hmem _ => hmem) fun j hj => ?_
  by_cases hij : j = i
  · subst hij
    rw [setTransport_self] at hj ⊢
    exact ⟨halive hj, hflush, hbatch⟩
  · rw [setTransport_of_ne s hij] at hj ⊢
    exact ⟨hj, rfl, id⟩

theorem sendBatch (h : s.Awake) (i : Nat) : (s.sendBatch i).Awake := by
  rw [SplitHost.sendBatch]
  split
  · exact h
  · have hemptied : (s.setTransport i { s.transports i with writeBatch := [] }).Awake :=
      h.setTransport i _ id rfl fun hne => absurd rfl hne
    exact hemptied.crosses (Crosses.deliverBatches _ _ _)

end Awake

theorem sendBatch_transports (i : Nat) :
    (s.sendBatch i).transports = update s.transports i { s.transports i with writeBatch := [] } := by
  rw [sendBatch]
  split
  · rename_i hempty
    have hnil := isEmpty_iff.mp hempty
    funext j
    by_cases hj : j = i
    · subst hj
      rw [update_self, ← hnil]
    · rw [update_of_ne hj]
  · exact (Crosses.deliverBatches _ _ _).transports

private theorem sendBatch_pending (i : Nat) : (s.sendBatch i).pending = s.pending := by
  rw [sendBatch]
  split
  · rfl
  · exact (Crosses.deliverBatches _ _ _).pending

namespace Awake
variable {s : SplitHost}

section
variable (h : s.Awake)
include h

private theorem batched_eq_nil (hqueued : ¬ s.pending.drainQueued = true) : s.pending.batched = [] := by
  by_contra hne
  exact hqueued (h.queued hne)

/-- A message is appended and the flush asked for: whether the transport was in line, the thread's
drain posted or no loop there at all, the batch is not left behind. -/
theorem append (i : Nat) (batch : Frame) :
    ((s.setTransport i { s.transports i with writeBatch := batch }).scheduleBatchFlush i).Awake := by
  generalize happended : s.setTransport i { s.transports i with writeBatch := batch } = appended
  have hself : appended.transports i = { s.transports i with writeBatch := batch } := by
    rw [← happended, setTransport_self]
  have hother (j : Nat) (hj : j ≠ i) : appended.transports j = s.transports j := by
    rw [← happended, setTransport_of_ne s hj]
  have hpending : appended.pending = s.pending := by rw [← happended]; rfl
  have hposted : appended.DrainPosted ↔ s.DrainPosted := by rw [← happended]; exact Iff.rfl
  by_cases hflush : (appended.transports i).flushQueued = true
  · have hschedule : appended.scheduleBatchFlush i = appended := by
      rw [scheduleBatchFlush, if_pos hflush]
    have hwas : (s.transports i).flushQueued = true := by rwa [hself] at hflush
    rw [hschedule]
    refine ⟨fun hq => hposted.mpr (h.posted (hpending ▸ hq)), hpending ▸ h.queued, fun j halive hqueued => ?_,
      fun j halive hne => ?_⟩
    · rw [hpending]
      by_cases hj : j = i
      · subst hj
        rw [hself] at halive
        exact h.registered j halive hwas
      · rw [hother j hj] at halive hqueued
        exact h.registered j halive hqueued
    · by_cases hj : j = i
      · subst hj
        exact hflush
      · rw [hother j hj] at halive hne ⊢
        exact h.waiting j halive hne
  have hlined (queued : Bool) (s' : SplitHost) (hp : s'.pending = ⟨s.pending.batched ++ [i], true⟩)
      (ht : s'.transports = update appended.transports i { appended.transports i with flushQueued := true })
      (hdrain : s'.DrainPosted) : s'.Awake := by
    refine ⟨fun _ => hdrain, fun _ => by rw [hp], fun j halive hqueued => ?_, fun j halive hne => ?_⟩
    · rw [hp]
      by_cases hj : j = i
      · exact mem_append_right _ (mem_singleton.mpr hj)
      · rw [ht, update_of_ne hj, hother j hj] at halive hqueued
        exact mem_append_left _ (h.registered j halive hqueued)
    · by_cases hj : j = i
      · rw [ht, hj, update_self]
      · rw [ht, update_of_ne hj, hother j hj] at halive hne ⊢
        exact h.waiting j halive hne
  by_cases hqueued : appended.pending.drainQueued = true
  · have hwas : s.pending.drainQueued = true := by rwa [hpending] at hqueued
    rw [scheduleBatchFlush, if_neg hflush]
    simp only [if_pos hqueued]
    refine hlined true _ ?_ rfl (hposted.mpr (h.posted hwas))
    rw [hpending, hwas]
  · have hwas : ¬ s.pending.drainQueued = true := by rwa [hpending] at hqueued
    have hnil := h.batched_eq_nil hwas
    cases hdispatcher : appended.dispatcher hostThread with
    | some dispatcher =>
      rw [scheduleBatchFlush, if_neg hflush]
      simp only [if_neg hqueued, hdispatcher]
      refine hlined true _ ?_ rfl ⟨dispatcher, hdispatcher, ?_⟩
      · rw [hpending]
        rfl
      · rw [post_posted_self]
        exact mem_append_right _ (mem_singleton_self _)
    | none =>
      rw [scheduleBatchFlush, if_neg hflush]
      simp only [if_neg hqueued, hdispatcher]
      refine ⟨fun hq => ?_, fun hne => ?_, fun j halive hflushed => ?_, fun j halive hne => ?_⟩
      · rw [sendBatch_pending] at hq
        exact absurd hq hqueued
      · rw [sendBatch_pending, hpending, hnil] at hne
        simp at hne
      · rw [sendBatch_transports] at halive hflushed
        by_cases hj : j = i
        · subst hj
          rw [update_self, setTransport_self] at hflushed
          exact absurd hflushed (by simp)
        · simp only [update_of_ne hj, SplitHost.setTransport, hother j hj] at halive hflushed
          exact absurd (h.registered j halive hflushed) (by simp [hnil])
      · rw [sendBatch_transports] at halive hne ⊢
        by_cases hj : j = i
        · rw [hj, update_self] at hne
          exact absurd rfl hne
        · simp only [update_of_ne hj, SplitHost.setTransport, hother j hj] at halive hne ⊢
          exact h.waiting j halive hne

theorem batchData (i : Nat) (message : Frame) : (s.batchData i message).Awake := by
  rw [SplitHost.batchData]
  split
  · exact (h.sendBatch i).append i _
  · exact h.append i _

theorem writeData (i : Nat) (message : Frame) : (s.writeData i message).Awake := by
  rw [SplitHost.writeData]
  split
  · exact h
  · exact h.batchData i message

theorem shutdown (i closeCode : Nat) (reason : String) : (s.shutdown i closeCode reason).Awake := by
  rw [SplitHost.shutdown]
  split
  · exact (h.sendBatch i).crosses (Crosses.callChannel _ _ _)
  · exact (h.sendBatch i).crosses (Crosses.post _ _ _)

theorem close (i : Nat) : (s.close i).Awake :=
  (h.shutdown i CloseCodeNormal "").setTransport i _ id rfl id

theorem discardOnWriteOverflow (i : Nat) : (s.discardOnWriteOverflow i).Awake :=
  h.setTransport i _ id rfl fun hne => absurd rfl hne

theorem destroy (i : Nat) : (s.destroy i).Awake := by
  have hgone : (s.setTransport i { s.transports i with alive := false, isOpen := false }).Awake :=
    h.setTransport i _ nofun rfl id
  exact hgone.crosses (Crosses.post _ _ _)

end

end Awake

private theorem foldl_deliverBatches_crosses (byThread : Thread → List ChannelBatch) (threads : List Thread) :
    Crosses s (threads.foldl (fun s thread => s.deliverBatches thread (byThread thread)) s) :=
  Crosses.foldl (fun s thread => Crosses.deliverBatches s thread (byThread thread)) threads s

private theorem drainBatches_pending : s.drainBatches.pending = ⟨[], false⟩ :=
  (foldl_deliverBatches_crosses _ _ _).pending

theorem drainBatches_transports (i : Nat) :
    s.drainBatches.transports i =
      if i ∈ s.pending.batched ∧ (s.transports i).alive = true then
        { s.transports i with flushQueued := false, writeBatch := [] }
      else s.transports i := by
  rw [← takeBatches_transports]
  exact congrFun (foldl_deliverBatches_crosses _ _ _).transports i

/-- The drain takes every batch there is. It needs no drain to be posted any more. -/
theorem awake_drainBatches {s : SplitHost}
    (hregistered : ∀ i, (s.transports i).alive = true → (s.transports i).flushQueued = true → i ∈ s.pending.batched)
    (hwaiting : ∀ i, (s.transports i).alive = true → (s.transports i).writeBatch ≠ [] →
      (s.transports i).flushQueued = true) : s.drainBatches.Awake where
  posted hqueued := by
    rw [drainBatches_pending] at hqueued
    exact absurd hqueued Bool.false_ne_true
  queued hne := by
    rw [drainBatches_pending] at hne
    exact absurd rfl hne
  registered i halive hflush := by
    rw [drainBatches_transports] at halive hflush
    split at hflush
    · exact absurd hflush Bool.false_ne_true
    · rename_i hdue
      rw [if_neg hdue] at halive
      exact absurd ⟨hregistered i halive hflush, halive⟩ hdue
  waiting i halive hne := by
    rw [drainBatches_transports] at halive hne ⊢
    split
    · rename_i hdue
      rw [if_pos hdue] at hne
      exact absurd rfl hne
    · rename_i hdue
      rw [if_neg hdue] at halive hne
      exact hwaiting i halive hne

private theorem deliver_crosses (call : QueuedCall) (h : call ≠ .drainBatches) : Crosses s (s.deliver call) := by
  cases call with
  | drainBatches => exact absurd rfl h
  | send batches => exact Crosses.sendItems s batches
  | shutdown i closeCode reason => exact Crosses.callChannel s i _
  | deleteLater i => exact ⟨rfl, rfl, rfl, fun _ => prefix_rfl⟩

/-- The steps that keep a thread's drains: its dispatcher does not go while one is posted on it. -/
def KeepsDrains (s : SplitHost) : HostOp → Prop
  | .dispatcherGone thread => thread = hostThread → ¬ s.DrainPosted
  | _ => True

namespace Awake
variable {s : SplitHost}

theorem loop (h : s.Awake) (thread : Thread) : (s.step (.loop thread)).Awake := by
  rw [step]
  split
  · rename_i next rest hdispatcher hposted
    cases hcall : next.call with
    | drainBatches => exact awake_drainBatches h.registered h.waiting
    | _ =>
      have hother : next.call ≠ .drainBatches := by simp [hcall]
      have htaken : (s.leave thread rest).Awake := by
        refine h.congr rfl rfl (fun posted hmem hdrain => ?_) fun _ halive => ⟨halive, rfl, id⟩
        by_cases hthread : hostThread = thread
        · subst hthread
          rw [hposted] at hmem
          rw [leave_posted_self]
          obtain rfl | hmem := mem_cons.mp hmem
          · exact absurd hdrain hother
          · exact hmem
        · rwa [leave_posted_of_ne s hthread]
      exact htaken.crosses (hcall ▸ deliver_crosses _ next.call hother)
  · exact h

theorem step (h : s.Awake) (op : HostOp) (hop : s.KeepsDrains op) : (s.step op).Awake := by
  cases op with
  | write i message =>
    rw [SplitHost.step]
    split
    · exact h.writeData i message
    · exact h
  | shutdown i closeCode reason =>
    rw [SplitHost.step]
    split
    · exact h.shutdown i closeCode reason
    · exact h
  | close i =>
    rw [SplitHost.step]
    split
    · exact h.close i
    · exact h
  | writeBufferOverflowed i =>
    rw [SplitHost.step]
    split
    · exact h.discardOnWriteOverflow i
    · exact h
  | destroy i =>
    rw [SplitHost.step]
    split
    · exact h.destroy i
    · exact h
  | loop thread => exact h.loop thread
  | dispatcherGone thread =>
    rw [SplitHost.step]
    split
    · exact h
    · rename_i gone hgone
      by_cases hthread : hostThread = thread
      · have hnone : ¬ s.pending.drainQueued = true := fun hqueued => hop hthread.symm (h.posted hqueued)
        exact ⟨fun hqueued => absurd hqueued hnone, h.queued, h.registered, h.waiting⟩
      · refine h.congr (update_of_ne hthread _ _) rfl (fun posted hmem _ => ?_) fun _ halive => ⟨halive, rfl, id⟩
        change posted ∈ update s.posted thread _ hostThread
        rwa [update_of_ne hthread]
  | dispatcherStarted thread =>
    rw [SplitHost.step]
    split
    · exact h
    · rename_i hnone
      by_cases hthread : hostThread = thread
      · have hnot : ¬ s.pending.drainQueued = true := by
          intro hqueued
          obtain ⟨dispatcher, hsome, -⟩ := h.posted hqueued
          rw [hthread, hnone] at hsome
          cases hsome
        exact ⟨fun hqueued => absurd hqueued hnot, h.queued, h.registered, h.waiting⟩
      · exact h.congr (update_of_ne hthread _ _) rfl (fun _ hmem _ => hmem) fun _ halive => ⟨halive, rfl, id⟩

end Awake

section
variable {s : SplitHost} {dispatcher : Nat} (hdispatcher : s.dispatcher hostThread = some dispatcher)
include hdispatcher

/-- The devices' thread comes to the drain, the calls ahead of it leaving the transports alone. -/
theorem run_drain {before after : List Posted} (hposted : s.posted hostThread = before ++ ⟨.dispatcher dispatcher, .drainBatches⟩ :: after) :
    ∃ (loops : Nat) (s' : SplitHost), run step s (List.replicate (loops + 1) (.loop hostThread)) = s'.drainBatches ∧
      s'.transports = s.transports ∧ s'.dispatcher = s.dispatcher ∧ s'.pending = s.pending := by
  induction before generalizing s after with
  | nil =>
    refine ⟨0, s.leave hostThread after, ?_, rfl, rfl, rfl⟩
    simp [step, hdispatcher, hposted, deliver]
  | cons next before ih =>
    rw [cons_append] at hposted
    generalize hrest : before ++ ⟨.dispatcher dispatcher, .drainBatches⟩ :: after = rest at hposted
    have hstep : s.step (.loop hostThread) =
        (s.leave hostThread rest).deliver next.call := by
      simp only [step, hdispatcher, hposted]
    cases hcall : next.call with
    | drainBatches =>
      refine ⟨0, s.leave hostThread rest, ?_, rfl, rfl, rfl⟩
      rw [replicate_one, run_cons, run_nil, hstep, hcall]
      rfl
    | _ =>
      have hcrosses := deliver_crosses (s.leave hostThread rest) next.call (by simp [hcall])
      generalize (s.leave hostThread rest).deliver next.call = s₁ at hcrosses hstep
      obtain ⟨later, hlater⟩ := hcrosses.posted hostThread
      have hahead : s₁.posted hostThread = before ++ ⟨.dispatcher dispatcher, .drainBatches⟩ :: (after ++ later) := by
        rw [← hlater, leave_posted_self, ← hrest, append_assoc, cons_append]
      have hstill : s₁.dispatcher hostThread = some dispatcher := by
        rw [hcrosses.dispatcher]
        exact hdispatcher
      obtain ⟨loops, s', hrun, htransports, hd, hpending⟩ := ih hstill hahead
      refine ⟨loops + 1, s', ?_, htransports.trans hcrosses.transports, hd.trans hcrosses.dispatcher,
        hpending.trans hcrosses.pending⟩
      rw [replicate_succ, run_cons, hstep, hrun]

private theorem drainBatches_sends {i : Nat} (hdue : i ∈ s.pending.batched) (halive : (s.transports i).alive = true)
    (hne : (s.transports i).writeBatch ≠ []) :
    ∃ posted ∈ s.drainBatches.posted (s.transports i).thread,
      ∃ sent, posted.call = .send sent ∧ ⟨i, (s.transports i).writeBatch⟩ ∈ sent := by
  generalize hdrained : (takeBatches s.transports s.pending.batched).1 = items
  have hitem : ⟨i, (s.transports i).writeBatch⟩ ∈ items := by
    have hfilter := takeBatches_items s.pending.batched s.transports i
    rw [if_pos ⟨hdue, halive, hne⟩, hdrained] at hfilter
    have hmem : ⟨i, (s.transports i).writeBatch⟩ ∈ items.filter (·.channel == i) := by
      rw [hfilter]
      exact mem_singleton_self _
    exact (mem_filter.mp hmem).1
  have hthread : (s.transports i).thread ∈ (items.map fun item => (s.transports item.channel).thread).dedup :=
    mem_dedup.mpr (mem_map.mpr ⟨_, hitem, rfl⟩)
  have hshare : (⟨i, (s.transports i).writeBatch⟩ : ChannelBatch) ∈
      items.filter fun item => (s.transports item.channel).thread == (s.transports i).thread :=
    mem_filter.mpr ⟨hitem, beq_self_eq_true _⟩
  obtain ⟨before, after, hsplit⟩ := append_of_mem hthread
  have hqueued (s' : SplitHost) (hs : s'.dispatcher = s.dispatcher) :
      s'.dispatcher (s.transports i).thread ≠ none ∨ (s.transports i).thread ≠ hostThread := by
    by_cases hhost : (s.transports i).thread = hostThread
    · rw [hs, hhost, hdispatcher]
      exact .inl nofun
    · exact .inr hhost
  rw [drainBatches]
  simp only [hdrained, hsplit, foldl_append, foldl_cons]
  have hearlier := foldl_deliverBatches_crosses { s with pending := ⟨[], false⟩, transports := (takeBatches s.transports s.pending.batched).2 }
    (fun thread => items.filter fun item => (s.transports item.channel).thread == thread) before
  obtain ⟨posted, hmem, sent, hcall, hin⟩ := deliverBatches_posts hshare (hqueued _ hearlier.dispatcher)
  exact ⟨posted, ((foldl_deliverBatches_crosses _ _ after).posted _).subset hmem, sent, hcall, hin⟩

end

private theorem awake_run {dispatcher : Thread → Option Nat} {dispatchers : Nat} {thread : Nat → Thread} {limit : Nat → Int}
    {ops : List HostOp} (h : Each step KeepsDrains (start dispatcher dispatchers thread limit) ops) :
    (run step (start dispatcher dispatchers thread limit) ops).Awake :=
  h.invariant Awake (fun _ op hs hop => hs.step op hop) (awake_start dispatcher dispatchers thread limit)

/-- In a run in which no dispatcher goes with a drain posted on it, whoever holds a batch is in line
for a drain on the current one, which puts the batch on its socket's thread. -/
theorem waiting_batch_drains (dispatcher : Thread → Option Nat) (dispatchers : Nat) (thread : Nat → Thread)
    (limit : Nat → Int) (ops : List HostOp) (h : Each step KeepsDrains (start dispatcher dispatchers thread limit) ops)
    (i : Nat) (s : SplitHost) (hs : run step (start dispatcher dispatchers thread limit) ops = s)
    (halive : (s.transports i).alive = true) (hne : (s.transports i).writeBatch ≠ []) :
    i ∈ s.pending.batched ∧ s.DrainPosted ∧
    ∃ loops s', run step s (List.replicate loops (.loop hostThread)) = s' ∧ (s'.transports i).writeBatch = [] ∧
      ∃ posted ∈ s'.posted (s.transports i).thread,
        ∃ sent, posted.call = .send sent ∧ ⟨i, (s.transports i).writeBatch⟩ ∈ sent := by
  have hawake : s.Awake := hs ▸ awake_run h
  have hdue : i ∈ s.pending.batched := hawake.registered i halive (hawake.waiting i halive hne)
  have hdrain : s.DrainPosted := hawake.posted (hawake.queued (ne_nil_of_mem hdue))
  refine ⟨hdue, hdrain, ?_⟩
  obtain ⟨current, hcurrent, hmem⟩ := hdrain
  obtain ⟨before, after, hposted⟩ := append_of_mem hmem
  obtain ⟨loops, s₁, hrun, htransports, hdispatcher, hpending⟩ := run_drain hcurrent hposted
  have hsends := drainBatches_sends (s := s₁) (i := i) (hdispatcher ▸ hcurrent) (hpending ▸ hdue)
    (by rw [htransports]; exact halive) (by rw [htransports]; exact hne)
  rw [htransports] at hsends
  refine ⟨loops + 1, s₁.drainBatches, hrun, ?_, hsends⟩
  rw [drainBatches_transports, htransports, hpending, if_pos ⟨hdue, halive⟩]

theorem waiting_batch_drains_restarted :
    ∃ s, run step (start (fun _ => some 0) 1 (fun _ => 1) fun _ => 4)
        [.dispatcherGone hostThread, .dispatcherStarted hostThread, .write 0 [1, 2]] = s ∧
      0 ∈ s.pending.batched ∧ s.DrainPosted ∧
      ∃ loops s', run step s (List.replicate loops (.loop hostThread)) = s' ∧ (s'.transports 0).writeBatch = [] ∧
        ∃ posted ∈ s'.posted (s.transports 0).thread,
          ∃ sent, posted.call = .send sent ∧ ⟨0, (s.transports 0).writeBatch⟩ ∈ sent := by
  refine ⟨_, rfl, waiting_batch_drains (fun _ => some 0) 1 (fun _ => 1) (fun _ => 4)
    [.dispatcherGone hostThread, .dispatcherStarted hostThread, .write 0 [1, 2]] ⟨fun _ => ?_, trivial, trivial, trivial⟩
    0 _ rfl rfl (by decide)⟩
  rintro ⟨dispatcher, -, hmem⟩
  exact absurd hmem not_mem_nil

/-- The dispatcher goes with the drain posted on it, and the flag it leaves standing keeps every
later write from posting another. -/
theorem stale_flag_keeps_batch :
    ¬ ∀ (dispatcher : Thread → Option Nat) (dispatchers : Nat) (thread : Nat → Thread) (limit : Nat → Int)
      (ops : List HostOp) (i : Nat),
      ((run step (start dispatcher dispatchers thread limit) ops).transports i).alive = true →
      ((run step (start dispatcher dispatchers thread limit) ops).transports i).isOpen = true →
      ((run step (start dispatcher dispatchers thread limit) ops).transports i).writeBatch ≠ [] →
      (run step (start dispatcher dispatchers thread limit) ops).DrainPosted := by
  intro h
  obtain ⟨dispatcher, -, hmem⟩ := h (fun _ => some 0) 1 (fun _ => 1) (fun _ => 4)
    [.write 0 [1], .dispatcherGone hostThread, .dispatcherStarted hostThread, .write 0 [2], .write 1 [3]] 0 rfl rfl (by decide)
  exact absurd hmem not_mem_nil

end SplitHost
end SynQt
