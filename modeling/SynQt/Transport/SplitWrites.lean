import SynQt.Transport.Wakeups

namespace SynQt
open Lib Function List

def Fits (limit : Int) (group : List Frame) : Prop :=
  limit ≤ 0 ∨ group.flatten.length ≤ limit ∨ ∃ message, group = [message]

/-- The messages, cut into the batches that left and the one that is gathering. -/
structure Cut (limit : Int) (sent : List Frame) (current : Frame) (messages : List Frame)
    (groups : List (List Frame)) (last : List Frame) : Prop where
  sent : groups.map List.flatten = sent
  current : last.flatten = current
  messages : groups.flatten ++ last = messages.filter (· ≠ [])
  fits : ∀ group ∈ groups, Fits limit group
  last : last = [] ∨ Fits limit last

namespace Cut
variable {limit : Int} {sent : List Frame} {current : Frame} {messages : List Frame}
  {groups : List (List Frame)} {last : List Frame}

theorem nil (limit : Int) : Cut limit [] [] [] [] [] :=
  ⟨rfl, rfl, rfl, nofun, .inl rfl⟩

private theorem ne_nil_of_mem_last (h : Cut limit sent current messages groups last) {message : Frame} (hmem : message ∈ last) :
    message ≠ [] := by
  have hfilter : message ∈ messages.filter (· ≠ []) := h.messages ▸ mem_append_right _ hmem
  simpa using (mem_filter.mp hfilter).2

private theorem last_eq_nil (h : Cut limit sent [] messages groups last) : last = [] := by
  by_contra hne
  obtain ⟨message, hmem⟩ := exists_mem_of_ne_nil _ hne
  exact h.ne_nil_of_mem_last hmem (flatten_eq_nil_iff.mp h.current message hmem)

section
variable (h : Cut limit sent current messages groups last)
include h

theorem flush (hne : current ≠ []) :
    Cut limit (sent ++ [current]) [] messages (groups ++ [last]) [] where
  sent := by rw [map_append, h.sent, map_cons, h.current, map_nil]
  current := rfl
  messages := by
    rw [append_nil, ← h.messages]
    simp
  fits group hmem := by
    obtain hmem | hmem := mem_append.mp hmem
    · exact h.fits group hmem
    · rw [mem_singleton.mp hmem]
      obtain hnil | hfits := h.last
      · exact absurd (h.current ▸ hnil ▸ rfl) hne
      · exact hfits
  last := .inl rfl

theorem append (message : Frame)
    (hroom : current = [] ∨ limit ≤ 0 ∨ (current.length + message.length : Int) ≤ limit) :
    ∃ last', Cut limit sent (current ++ message) (messages ++ [message]) groups last' := by
  by_cases hempty : message = []
  · subst hempty
    refine ⟨last, h.sent, by rw [append_nil, h.current], ?_, h.fits, h.last⟩
    rw [h.messages]
    simp
  · have hflatten : (last ++ [message]).flatten = current ++ message := by simp [h.current]
    refine ⟨last ++ [message], h.sent, hflatten, ?_, h.fits, .inr ?_⟩
    · rw [← append_assoc, h.messages]
      simp [hempty]
    · obtain hnil | hlimit | hfits := hroom
      · subst hnil
        rw [h.last_eq_nil]
        exact .inr (.inr ⟨message, rfl⟩)
      · exact .inl hlimit
      · refine .inr (.inl ?_)
        rw [hflatten, length_append]
        exact_mod_cast hfits

end

end Cut

namespace SplitHost

def sentBatches (calls : List ChannelCall) : List Frame :=
  calls.filterMap fun
    | .send batch => some batch
    | .shutdown _ _ => none

def itemsFor (i : Nat) (batches : List ChannelBatch) : List Frame :=
  (batches.filter (·.channel == i)).map (·.batch)

def batchesFor (i : Nat) : QueuedCall → List Frame
  | .send batches => itemsFor i batches
  | _ => []

/-- Every batch that left for the channel: those it was given, then those queued on its thread. -/
def outgoing (s : SplitHost) (thread : Thread) (i : Nat) : List Frame :=
  sentBatches (s.channels i).calls ++ (s.posted thread).flatMap fun posted => batchesFor i posted.call

end SplitHost

def QueuedCall.On (thread : Nat → Thread) (here : Thread) : QueuedCall → Prop
  | .send batches => ∀ item ∈ batches, thread item.channel = here
  | .deleteLater _ => False
  | _ => True

namespace SplitHost

/-- Every transport is open on the thread it was given, under the one dispatcher. -/
structure Steady (thread : Nat → Thread) (limit : Nat → Int) (s : SplitHost) : Prop where
  dispatcher : s.dispatcher hostThread ≠ none
  handed : ∀ i, (s.transports i).thread = thread i
  ceiling : ∀ i, (s.transports i).writeBatchLimit = limit i
  usable : ∀ i, (s.transports i).alive = true ∧ (s.transports i).isOpen = true ∧
    (s.transports i).writeBufferOverflowed = false
  channels : ∀ i, (s.channels i).alive = true
  placed : ∀ here, ∀ posted ∈ s.posted here, posted.call.On thread here

private theorem itemsFor_append (i : Nat) (batches batches' : List ChannelBatch) :
    itemsFor i (batches ++ batches') = itemsFor i batches ++ itemsFor i batches' := by
  simp [itemsFor]

variable {thread : Nat → Thread}

private theorem itemsFor_eq_nil {here : Thread} {i : Nat} {batches : List ChannelBatch}
    (h : ∀ item ∈ batches, thread item.channel = here) (hi : thread i ≠ here) : itemsFor i batches = [] := by
  rw [itemsFor, map_eq_nil_iff, filter_eq_nil_iff]
  intro item hmem hitem
  exact hi (beq_iff_eq.mp hitem ▸ h item hmem)

namespace Steady
variable {thread : Nat → Thread} {limit : Nat → Int} {s : SplitHost}

theorem post (h : s.Steady thread limit) {here : Thread} {posted : Posted} (hon : posted.call.On thread here) :
    (s.post here posted).Steady thread limit := by
  refine { h with placed := fun t p hmem => ?_ }
  by_cases ht : t = here
  · subst ht
    rw [post_posted_self] at hmem
    obtain hmem | hmem := mem_append.mp hmem
    · exact h.placed t p hmem
    · exact mem_singleton.mp hmem ▸ hon
  · rw [post_posted_of_ne s ht] at hmem
    exact h.placed t p hmem

private theorem outgoing_post (s : SplitHost) (here : Thread) (posted : Posted) (t : Thread) (i : Nat) :
    (s.post here posted).outgoing t i = s.outgoing t i ++ if t = here then batchesFor i posted.call else [] := by
  by_cases ht : t = here
  · subst ht
    simp only [outgoing, post_posted_self, if_true, flatMap_append, flatMap_singleton, ← append_assoc]
    rfl
  · simp only [outgoing, post_posted_of_ne s ht, if_neg ht, append_nil]
    rfl

section
variable (h : s.Steady thread limit)
include h

/-- What is queued on its thread is queued for its channel and no other. -/
theorem post_send (here : Thread) (batches : List ChannelBatch) (receiver : Receiver)
    (hon : ∀ item ∈ batches, thread item.channel = here) :
    (s.post here ⟨receiver, .send batches⟩).Steady thread limit ∧
    ∀ i, (s.post here ⟨receiver, .send batches⟩).outgoing (thread i) i =
      s.outgoing (thread i) i ++ itemsFor i batches := by
  refine ⟨h.post hon, fun i => ?_⟩
  rw [outgoing_post]
  split
  · rfl
  · rename_i hi
    rw [itemsFor_eq_nil hon hi]

private theorem post_each (here : Thread) (batches : List ChannelBatch)
    (hon : ∀ item ∈ batches, thread item.channel = here) :
    (batches.foldl (fun s item => s.post here ⟨.channel item.channel, .send [item]⟩) s).Steady thread limit ∧
    ∀ i, (batches.foldl (fun s item => s.post here ⟨.channel item.channel, .send [item]⟩) s).outgoing (thread i) i =
      s.outgoing (thread i) i ++ itemsFor i batches := by
  induction batches generalizing s with
  | nil => exact ⟨h, fun i => (append_nil _).symm⟩
  | cons item batches ih =>
    have hfirst : ∀ item' ∈ [item], thread item'.channel = here := fun item' hmem =>
      hon item' (mem_singleton.mp hmem ▸ .head _)
    obtain ⟨hsteady, hout⟩ := h.post_send here [item] (.channel item.channel) hfirst
    obtain ⟨hrest, houts⟩ := ih hsteady fun item' hmem => hon item' (.tail _ hmem)
    refine ⟨hrest, fun i => ?_⟩
    rw [foldl_cons, houts, hout, append_assoc, ← itemsFor_append]
    rfl

theorem deliverBatches (here : Thread) (batches : List ChannelBatch)
    (hon : ∀ item ∈ batches, thread item.channel = here) :
    (s.deliverBatches here batches).Steady thread limit ∧
    ∀ i, (s.deliverBatches here batches).outgoing (thread i) i = s.outgoing (thread i) i ++ itemsFor i batches := by
  rw [SplitHost.deliverBatches]
  split
  · rename_i hempty
    rw [isEmpty_iff.mp hempty]
    exact ⟨h, fun i => (append_nil _).symm⟩
  · cases hdispatcher : s.dispatcher here with
    | some context => exact h.post_send here batches _ hon
    | none =>
      have hother : here ≠ hostThread := by
        rintro rfl
        exact h.dispatcher hdispatcher
      simp only [if_neg hother]
      exact h.post_each here batches hon

theorem setTransport (i : Nat) (t : WebSocketTransport)
    (ht : t.thread = (s.transports i).thread ∧ t.writeBatchLimit = (s.transports i).writeBatchLimit ∧
      t.alive = (s.transports i).alive ∧ t.isOpen = (s.transports i).isOpen ∧
      t.writeBufferOverflowed = (s.transports i).writeBufferOverflowed) : (s.setTransport i t).Steady thread limit := by
  obtain ⟨hthread, hceiling, halive, hopen, hover⟩ := ht
  have hfields (j : Nat) : ((s.setTransport i t).transports j).thread = (s.transports j).thread ∧
      ((s.setTransport i t).transports j).writeBatchLimit = (s.transports j).writeBatchLimit ∧
      ((s.setTransport i t).transports j).alive = (s.transports j).alive ∧
      ((s.setTransport i t).transports j).isOpen = (s.transports j).isOpen ∧
      ((s.setTransport i t).transports j).writeBufferOverflowed = (s.transports j).writeBufferOverflowed := by
    by_cases hj : j = i
    · subst hj
      rw [setTransport_self]
      exact ⟨hthread, hceiling, halive, hopen, hover⟩
    · rw [setTransport_of_ne s hj]
      exact ⟨rfl, rfl, rfl, rfl, rfl⟩
  refine { h with handed := fun j => ?_, ceiling := fun j => ?_, usable := fun j => ?_ }
  · rw [(hfields j).1, h.handed]
  · rw [(hfields j).2.1, h.ceiling]
  · obtain ⟨-, -, halive, hopen, hover⟩ := hfields j
    rw [halive, hopen, hover]
    exact h.usable j

theorem sendBatch (i : Nat) :
    (s.sendBatch i).Steady thread limit ∧
    ∀ j, (s.sendBatch i).outgoing (thread j) j = s.outgoing (thread j) j ++
      if j = i ∧ (s.transports i).writeBatch ≠ [] then [(s.transports i).writeBatch] else [] := by
  rw [SplitHost.sendBatch]
  split
  · rename_i hempty
    have hnil := isEmpty_iff.mp hempty
    exact ⟨h, fun j => by simp [hnil]⟩
  · rename_i hempty
    have hne : (s.transports i).writeBatch ≠ [] := fun hnil => hempty (isEmpty_iff.mpr hnil)
    have hemptied := h.setTransport i { s.transports i with writeBatch := [] } ⟨rfl, rfl, rfl, rfl, rfl⟩
    obtain ⟨hsteady, hout⟩ := hemptied.deliverBatches (s.transports i).thread
      [⟨i, (s.transports i).writeBatch⟩] fun item hmem => by
        rw [mem_singleton.mp hmem, h.handed]
    refine ⟨hsteady, fun j => (hout j).trans ?_⟩
    by_cases hj : j = i
    · subst hj
      simp only [itemsFor, filter_cons, beq_self_eq_true, if_true, hne, true_and, ne_eq, not_false_eq_true]
      rfl
    · have hij : (i == j) = false := beq_false_of_ne fun heq => hj heq.symm
      simp only [itemsFor, filter_cons, hij, hj, false_and, if_false, Bool.false_eq_true]
      rfl

theorem scheduleBatchFlush (i : Nat) :
    (s.scheduleBatchFlush i).Steady thread limit ∧
    (∀ j, (s.scheduleBatchFlush i).outgoing (thread j) j = s.outgoing (thread j) j) ∧
    ∀ j, ((s.scheduleBatchFlush i).transports j).writeBatch = (s.transports j).writeBatch := by
  have hqueued := h.setTransport i { s.transports i with flushQueued := true } ⟨rfl, rfl, rfl, rfl, rfl⟩
  have hbatch (j : Nat) : ((s.setTransport i { s.transports i with flushQueued := true }).transports j).writeBatch =
      (s.transports j).writeBatch := by
    by_cases hj : j = i
    · subst hj
      rw [setTransport_self]
    · rw [setTransport_of_ne s hj]
  rw [SplitHost.scheduleBatchFlush]
  split
  · exact ⟨h, fun _ => rfl, fun _ => rfl⟩
  · simp only
    split
    · exact ⟨{ hqueued with }, fun _ => rfl, hbatch⟩
    · cases hdispatcher : s.dispatcher hostThread with
      | none => exact absurd hdispatcher h.dispatcher
      | some dispatcher =>
        have hdue : Steady thread limit
            { s.setTransport i { s.transports i with flushQueued := true } with
              pending := ⟨s.pending.batched ++ [i], true⟩ } := { hqueued with }
        refine ⟨hdue.post trivial, fun j => ?_, hbatch⟩
        refine (outgoing_post _ _ _ _ _).trans ?_
        simp only [batchesFor, ite_self, append_nil]
        rfl

private theorem crossings (byThread : Thread → List ChannelBatch)
    (hon : ∀ here, ∀ item ∈ byThread here, thread item.channel = here) (threads : List Thread) (hnodup : threads.Nodup) :
    (threads.foldl (fun s here => s.deliverBatches here (byThread here)) s).Steady thread limit ∧
    ∀ i, (threads.foldl (fun s here => s.deliverBatches here (byThread here)) s).outgoing (thread i) i =
      s.outgoing (thread i) i ++ if thread i ∈ threads then itemsFor i (byThread (thread i)) else [] := by
  induction threads generalizing s with
  | nil => exact ⟨h, fun i => (append_nil _).symm⟩
  | cons here threads ih =>
    obtain ⟨hnew, hnodup⟩ := nodup_cons.mp hnodup
    obtain ⟨hsteady, hout⟩ := h.deliverBatches here (byThread here) (hon here)
    obtain ⟨hrest, houts⟩ := ih hsteady hnodup
    refine ⟨hrest, fun i => ?_⟩
    rw [foldl_cons, houts, hout, append_assoc]
    congr 1
    by_cases hi : thread i = here
    · rw [← hi] at hnew ⊢
      rw [if_neg hnew, if_pos (mem_cons_self ..), append_nil]
    · rw [itemsFor_eq_nil (hon here) hi, nil_append]
      exact if_congr (by simp [hi]) rfl rfl

theorem drainBatches :
    s.drainBatches.Steady thread limit ∧
    ∀ i, s.drainBatches.outgoing (thread i) i = s.outgoing (thread i) i ++
      if i ∈ s.pending.batched ∧ (s.transports i).writeBatch ≠ [] then [(s.transports i).writeBatch] else [] := by
  generalize hdrained : (takeBatches s.transports s.pending.batched).1 = items
  have htaken : Steady thread limit
      { s with pending := ⟨[], false⟩, transports := (takeBatches s.transports s.pending.batched).2 } := by
    refine { h with handed := fun i => ?_, ceiling := fun i => ?_, usable := fun i => ?_ }
    · simp only [takeBatches_transports]
      split <;> exact h.handed i
    · simp only [takeBatches_transports]
      split <;> exact h.ceiling i
    · simp only [takeBatches_transports]
      split <;> exact h.usable i
  have hon (here : Thread) : ∀ item ∈ items.filter (fun item => (s.transports item.channel).thread == here),
      thread item.channel = here := by
    intro item hmem
    rw [← h.handed]
    exact beq_iff_eq.mp (mem_filter.mp hmem).2
  obtain ⟨hsteady, hout⟩ := htaken.crossings _ hon (items.map fun item => (s.transports item.channel).thread).dedup
    (nodup_dedup _)
  rw [SplitHost.drainBatches]
  simp only [hdrained]
  refine ⟨hsteady, fun i => (hout i).trans ?_⟩
  have hitems : items.filter (·.channel == i) =
      if i ∈ s.pending.batched ∧ (s.transports i).writeBatch ≠ [] then [⟨i, (s.transports i).writeBatch⟩] else [] := by
    rw [← hdrained, takeBatches_items]
    simp [h.usable]
  have hshare : itemsFor i (items.filter fun item => (s.transports item.channel).thread == thread i) = itemsFor i items := by
    rw [itemsFor, itemsFor, filter_filter]
    refine congrArg _ (filter_congr fun item _ => ?_)
    by_cases hitem : item.channel = i
    · simp [hitem, h.handed]
    · simp [hitem]
  have hnamed : thread i ∉ (items.map fun item => (s.transports item.channel).thread).dedup → itemsFor i items = [] := by
    intro hnot
    rw [itemsFor, map_eq_nil_iff, filter_eq_nil_iff]
    intro item hmem hitem
    refine hnot (mem_dedup.mpr (mem_map.mpr ⟨item, hmem, ?_⟩))
    rw [h.handed, beq_iff_eq.mp hitem]
  have hall : itemsFor i items =
      if i ∈ s.pending.batched ∧ (s.transports i).writeBatch ≠ [] then [(s.transports i).writeBatch] else [] := by
    rw [itemsFor, hitems]
    split <;> rfl
  rw [← hall]
  by_cases hmem : thread i ∈ (items.map fun item => (s.transports item.channel).thread).dedup
  · rw [if_pos hmem, hshare]
    rfl
  · rw [if_neg hmem, hnamed hmem]
    rfl

theorem callChannel (i : Nat) (call : ChannelCall) :
    (s.callChannel i call).Steady thread limit ∧
    ∀ j, sentBatches ((s.callChannel i call).channels j).calls =
      sentBatches (s.channels j).calls ++ if j = i then sentBatches [call] else [] := by
  have hcall : s.callChannel i call = s.setChannel i { s.channels i with calls := (s.channels i).calls ++ [call] } := by
    rw [SplitHost.callChannel, if_pos (h.channels i)]
  rw [hcall]
  refine ⟨{ h with channels := fun j => ?_ }, fun j => ?_⟩
  · by_cases hj : j = i
    · simpa [setChannel, hj] using h.channels i
    · simpa [setChannel, hj] using h.channels j
  · by_cases hj : j = i
    · subst hj
      simp [setChannel, sentBatches]
    · simp [setChannel, hj]

theorem sendItems (batches : List ChannelBatch) :
    (batches.foldl sendItem s).Steady thread limit ∧
    ∀ i, sentBatches ((batches.foldl sendItem s).channels i).calls =
      sentBatches (s.channels i).calls ++ itemsFor i batches := by
  induction batches generalizing s with
  | nil => exact ⟨h, fun i => (append_nil _).symm⟩
  | cons item batches ih =>
    obtain ⟨hsteady, hsent⟩ := h.callChannel item.channel (.send item.batch)
    obtain ⟨hrest, hsents⟩ := ih hsteady
    refine ⟨hrest, fun i => ?_⟩
    refine (hsents i).trans ?_
    rw [hsent, append_assoc]
    congr 1
    by_cases hi : i = item.channel
    · subst hi
      simp [itemsFor, sentBatches]
    · have hne : (item.channel == i) = false := beq_false_of_ne fun heq => hi heq.symm
      simp [itemsFor, hi, hne]

theorem leave {here : Thread} {next : Posted} {rest : List Posted}
    (hposted : s.posted here = next :: rest) : (s.leave here rest).Steady thread limit := by
  refine { h with placed := fun t posted hmem => ?_ }
  by_cases ht : t = here
  · subst ht
    rw [leave_posted_self] at hmem
    exact h.placed t posted (hposted ▸ .tail _ hmem)
  · rw [leave_posted_of_ne s ht] at hmem
    exact h.placed t posted hmem

end

end Steady

/-- What each transport was gathering stays or leaves whole. -/
structure Passes (thread : Nat → Thread) (limit : Nat → Int) (s s' : SplitHost) : Prop where
  steady : s'.Steady thread limit
  each : ∀ i, s'.outgoing (thread i) i = s.outgoing (thread i) i ∧
      (s'.transports i).writeBatch = (s.transports i).writeBatch ∨
    (s.transports i).writeBatch ≠ [] ∧ (s'.transports i).writeBatch = [] ∧
      s'.outgoing (thread i) i = s.outgoing (thread i) i ++ [(s.transports i).writeBatch]

namespace Steady
variable {thread : Nat → Thread} {limit : Nat → Int} {s : SplitHost}

private theorem passes_sendBatch (h : s.Steady thread limit) (i : Nat) : Passes thread limit s (s.sendBatch i) := by
  obtain ⟨hsteady, hout⟩ := h.sendBatch i
  refine ⟨hsteady, fun j => ?_⟩
  rw [hout, sendBatch_transports]
  by_cases hj : j = i
  · subst hj
    by_cases hnil : (s.transports j).writeBatch = []
    · simp [hnil]
    · simp [hnil]
  · simp [hj]

private theorem passes_schedule (h : s.Steady thread limit) (i : Nat) : Passes thread limit s (s.scheduleBatchFlush i) := by
  obtain ⟨hsteady, hout, hbatch⟩ := h.scheduleBatchFlush i
  exact ⟨hsteady, fun j => .inl ⟨hout j, hbatch j⟩⟩

private theorem callChannel_posted (s : SplitHost) (i : Nat) (call : ChannelCall) : (s.callChannel i call).posted = s.posted := by
  rw [SplitHost.callChannel]
  split <;> rfl

private theorem sendItems_posted (s : SplitHost) (batches : List ChannelBatch) :
    (batches.foldl sendItem s).posted = s.posted := by
  induction batches generalizing s with
  | nil => rfl
  | cons item batches ih => rw [foldl_cons, ih, sendItem, callChannel_posted]

section
variable (h : s.Steady thread limit)
include h

private theorem passes_shutdown (i closeCode : Nat) (reason : String) :
    Passes thread limit s (s.shutdown i closeCode reason) := by
  have hsent := h.passes_sendBatch i
  have hkeep (s' : SplitHost) (hsteady : s'.Steady thread limit) (hc : Crosses (s.sendBatch i) s')
      (hout : ∀ j, s'.outgoing (thread j) j = (s.sendBatch i).outgoing (thread j) j) : Passes thread limit s s' := by
    refine ⟨hsteady, fun j => ?_⟩
    rw [hout, hc.transports]
    exact hsent.each j
  rw [SplitHost.shutdown]
  split
  · obtain ⟨hsteady, hcalls⟩ := hsent.steady.callChannel i (.shutdown closeCode reason)
    refine hkeep _ hsteady (Crosses.callChannel _ _ _) fun j => ?_
    rw [outgoing, outgoing, hcalls, callChannel_posted]
    simp [sentBatches]
  · refine hkeep _ (hsent.steady.post trivial) (Crosses.post _ _ _) fun j => ?_
    rw [outgoing_post]
    simp [batchesFor]

/-- The first call queued on a thread is run there: what it sends was next to be sent. -/
theorem passes_loop (here : Thread) : Passes thread limit s (s.step (.loop here)) := by
  rw [step]
  split
  · rename_i next rest hdispatcher hposted
    have hleft := h.leave hposted
    have hon := h.placed here next (hposted ▸ .head _)
    have hqueue (t : Thread) (i : Nat) : (s.posted t).flatMap (fun posted => batchesFor i posted.call) =
        (if t = here then batchesFor i next.call else []) ++
          ((s.leave here rest).posted t).flatMap fun posted => batchesFor i posted.call := by
      by_cases ht : t = here
      · subst ht
        rw [hposted, leave_posted_self, if_pos rfl, flatMap_cons]
      · rw [leave_posted_of_ne s ht, if_neg ht, nil_append]
    cases hcall : next.call with
    | drainBatches =>
      obtain ⟨hsteady, hout⟩ := hleft.drainBatches
      have hsame (i : Nat) : (s.leave here rest).outgoing (thread i) i = s.outgoing (thread i) i := by
        rw [outgoing, outgoing, hqueue, hcall]
        simp only [batchesFor, ite_self, nil_append]
        rfl
      refine ⟨hsteady, fun i => ?_⟩
      have htransport : (s.leave here rest).drainBatches.transports i =
          if i ∈ s.pending.batched ∧ (s.transports i).alive = true then
            { s.transports i with flushQueued := false, writeBatch := [] }
          else s.transports i := drainBatches_transports (s.leave here rest) i
      have houtgoing : (s.leave here rest).drainBatches.outgoing (thread i) i = s.outgoing (thread i) i ++
          if i ∈ s.pending.batched ∧ (s.transports i).writeBatch ≠ [] then [(s.transports i).writeBatch] else [] :=
        (hout i).trans (congrArg (· ++ _) (hsame i))
      simp only [deliver, htransport, houtgoing, (h.usable i).1, and_true]
      by_cases hdue : i ∈ s.pending.batched
      · by_cases hnil : (s.transports i).writeBatch = []
        · simp [hdue, hnil]
        · simp [hdue, hnil]
      · simp [hdue]
    | send batches =>
      rw [hcall] at hon hqueue
      obtain ⟨hsteady, hsent⟩ := hleft.sendItems batches
      have hcrosses := Crosses.sendItems (s.leave here rest) batches
      refine ⟨hsteady, fun i => .inl ⟨?_, ?_⟩⟩
      · rw [outgoing, outgoing, hqueue]
        simp only [deliver, hsent, sendItems_posted, ← append_assoc]
        congr 2
        split
        · rfl
        · rename_i hi
          exact itemsFor_eq_nil hon hi
      · exact congrArg WebSocketTransport.writeBatch (congrFun hcrosses.transports i)
    | shutdown j closeCode reason =>
      obtain ⟨hsteady, hcalls⟩ := hleft.callChannel j (.shutdown closeCode reason)
      have hcrosses := Crosses.callChannel (s.leave here rest) j (.shutdown closeCode reason)
      refine ⟨hsteady, fun i => .inl ⟨?_, ?_⟩⟩
      · rw [outgoing, outgoing, hqueue, hcall]
        simp only [deliver, hcalls, callChannel_posted, batchesFor, ite_self, nil_append]
        simp [sentBatches, SplitHost.leave]
      · exact congrArg WebSocketTransport.writeBatch (congrFun hcrosses.transports i)
    | deleteLater j =>
      rw [hcall] at hon
      exact absurd hon id
  · exact ⟨h, fun _ => .inl ⟨rfl, rfl⟩⟩

theorem dispatcherStarted (here : Thread) :
    Passes thread limit s (s.step (.dispatcherStarted here)) := by
  rw [step]
  split
  · exact ⟨h, fun _ => .inl ⟨rfl, rfl⟩⟩
  · rename_i hnone
    refine ⟨{ h with dispatcher := ?_ }, fun _ => .inl ⟨rfl, rfl⟩⟩
    by_cases hhost : hostThread = here
    · exact absurd (hhost ▸ hnone) h.dispatcher
    · exact fun hgone => h.dispatcher ((update_of_ne hhost _ _).symm.trans hgone)

end

end Steady

/-- A run of one transport's messages, cut into what left and what is gathering. -/
def Streams (limit : Int) (sent : List Frame) (current : Frame) (messages : List Frame) : Prop :=
  ∃ groups last, Cut limit sent current messages groups last

/-- What has left for each channel, and what its transport is gathering, are the messages. -/
structure Faithful (thread : Nat → Thread) (limit : Nat → Int) (messages : Nat → List Frame) (s : SplitHost) : Prop where
  steady : s.Steady thread limit
  streams : ∀ i, Streams (limit i) (s.outgoing (thread i) i) (s.transports i).writeBatch (messages i)

private theorem Passes.streams {limit : Nat → Int} {s s' : SplitHost} (hp : Passes thread limit s s')
    {i : Nat} {messages : List Frame}
    (h : Streams (limit i) (s.outgoing (thread i) i) (s.transports i).writeBatch messages) :
    Streams (limit i) (s'.outgoing (thread i) i) (s'.transports i).writeBatch messages := by
  obtain ⟨groups, last, hcut⟩ := h
  obtain ⟨hout, hbatch⟩ | ⟨hne, hbatch, hout⟩ := hp.each i
  · rw [hout, hbatch]
    exact ⟨groups, last, hcut⟩
  · rw [hout, hbatch]
    exact ⟨_, _, hcut.flush hne⟩

namespace Faithful
variable {thread : Nat → Thread} {limit : Nat → Int} {messages : Nat → List Frame} {s s' : SplitHost}

theorem passes (h : s.Faithful thread limit messages) (hp : Passes thread limit s s') :
    s'.Faithful thread limit messages := ⟨hp.steady, fun i => hp.streams (h.streams i)⟩

/-- What is gathered leaves before a message that would take it over the ceiling joins it. -/
theorem write (h : s.Faithful thread limit messages) (i : Nat) (message : Frame) :
    (s.writeData i message).Faithful thread limit (update messages i (messages i ++ [message])) := by
  have hover : ¬ (s.transports i).writeBufferOverflowed = true := by simp [h.steady.usable i]
  obtain ⟨s₁, hs₁, hpasses, hroom⟩ : ∃ s₁ : SplitHost, s.writeData i message =
      (s₁.setTransport i { s₁.transports i with
        writeBatch := (s₁.transports i).writeBatch ++ message }).scheduleBatchFlush i ∧
      Passes thread limit s s₁ ∧ ((s₁.transports i).writeBatch = [] ∨ limit i ≤ 0 ∨
        ((s₁.transports i).writeBatch.length + message.length : Int) ≤ limit i) := by
    simp only [SplitHost.writeData, if_neg hover, SplitHost.batchData]
    by_cases hfull : ¬ (s.transports i).writeBatch.isEmpty ∧ 0 < (s.transports i).writeBatchLimit ∧
        (s.transports i).writeBatchLimit < (s.transports i).writeBatch.length + message.length
    · simp only [if_pos hfull]
      refine ⟨s.sendBatch i, rfl, h.steady.passes_sendBatch i, .inl ?_⟩
      rw [sendBatch_transports, update_self]
    · simp only [if_neg hfull]
      refine ⟨s, rfl, ⟨h.steady, fun _ => .inl ⟨rfl, rfl⟩⟩, ?_⟩
      rw [h.steady.ceiling] at hfull
      by_contra hnot
      simp only [not_or, Int.not_le] at hnot
      refine hfull ⟨fun hempty => hnot.1 (isEmpty_iff.mp hempty), hnot.2.1, hnot.2.2⟩
  have happended := hpasses.steady.setTransport i { s₁.transports i with
    writeBatch := (s₁.transports i).writeBatch ++ message } ⟨rfl, rfl, rfl, rfl, rfl⟩
  rw [hs₁]
  refine passes ⟨happended, fun j => ?_⟩ (happended.passes_schedule i)
  have hwas : Streams (limit j) (s₁.outgoing (thread j) j) (s₁.transports j).writeBatch (messages j) :=
    hpasses.streams (h.streams j)
  have hout : ∀ t : WebSocketTransport, (s₁.setTransport i t).outgoing (thread j) j = s₁.outgoing (thread j) j :=
    fun _ => rfl
  rw [hout]
  by_cases hj : j = i
  · subst hj
    rw [setTransport_self, update_self]
    obtain ⟨groups, last, hcut⟩ := hwas
    obtain ⟨last', hcut'⟩ := hcut.append message hroom
    exact ⟨groups, last', hcut'⟩
  · rw [setTransport_of_ne s₁ hj, update_of_ne hj]
    exact hwas

end Faithful

/-- The calls and the events of transports that are neither closed nor destroyed, under the one
dispatcher there is: only the sockets' threads have still to start their loops. -/
inductive WriteOp where
  | write (transport : Nat) (message : Frame)
  | shutdown (transport : Nat) (closeCode : Nat) (reason : String)
  | loop (thread : Thread)
  | loopStarts (thread : Thread)

def WriteOp.toHostOp : WriteOp → HostOp
  | .write i message => .write i message
  | .shutdown i closeCode reason => .shutdown i closeCode reason
  | .loop thread => .loop thread
  | .loopStarts thread => .dispatcherStarted thread

def writeStep (s : SplitHost) (op : WriteOp) : SplitHost := s.step op.toHostOp

def WriteOp.messageFor (i : Nat) : WriteOp → Option Frame
  | .write j message => if j = i then some message else none
  | _ => none

/-- The messages of the run's write calls on one transport, in their order. -/
def writesOf (ops : List WriteOp) (i : Nat) : List Frame := ops.filterMap (WriteOp.messageFor i)

section
variable {limit : Nat → Int} {messages : Nat → List Frame} {s : SplitHost}

theorem Faithful.step (h : s.Faithful thread limit messages) (op : WriteOp) :
    (s.writeStep op).Faithful thread limit fun i => messages i ++ (op.messageFor i).toList := by
  have hsilent (hnone : ∀ i, op.messageFor i = none) : (fun i => messages i ++ (op.messageFor i).toList) = messages :=
    funext fun i => by rw [hnone i, Option.toList_none, append_nil]
  cases op with
  | write i message =>
    obtain ⟨halive, hopen, -⟩ := h.steady.usable i
    have hmessages : (fun j => messages j ++ ((WriteOp.write i message).messageFor j).toList) =
        update messages i (messages i ++ [message]) := by
      funext j
      by_cases hj : j = i
      · subst hj
        simp [WriteOp.messageFor]
      · simp [WriteOp.messageFor, hj, Ne.symm hj]
    simp only [writeStep, WriteOp.toHostOp, SplitHost.step, if_pos (And.intro halive hopen), hmessages]
    exact h.write i message
  | shutdown i closeCode reason =>
    rw [hsilent fun _ => rfl]
    simp only [writeStep, WriteOp.toHostOp, SplitHost.step, if_pos (h.steady.usable i).1]
    exact h.passes (h.steady.passes_shutdown i closeCode reason)
  | loop here =>
    rw [hsilent fun _ => rfl]
    exact h.passes (h.steady.passes_loop here)
  | loopStarts here =>
    rw [hsilent fun _ => rfl]
    exact h.passes (h.steady.dispatcherStarted here)

theorem Faithful.run (h : s.Faithful thread limit messages) (ops : List WriteOp) :
    (run writeStep s ops).Faithful thread limit fun i => messages i ++ writesOf ops i := by
  induction ops generalizing s messages with
  | nil =>
    simp only [writesOf, filterMap_nil, append_nil]
    exact h
  | cons op ops ih =>
    have hrest := ih (h.step op)
    have hmessages (i : Nat) : messages i ++ (op.messageFor i).toList ++ writesOf ops i =
        messages i ++ writesOf (op :: ops) i := by
      rw [append_assoc, writesOf, writesOf, filterMap_cons]
      cases op.messageFor i <;> rfl
    simp only [hmessages] at hrest
    exact hrest

end

private theorem WriteOp.keepsDrains (s : SplitHost) (op : WriteOp) : s.KeepsDrains op.toHostOp := by
  cases op <;> trivial

private theorem faithful_start (dispatcher : Thread → Option Nat) (dispatchers : Nat) (thread : Nat → Thread)
    (limit : Nat → Int) (h : dispatcher hostThread ≠ none) :
    (start dispatcher dispatchers thread limit).Faithful thread limit fun _ => [] where
  steady := ⟨h, fun _ => rfl, fun _ => rfl, fun _ => ⟨rfl, rfl, rfl⟩, fun _ => rfl, nofun⟩
  streams i := ⟨[], [], Cut.nil (limit i)⟩

/-- A call that is queued nowhere has been run: every batch is out and was sent. -/
theorem sent_of_idle {limit : Nat → Int} {messages : Nat → List Frame} {s : SplitHost} (h : s.Faithful thread limit messages)
    (hawake : s.Awake) (hidle : ∀ t, s.posted t = []) (i : Nat) :
    (s.transports i).writeBatch = [] ∧ s.outgoing (thread i) i = sentBatches (s.channels i).calls := by
  refine ⟨?_, by simp [outgoing, hidle]⟩
  by_contra hne
  have halive := (h.steady.usable i).1
  have hdue := hawake.registered i halive (hawake.waiting i halive hne)
  obtain ⟨dispatcher, -, hmem⟩ := hawake.posted (hawake.queued (ne_nil_of_mem hdue))
  rw [hidle] at hmem
  exact absurd hmem not_mem_nil

/-- What the channel is sent is what was written, in order, in batches of whole messages. -/
theorem split_writes_faithful (dispatcher : Thread → Option Nat) (current dispatchers : Nat) (thread : Nat → Thread)
    (limit : Nat → Int) (ops : List WriteOp) (i : Nat) :
    let s := run writeStep (start (update dispatcher hostThread (some current)) dispatchers thread limit) ops
    (s.outgoing (thread i) i).flatten ++ (s.transports i).writeBatch = (writesOf ops i).flatten ∧
    ((∀ t, s.posted t = []) → (sentBatches (s.channels i).calls).flatten = (writesOf ops i).flatten) ∧
    sentBatches (s.channels i).calls <+: s.outgoing (thread i) i ∧
    ∃ (groups : List (List Frame)) (last : List Frame), groups.map List.flatten = s.outgoing (thread i) i ∧
      last.flatten = (s.transports i).writeBatch ∧ groups.flatten ++ last = (writesOf ops i).filter (· ≠ []) ∧
      (∀ group ∈ groups, Fits (limit i) group) ∧ (last = [] ∨ Fits (limit i) last) := by
  intro s
  have hsome : update dispatcher hostThread (some current) hostThread ≠ none := by simp
  have hstart := faithful_start (update dispatcher hostThread (some current)) dispatchers thread limit hsome
  have hfaithful : s.Faithful thread limit (writesOf ops) := by
    simpa only [nil_append] using hstart.run ops
  have hawake : s.Awake :=
    run_invariant SplitHost.Awake (fun s op h => h.step op.toHostOp (op.keepsDrains s))
      (awake_start _ dispatchers thread limit) ops
  obtain ⟨groups, last, hcut⟩ := hfaithful.streams i
  have hstream : (s.outgoing (thread i) i).flatten ++ (s.transports i).writeBatch = (writesOf ops i).flatten := by
    have hcat : (groups.flatten ++ last).flatten = (writesOf ops i).flatten := by
      rw [hcut.messages, flatten_filter_ne_nil]
    rw [← hcut.sent, ← hcut.current, ← flatten_flatten, ← flatten_append, hcat]
  refine ⟨hstream, fun hidle => ?_, prefix_append _ _, groups, last, hcut.sent, hcut.current, hcut.messages,
    hcut.fits, hcut.last⟩
  obtain ⟨hnil, hsent⟩ := sent_of_idle hfaithful hawake hidle i
  rw [← hstream, hnil, hsent, append_nil]

end SplitHost
end SynQt
