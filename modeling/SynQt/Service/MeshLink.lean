import SynQt.Service.MeshClient

namespace SynQt
open Lib Function Option
namespace MeshClient

structure Sound (c : MeshClient) : Prop where
  device : ∃ s, c.device = some s
  /-- A link that is down is about to be retried. -/
  heard : c.retrying = true → ∀ s, c.device = some s → (c.sockets s).state = .closed → c.retryTimer.isSome = true
  unheard : ∀ s, (c.sockets s).handled = false → (c.sockets s).state = .closed
  known : ∀ s, (c.sockets s).state ≠ .closed → s < c.opened
  /-- A node is handed a connected socket only. -/
  taken : ∀ s, c.consumed = some s ∨ s ∈ c.retired → s < c.opened ∧ (c.sockets s).state ≠ .connecting
  timer : ∀ delay, c.retryTimer = some delay → delay ≤ ReconnectMaxMs
  backoff : c.backoffMs ≤ ReconnectMaxMs

/-- A link that is not given up: its current socket is on its way up or up, or the next is about to be opened. -/
structure Persists (c : MeshClient) : Prop where
  link : c.retrying = true → ∃ s, c.device = some s ∧
    ((c.sockets s).state = .connecting ∨ (c.sockets s).state = .connected ∨ c.retryTimer.isSome = true)
  delay : ∀ delay, c.retryTimer = some delay → delay ≤ ReconnectMaxMs

/-- A link that only its own failures retry: while the timer runs the current socket is down, no other is up, and
so nothing that can happen takes the place of a connected one. -/
structure Steady (c : MeshClient) : Prop where
  own : c.retrying = true → c.retryTimer.isSome = true → ∀ s, c.device = some s → (c.sockets s).state = .closed
  single : c.retrying = true → ∀ s, (c.sockets s).state ≠ .closed → c.device = some s
  kept : c.retrying = true → ∀ s, c.device = some s → (c.sockets s).state = .connected →
    ∀ event, (c.step event).device = some s

/-- The failures that reach the client while no retry is under way are its current socket's, and end it. -/
def Own (c : MeshClient) : MeshEvent → Prop
  | .disconnected s => c.retrying = true → c.retryTimer = none → (c.sockets s).handled = true → c.device = some s
  | .errorOccurred s down => c.retrying = true → c.retryTimer = none → (c.sockets s).handled = true →
    c.device = some s ∧ down = true
  | .delete s => c.retrying = true → c.retryTimer = none → s ∈ c.retired → (c.sockets s).handled = true →
    (c.sockets s).state = .connected → c.device = some s
  | _ => True

variable {c : MeshClient} {event : MeshEvent}

private theorem scheduleRetry_sound (h : c.backoffMs ≤ ReconnectMaxMs) (ht : ∀ delay, c.retryTimer = some delay → delay ≤ ReconnectMaxMs) :
    (∀ delay, c.scheduleRetry.retryTimer = some delay → delay ≤ ReconnectMaxMs) ∧
      c.scheduleRetry.backoffMs ≤ ReconnectMaxMs := by
  unfold scheduleRetry
  split
  · exact ⟨ht, h⟩
  · split
    · exact ⟨ht, h⟩
    · refine ⟨fun delay hd => ?_, Nat.min_le_right _ _⟩
      obtain rfl := Option.some.inj hd
      exact h

private theorem reported_sound (h : c.backoffMs ≤ ReconnectMaxMs) (ht : ∀ delay, c.retryTimer = some delay → delay ≤ ReconnectMaxMs)
    (s : Nat) : (∀ delay, (c.reported s).retryTimer = some delay → delay ≤ ReconnectMaxMs) ∧
      (c.reported s).backoffMs ≤ ReconnectMaxMs := by
  unfold reported
  split
  · exact scheduleRetry_sound h ht
  · exact ⟨ht, h⟩

private theorem reported_timer (s : Nat) (hr : c.retrying = true) (hh : (c.sockets s).handled = true) :
    (c.reported s).retryTimer.isSome = true := by
  rw [reported, if_pos hh]
  exact c.scheduleRetry_timer hr

private theorem reported_isSome (s : Nat) (h : c.retryTimer.isSome = true) : (c.reported s).retryTimer.isSome = true := by
  rw [c.reported_of_isSome s h]
  exact h

namespace Sound

theorem closes (h : Sound c) {c' : MeshClient} {s : Nat} {socket : MeshSocket} {rest : List Nat}
    (hclosed : socket.state = .closed) (hsame : SameBut { c.setSocket s socket with retired := rest } c')
    (hretired : rest ⊆ c.retired)
    (hkept : c.retryTimer.isSome = true → c'.retryTimer.isSome = true)
    (htold : c.retrying = true → c.device = some s → c'.retryTimer.isSome = true)
    (htimer : ∀ delay, c'.retryTimer = some delay → delay ≤ ReconnectMaxMs) (hbackoff : c'.backoffMs ≤ ReconnectMaxMs) :
    Sound c' := by
  have hdevice : c'.device = c.device := hsame.device
  have hopened : c'.opened = c.opened := hsame.opened
  have heq : c'.retired = rest := hsame.retired
  have hself : (c'.sockets s).state = .closed := by
    rw [hsame.sockets]
    show (update c.sockets s socket s).state = .closed
    rw [update_self]
    exact hclosed
  have hother : ∀ s', s' ≠ s → c'.sockets s' = c.sockets s' := by
    intro s' hs
    rw [hsame.sockets]
    exact update_of_ne hs ..
  refine ⟨hdevice ▸ h.device, fun hr d hd hdown => ?_, fun s' hs' => ?_, fun s' hs' => ?_, fun s' hs' => ?_, htimer, hbackoff⟩
  · have hr' : c.retrying = true := hsame.retrying.symm.trans hr
    have hd' : c.device = some d := hdevice.symm.trans hd
    by_cases hds : d = s
    · exact htold hr' (hds ▸ hd')
    · exact hkept (h.heard hr' d hd' (hother d hds ▸ hdown))
  · by_cases hs : s' = s
    · exact hs ▸ hself
    · rw [hother s' hs] at hs' ⊢
      exact h.unheard s' hs'
  · by_cases hs : s' = s
    · exact absurd (hs ▸ hself) hs'
    · rw [hopened]
      exact h.known s' (hother s' hs ▸ hs')
  · obtain ⟨hlt, hstate⟩ := h.taken s' (hs'.imp (fun hc => hsame.consumed.symm.trans hc) fun hin => hretired (heq ▸ hin))
    refine ⟨hopened ▸ hlt, ?_⟩
    by_cases hs : s' = s
    · rw [hs, hself]
      exact SocketState.noConfusion
    · rw [hother s' hs]
      exact hstate

theorem reports (h : Sound c) (s : Nat) : Sound ((c.setSocket s { c.sockets s with state := .closed }).reported s) := by
  obtain ⟨htimer, hbackoff⟩ := reported_sound (c := c.setSocket s { c.sockets s with state := .closed }) h.backoff h.timer s
  have hsame := (c.setSocket s { c.sockets s with state := .closed }).reported_same s
  refine h.closes rfl hsame (List.Subset.refl _) (fun hsome => reported_isSome s hsome) (fun hr hd => ?_) htimer hbackoff
  cases hheard : (c.sockets s).handled with
  | true =>
    have hheard' : ((c.setSocket s { c.sockets s with state := .closed }).sockets s).handled = true := by
      show (update c.sockets s { c.sockets s with state := .closed } s).handled = true
      rw [update_self]
      exact hheard
    exact reported_timer s hr hheard'
  | false =>
    have hsome : (c.setSocket s { c.sockets s with state := .closed }).retryTimer.isSome = true :=
      h.heard hr s hd (h.unheard s hheard)
    exact reported_isSome s hsome

theorem opens (h : Sound c) {c' : MeshClient} (ho : Opens { c with retryTimer := none } c') : Sound c' := by
  have hnew : (c'.sockets c.opened).state = .connecting := ho.new.1
  have hdown : ∀ s, s ≠ c.opened → (c'.sockets s).state = (c.sockets s).state ∨ (c'.sockets s).state = .closed := by
    intro s hs
    rcases ho.others s hs with hsame | haborted
    · exact .inl (congrArg MeshSocket.state hsame)
    · exact .inr (congrArg MeshSocket.state haborted)
  refine ⟨⟨_, ho.device⟩, fun _ d hd hclosed => ?_, fun s hs => ?_, fun s hs => ?_, fun s hs => ?_, fun delay hd => ?_, ?_⟩
  · obtain rfl := Option.some.inj (hd.symm.trans ho.device)
    rw [hnew] at hclosed
    cases hclosed
  · by_cases hsn : s = c.opened
    · rw [hsn, ho.new.2] at hs
      cases hs
    · rcases ho.others s hsn with hsame | haborted
      · rw [hsame] at hs ⊢
        exact h.unheard s hs
      · rw [haborted]
        rfl
  · rw [ho.opened]
    by_cases hsn : s = c.opened
    · exact hsn ▸ Nat.lt_succ_self _
    · rcases hdown s hsn with hsame | hclosed
      · exact Nat.lt_succ_of_lt (h.known s (hsame ▸ hs))
      · exact absurd hclosed hs
  · obtain ⟨hlt, hstate⟩ := h.taken s (hs.imp (fun hc => ho.consumed.symm.trans hc) fun hin => ho.retired ▸ hin)
    refine ⟨ho.opened ▸ Nat.lt_succ_of_lt hlt, ?_⟩
    rcases hdown s (Nat.ne_of_lt hlt) with hsame | hclosed
    · exact hsame ▸ hstate
    · rw [hclosed]
      exact SocketState.noConfusion
  · rw [ho.retryTimer] at hd
    cases hd
  · rw [ho.backoffMs]
    exact h.backoff

theorem step (h : Sound c) (event : MeshEvent) : Sound (c.step event) := by
  cases event with
  | connected s peer =>
    simp only [MeshClient.step]
    split
    · exact h
    · next hup =>
      rw [not_or] at hup
      split
      · have hsame := (c.setSocket s (c.sockets s).aborted).scheduleRetry_same
        obtain ⟨htimer, hbackoff⟩ := scheduleRetry_sound (c := c.setSocket s (c.sockets s).aborted) h.backoff h.timer
        have hkept : c.retryTimer.isSome = true →
            (c.setSocket s (c.sockets s).aborted).scheduleRetry.retryTimer.isSome = true := by
          intro hsome
          rw [(c.setSocket s (c.sockets s).aborted).scheduleRetry_of_isSome hsome]
          exact hsome
        exact h.closes rfl hsame (List.Subset.refl _) hkept (fun hr _ => scheduleRetry_timer _ hr) htimer hbackoff
      · have hself : update c.sockets s { c.sockets s with state := .connected } s =
            { c.sockets s with state := .connected } := update_self ..
        have hother : ∀ s', s' ≠ s → update c.sockets s { c.sockets s with state := .connected } s' = c.sockets s' :=
          fun s' hs => update_of_ne hs ..
        refine ⟨h.device, fun hr d hd hdown => ?_, fun s' hs' => ?_, fun s' hs' => ?_, fun s' hs' => ?_, h.timer, ?_⟩
        · have hdown' : (update c.sockets s { c.sockets s with state := .connected } d).state = .closed := hdown
          by_cases hds : d = s
          · rw [hds, hself] at hdown'
            cases hdown'
          · rw [hother d hds] at hdown'
            exact h.heard hr d hd hdown'
        · have hs'' : (update c.sockets s { c.sockets s with state := .connected } s').handled = false := hs'
          show (update c.sockets s { c.sockets s with state := .connected } s').state = .closed
          by_cases hs : s' = s
          · rw [hs, hself] at hs''
            exact absurd hs'' hup.2
          · rw [hother s' hs] at hs'' ⊢
            exact h.unheard s' hs''
        · have hs'' : (update c.sockets s { c.sockets s with state := .connected } s').state ≠ .closed := hs'
          by_cases hs : s' = s
          · exact hs ▸ h.known s hup.1
          · rw [hother s' hs] at hs''
            exact h.known s' hs''
        · obtain ⟨hlt, hstate⟩ := h.taken s' hs'
          refine ⟨hlt, ?_⟩
          show (update c.sockets s { c.sockets s with state := .connected } s').state ≠ .connecting
          by_cases hs : s' = s
          · rw [hs, hself]
            exact SocketState.noConfusion
          · rw [hother s' hs]
            exact hstate
        · show ReconnectBaseMs ≤ ReconnectMaxMs
          decide
  | take s =>
    simp only [MeshClient.step]
    split
    · next hup =>
      have hsame : ∀ d, ((c.takeUp s).sockets d).state = (c.sockets d).state ∧
          ((c.takeUp s).sockets d).handled = (c.sockets d).handled := by
        intro d
        by_cases hd : d = s
        · simp only [takeUp, setSocket, hd, update_self, and_self]
        · simp only [takeUp, setSocket, update_of_ne hd, and_self]
      refine ⟨h.device, fun hr d hd hdown => h.heard hr d hd ((hsame d).1 ▸ hdown),
        fun s' hs' => (hsame s').1.trans (h.unheard s' ((hsame s').2 ▸ hs')),
        fun s' hs' => h.known s' ((hsame s').1 ▸ hs'), fun s' hs' => ?_, h.timer, h.backoff⟩
      rw [(hsame s').1]
      rcases hs' with hs' | hs'
      · obtain rfl := Option.some.inj hs'
        exact ⟨h.known s (by rw [hup]; exact SocketState.noConfusion), by rw [hup]; exact SocketState.noConfusion⟩
      · rcases List.mem_append.mp hs' with hin | hin
        · exact h.taken s' (.inl (mem_toList.mp (List.mem_filter.mp hin).1))
        · exact h.taken s' (.inr hin)
    · exact h
  | disconnected s => exact h.reports s
  | errorOccurred s down =>
    cases down with
    | true => exact h.reports s
    | false =>
      obtain ⟨htimer, hbackoff⟩ := reported_sound h.backoff h.timer s
      have hsame := c.reported_same s
      show Sound (c.reported s)
      refine ⟨hsame.device ▸ h.device, fun hr d hd hdown => ?_, ?_, ?_, ?_, htimer, hbackoff⟩
      · rw [hsame.retrying] at hr
        rw [hsame.device] at hd
        rw [hsame.sockets] at hdown
        exact reported_isSome s (h.heard hr d hd hdown)
      · rw [hsame.sockets]
        exact h.unheard
      · rw [hsame.sockets, hsame.opened]
        exact h.known
      · rw [hsame.sockets, hsame.opened, hsame.consumed, hsame.retired]
        exact h.taken
  | timeout =>
    simp only [MeshClient.step]
    split
    · exact h
    · split
      · exact h.opens (openLocal_opens _)
      · exact h.opens (openMutualTls_opens _)
  | delete s =>
    simp only [MeshClient.step]
    split
    · exact h
    · next hin =>
      rw [not_not] at hin
      have hgone := (h.taken s (.inr hin)).2
      split
      · next hup =>
        obtain ⟨htimer, hbackoff⟩ := reported_sound h.backoff h.timer s
        have hsame := c.reported_same s
        have hupdate : update (c.reported s).sockets s (c.sockets s).aborted =
            update c.sockets s (c.sockets s).aborted := by rw [hsame.sockets]
        have hsame' : SameBut { c.setSocket s (c.sockets s).aborted with retired := c.retired.erase s }
            { (c.reported s).setSocket s (c.sockets s).aborted with retired := c.retired.erase s } :=
          ⟨hupdate, hsame.retrying, hsame.device, hsame.opened, hsame.consumed, rfl⟩
        refine h.closes rfl hsame' List.erase_subset (reported_isSome s) (fun hr hd => ?_) htimer hbackoff
        refine reported_timer s hr ?_
        by_contra hunheard
        have hclosed := h.unheard s (Bool.eq_false_iff.mpr hunheard)
        rw [hup] at hclosed
        cases hclosed
      · next hup =>
        refine h.closes rfl ⟨rfl, rfl, rfl, rfl, rfl, rfl⟩ List.erase_subset id (fun hr hd => ?_) h.timer h.backoff
        refine h.heard hr s hd ?_
        cases hstate : (c.sockets s).state with
        | connecting => exact absurd hstate hgone
        | connected => exact absurd hstate hup
        | closed => rfl
  | stop =>
    refine ⟨h.device, fun hr => Bool.noConfusion hr, h.unheard, h.known, h.taken, fun delay hd => ?_, h.backoff⟩
    exact absurd hd.symm (some_ne_none delay)

end Sound

/-- A step that leaves the current socket where it is, brings no socket up that was down, and starts the timer only
where the current socket is down for it. -/
structure Calm (c c' : MeshClient) : Prop where
  retrying : c'.retrying = true → c.retrying = true
  device : c'.device = c.device
  up : ∀ s, (c'.sockets s).state ≠ .closed → (c.sockets s).state ≠ .closed
  timer : c.retrying = true → c'.retryTimer.isSome = true →
    c.retryTimer.isSome = true ∨ ∀ s, c.device = some s → (c'.sockets s).state = .closed

private theorem step_device (h : event ≠ .timeout) : (c.step event).device = c.device := by
  cases event with
  | connected s peer =>
    simp only [step]
    split
    · rfl
    · split
      · exact (scheduleRetry_same _).device
      · rfl
  | take s =>
    simp only [step]
    split <;> rfl
  | disconnected s => exact (reported_same _ s).device
  | errorOccurred s down =>
    simp only [step]
    split <;> exact (reported_same _ s).device
  | timeout => exact absurd rfl h
  | delete s =>
    simp only [step]
    split
    · rfl
    · split
      · exact (reported_same _ s).device
      · rfl
  | stop => rfl

variable {s : Nat}

private theorem kept_of_own (hown : c.retrying = true → c.retryTimer.isSome = true → ∀ s, c.device = some s → (c.sockets s).state = .closed)
    (hr : c.retrying = true) (hd : c.device = some s) (hup : (c.sockets s).state = .connected) (event : MeshEvent) :
    (c.step event).device = some s := by
  by_cases hevent : event = .timeout
  · cases htimer : c.retryTimer with
    | none =>
      rw [hevent, step, if_pos (by rw [htimer]; rfl)]
      exact hd
    | some delay =>
      have hdown := hown hr (by rw [htimer]; rfl) s hd
      rw [hup] at hdown
      cases hdown
  · exact (step_device hevent).trans hd

variable {c' : MeshClient}

private theorem Steady.calm (h : Steady c) (hc : Calm c c') : Steady c' := by
  have hown : c'.retrying = true → c'.retryTimer.isSome = true → ∀ s, c'.device = some s → (c'.sockets s).state = .closed := by
    intro hr hsome s hd
    have hr' := hc.retrying hr
    have hd' : c.device = some s := hc.device.symm.trans hd
    rcases hc.timer hr' hsome with hbefore | hdown
    · by_contra hup
      exact hc.up s hup (h.own hr' hbefore s hd')
    · exact hdown s hd'
  refine ⟨hown, fun hr s hup => ?_, fun hr s hd hup event => kept_of_own hown hr hd hup event⟩
  exact hc.device.trans (h.single (hc.retrying hr) s (hc.up s hup))

theorem Steady.opens (h : Steady c) (hsome : c.retryTimer.isSome = true) (ho : Opens { c with retryTimer := none } c') : Steady c' := by
  have hown : c'.retrying = true → c'.retryTimer.isSome = true → ∀ s, c'.device = some s → (c'.sockets s).state = .closed := by
    intro _ htimer
    rw [ho.retryTimer] at htimer
    cases htimer
  refine ⟨hown, fun hr s hup => ?_, fun hr s hd hup event => kept_of_own hown hr hd hup event⟩
  by_cases hs : s = c.opened
  · exact hs ▸ ho.device
  · have hr' : c.retrying = true := ho.retrying.symm.trans hr
    have hbefore : (c.sockets s).state ≠ .closed := by
      rcases ho.others s hs with hsame | haborted
      · exact hsame ▸ hup
      · exact absurd (congrArg MeshSocket.state haborted) hup
    exact absurd (h.own hr' hsome s (h.single hr' s hbefore)) hbefore

section
variable {socket : MeshSocket} (hclosed : socket.state = .closed)
include hclosed

private theorem up_of_update {s' : Nat}
    (hup : (update c.sockets s socket s').state ≠ .closed) : (c.sockets s').state ≠ .closed := by
  by_cases hs : s' = s
  · rw [hs, update_self] at hup
    exact absurd hclosed hup
  · rwa [update_of_ne hs] at hup

private theorem down_of_update {d : Nat}
    (hd : c.device = some s) (hd' : c.device = some d) : (update c.sockets s socket d).state = .closed := by
  obtain rfl := Option.some.inj (hd.symm.trans hd')
  rw [update_self]
  exact hclosed

end

/-- The timer that runs after a report ran before it, or the client hears the socket it is of. -/
theorem reported_cases (s : Nat) (h : (c.reported s).retryTimer.isSome = true) :
    c.retryTimer.isSome = true ∨ (c.retryTimer = none ∧ (c.sockets s).handled = true) := by
  by_cases hsome : c.retryTimer.isSome = true
  · exact .inl hsome
  · rw [Bool.not_eq_true, isSome_eq_false_iff, isNone_iff_eq_none] at hsome
    refine .inr ⟨hsome, ?_⟩
    unfold reported at h
    split at h
    · next hheard => exact hheard
    · rw [hsome] at h
      cases h

private theorem handled_of_closed (h : ((c.setSocket s { c.sockets s with state := .closed }).sockets s).handled = true) :
    (c.sockets s).handled = true := by
  have hself : update c.sockets s { c.sockets s with state := .closed } s = { c.sockets s with state := .closed } :=
    update_self ..
  have hupdated : (update c.sockets s { c.sockets s with state := .closed } s).handled = true := h
  rw [hself] at hupdated
  exact hupdated

private theorem calm_of_close (howned : c.retrying = true → c.retryTimer = none → (c.sockets s).handled = true → c.device = some s) :
    Calm c ((c.setSocket s { c.sockets s with state := .closed }).reported s) := by
  have hsame := reported_same (c.setSocket s { c.sockets s with state := .closed }) s
  refine ⟨fun hr => hsame.retrying.symm.trans hr, hsame.device, fun s' hs' => ?_, fun hr hsome => ?_⟩
  · rw [hsame.sockets] at hs'
    exact up_of_update rfl hs'
  · rcases reported_cases s hsome with hbefore | ⟨hnone, hheard⟩
    · exact .inl hbefore
    · refine .inr fun d hd => ?_
      rw [hsame.sockets]
      exact down_of_update rfl (howned hr hnone (handled_of_closed hheard)) hd

theorem step_calm (h : Steady c) (howned : c.Own event) (hevent : event ≠ .timeout) : Calm c (c.step event) := by
  cases event with
  | connected s peer =>
    simp only [step]
    split
    · exact ⟨id, rfl, fun _ => id, fun _ hsome => .inl hsome⟩
    · next hup =>
      rw [not_or] at hup
      split
      · have hsame := scheduleRetry_same (c.setSocket s (c.sockets s).aborted)
        refine ⟨fun hr => hsame.retrying.symm.trans hr, hsame.device, fun s' hs' => ?_, fun hr _ => .inr fun d hd => ?_⟩
        · rw [hsame.sockets] at hs'
          exact up_of_update rfl hs'
        · rw [hsame.sockets]
          exact down_of_update rfl (h.single hr s hup.1) hd
      · refine ⟨id, rfl, fun s' hs' => ?_, fun _ hsome => .inl hsome⟩
        by_cases hs : s' = s
        · exact hs ▸ hup.1
        · have hs'' : (update c.sockets s { c.sockets s with state := .connected } s').state ≠ .closed := hs'
          rwa [update_of_ne hs] at hs''
  | take s =>
    simp only [step]
    split
    · refine ⟨id, rfl, fun s' hs' => ?_, fun _ hsome => .inl hsome⟩
      have hs'' : (update c.sockets s { c.sockets s with parent := .node } s').state ≠ .closed := hs'
      by_cases hs : s' = s
      · rw [hs, update_self] at hs''
        exact hs ▸ hs''
      · rwa [update_of_ne hs] at hs''
    · exact ⟨id, rfl, fun _ => id, fun _ hsome => .inl hsome⟩
  | disconnected s => exact calm_of_close howned
  | errorOccurred s down =>
    cases down with
    | true => exact calm_of_close fun hr hnone hheard => (howned hr hnone hheard).1
    | false =>
      have hsame := c.reported_same s
      refine ⟨fun hr => hsame.retrying.symm.trans hr, hsame.device, fun s' hs' => hsame.sockets ▸ hs', fun hr hsome => .inl ?_⟩
      rcases reported_cases s hsome with hbefore | ⟨hnone, hheard⟩
      · exact hbefore
      · exact Bool.noConfusion (howned hr hnone hheard).2
  | timeout => exact absurd rfl hevent
  | delete s =>
    simp only [step]
    split
    · exact ⟨id, rfl, fun _ => id, fun _ hsome => .inl hsome⟩
    · next hin =>
      rw [not_not] at hin
      split
      · next hup =>
        have hsame := c.reported_same s
        have hupdate : update (c.reported s).sockets s (c.sockets s).aborted =
            update c.sockets s (c.sockets s).aborted := by rw [hsame.sockets]
        refine ⟨fun hr => hsame.retrying.symm.trans hr, hsame.device, fun s' hs' => ?_, fun hr hsome => ?_⟩
        · have hs'' : (update (c.reported s).sockets s (c.sockets s).aborted s').state ≠ .closed := hs'
          rw [hupdate] at hs''
          exact up_of_update rfl hs''
        · rcases reported_cases s hsome with hbefore | ⟨hnone, hheard⟩
          · exact .inl hbefore
          · refine .inr fun d hd => ?_
            show (update (c.reported s).sockets s (c.sockets s).aborted d).state = .closed
            rw [hupdate]
            exact down_of_update rfl (howned hr hnone hin hheard hup) hd
      · exact ⟨id, rfl, fun s' hs' => @up_of_update c s (c.sockets s).aborted rfl s' hs', fun _ hsome => .inl hsome⟩
  | stop => exact ⟨fun hr => Bool.noConfusion hr, rfl, fun _ => id, fun _ hsome => Bool.noConfusion hsome⟩

theorem Steady.step (h : Steady c) (howned : c.Own event) : Steady (c.step event) := by
  by_cases hevent : event = .timeout
  · subst hevent
    simp only [MeshClient.step]
    split
    · exact h
    · next hidle =>
      have hsome : c.retryTimer.isSome = true := by
        cases htimer : c.retryTimer with
        | none => exact absurd (by rw [htimer]; rfl) hidle
        | some delay => rfl
      split
      · exact h.opens hsome (openLocal_opens _)
      · exact h.opens hsome (openMutualTls_opens _)
  · exact h.calm (step_calm h howned hevent)

/-- A report that starts the timer is of a socket that, once the law holds after it, was the current one. -/
theorem device_of_started (hsound : Sound c) (hr : c.retrying = true) (hnone : c.retryTimer = none) (h : Steady c') (hr' : c'.retrying = true) (hsome : c'.retryTimer.isSome = true) (hdevice : c'.device = c.device) (hother : ∀ d, d ≠ s → c'.sockets d = c.sockets d) : c.device = some s := by
  obtain ⟨d, hd⟩ := hsound.device
  by_cases hds : d = s
  · exact hds ▸ hd
  · have hdown := h.own hr' hsome d (hdevice.trans hd)
    rw [hother d hds] at hdown
    have hrunning := hsound.heard hr d hd hdown
    rw [hnone] at hrunning
    cases hrunning

theorem Steady.owned (hsound : Sound c) (h : Steady (c.step event)) : c.Own event := by
  cases event with
  | disconnected s =>
    intro hr hnone hheard
    have hsame := reported_same (c.setSocket s { c.sockets s with state := .closed }) s
    have hheard' : (update c.sockets s { c.sockets s with state := .closed } s).handled = true := by
      rw [update_self]
      exact hheard
    refine device_of_started hsound hr hnone h (hsame.retrying.trans hr) (reported_timer s hr hheard') hsame.device ?_
    intro d hds
    show ((c.setSocket s { c.sockets s with state := .closed }).reported s).sockets d = c.sockets d
    rw [hsame.sockets]
    exact update_of_ne hds ..
  | errorOccurred s down =>
    intro hr hnone hheard
    cases down with
    | true =>
      have hsame := reported_same (c.setSocket s { c.sockets s with state := .closed }) s
      have hheard' : (update c.sockets s { c.sockets s with state := .closed } s).handled = true := by
        rw [update_self]
        exact hheard
      refine ⟨device_of_started hsound hr hnone h (hsame.retrying.trans hr) (reported_timer s hr hheard') hsame.device ?_, rfl⟩
      intro d hds
      show ((c.setSocket s { c.sockets s with state := .closed }).reported s).sockets d = c.sockets d
      rw [hsame.sockets]
      exact update_of_ne hds ..
    | false =>
      have hsame := c.reported_same s
      obtain ⟨d, hd⟩ := hsound.device
      have hdown := h.own (hsame.retrying.trans hr) (reported_timer s hr hheard) d (hsame.device.trans hd)
      have hdown' : ((c.reported s).sockets d).state = .closed := hdown
      rw [hsame.sockets] at hdown'
      have hrunning := hsound.heard hr d hd hdown'
      rw [hnone] at hrunning
      cases hrunning
  | delete s =>
    intro hr hnone hin hheard hup
    have hsame := c.reported_same s
    have hstep : c.step (.delete s) =
        { (c.reported s).setSocket s (c.sockets s).aborted with retired := c.retired.erase s } := by
      simp only [MeshClient.step]
      rw [if_neg (not_not_intro hin), if_pos hup]
    rw [hstep] at h
    refine device_of_started hsound hr hnone h (hsame.retrying.trans hr) (reported_timer s hr hheard) hsame.device ?_
    intro d hds
    show update (c.reported s).sockets s (c.sockets s).aborted d = c.sockets d
    rw [update_of_ne hds, hsame.sockets]
  | _ => trivial

private theorem steady_of_opens (socketName : String) (ho : Opens { make with socketName := socketName } c') :
    Sound c' ∧ Steady c' := by
  have hbase : Sound { make with socketName := socketName, sslSocket := some 0, retryTimer := some 0 } := by
    refine ⟨⟨0, rfl⟩, fun _ _ _ _ => rfl, fun _ _ => rfl, fun _ hup => absurd rfl hup, fun _ hs => ?_, fun delay hd => ?_, ?_⟩
    · rcases hs with hs | hs
      · exact absurd hs.symm (some_ne_none _)
      · exact absurd hs List.not_mem_nil
    · obtain rfl := Option.some.inj hd
      exact Nat.zero_le _
    · show ReconnectBaseMs ≤ ReconnectMaxMs
      decide
  have hsteady : Steady { make with socketName := socketName, sslSocket := some 0, retryTimer := some 0 } :=
    ⟨fun _ _ _ _ => rfl, fun _ _ hup => absurd rfl hup, fun _ _ _ hup => SocketState.noConfusion hup⟩
  have ho' : Opens { { make with socketName := socketName, sslSocket := some 0, retryTimer := some 0 } with retryTimer := none } c' :=
    ⟨ho.device, ho.opened, ho.new, ho.others, ho.retrying, ho.retryTimer, ho.backoffMs, ho.consumed, ho.retired⟩
  exact ⟨hbase.opens ho', hsteady.opens rfl ho'⟩

theorem Sound.persists (h : Sound c) : Persists c where
  link hr := by
    obtain ⟨s, hs⟩ := h.device
    refine ⟨s, hs, ?_⟩
    cases hstate : (c.sockets s).state with
    | connecting => exact .inl rfl
    | connected => exact .inr (.inl rfl)
    | closed => exact .inr (.inr (h.heard hr s hs hstate))
  delay := h.timer

/-- A link is never given up and no delay exceeds the ceiling, whatever the order of events; and it is retried for its
own failures only exactly where no failure of another socket reaches the client while its link is up. -/
theorem meshLink_steady_iff (c : MeshClient) (hc : c = make.connectMutualTls ∨ ∃ name, c = make.connectLocal name)
    (events : List MeshEvent) :
    (∀ before after, events = before ++ after → Persists (run step c before)) ∧
      ((∀ before after, events = before ++ after → Steady (run step c before)) ↔ Each step Own c events) := by
  have hstart : Sound c ∧ Steady c := by
    rcases hc with rfl | ⟨name, rfl⟩
    · exact steady_of_opens "" (openMutualTls_opens _)
    · exact steady_of_opens name (openLocal_opens _)
  refine ⟨fun before after _ => (run_invariant Sound (fun _ event h => h.step event) hstart.1 before).persists, ?_⟩
  have hadm : Each step (fun _ _ => True) c events := each_of_all (fun _ _ => trivial) c events
  exact forall_prefix_iff (I := fun c => Sound c ∧ Steady c)
    (fun _ _ h _ => ⟨fun hsteady => Steady.owned h.1 hsteady, fun howned => h.2.step howned⟩)
    (fun _ event h _ howned => ⟨h.1.step event, h.2.step howned⟩) hstart hstart.2 hadm

instance (c : MeshClient) : (event : MeshEvent) → Decidable (c.Own event)
  | .disconnected s => inferInstanceAs (Decidable (c.retrying = true → c.retryTimer = none → (c.sockets s).handled = true →
      c.device = some s))
  | .errorOccurred s down => inferInstanceAs (Decidable (c.retrying = true → c.retryTimer = none →
      (c.sockets s).handled = true → c.device = some s ∧ down = true))
  | .delete s => inferInstanceAs (Decidable (c.retrying = true → c.retryTimer = none → s ∈ c.retired →
      (c.sockets s).handled = true → (c.sockets s).state = .connected → c.device = some s))
  | .connected .. | .take _ | .timeout | .stop => .isTrue trivial

/-- An owner that restarts: its link drops, is opened again, and the old node is let go of. -/
def ownerRestarts : List MeshEvent :=
  [.connected 0 true, .take 0, .errorOccurred 0 true, .disconnected 0, .timeout, .connected 1 true, .take 1, .delete 0]

theorem ownerRestarts_steady : Steady (run step make.connectMutualTls ownerRestarts) :=
  (meshLink_steady_iff make.connectMutualTls (.inl rfl) ownerRestarts).2.mpr (by decide) ownerRestarts [] (List.append_nil _).symm

/-- The error of a dropped link and its disconnection on either side of a reconnect. -/
def straddledFailure : List MeshEvent :=
  [.connected 0 true, .take 0, .errorOccurred 0 true, .timeout, .connected 1 true, .take 1, .disconnected 0, .timeout,
    .connected 2 true]

/-- The late report starts a retry over the link that is up, and two links are. -/
theorem straddledFailure_not_steady :
    let c := run step make.connectMutualTls straddledFailure
    (c.sockets 1).state = .connected ∧ (c.sockets 2).state = .connected ∧ c.device = some 2 ∧ ¬Steady c := by
  have hdevice : (run step make.connectMutualTls straddledFailure).device = some 2 := by decide
  refine ⟨by decide, by decide, hdevice, fun h => ?_⟩
  have hup := h.single (by decide) 1 (by decide)
  rw [hdevice] at hup
  exact absurd hup (by decide)

end MeshClient
end SynQt
