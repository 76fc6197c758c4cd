import SynQt.Client.SignOut

/-! How a native client spends its device credential. A ledger is kept beside the client of what redemptions brought,
which holds the edge imposed, and whether a connection was accepted with the session bought last. -/
namespace SynQt.Native
open Lib Option List

namespace SynClient
variable {client client' : SynClient}

def inFlight (client : SynClient) : Nat := client.requests.countP fun request => (spends request).isSome

structure NoStart (client client' : SynClient) : Prop where
  asks : ∃ new, client'.requests = client.requests ++ new ∧ ∀ request ∈ new, spends request = none
  redeeming : client'.redeeming = client.redeeming
  redeemNotBefore : client'.redeemNotBefore = client.redeemNotBefore
  spent : client.credentialSpent = true → client'.credentialSpent = true
  built : client.deviceBuilt = true → client'.deviceBuilt = true

namespace NoStart

theorem refl (client : SynClient) : NoStart client client := ⟨⟨[], (append_nil _).symm, by simp⟩, rfl, rfl, id, id⟩

theorem of_same (hrequests : client'.requests = client.requests) (hredeeming : client'.redeeming = client.redeeming)
    (hbefore : client'.redeemNotBefore = client.redeemNotBefore) (hspent : client.credentialSpent = true → client'.credentialSpent = true)
    (hbuilt : client.deviceBuilt = true → client'.deviceBuilt = true) : NoStart client client' :=
  ⟨⟨[], by rw [hrequests, append_nil], by simp⟩, hredeeming, hbefore, hspent, hbuilt⟩

theorem trans {client'' : SynClient} (h : NoStart client client') (h' : NoStart client' client'') : NoStart client client'' := by
  obtain ⟨new, hrequests, hnew⟩ := h.asks
  obtain ⟨new', hrequests', hnew'⟩ := h'.asks
  refine ⟨⟨new ++ new', by rw [hrequests', hrequests, append_assoc], fun request hin => ?_⟩,
    h'.redeeming.trans h.redeeming, h'.redeemNotBefore.trans h.redeemNotBefore, h'.spent ∘ h.spent, h'.built ∘ h.built⟩
  exact (mem_append.mp hin).elim (hnew request) (hnew' request)

section
variable (client : SynClient)

theorem request {kind : Kind} (hkind : spends ⟨client.made, kind, client.endings⟩ = none) :
    NoStart client (client.request kind) :=
  ⟨⟨[⟨client.made, kind, client.endings⟩], rfl, by simpa using hkind⟩, rfl, rfl, id, id⟩

theorem presentOrBootstrap : NoStart client client.presentOrBootstrap := by
  unfold SynClient.presentOrBootstrap
  split
  · exact of_same rfl rfl rfl id id
  · have hstate : NoStart client { client with state := .connecting } := of_same rfl rfl rfl id id
    exact hstate.trans (request _ rfl)

theorem deviceStore : NoStart client client.deviceStore := by
  unfold SynClient.deviceStore
  split
  · exact of_same rfl rfl rfl id fun _ => rfl
  · exact refl client

theorem loadHeld (deed : Deed) : NoStart client (client.loadHeld deed) := by
  unfold SynClient.loadHeld
  split
  · exact refl client
  · exact of_same rfl rfl rfl id id

theorem claimSession (code : String) : NoStart client (client.claimSession code) := by
  have hverifier : NoStart client.deviceStore { client.deviceStore with loginVerifier := "" } := of_same rfl rfl rfl id id
  exact (deviceStore client).trans (hverifier.trans (request _ rfl))

theorem onLoginAnswer (code state error : String) : NoStart client (client.onLoginAnswer code state error) := by
  unfold SynClient.onLoginAnswer
  split
  · exact of_same rfl rfl rfl id id
  · split
    · exact of_same rfl rfl rfl id id
    · exact claimSession client code

theorem dropHeld (deed : Deed) : NoStart client (client.dropHeld deed) := of_same rfl rfl rfl id id

theorem endSession (deeds : Deeds) : NoStart client (client.endSession deeds) := by
  have hcounted : NoStart client { client with endings := client.endings + 1 } := of_same rfl rfl rfl id id
  unfold SynClient.endSession
  dsimp only
  split
  · exact hcounted
  · have hended : NoStart { client with endings := client.endings + 1 }
        { client with endings := client.endings + 1 }.endDesktopLogin := of_same rfl rfl rfl id id
    exact (hcounted.trans (hended.trans (dropHeld ..))).trans (request _ rfl)

theorem keep (held : Held) (deeds : Deeds) : NoStart client (client.keep held deeds) := by
  unfold SynClient.keep
  split
  · exact of_same rfl rfl rfl id id
  · exact refl client

theorem present (n : Nat) (answer : Answer) : NoStart client (client.present n answer) :=
  of_same rfl rfl rfl id id

theorem claimAnswered (n : Nat) (answer : Answer) (deeds : Deeds) :
    NoStart client (client.claimAnswered n answer deeds) := by
  have hended : NoStart client client.endDesktopLogin := of_same rfl rfl rfl id id
  unfold SynClient.claimAnswered
  dsimp only
  split
  · exact hended
  · refine (hended.trans (keep _ ⟨answer.deviceId, answer.deviceSecret, some n⟩ deeds)).trans (.trans ?_ (present ..))
    refine of_same rfl rfl rfl (fun hspent => ?_) id
    rw [hspent, Bool.true_or]

theorem bootstrapAnswered : NoStart client client.bootstrapAnswered := of_same rfl rfl rfl id id

theorem onDisconnected : NoStart client client.onDisconnected := by
  unfold SynClient.onDisconnected
  split
  · exact refl client
  · unfold scheduleReconnect
    split
    · exact of_same rfl rfl rfl id id
    · exact of_same rfl rfl rfl id id

end

end NoStart

/-- A redemption is asked for, by a client with none in flight whose credential has not bought the session it tries and
which waits for nothing. -/
structure Starts (client client' : SynClient) : Prop where
  idle : client.redeeming = false
  unspent : client.credentialSpent = false
  waited : client.redeemNotBefore = 0
  asks : ∃ new request, client'.requests = client.requests ++ new ++ [request] ∧ (∀ r ∈ new, spends r = none) ∧
    (spends request).isSome = true
  redeeming : client'.redeeming = true
  redeemNotBefore : client'.redeemNotBefore = client.redeemNotBefore
  built : client'.deviceBuilt = true

private theorem Starts.of_noStart {client'' : SynClient} (h : NoStart client client') (h' : Starts client' client'')
    (hspent : client'.credentialSpent = client.credentialSpent) : Starts client client'' := by
  obtain ⟨new, hrequests, hnew⟩ := h.asks
  obtain ⟨new', request, hrequests', hnew', hspends⟩ := h'.asks
  refine ⟨h.redeeming.symm.trans h'.idle, hspent.symm.trans h'.unspent, h.redeemNotBefore.symm.trans h'.waited,
    ⟨new ++ new', request, ?_, fun r hr => (mem_append.mp hr).elim (hnew r) (hnew' r), hspends⟩, h'.redeeming,
    h'.redeemNotBefore.trans h.redeemNotBefore, h'.built⟩
  rw [hrequests', hrequests, append_assoc client.requests]

private theorem redeemDeviceCredential_starts (client : SynClient) (hidle : client.redeeming = false) (hunspent : client.credentialSpent = false)
    (hwaited : client.redeemNotBefore = 0) (hbuilt : client.deviceBuilt = true) : Starts client client.redeemDeviceCredential :=
  ⟨hidle, hunspent, hwaited, ⟨[], ⟨client.made, .redeem client.held, client.endings⟩, by rw [append_nil]; rfl, by simp, rfl⟩,
    rfl, rfl, hbuilt⟩

theorem openSession_starts (client : SynClient) (deed : Deed) :
    NoStart client (client.openSession deed) ∨ Starts client (client.openSession deed) := by
  unfold openSession
  split
  · exact .inl (.of_same rfl rfl rfl id id)
  dsimp only
  split
  swap
  · exact .inl ((NoStart.deviceStore client).trans (.presentOrBootstrap _))
  next hready =>
  obtain ⟨hsession, hidle, hunspent, hwaited⟩ := hready
  split
  swap
  · exact .inl (((NoStart.deviceStore client).trans (.loadHeld _ deed)).trans (.presentOrBootstrap _))
  right
  have hstore : client.deviceStore.credentialSpent = client.credentialSpent ∧ client.deviceStore.deviceBuilt = true := by
    rw [deviceStore] at hsession ⊢
    split
    · exact ⟨rfl, rfl⟩
    · next hnone =>
      rw [if_neg hnone] at hsession
      exact absurd hsession hnone
  have hloaded : (client.deviceStore.loadHeld deed).credentialSpent = client.deviceStore.credentialSpent := by
    unfold loadHeld
    split
    · rfl
    · rfl
  have hquiet := NoStart.loadHeld client.deviceStore deed
  refine Starts.of_noStart ((NoStart.deviceStore client).trans hquiet) ?_ (hloaded.trans hstore.1)
  refine redeemDeviceCredential_starts _ (hquiet.redeeming.trans ?_) (hloaded.trans ?_) (hquiet.redeemNotBefore.trans hwaited)
    (hquiet.built hstore.2)
  · simpa using hidle
  · simpa using hunspent

def replied (client : SynClient) (event : Event) : Option (Request × Answer) :=
  match event with
  | .reply n answer => (client.requests.find? (·.id = n)).map fun request => (request, answer)
  | _ => none

private theorem answered_other (client : SynClient) {request : Request} (hkind : spends request = none) (answer : Answer) (deeds : Deeds) :
    NoStart (client.take request answer) (client.answered request answer deeds) ∨
      Starts (client.take request answer) (client.answered request answer deeds) := by
  unfold answered
  dsimp only
  generalize client.take request answer = taken
  cases hrequest : request.kind with
  | claim code verifier device => exact .inl (.claimAnswered ..)
  | redeem presented =>
    rw [spends, hrequest] at hkind
    cases hkind
  | bootstrap => exact .inl (.bootstrapAnswered taken)
  | logout cookie =>
    have hdropped : NoStart taken { taken with sessionCookie := [], configCookie := [] } := .of_same rfl rfl rfl id id
    obtain hnone | hstarts := openSession_starts { taken with sessionCookie := [], configCookie := [] } deeds.load
    · exact .inl (hdropped.trans hnone)
    · exact .inr (Starts.of_noStart hdropped hstarts rfl)

/-- An answer to a redemption: a session, or a hold, or neither. -/
theorem redeemAnswered_cases (client : SynClient) (n : Nat) (presented : Held) (answer : Answer) (deeds : Deeds) :
    ∃ start, NoStart start (client.redeemAnswered n presented answer deeds) ∧ start.requests = client.requests ∧
      start.redeeming = false ∧ (client.deviceBuilt = true → start.deviceBuilt = true) ∧
      (client.credentialSpent = true → start.credentialSpent = true) ∧
      (answer.signsIn = true → start.credentialSpent = true) ∧
      start.redeemNotBefore = if answer.signsIn = false ∧ answer.status ≠ 404 ∧ answer.status ≠ 0 then holdMs answer.retryAfter
        else client.redeemNotBefore := by
  unfold redeemAnswered
  dsimp only
  by_cases hsigns : answer.signsIn = true
  · rw [if_pos hsigns]
    have hnot : ¬ (answer.signsIn = false ∧ answer.status ≠ 404 ∧ answer.status ≠ 0) := by
      rw [hsigns]
      exact fun h => absurd h.1 (by decide)
    rw [if_neg hnot]
    refine ⟨{ client with redeeming := false, credentialSpent := true }, ?_, rfl, rfl, id, fun _ => rfl, fun _ => rfl, rfl⟩
    have hkept := NoStart.keep { client with redeeming := false } ⟨answer.deviceId, answer.deviceSecret, some n⟩ deeds
    refine .trans ?_ (NoStart.present _ n answer)
    obtain ⟨new, hrequests, hnew⟩ := hkept.asks
    exact ⟨⟨new, hrequests, hnew⟩, hkept.redeeming, hkept.redeemNotBefore, fun _ => rfl, hkept.built⟩
  · rw [if_neg hsigns]
    rw [Bool.not_eq_true] at hsigns
    by_cases hgone : answer.status = 404
    · rw [if_pos hgone, if_neg fun h => h.2.1 hgone]
      refine ⟨{ client with redeeming := false }, ?_, rfl, rfl, id, id, fun h => absurd (hsigns.symm.trans h) (by decide), rfl⟩
      refine .trans ?_ (NoStart.presentOrBootstrap _)
      exact .of_same rfl rfl rfl id id
    · rw [if_neg hgone]
      by_cases hanswered : answer.status ≠ 0
      · rw [if_pos hanswered, if_pos ⟨hsigns, hgone, hanswered⟩]
        exact ⟨{ client with redeeming := false, redeemNotBefore := holdMs answer.retryAfter }, .presentOrBootstrap _, rfl, rfl, id, id,
          fun h => absurd (hsigns.symm.trans h) (by decide), rfl⟩
      · rw [if_neg hanswered, if_neg fun h => hanswered h.2.2]
        exact ⟨{ client with redeeming := false }, .presentOrBootstrap _, rfl, rfl, id, id,
          fun h => absurd (hsigns.symm.trans h) (by decide), rfl⟩

inductive Stepped (client : SynClient) (e : Event × Deeds) : SynClient → Prop where
  | none (after : SynClient) (hreply : client.replied e.1 = none) (hquiet : NoStart client after) : Stepped client e after
  | starts (after : SynClient) (hreply : client.replied e.1 = none) (hstarts : Starts client after) : Stepped client e after
  | connected (hevent : e.1 = .connected) (hsocket : client.socket.isSome = true) : Stepped client e client.onConnected
  | elapse (ms : Nat) (hevent : e.1 = .elapse ms) :
    Stepped client e { client with redeemNotBefore := client.redeemNotBefore - ms }
  | replied (request : Request) (answer : Answer) (hin : request ∈ client.requests) (hreply : client.replied e.1 = some (request, answer)) :
    Stepped client e (client.answered request answer e.2)

theorem step_stepped (client : SynClient) (e : Event × Deeds) : Stepped client e (client.step e) := by
  obtain ⟨event, deeds⟩ := e
  have hopens (c : SynClient) (hreply : client.replied event = none) (hc : NoStart client c)
      (hspent : c.credentialSpent = client.credentialSpent) : Stepped client (event, deeds) (c.openSession deeds.load) := by
    obtain hnone | hstarts := openSession_starts c deeds.load
    · exact .none _ hreply (hc.trans hnone)
    · exact .starts _ hreply (Starts.of_noStart hc hstarts hspent)
  cases event with
  | start => exact hopens client rfl (.refl client) rfl
  | login listens loginState loginVerifier =>
    show Stepped client _ (client.beginLogin listens loginState loginVerifier)
    unfold beginLogin
    split
    · exact .none _ rfl (.refl client)
    · exact .none _ rfl (.of_same rfl rfl rfl id id)
  | loopbackAnswer code state error =>
    simp only [step]
    split
    · exact .none _ rfl (.onLoginAnswer ..)
    · exact .none _ rfl (.refl client)
  | loginTimeout =>
    simp only [step]
    split
    · exact .none _ rfl (.of_same rfl rfl rfl id id)
    · exact .none _ rfl (.refl client)
  | logout => exact .none _ rfl (.endSession ..)
  | reconnect =>
    simp only [step]
    split
    · exact hopens { client with reconnectTimer := none } rfl (.of_same rfl rfl rfl id id) rfl
    · exact .none _ rfl (.refl client)
  | handshakeTimeout =>
    simp only [step]
    split
    · have htimer : NoStart client { client with handshakeTimer := false } := .of_same rfl rfl rfl id id
      exact .none _ rfl (htimer.trans (.onDisconnected _))
    · exact .none _ rfl (.refl client)
  | connected =>
    simp only [step]
    split
    · next hsocket => exact .connected rfl hsocket
    · exact .none _ rfl (.refl client)
  | disconnected =>
    simp only [step]
    split
    · exact .none _ rfl (.onDisconnected _)
    · exact .none _ rfl (.refl client)
  | elapse ms => exact .elapse ms rfl
  | reply n answer =>
    cases hfind : client.requests.find? (·.id = n) with
    | none =>
      simp only [step, hfind]
      exact .none _ (by rw [replied, hfind]; rfl) (.refl client)
    | some request =>
      simp only [step, hfind]
      exact .replied request answer (mem_of_find?_eq_some hfind) (by rw [replied, hfind]; rfl)

end SynClient

/-- Beside the client: the time, when each hold was imposed and when it ends, what redemptions returned, what the store
has had, the redemption that last bought a session, and whether a connection was accepted with that session. -/
structure Ledger where
  client : SynClient
  clock : Nat := 0
  holds : List (Nat × Nat) := []
  returned : List Held := []
  kept : List Held := []
  bought : Option Nat := none
  accepted : Bool := false

namespace Ledger
open SynClient

def redeemed (l : Ledger) (event : Event) : Option (Request × Answer) :=
  (l.client.replied event).filter fun reply => (spends reply.1).isSome

def elapsed : Event → Nat
  | .elapse ms => ms
  | _ => 0

def returns (reply : Request × Answer) : Held := ⟨reply.2.deviceId, reply.2.deviceSecret, some reply.1.id⟩

def buys (reply : Request × Answer) : Bool := reply.2.signsIn

/-- The edge answers something else than a session or that the credential is unknown. -/
def holdsOff (reply : Request × Answer) : Bool := !reply.2.signsIn && reply.2.status != 404 && reply.2.status != 0

/-- The open socket's handshake presents the session that the redemption bought. -/
def Presents (client : SynClient) (n : Nat) : Prop := ∃ cookies, client.socket = some cookies ∧ ∃ c ∈ cookies, c.source = some n
deriving Decidable

def step (l : Ledger) (e : Event × Deeds) : Ledger where
  client := l.client.step e
  clock := l.clock + elapsed e.1
  holds := l.holds ++ ((l.redeemed e.1).filter holdsOff).toList.map fun reply => (l.clock, l.clock + holdMs reply.2.retryAfter)
  returned := l.returned ++ (((l.redeemed e.1).filter buys).toList.map returns).filter Held.isValid
  kept := l.kept ++ (l.client.step e).device.stored.toList
  bought :=
    match (l.redeemed e.1).filter buys with
    | some reply => some reply.1.id
    | none => l.bought
  accepted :=
    match (l.redeemed e.1).filter buys with
    | some _ => false
    | none => l.accepted || (decide (e.1 = .connected) && decide (∀ n ∈ l.bought, Presents l.client n))

def make (client : SynClient) : Ledger := { client := client, kept := client.device.stored.toList }

def Asks (l : Ledger) (e : Event × Deeds) (presented : Held) : Prop :=
  ∃ request ∈ (l.client.step e).requests, l.client.made ≤ request.id ∧ spends request = some presented

structure Sparing (l : Ledger) (e : Event × Deeds) : Prop where
  one : (l.step e).client.inFlight ≤ 1
  /-- One that buys a session comes after a connection was accepted with the session bought last. -/
  paced : ∀ reply ∈ l.redeemed e.1, buys reply = true → l.bought = none ∨ l.accepted = true
  /-- None is asked for before each hold has ended. -/
  waited : ∀ presented, l.Asks e presented → ∀ hold ∈ l.holds, hold.2 ≤ l.clock
  bounded : ∀ hold ∈ (l.step e).holds, hold.2 ≤ hold.1 + 5 * 60 * 1000
  /-- What a redemption returned has been stored when another presents it. -/
  stored : ∀ presented, l.Asks e presented → presented ∈ l.returned → presented ∈ l.kept

def Takes (device : DeviceCredential) (deeds : Deeds) : Prop :=
  device.available = true ∧ (deeds.save = .done ∨ deeds.save = .late true ∧ deeds.erase.lands = false)
deriving Decidable

/-- The condition on a step: a connection accepted while none was with the session bought last is one with that session,
and the store takes what a redemption returns. -/
structure Careful (l : Ledger) (e : Event × Deeds) : Prop where
  presents : e.1 = .connected → l.client.socket.isSome = true → l.accepted = false → ∀ n ∈ l.bought, Presents l.client n
  takes : ∀ reply ∈ l.redeemed e.1, buys reply = true → (returns reply).isValid = true → Takes l.client.device e.2

instance (l : Ledger) (e : Event × Deeds) : Decidable (Careful l e) :=
  decidable_of_iff ((e.1 = .connected → l.client.socket.isSome = true → l.accepted = false → ∀ n ∈ l.bought, Presents l.client n) ∧
      ∀ reply ∈ l.redeemed e.1, buys reply = true → (returns reply).isValid = true → Takes l.client.device e.2)
    ⟨fun h => ⟨h.1, h.2⟩, fun h => ⟨h.presents, h.takes⟩⟩

/-- Of the client: a redemption in flight is the one it knows of, while a session that was bought is waited for none is, and
every hold is over once its own wait is. -/
structure Thrifty (client : SynClient) (clock : Nat) (holds : List (Nat × Nat)) (waiting : Prop) : Prop where
  one : client.inFlight ≤ if client.redeeming then 1 else 0
  waits : waiting → client.credentialSpent = true ∧ client.redeeming = false
  ends : ∀ hold ∈ holds, hold.2 ≤ clock + client.redeemNotBefore
  idle : client.redeeming = true → client.redeemNotBefore = 0
  built : client.redeeming = true → client.deviceBuilt = true

variable {client client' : SynClient} {clock : Nat} {holds : List (Nat × Nat)} {waiting : Prop}

private theorem inFlight_noStart (h : NoStart client client') : client'.inFlight = client.inFlight := by
  obtain ⟨new, hrequests, hnew⟩ := h.asks
  have hnone : new.countP (fun request => (spends request).isSome) = 0 := by
    rw [countP_eq_zero]
    intro request hin
    rw [hnew request hin]
    decide
  rw [inFlight, hrequests, countP_append, hnone, Nat.add_zero, inFlight]

private theorem Thrifty.noStart (h : Thrifty client clock holds waiting) (hquiet : NoStart client client') :
    Thrifty client' clock holds waiting := by
  refine ⟨?_, fun hwaiting => ⟨hquiet.spent (h.waits hwaiting).1, hquiet.redeeming.trans (h.waits hwaiting).2⟩, ?_, ?_, ?_⟩
  · rw [inFlight_noStart hquiet, hquiet.redeeming]
    exact h.one
  · rw [hquiet.redeemNotBefore]
    exact h.ends
  · rw [hquiet.redeeming, hquiet.redeemNotBefore]
    exact h.idle
  · rw [hquiet.redeeming]
    exact fun hredeeming => hquiet.built (h.built hredeeming)

theorem Thrifty.starts (h : Thrifty client clock holds waiting) (hstarts : Starts client client') :
    Thrifty client' clock holds waiting ∧ ∀ hold ∈ holds, hold.2 ≤ clock := by
  have hnone : client.inFlight = 0 := by
    have hone := h.one
    rw [hstarts.idle] at hone
    exact Nat.le_zero.mp hone
  obtain ⟨new, request, hrequests, hnew, hspends⟩ := hstarts.asks
  have hquiet : new.countP (fun request => (spends request).isSome) = 0 := by
    rw [countP_eq_zero]
    intro r hin
    rw [hnew r hin]
    decide
  have hone : client'.inFlight = 1 := by
    rw [inFlight, hrequests, countP_append, countP_append, hquiet, countP_singleton, if_pos hspends]
    rw [inFlight] at hnone
    rw [hnone]
  have hnot : ¬ waiting := fun hwaiting => absurd (hstarts.unspent.symm.trans (h.waits hwaiting).1) (by decide)
  refine ⟨⟨?_, fun hwaiting => absurd hwaiting hnot, ?_, fun _ => hstarts.redeemNotBefore.trans hstarts.waited, fun _ => hstarts.built⟩, ?_⟩
  · rw [hone, hstarts.redeeming]
    decide
  · rw [hstarts.redeemNotBefore]
    exact h.ends
  · intro hold hin
    have hend := h.ends hold hin
    rw [hstarts.waited, Nat.add_zero] at hend
    exact hend

variable {request : Request}

private theorem inFlight_take (client : SynClient) (hin : request ∈ client.requests) (answer : Answer) :
    (client.take request answer).inFlight + (if (spends request).isSome then 1 else 0) ≤ client.inFlight := by
  have hsplit := countP_eq_countP_filter_add client.requests (fun r => (spends r).isSome) (fun r => decide (r.id ≠ request.id))
  have htaken : (client.take request answer).inFlight =
      (client.requests.filter fun r => decide (r.id ≠ request.id)).countP fun r => (spends r).isSome := rfl
  rw [htaken, inFlight, hsplit]
  refine Nat.add_le_add_left ?_ _
  split
  · next hspends =>
    rw [Nat.succ_le_iff, countP_pos_iff]
    exact ⟨request, mem_filter.mpr ⟨hin, by simp⟩, hspends⟩
  · exact Nat.zero_le _

theorem Thrifty.redeeming (h : Thrifty client clock holds waiting) (hin : request ∈ client.requests)
    (hspends : (spends request).isSome = true) : client.redeeming = true := by
  have hfewer := inFlight_take client hin ⟨0, "", "", "", "", none, []⟩
  rw [if_pos hspends] at hfewer
  by_contra hidle
  have hone := h.one
  rw [if_neg hidle] at hone
  omega

theorem Thrifty.take (h : Thrifty client clock holds waiting) (hin : request ∈ client.requests) (answer : Answer) :
    Thrifty (client.take request answer) clock holds waiting := by
  have hfewer := inFlight_take client hin answer
  have hone := h.one
  exact ⟨Nat.le_trans (Nat.le_trans (Nat.le_add_right _ _) hfewer) hone, h.waits, h.ends, h.idle, h.built⟩

private theorem holdMs_le (retryAfter : Option Int) : holdMs retryAfter ≤ 5 * 60 * 1000 := by
  unfold holdMs
  split
  · decide
  · split
    · exact Nat.min_le_right _ _
    · decide

variable {presented : Held}

/-- An answer to the redemption in flight: what is held off is held off from now, and where a session was bought the credential
has bought it. -/
theorem Thrifty.redeemed (h : Thrifty client clock holds waiting) (hin : request ∈ client.requests)
    (hspends : request.kind = .redeem presented) (answer : Answer) (deeds : Deeds) :
    Thrifty (client.answered request answer deeds) clock
      (holds ++ if holdsOff (request, answer) then [(clock, clock + holdMs answer.retryAfter)] else [])
      (answer.signsIn = true) := by
  have hredeeming := h.redeeming hin (by rw [spends, hspends]; rfl)
  have hfewer := inFlight_take client hin answer
  have hone := h.one
  rw [hredeeming, if_pos rfl] at hone
  have hspends' : (spends request).isSome = true := by
    rw [spends, hspends]
    rfl
  rw [if_pos hspends'] at hfewer
  have hanswered : client.answered request answer deeds =
      (client.take request answer).redeemAnswered request.id presented answer deeds := by
    rw [answered, hspends]
  obtain ⟨start, hquiet, hrequests, hidle, hbuilt, -, hspent, hbefore⟩ :=
    redeemAnswered_cases (client.take request answer) request.id presented answer deeds
  have hold : (client.take request answer).redeemNotBefore = 0 := h.idle hredeeming
  rw [hanswered]
  refine Thrifty.noStart ⟨?_, fun hsigns => ⟨hspent hsigns, hidle⟩, fun hold' hmem => ?_, fun hthen => ?_, fun hthen => ?_⟩ hquiet
  · have hnone : start.inFlight = (client.take request answer).inFlight := by
      rw [inFlight, hrequests, inFlight]
    rw [hnone]
    omega
  · rw [hbefore, hold]
    obtain hbefore' | hnow := mem_append.mp hmem
    · have hend := h.ends hold' hbefore'
      rw [h.idle hredeeming] at hend
      exact Nat.le_trans hend (Nat.add_le_add_left (Nat.zero_le _) clock)
    · split at hnow
      · next hoff =>
        rw [holdsOff, Bool.and_eq_true, Bool.and_eq_true, Bool.not_eq_true', bne_iff_ne, bne_iff_ne] at hoff
        obtain rfl := mem_singleton.mp hnow
        exact Nat.le_of_eq (congrArg (clock + ·) (if_pos ⟨hoff.1.1, hoff.1.2, hoff.2⟩).symm)
      · exact absurd hnow not_mem_nil
  · exact absurd (hidle.symm.trans hthen) (by decide)
  · exact absurd (hidle.symm.trans hthen) (by decide)

theorem stored_answered (hspends : request.kind = .redeem presented) {answer : Answer}
    {deeds : Deeds} (hsigns : answer.signsIn = true) (hvalid : (returns (request, answer)).isValid = true)
    (hbuilt : client.deviceBuilt = true) (htakes : Takes client.device deeds) :
    (client.answered request answer deeds).device.stored = some (returns (request, answer)) := by
  obtain ⟨havailable, hsave⟩ := htakes
  have hsaved : (client.device.save (returns (request, answer)) deeds).stored = some (returns (request, answer)) := by
    rw [DeviceCredential.save, havailable, hvalid]
    obtain hdone | ⟨hlate, hstays⟩ := hsave
    · rw [hdone]
      rfl
    · rw [hlate]
      dsimp only
      rw [DeviceCredential.erase, hstays, Bool.and_false]
      rfl
  have hkeeps : ((⟨answer.deviceId, answer.deviceSecret, some request.id⟩ : Held).isValid &&
      { client.take request answer with redeeming := false }.deviceBuilt) = true := by
    rw [Bool.and_eq_true]
    exact ⟨hvalid, hbuilt⟩
  rw [answered, hspends]
  dsimp only
  rw [redeemAnswered, if_pos hsigns]
  dsimp only
  rw [keep, if_pos hkeeps]
  exact hsaved

structure Thrift (l : Ledger) : Prop where
  inv : Inv l.client
  thrifty : Thrifty l.client l.clock l.holds (l.bought ≠ none ∧ l.accepted = false)
  bounded : ∀ hold ∈ l.holds, hold.2 ≤ hold.1 + 5 * 60 * 1000
  kept : ∀ held ∈ l.returned, held ∈ l.kept

variable {l : Ledger} {e : Event × Deeds}

private theorem not_asks (hinv : Inv l.client) {c : SynClient} (hsub : ∀ r ∈ c.requests, r ∈ l.client.requests)
    (hquiet : NoStart c (l.client.step e)) (presented : Held) : ¬ l.Asks e presented := by
  rintro ⟨request, hin, hnew, hspends⟩
  obtain ⟨new, hrequests, hnone⟩ := hquiet.asks
  rw [hrequests] at hin
  obtain hold | hnow := mem_append.mp hin
  · exact absurd (hinv.below request (hsub request hold)) (Nat.not_lt.mpr hnew)
  · rw [hnone request hnow] at hspends
    cases hspends

theorem Thrifty.mono (h : Thrifty client clock holds waiting) {clock' : Nat} (hclock : clock ≤ clock') {waiting' : Prop}
    (hwaiting : waiting' → waiting) : Thrifty client clock' holds waiting' :=
  ⟨h.one, fun hthen => h.waits (hwaiting hthen),
    fun hold hin => Nat.le_trans (h.ends hold hin) (Nat.add_le_add_right hclock _), h.idle, h.built⟩

private theorem one_of_thrifty (h : Thrifty client clock holds waiting) : client.inFlight ≤ 1 := by
  have hone := h.one
  split at hone
  · exact hone
  · exact Nat.le_trans hone (Nat.zero_le 1)

private theorem step_quiet (hreply : l.redeemed e.1 = none) : (l.step e).holds = l.holds ∧ (l.step e).returned = l.returned ∧
    (l.step e).bought = l.bought ∧
    (l.step e).accepted = (l.accepted || (decide (e.1 = .connected) && decide (∀ n ∈ l.bought, Presents l.client n))) := by
  refine ⟨?_, ?_, ?_, ?_⟩
  · simp [step, hreply]
  · simp [step, hreply]
  · simp [step, hreply]
  · simp [step, hreply]

/-- A step that answers no redemption is sparing where what it asks for is, and leaves the ledger in order where the client is. -/
theorem Thrift.quiet (h : Thrift l) (hreply : l.redeemed e.1 = none)
    (hafter : Thrifty (l.client.step e) (l.clock + elapsed e.1) l.holds ((l.step e).bought ≠ none ∧ (l.step e).accepted = false))
    (hasks : ∀ presented, l.Asks e presented → ∀ hold ∈ l.holds, hold.2 ≤ l.clock) : Sparing l e ∧ Thrift (l.step e) := by
  obtain ⟨hholds, hreturned, -, -⟩ := step_quiet hreply
  refine ⟨⟨one_of_thrifty hafter, ?_, hasks, ?_, fun presented _ hin => h.kept presented hin⟩, ⟨step_inv h.inv e, ?_, ?_, ?_⟩⟩
  · rw [hreply]
    exact fun _ hnone => absurd hnone (not_mem_none _)
  · rw [hholds]
    exact h.bounded
  · rw [hholds]
    exact hafter
  · rw [hholds]
    exact h.bounded
  · rw [hreturned]
    exact fun held hin => mem_append_left _ (h.kept held hin)

private theorem kind_of_spends (h : spends request = some presented) : request.kind = .redeem presented := by
  rw [spends] at h
  split at h
  · next held hkind => rw [hkind, Option.some.inj h]
  · cases h

theorem Thrift.replied (h : Thrift l) (hcareful : Careful l e) {answer : Answer} (hin : request ∈ l.client.requests)
    (hreply : l.client.replied e.1 = some (request, answer)) (hspends : spends request = some presented)
    (hafter : l.client.step e = l.client.answered request answer e.2) : Sparing l e ∧ Thrift (l.step e) := by
  have hkind := kind_of_spends hspends
  have hredeemed : l.redeemed e.1 = some (request, answer) := by
    rw [Ledger.redeemed, hreply, filter_some, hspends]
    rfl
  have hredeeming := h.thrifty.redeeming hin (by rw [hspends]; rfl)
  have hnot : ¬ (l.bought ≠ none ∧ l.accepted = false) := fun hwaiting =>
    absurd ((h.thrifty.waits hwaiting).2.symm.trans hredeeming) (by decide)
  have hholds : (l.step e).holds = l.holds ++ if holdsOff (request, answer) then [(l.clock, l.clock + holdMs answer.retryAfter)] else [] := by
    dsimp only [Ledger.step]
    rw [hredeemed, filter_some]
    split
    · rfl
    · rfl
  have hthrifty : Thrifty (l.step e).client (l.step e).clock (l.step e).holds ((l.step e).bought ≠ none ∧ (l.step e).accepted = false) := by
    rw [hholds]
    have hanswered := h.thrifty.redeemed hin hkind answer e.2
    rw [← hafter] at hanswered
    refine hanswered.mono (Nat.le_add_right _ _) fun hwaiting => ?_
    by_contra hrefused
    have hsame : (l.step e).bought = l.bought ∧ ((l.step e).accepted = false → l.accepted = false) := by
      dsimp only [Ledger.step]
      rw [hredeemed, filter_some, buys, if_neg hrefused]
      exact ⟨rfl, fun haccepted => (Bool.or_eq_false_iff.mp haccepted).1⟩
    rw [hsame.1] at hwaiting
    exact hnot ⟨hwaiting.1, hsame.2 hwaiting.2⟩
  have hbounded : ∀ hold ∈ (l.step e).holds, hold.2 ≤ hold.1 + 5 * 60 * 1000 := by
    rw [hholds]
    intro hold hmem
    obtain hbefore | hnow := mem_append.mp hmem
    · exact h.bounded hold hbefore
    · split at hnow
      · rw [mem_singleton.mp hnow]
        exact Nat.add_le_add_left (holdMs_le answer.retryAfter) l.clock
      · exact absurd hnow not_mem_nil
  have hasks (held : Held) : ¬ l.Asks e held := by
    obtain ⟨start, hquiet, hrequests, -⟩ := redeemAnswered_cases (l.client.take request answer) request.id presented answer e.2
    have hanswered : l.client.answered request answer e.2 =
        (l.client.take request answer).redeemAnswered request.id presented answer e.2 := by
      rw [answered, hkind]
    rw [← hanswered, ← hafter] at hquiet
    refine not_asks h.inv (fun r hr => ?_) hquiet held
    rw [hrequests] at hr
    exact mem_of_mem_filter hr
  refine ⟨⟨one_of_thrifty hthrifty, fun reply hmem _ => ?_, fun held hask => absurd hask (hasks held), hbounded,
    fun held hask => absurd hask (hasks held)⟩, ⟨step_inv h.inv e, hthrifty, hbounded, fun held hmem => ?_⟩⟩
  · by_contra hneither
    rw [not_or, Bool.not_eq_true] at hneither
    exact hnot hneither
  · have hreturned : held ∈ l.returned ∨ buys (request, answer) = true ∧ (returns (request, answer)).isValid = true ∧ held = returns (request, answer) := by
      dsimp only [Ledger.step] at hmem
      rw [hredeemed, filter_some] at hmem
      refine (mem_append.mp hmem).imp_right fun hnow => ?_
      rw [mem_filter] at hnow
      by_cases hbuys : buys (request, answer) = true
      · rw [if_pos hbuys] at hnow
        obtain rfl := mem_singleton.mp hnow.1
        exact ⟨hbuys, hnow.2, rfl⟩
      · rw [if_neg hbuys] at hnow
        exact absurd hnow.1 not_mem_nil
    obtain hbefore | ⟨hbuys, hvalid, rfl⟩ := hreturned
    · exact mem_append_left _ (h.kept held hbefore)
    · have hstored := stored_answered hkind hbuys hvalid (h.thrifty.built hredeeming)
        (hcareful.takes _ (by rw [hredeemed]; rfl) hbuys hvalid)
      refine mem_append_right _ ?_
      rw [hafter, hstored]
      exact mem_singleton_self _

theorem Thrift.step (h : Thrift l) (hcareful : Careful l e) : Sparing l e ∧ Thrift (l.step e) := by
  have hstepped := step_stepped l.client e
  have hlater : l.clock ≤ l.clock + elapsed e.1 := Nat.le_add_right _ _
  generalize hafter : l.client.step e = after at hstepped
  have hwaiting (hreply : l.redeemed e.1 = none) :
      (l.step e).bought ≠ none ∧ (l.step e).accepted = false → l.bought ≠ none ∧ l.accepted = false := by
    obtain ⟨-, -, hbought, haccepted⟩ := step_quiet hreply
    rw [hbought, haccepted, Bool.or_eq_false_iff]
    exact fun hthen => ⟨hthen.1, hthen.2.1⟩
  cases hstepped with
  | none _ hreply hquiet =>
    have hnone : l.redeemed e.1 = none := by rw [redeemed, hreply]; rfl
    rw [← hafter] at hquiet
    refine h.quiet hnone ((h.thrifty.noStart hquiet).mono hlater (hwaiting hnone)) fun presented hasks => ?_
    exact absurd hasks (not_asks h.inv (fun _ hin => hin) hquiet presented)
  | starts _ hreply hstarts =>
    have hnone : l.redeemed e.1 = none := by rw [redeemed, hreply]; rfl
    rw [← hafter] at hstarts
    obtain ⟨hthrifty, hended⟩ := h.thrifty.starts hstarts
    exact h.quiet hnone (hthrifty.mono hlater (hwaiting hnone)) fun _ _ => hended
  | connected hevent hsocket =>
    have hnone : l.redeemed e.1 = none := by rw [redeemed, hevent]; rfl
    have hquiet : ∀ presented, ¬ l.Asks e presented := by
      rintro presented ⟨request, hin, hnew, -⟩
      rw [hafter] at hin
      exact absurd (h.inv.below request hin) (Nat.not_lt.mpr hnew)
    refine h.quiet hnone ?_ fun presented hasks => absurd hasks (hquiet presented)
    rw [hafter]
    have hconnected : Thrifty l.client.onConnected l.clock l.holds False :=
      ⟨h.thrifty.one, nofun, h.thrifty.ends, h.thrifty.idle, h.thrifty.built⟩
    refine hconnected.mono hlater ?_
    rintro ⟨hbought, haccepted⟩
    obtain ⟨-, -, hsame, hnow⟩ := step_quiet hnone
    rw [hnow, Bool.or_eq_false_iff, hevent] at haccepted
    have hpresents := hcareful.presents hevent hsocket haccepted.1
    rw [decide_eq_true hpresents] at haccepted
    exact absurd haccepted.2 (by decide)
  | elapse ms hevent =>
    have hnone : l.redeemed e.1 = none := by rw [redeemed, hevent]; rfl
    have hquiet : ∀ presented, ¬ l.Asks e presented := by
      rintro presented ⟨request, hin, hnew, -⟩
      rw [hafter] at hin
      exact absurd (h.inv.below request hin) (Nat.not_lt.mpr hnew)
    refine h.quiet hnone ?_ fun presented hasks => absurd hasks (hquiet presented)
    rw [hafter, hevent]
    refine ⟨h.thrifty.one, fun hthen => h.thrifty.waits (hwaiting hnone hthen), fun hold hin => ?_, fun hthen => ?_, h.thrifty.built⟩
    · have hend := h.thrifty.ends hold hin
      dsimp only [elapsed]
      omega
    · have hidle := h.thrifty.idle hthen
      dsimp only
      omega
  | replied request answer hin hreply =>
    cases hspends : spends request with
    | some presented => exact h.replied hcareful hin hreply hspends hafter
    | none =>
      have hnone : l.redeemed e.1 = none := by
        rw [redeemed, hreply, filter_some, hspends]
        rfl
      have htaken := h.thrifty.take hin answer
      have hsub (r : Request) (hr : r ∈ (l.client.take request answer).requests) : r ∈ l.client.requests := mem_of_mem_filter hr
      obtain hquiet | hstarts := answered_other l.client hspends answer e.2
      · rw [← hafter] at hquiet
        refine h.quiet hnone ((htaken.noStart hquiet).mono hlater (hwaiting hnone)) fun presented hasks => ?_
        exact absurd hasks (not_asks h.inv hsub hquiet presented)
      · rw [← hafter] at hstarts
        obtain ⟨hthrifty, hended⟩ := htaken.starts hstarts
        exact h.quiet hnone (hthrifty.mono hlater (hwaiting hnone)) fun _ _ => hended

/-- A ledger whose client holds a credential at first. -/
theorem thrift_make (config : Config) (configCookie : List (String × String)) (device : DeviceCredential) :
    Thrift (make (SynClient.make config configCookie device)) where
  inv := make_inv config configCookie device
  thrifty := ⟨Nat.le_refl 0, fun h => absurd rfl h.1, nofun, nofun, nofun⟩
  bounded := nofun
  kept := nofun

/-- In every run whose steps meet the condition, each step spends the credential sparingly and in order. -/
theorem spent_sparingly (config : Config) (configCookie : List (String × String)) (device : DeviceCredential)
    (events : List (Event × Deeds)) (hcareful : Each step Careful (make (SynClient.make config configCookie device)) events) :
    Each step Sparing (make (SynClient.make config configCookie device)) events :=
  hcareful.imp Thrift (fun _ _ h hok => h.step hok) (thrift_make config configCookie device)

/-- What the store held was stored by an earlier launch. -/
def launched : Ledger := make (SynClient.make desktop [] ⟨true, some ⟨"d0", "k0", none⟩⟩)

/-- A redemption's answer, with a session and the next credential. -/
def rotated (n : String) : Answer := ⟨200, "s" ++ n, "sid", "d" ++ n, "k" ++ n, none, []⟩

/-- The edge asks for two seconds, an anonymous session is tried meanwhile, and then the credential buys a session that a
connection is accepted with; the next is bought when that one is gone. -/
def patient : List (Event × Deeds) :=
  [ .start, .reply 0 ⟨429, "", "", "", "", some 2, []⟩, .reply 1 ⟨200, "", "", "", "", none, []⟩, .disconnected, .elapse 2000, .reconnect,
    .reply 2 (rotated "1"), .connected, .disconnected, .reconnect, .disconnected, .reconnect, .reply 3 (rotated "2"), .connected].map steady

theorem spent_sparingly_patient : Each step Sparing launched patient :=
  spent_sparingly desktop [] ⟨true, some ⟨"d0", "k0", none⟩⟩ patient (by decide +kernel)

/-- The second start finds a redemption in flight and asks for an anonymous session; its answer comes after the redemption's, and
the connection accepted is an anonymous one. -/
def crossed : List (Event × Deeds) :=
  [ .start, .start, .reply 0 (rotated "1"), .reply 1 ⟨200, "", "", "", "", none, [("sid", some "a1")]⟩, .connected, .disconnected,
    .reconnect, .disconnected, .reconnect, .reply 2 (rotated "2")].map steady

/-- The second session is bought though no connection was accepted with the first. -/
theorem crossed_not_sparing : ¬ Each step Sparing launched crossed := by
  intro hsparing
  obtain ⟨-, -, -, -, -, -, -, -, -, hlast, -⟩ := hsparing
  have hpaced := hlast.paced (⟨2, .redeem ⟨"d1", "k1", some 0⟩, 0⟩, rotated "2") (by decide +kernel) (by decide +kernel)
  exact absurd hpaced (by decide +kernel)

end Ledger
end SynQt.Native
