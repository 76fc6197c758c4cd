import SynQt.Client.SynClient

namespace SynQt.Native
open Lib Option List

namespace DeviceCredential
variable {device : DeviceCredential}

private theorem stored_of_erase {deed : Deed} {held : Held} (h : (device.erase deed).stored = some held) : device.stored = some held := by
  unfold erase at h
  split at h
  · cases h
  · exact h

private theorem stored_of_save {kept held : Held} {deeds : Deeds} (h : (device.save kept deeds).stored = some held) :
    device.stored = some held ∨ held = kept := by
  unfold save at h
  split at h
  · exact .inl h
  · split at h
    · exact .inr (Option.some.inj h).symm
    · exact .inl (stored_of_erase h)
    · next landed _ =>
      have hwritten := stored_of_erase (h : (DeviceCredential.erase _ deeds.erase).stored = some held)
      cases landed with
      | true => exact .inr (Option.some.inj hwritten).symm
      | false => exact .inl hwritten

private theorem load_held (device : DeviceCredential) (deed : Deed) :
    (device.load deed).1 = .none ∨ device.stored = some (device.load deed).1 := by
  unfold load
  split
  · exact .inl rfl
  · split
    · cases device.stored with
      | none => exact .inl rfl
      | some held => exact .inr rfl
    · exact .inl rfl
    · exact .inl rfl

theorem stored_load (device : DeviceCredential) (deed : Deed) : (device.load deed).2.stored = device.stored := by
  unfold load
  split
  · rfl
  · split <;> rfl

end DeviceCredential

theorem Answer.signsIn_status {answer : Answer} (h : answer.signsIn = true) : answer.status = 200 := by
  simp only [Answer.signsIn, Bool.and_eq_true, beq_iff_eq] at h
  exact h.1.1

namespace SynClient
variable {client client' : SynClient}

private theorem setCookies_mem (n : Nat) {jar : List Cookie} {cookies : List (String × Option String)} {c : Cookie} :
    c ∈ setCookies n jar cookies ↔ (c ∈ jar ∧ c.name ∉ cookies.map Prod.fst) ∨ c ∈ setCookies n [] cookies := by
  induction cookies generalizing jar with
  | nil =>
    rw [setCookies, setCookies]
    simp
  | cons cookie rest ih =>
    obtain ⟨name, value⟩ := cookie
    cases value with
    | none =>
      rw [setCookies, setCookies, ih, filter_nil]
      refine or_congr_left ?_
      simp [and_assoc]
    | some value =>
      rw [setCookies, setCookies, ih, @ih (_ ++ _), filter_nil, nil_append]
      simp only [mem_append, mem_filter, map_cons, mem_cons, decide_eq_true_eq]
      tauto

private theorem setCookies_source (n : Nat) {cookies : List (String × Option String)} {c : Cookie}
    (h : c ∈ setCookies n [] cookies) : c.source = some n := by
  induction cookies with
  | nil => exact absurd h not_mem_nil
  | cons cookie rest ih =>
    obtain ⟨name, value⟩ := cookie
    cases value with
    | none =>
      rw [setCookies, filter_nil] at h
      exact ih h
    | some value =>
      rw [setCookies, filter_nil, nil_append, setCookies_mem] at h
      rcases h with ⟨hin, -⟩ | hin
      · rw [mem_singleton.mp hin]
      · exact ih hin

def presented (client : SynClient) : List Cookie :=
  client.sessionCookie ++ client.configCookie ++ client.socket.getD [] ++ client.jar

def credentials (client : SynClient) : List Held := client.device.stored.toList ++ [client.held]

/-- It has what the answer to a request brought. -/
def Bears (client : SynClient) (n : Nat) : Prop :=
  (∃ c ∈ client.presented, c.source = some n) ∨ ∃ held ∈ client.credentials, held.source = some n

/-- Whether the request is one whose answer may be a session. -/
def signs (request : Request) : Bool :=
  match request.kind with
  | .claim _ _ _ => true
  | .redeem _ => true
  | .bootstrap => false
  | .logout _ => false

def brings (request : Request) (answer : Answer) : Bool :=
  !(setCookies request.id [] answer.cookies).isEmpty || (signs request && answer.signsIn)

/-- What a client has of an answer that came after a sign-out its request came before, and of a refusal. -/
structure Final (client : SynClient) : Prop where
  /-- It neither presents the session nor has the credential. -/
  gone : ∀ n ∈ client.late, ¬client.Bears n
  /-- A refusal that erased what was stored was of what was stored. -/
  refused : ∀ refusal ∈ client.refusals, refusal.2.2 = none → ∀ held, refusal.2.1 = some held →
    held.id = refusal.1.id ∧ held.secret = refusal.1.secret

def spends (request : Request) : Option Held :=
  match request.kind with
  | .redeem presented => some presented
  | _ => none

/-- The condition on an answer: it brings nothing if a sign-out came between, and where it refuses a credential, the
store has none other that erasing would take. -/
def Safe (client : SynClient) (request : Request) (answer : Answer) (deeds : Deeds) : Prop :=
  (request.endings < client.endings → brings request answer = false) ∧
    ∀ presented ∈ spends request, answer.status = 404 →
      client.deviceBuilt = true ∧ client.device.available = true ∧ deeds.erase.lands = true →
        ∀ held ∈ client.device.stored, held.id = presented.id ∧ held.secret = presented.secret

instance Safe.decidable (client : SynClient) (request : Request) (answer : Answer) (deeds : Deeds) :
    Decidable (client.Safe request answer deeds) :=
  inferInstanceAs (Decidable ((request.endings < client.endings → brings request answer = false) ∧
    ∀ presented ∈ spends request, answer.status = 404 →
      client.deviceBuilt = true ∧ client.device.available = true ∧ deeds.erase.lands = true →
        ∀ held ∈ client.device.stored, held.id = presented.id ∧ held.secret = presented.secret))

def Kept (client : SynClient) (e : Event × Deeds) : Prop :=
  match e.1 with
  | .reply n answer => ∀ request ∈ client.requests.find? (·.id = n), client.Safe request answer e.2
  | _ => True

instance Kept.decidable (client : SynClient) : DecidablePred client.Kept
  | (.reply n answer, deeds) =>
    inferInstanceAs (Decidable (∀ request ∈ client.requests.find? (·.id = n), client.Safe request answer deeds))
  | (.start, _) => isTrue trivial
  | (.login _ _ _, _) => isTrue trivial
  | (.loopbackAnswer _ _ _, _) => isTrue trivial
  | (.loginTimeout, _) => isTrue trivial
  | (.logout, _) => isTrue trivial
  | (.reconnect, _) => isTrue trivial
  | (.handshakeTimeout, _) => isTrue trivial
  | (.connected, _) => isTrue trivial
  | (.disconnected, _) => isTrue trivial
  | (.elapse _, _) => isTrue trivial

/-- What is done apart from the answer itself: it has nothing new but what `brought` names, and asks in order. -/
structure Moves (client client' : SynClient) (brought : Option Nat) : Prop where
  bears : ∀ n, client'.Bears n → client.Bears n ∨ brought = some n
  asks : ∃ new, client'.requests = client.requests ++ new ∧ new.map Request.id = List.range' client.made new.length ∧
    client'.made = client.made + new.length
  late : client'.late = client.late
  refusals : client'.refusals = client.refusals
  jar : client'.jar = client.jar

namespace Moves
variable {b : Option Nat}

private theorem of_fields (hpresented : ∀ c ∈ client'.presented, c ∈ client.presented ∨ c.source = none ∨ c.source = b)
    (hcredentials : ∀ held ∈ client'.credentials, held ∈ client.credentials ∨ held.source = none ∨ held.source = b)
    (hrequests : client'.requests = client.requests) (hmade : client'.made = client.made) (hlate : client'.late = client.late)
    (hrefusals : client'.refusals = client.refusals) (hjar : client'.jar = client.jar) : Moves client client' b where
  bears := by
    rintro n (⟨c, hc, hn⟩ | ⟨held, hheld, hn⟩)
    · rcases hpresented c hc with hin | hnone | hb
      · exact .inl (.inl ⟨c, hin, hn⟩)
      · exact absurd (hnone.symm.trans hn) (some_ne_none n).symm
      · exact .inr (hb.symm.trans hn)
    · rcases hcredentials held hheld with hin | hnone | hb
      · exact .inl (.inr ⟨held, hin, hn⟩)
      · exact absurd (hnone.symm.trans hn) (some_ne_none n).symm
      · exact .inr (hb.symm.trans hn)
  asks := ⟨[], by rw [hrequests, append_nil], rfl, hmade⟩
  late := hlate
  refusals := hrefusals
  jar := hjar

theorem of_same (hpresented : client'.presented = client.presented) (hcredentials : client'.credentials = client.credentials)
    (hrequests : client'.requests = client.requests) (hmade : client'.made = client.made) (hlate : client'.late = client.late)
    (hrefusals : client'.refusals = client.refusals) (hjar : client'.jar = client.jar) : Moves client client' b :=
  of_fields (fun _ hc => .inl (hpresented ▸ hc)) (fun _ hheld => .inl (hcredentials ▸ hheld)) hrequests hmade hlate hrefusals hjar

theorem refl (client : SynClient) : Moves client client b := of_same rfl rfl rfl rfl rfl rfl rfl

theorem trans {client'' : SynClient} (h : Moves client client' b) (h' : Moves client' client'' b) :
    Moves client client'' b where
  bears := fun n hn => (h'.bears n hn).elim (h.bears n) .inr
  asks := by
    obtain ⟨new, hrequests, hids, hmade⟩ := h.asks
    obtain ⟨new', hrequests', hids', hmade'⟩ := h'.asks
    refine ⟨new ++ new', by rw [hrequests', hrequests, append_assoc], ?_, ?_⟩
    · rw [map_append, hids, hids', hmade, length_append, List.range'_append_1]
    · rw [hmade', hmade, length_append, Nat.add_assoc]
  late := h'.late.trans h.late
  refusals := h'.refusals.trans h.refusals
  jar := h'.jar.trans h.jar

section
variable (client : SynClient)

theorem request (kind : Kind) : Moves client (client.request kind) b where
  bears := fun _ hn => .inl hn
  asks := ⟨[⟨client.made, kind, client.endings⟩], rfl, rfl, rfl⟩
  late := rfl
  refusals := rfl
  jar := rfl

theorem connectToEdge : Moves client client.connectToEdge b := by
  refine of_fields (fun c hc => .inl ?_) (fun _ hheld => .inl hheld) rfl rfl rfl rfl rfl
  have hcases : c ∈ client.sessionCookie ++ client.configCookie ++ client.sessionCookie ++ client.jar := hc
  simp only [presented, mem_append] at hcases ⊢
  tauto

/-- The cookies it carries now it could present before. -/
private theorem carrying (session config : List Cookie) (h : ∀ c ∈ session ++ config, c ∈ client.presented) :
    Moves client { client with sessionCookie := session, configCookie := config } b := by
  refine of_fields (fun c hc => .inl ?_) (fun _ hheld => .inl hheld) rfl rfl rfl rfl rfl
  have hcases : c ∈ session ++ config ++ client.socket.getD [] ++ client.jar := hc
  rw [append_assoc, mem_append] at hcases
  rcases hcases with hcarried | hother
  · exact h c hcarried
  · rw [presented, append_assoc]
    exact mem_append_right _ hother

private theorem presentConfig :
    Moves client { client with sessionCookie := client.configCookie }.connectToEdge b := by
  have hconfig : Moves client { client with sessionCookie := client.configCookie } b :=
    carrying client _ _ fun c hc => by simp_all [presented]
  exact hconfig.trans (connectToEdge _)

theorem presentOrBootstrap : Moves client client.presentOrBootstrap b := by
  unfold SynClient.presentOrBootstrap
  split
  · exact presentConfig client
  · have hstate : Moves client { client with state := .connecting } b := of_same rfl rfl rfl rfl rfl rfl rfl
    exact hstate.trans (request ..)

theorem deviceStore : Moves client client.deviceStore b := by
  unfold SynClient.deviceStore
  split
  · exact of_same rfl rfl rfl rfl rfl rfl rfl
  · exact refl client

theorem loadHeld (deed : Deed) : Moves client (client.loadHeld deed) b := by
  unfold SynClient.loadHeld
  split
  · exact refl client
  · refine of_fields (fun _ hc => .inl hc) (fun held hheld => ?_) rfl rfl rfl rfl rfl
    rcases mem_append.mp hheld with hin | hin
    · have hstored : held ∈ client.device.stored.toList := client.device.stored_load deed ▸ hin
      exact .inl (mem_append_left _ hstored)
    · have hhand : held = (client.device.load deed).1 := mem_singleton.mp hin
      rcases client.device.load_held deed with hnone | hstored
      · exact .inr (.inl (by rw [hhand, hnone]; rfl))
      · exact .inl (mem_append_left _ (mem_toList.mpr (hhand ▸ hstored)))

theorem redeemDeviceCredential : Moves client client.redeemDeviceCredential b := by
  have hstate : Moves client { client with state := .connecting, redeeming := true } b :=
    of_same rfl rfl rfl rfl rfl rfl rfl
  exact hstate.trans (request ..)

theorem openSession (deed : Deed) : Moves client (client.openSession deed) b := by
  unfold SynClient.openSession
  split
  · have haccepted : Moves client { client with sessionAccepted := false } b := of_same rfl rfl rfl rfl rfl rfl rfl
    exact haccepted.trans (presentConfig _)
  · refine (deviceStore client).trans ?_
    dsimp only
    split
    · refine (loadHeld client.deviceStore deed).trans ?_
      split
      · exact redeemDeviceCredential _
      · exact presentOrBootstrap _
    · exact presentOrBootstrap _

theorem claimSession (code : String) : Moves client (client.claimSession code) b := by
  have hverifier : Moves client.deviceStore { client.deviceStore with loginVerifier := "" } b :=
    of_same rfl rfl rfl rfl rfl rfl rfl
  exact (deviceStore client).trans (hverifier.trans (request ..))

theorem onLoginAnswer (code state error : String) :
    Moves client (client.onLoginAnswer code state error) b := by
  unfold SynClient.onLoginAnswer
  split
  · exact of_same rfl rfl rfl rfl rfl rfl rfl
  · split
    · exact of_same rfl rfl rfl rfl rfl rfl rfl
    · exact claimSession client code

theorem dropHeld (deed : Deed) : Moves client (client.dropHeld deed) b := by
  refine of_fields (fun _ hc => .inl hc) (fun held hheld => ?_) rfl rfl rfl rfl rfl
  rcases mem_append.mp hheld with hin | hin
  · refine .inl (mem_append_left _ (mem_toList.mpr ?_))
    have hstored := mem_toList.mp hin
    dsimp only [SynClient.dropHeld] at hstored
    split at hstored
    · exact DeviceCredential.stored_of_erase hstored
    · exact hstored
  · exact .inr (.inl (by rw [mem_singleton.mp hin]; rfl))

theorem endSession (deeds : Deeds) : Moves client (client.endSession deeds) b := by
  have hcounted : Moves client { client with endings := client.endings + 1 } b := of_same rfl rfl rfl rfl rfl rfl rfl
  unfold SynClient.endSession
  dsimp only
  split
  · exact hcounted
  · have hended : Moves { client with endings := client.endings + 1 }
        { client with endings := client.endings + 1 }.endDesktopLogin b := of_same rfl rfl rfl rfl rfl rfl rfl
    exact (hcounted.trans (hended.trans (dropHeld ..))).trans (request ..)

theorem keep {held : Held} (deeds : Deeds) (hsource : held.source = b) :
    Moves client (client.keep held deeds) b := by
  unfold SynClient.keep
  split
  · refine of_fields (fun _ hc => .inl hc) (fun held' hheld => ?_) rfl rfl rfl rfl rfl
    rcases mem_append.mp hheld with hin | hin
    · rcases DeviceCredential.stored_of_save (mem_toList.mp hin) with hstored | rfl
      · exact .inl (mem_append_left _ (mem_toList.mpr hstored))
      · exact .inr (.inr hsource)
    · rw [mem_singleton.mp hin]
      exact .inr (.inr hsource)
  · exact refl client

theorem present (n : Nat) (answer : Answer) : Moves client (client.present n answer) (some n) := by
  have hcookies : Moves client { client with
      sessionCookie := [⟨answer.cookieName, answer.session, some n⟩]
      configCookie := [⟨answer.cookieName, answer.session, some n⟩] } (some n) := by
    refine of_fields (fun c hc => ?_) (fun _ hheld => .inl hheld) rfl rfl rfl rfl rfl
    have hcases : c ∈ [⟨answer.cookieName, answer.session, some n⟩] ++ [⟨answer.cookieName, answer.session, some n⟩] ++
      client.socket.getD [] ++ client.jar := hc
    simp only [presented, mem_append, mem_singleton] at hcases ⊢
    rcases hcases with ((rfl | rfl) | hin) | hin
    · exact .inr (.inr rfl)
    · exact .inr (.inr rfl)
    · exact .inl (.inl (.inr hin))
    · exact .inl (.inr hin)
  exact hcookies.trans (connectToEdge _)

theorem claimAnswered (n : Nat) (answer : Answer) (deeds : Deeds) :
    Moves client (client.claimAnswered n answer deeds) (some n) := by
  have hended : Moves client client.endDesktopLogin (some n) := of_same rfl rfl rfl rfl rfl rfl rfl
  unfold SynClient.claimAnswered
  dsimp only
  split
  · exact hended
  · have hkept : Moves client.endDesktopLogin
        (client.endDesktopLogin.keep ⟨answer.deviceId, answer.deviceSecret, some n⟩ deeds) (some n) := keep _ deeds rfl
    refine (hended.trans hkept).trans (.trans ?_ (present ..))
    exact of_same rfl rfl rfl rfl rfl rfl rfl

theorem bootstrapAnswered : Moves client client.bootstrapAnswered b := by
  have hjar : Moves client { client with sessionCookie := client.jar } b :=
    carrying client _ _ fun c hc => by
      simp only [presented, mem_append] at hc ⊢
      tauto
  exact hjar.trans (connectToEdge _)

theorem logoutAnswered (deeds : Deeds) : Moves client (client.logoutAnswered deeds) b := by
  have hdropped : Moves client { client with sessionCookie := [], configCookie := [] } b :=
    carrying client [] [] nofun
  exact hdropped.trans (openSession ..)

theorem onDisconnected : Moves client client.onDisconnected b := by
  unfold SynClient.onDisconnected
  split
  · exact refl client
  · unfold scheduleReconnect
    split <;> exact of_same rfl rfl rfl rfl rfl rfl rfl

end

end Moves

def refusal (client : SynClient) (request : Request) (answer : Answer) (deeds : Deeds) : List (Held × Option Held × Option Held) :=
  match spends request with
  | some presented =>
    if answer.status = 404 then [(presented, client.device.stored, (client.dropHeld deeds.erase).device.stored)] else []
  | none => []

section
variable (client : SynClient)

private theorem present_bears (n : Nat) (answer : Answer) : (client.present n answer).Bears n :=
  .inl ⟨⟨answer.cookieName, answer.session, some n⟩,
    mem_append_left _ (mem_append_left _ (mem_append_left _ (mem_singleton_self _))), rfl⟩

private theorem presentOrBootstrap_refusals (refusals : List (Held × Option Held × Option Held)) :
    { client with refusals := refusals }.presentOrBootstrap = { client.presentOrBootstrap with refusals := refusals } := by
  unfold presentOrBootstrap
  dsimp only
  split <;> rfl

theorem redeemAnswered_moves (n : Nat) (presented : Held) (answer : Answer) (deeds : Deeds) :
    ∃ after, client.redeemAnswered n presented answer deeds =
        { after with refusals := client.refusals ++ if answer.status = 404 then
          [(presented, client.device.stored, (client.dropHeld deeds.erase).device.stored)] else [] } ∧
      Moves client after (if answer.signsIn then some n else none) ∧ (answer.signsIn = true → after.Bears n) := by
  have hsame : ∀ after : SynClient, after.refusals = client.refusals →
      after = { after with refusals := client.refusals ++ [] } := by
    intro after h
    rw [append_nil, ← h]
  have hwaiting : ∀ b, Moves client { client with redeeming := false } b := fun b => .of_same rfl rfl rfl rfl rfl rfl rfl
  have hdevice : ({ client with redeeming := false }.dropHeld deeds.erase).device.stored =
      (client.dropHeld deeds.erase).device.stored := rfl
  have hbefore : ({ client with redeeming := false } : SynClient).device.stored = client.device.stored := rfl
  have hrefusals : ({ client with redeeming := false } : SynClient).refusals = client.refusals := rfl
  unfold redeemAnswered
  generalize ({ client with redeeming := false } : SynClient) = waiting at *
  dsimp only
  by_cases hsigns : answer.signsIn = true
  · have hstatus : answer.status ≠ 404 := by
      rw [answer.signsIn_status hsigns]
      decide
    rw [if_pos hsigns, if_neg hstatus, if_pos hsigns]
    have hkept : Moves waiting (waiting.keep ⟨answer.deviceId, answer.deviceSecret, some n⟩ deeds) (some n) :=
      Moves.keep _ deeds rfl
    generalize waiting.keep ⟨answer.deviceId, answer.deviceSecret, some n⟩ deeds = kept at *
    have hspent : Moves kept { kept with credentialSpent := true } (some n) := .of_same rfl rfl rfl rfl rfl rfl rfl
    have hmoves := ((hwaiting _).trans hkept).trans (hspent.trans (Moves.present _ n answer))
    exact ⟨_, hsame _ hmoves.refusals, hmoves, fun _ => present_bears ..⟩
  · rw [if_neg hsigns, if_neg hsigns]
    by_cases hstatus : answer.status = 404
    · rw [if_pos hstatus, if_pos hstatus, dropRefused, hdevice, hbefore, hrefusals]
      have hmoves := ((hwaiting none).trans (Moves.dropHeld waiting deeds.erase)).trans (Moves.presentOrBootstrap _)
      exact ⟨_, presentOrBootstrap_refusals _ _, hmoves, fun h => absurd h hsigns⟩
    · rw [if_neg hstatus, if_neg hstatus]
      split
      · have hheld : Moves waiting { waiting with redeemNotBefore := holdMs answer.retryAfter } none :=
          .of_same rfl rfl rfl rfl rfl rfl rfl
        have hmoves := ((hwaiting none).trans hheld).trans (Moves.presentOrBootstrap _)
        exact ⟨_, hsame _ hmoves.refusals, hmoves, fun h => absurd h hsigns⟩
      · have hmoves := (hwaiting none).trans (Moves.presentOrBootstrap waiting)
        exact ⟨_, hsame _ hmoves.refusals, hmoves, fun h => absurd h hsigns⟩

/-- An answer takes effect: what it brings is had, a refusal is of what it erased, and the rest is as before. -/
theorem answered_moves (request : Request) (answer : Answer) (deeds : Deeds) :
    ∃ after, client.answered request answer deeds =
        { after with refusals := client.refusals ++ client.refusal request answer deeds } ∧
      Moves (client.take request answer) after (if signs request && answer.signsIn then some request.id else none) ∧
      (signs request = true → answer.signsIn = true → after.Bears request.id) := by
  have hsame : ∀ after : SynClient, after.refusals = client.refusals →
      after = { after with refusals := client.refusals ++ [] } := by
    intro after h
    rw [append_nil, ← h]
  unfold answered refusal signs spends
  dsimp only
  cases hkind : request.kind with
  | claim code verifier device =>
    dsimp only
    have hmoves := Moves.claimAnswered (client.take request answer) request.id answer deeds
    refine ⟨_, hsame _ hmoves.refusals, ?_, fun _ hsigns => ?_⟩
    · by_cases hsigns : answer.signsIn = true
      · rw [hsigns, Bool.and_self, if_pos rfl]
        exact hmoves
      · unfold claimAnswered
        rw [if_pos (by simpa using hsigns)]
        exact .of_same rfl rfl rfl rfl rfl rfl rfl
    · unfold claimAnswered
      dsimp only
      rw [if_neg (by simpa using hsigns)]
      exact present_bears ..
  | redeem presented =>
    dsimp only
    rw [Bool.true_and]
    obtain ⟨after, hafter, hmoves, hbears⟩ :=
      redeemAnswered_moves (client.take request answer) request.id presented answer deeds
    exact ⟨after, hafter, hmoves, fun _ => hbears⟩
  | bootstrap =>
    have hmoves := Moves.bootstrapAnswered (b := none) (client.take request answer)
    exact ⟨_, hsame _ hmoves.refusals, hmoves, fun h => absurd h Bool.false_ne_true⟩
  | logout cookie =>
    have hmoves := Moves.logoutAnswered (b := none) (client.take request answer) deeds
    exact ⟨_, hsame _ hmoves.refusals, hmoves, fun h => absurd h Bool.false_ne_true⟩

end

/-- Requests are numbered in order, and what has been answered is no longer out. -/
structure Inv (client : SynClient) : Prop where
  ids : (client.requests.map Request.id).Nodup
  below : ∀ request ∈ client.requests, request.id < client.made
  bears : ∀ n, client.Bears n → n < client.made ∧ ∀ request ∈ client.requests, request.id ≠ n
  late : ∀ n ∈ client.late, n < client.made ∧ ∀ request ∈ client.requests, request.id ≠ n

private theorem make_bears (config : Config) (configCookie : List (String × String)) (device : DeviceCredential) (n : Nat) :
    ¬(make config configCookie device).Bears n := by
  rintro (⟨c, hc, hn⟩ | ⟨held, hheld, hn⟩)
  · have hcases : c ∈ [] ++ configCookie.map (fun cookie => (⟨cookie.1, cookie.2, none⟩ : Cookie)) ++ [] ++ [] := hc
    simp only [nil_append, append_nil, List.mem_map] at hcases
    obtain ⟨cookie, -, rfl⟩ := hcases
    cases hn
  · rcases mem_append.mp hheld with hin | hin
    · obtain ⟨stored, -, rfl⟩ := map_eq_some_iff.mp (mem_toList.mp hin)
      cases hn
    · rw [mem_singleton.mp hin] at hn
      cases hn

theorem make_inv (config : Config) (configCookie : List (String × String)) (device : DeviceCredential) :
    Inv (make config configCookie device) where
  ids := nodup_nil
  below := fun _ hin => absurd hin not_mem_nil
  bears := fun n hn => absurd hn (make_bears config configCookie device n)
  late := fun _ hin => absurd hin not_mem_nil

private theorem make_final (config : Config) (configCookie : List (String × String)) (device : DeviceCredential) :
    Final (make config configCookie device) where
  gone := fun _ hin => absurd hin not_mem_nil
  refused := fun _ hin => absurd hin not_mem_nil

namespace Inv

theorem moves (h : Inv client) {b : Option Nat} (hmoves : Moves client client' b)
    (hspent : ∀ n, b = some n → n < client.made ∧ ∀ request ∈ client.requests, request.id ≠ n) : Inv client' := by
  obtain ⟨new, hrequests, hids, hmade⟩ := hmoves.asks
  have hnew : ∀ request ∈ new, client.made ≤ request.id ∧ request.id < client'.made := by
    intro request hin
    have hrange : request.id ∈ List.range' client.made new.length := hids ▸ mem_map_of_mem hin
    rw [mem_range'_1, ← hmade] at hrange
    exact hrange
  have hgrows : client.made ≤ client'.made := hmade ▸ Nat.le_add_right ..
  have hkept : ∀ n, (n < client.made ∧ ∀ request ∈ client.requests, request.id ≠ n) →
      n < client'.made ∧ ∀ request ∈ client'.requests, request.id ≠ n := by
    rintro n ⟨hlt, hout⟩
    refine ⟨Nat.lt_of_lt_of_le hlt hgrows, fun request hin => ?_⟩
    rw [hrequests] at hin
    rcases mem_append.mp hin with hin | hin
    · exact hout request hin
    · have hge := (hnew request hin).1
      omega
  refine ⟨?_, fun request hin => ?_, fun n hn => ?_, fun n hn => ?_⟩
  · rw [hrequests, map_append, hids]
    refine nodup_append'.mpr ⟨h.ids, nodup_range', fun n hin hin' => ?_⟩
    obtain ⟨request, hrequest, rfl⟩ := mem_map.mp hin
    have hlt := h.below request hrequest
    have hge := (mem_range'_1.mp hin').1
    omega
  · rw [hrequests] at hin
    rcases mem_append.mp hin with hin | hin
    · exact Nat.lt_of_lt_of_le (h.below request hin) hgrows
    · exact (hnew request hin).2
  · rcases hmoves.bears n hn with hn | hb
    · exact hkept n (h.bears n hn)
    · exact hkept n (hspent n hb)
  · rw [hmoves.late] at hn
    exact hkept n (h.late n hn)

end Inv

variable {request : Request}

private theorem bears_of_take {answer : Answer} {n : Nat} (hn : (client.take request answer).Bears n) :
    client.Bears n ∨ (n = request.id ∧ setCookies request.id [] answer.cookies ≠ []) := by
  rcases hn with ⟨c, hc, hn⟩ | hheld
  · have hcases : c ∈ client.sessionCookie ++ client.configCookie ++ client.socket.getD [] ++
      setCookies request.id client.jar answer.cookies := hc
    rcases mem_append.mp hcases with hin | hin
    · exact .inl (.inl ⟨c, mem_append_left _ hin, hn⟩)
    · rcases (setCookies_mem _).mp hin with ⟨hjar, -⟩ | hset
      · exact .inl (.inl ⟨c, mem_append_right _ hjar, hn⟩)
      · exact .inr ⟨Option.some.inj (hn.symm.trans (setCookies_source _ hset)), ne_nil_of_mem hset⟩
  · exact .inl (.inr hheld)

theorem Inv.take (h : Inv client) (hin : request ∈ client.requests) (answer : Answer) :
    Inv (client.take request answer) ∧ request.id < (client.take request answer).made ∧
      ∀ request' ∈ (client.take request answer).requests, request'.id ≠ request.id := by
  have hfilter : ∀ request' ∈ (client.take request answer).requests, request' ∈ client.requests ∧ request'.id ≠ request.id := by
    intro request' hin'
    have hmem := mem_filter.mp hin'
    exact ⟨hmem.1, of_decide_eq_true hmem.2⟩
  have hspent : request.id < client.made := h.below request hin
  have hout : ∀ request' ∈ (client.take request answer).requests, request'.id ≠ request.id := fun r hr => (hfilter r hr).2
  refine ⟨⟨h.ids.sublist (filter_sublist.map _), fun r hr => h.below r (hfilter r hr).1, fun n hn => ?_, fun n hn => ?_⟩,
    hspent, hout⟩
  · rcases bears_of_take hn with hn | ⟨rfl, -⟩
    · exact (h.bears n hn).imp_right fun hall r hr => hall r (hfilter r hr).1
    · exact ⟨hspent, hout⟩
  · have hcases : n ∈ client.late ∨ n = request.id := by
      have hlate : n ∈ if request.endings < client.endings then client.late ++ [request.id] else client.late := hn
      split at hlate
      · exact (mem_append.mp hlate).imp_right mem_singleton.mp
      · exact .inl hlate
    rcases hcases with hn | rfl
    · exact (h.late n hn).imp_right fun hall r hr => hall r (hfilter r hr).1
    · exact ⟨hspent, hout⟩

theorem step_cases (client : SynClient) (e : Event × Deeds) :
    (∃ n answer request, e.1 = .reply n answer ∧ client.requests.find? (·.id = n) = some request ∧
      client.step e = client.answered request answer e.2) ∨
    (Moves client (client.step e) none ∧ client.Kept e) := by
  obtain ⟨event, deeds⟩ := e
  cases event with
  | start => exact .inr ⟨.openSession .., trivial⟩
  | login listens loginState loginVerifier =>
    refine .inr ⟨?_, trivial⟩
    show Moves client (client.beginLogin listens loginState loginVerifier) none
    unfold beginLogin
    split
    · exact .refl client
    · exact .of_same rfl rfl rfl rfl rfl rfl rfl
  | loopbackAnswer code state error =>
    refine .inr ⟨?_, trivial⟩
    simp only [step]
    split
    · exact .onLoginAnswer ..
    · exact .refl client
  | loginTimeout =>
    refine .inr ⟨?_, trivial⟩
    simp only [step]
    split
    · exact .of_same rfl rfl rfl rfl rfl rfl rfl
    · exact .refl client
  | logout => exact .inr ⟨.endSession .., trivial⟩
  | reconnect =>
    refine .inr ⟨?_, trivial⟩
    simp only [step]
    split
    · have htimer : Moves client { client with reconnectTimer := none } none := .of_same rfl rfl rfl rfl rfl rfl rfl
      exact htimer.trans (.openSession ..)
    · exact .refl client
  | handshakeTimeout =>
    refine .inr ⟨?_, trivial⟩
    simp only [step]
    split
    · have htimer : Moves client { client with handshakeTimer := false } none := .of_same rfl rfl rfl rfl rfl rfl rfl
      exact htimer.trans (.onDisconnected _)
    · exact .refl client
  | connected =>
    refine .inr ⟨?_, trivial⟩
    simp only [step]
    split
    · exact .of_same rfl rfl rfl rfl rfl rfl rfl
    · exact .refl client
  | disconnected =>
    refine .inr ⟨?_, trivial⟩
    simp only [step]
    split
    · exact .onDisconnected _
    · exact .refl client
  | elapse ms => exact .inr ⟨.of_same rfl rfl rfl rfl rfl rfl rfl, trivial⟩
  | reply n answer =>
    cases hfind : client.requests.find? (·.id = n) with
    | none =>
      right
      simp only [step, Kept, hfind]
      exact ⟨.refl client, fun _ hin => absurd hin (not_mem_none _)⟩
    | some request =>
      left
      refine ⟨n, answer, request, rfl, hfind, ?_⟩
      simp only [step, hfind]

theorem step_inv (h : Inv client) (e : Event × Deeds) : Inv (client.step e) := by
  rcases step_cases client e with ⟨n, answer, request, -, hfind, hstep⟩ | ⟨hmoves, -⟩
  · obtain ⟨after, hafter, hmoves, -⟩ := answered_moves client request answer e.2
    obtain ⟨htaken, hlt, hout⟩ := h.take (mem_of_find?_eq_some hfind) answer
    have hdone : Inv after := by
      refine htaken.moves hmoves fun m hm => ?_
      split at hm
      · obtain rfl := Option.some.inj hm
        exact ⟨hlt, hout⟩
      · cases hm
    rw [hstep, hafter]
    exact ⟨hdone.ids, hdone.below, hdone.bears, hdone.late⟩
  · exact h.moves hmoves fun m hm => absurd hm.symm (some_ne_none m)

/-- A refusal takes what is stored where the store takes the erasure. -/
theorem dropHeld_stored (client : SynClient) (deed : Deed) : (client.dropHeld deed).device.stored =
    if client.deviceBuilt = true ∧ client.device.available = true ∧ deed.lands = true then none else client.device.stored := by
  unfold dropHeld DeviceCredential.erase
  dsimp only
  cases client.deviceBuilt <;> cases client.device.available <;> cases deed.lands <;> rfl

theorem Final.answered_iff (hfinal : Final client) (h : Inv client) (hin : request ∈ client.requests)
    (answer : Answer) (deeds : Deeds) : Final (client.answered request answer deeds) ↔ client.Safe request answer deeds := by
  obtain ⟨after, hafter, hmoves, hbears⟩ := answered_moves client request answer deeds
  have hlate : after.late = if request.endings < client.endings then client.late ++ [request.id] else client.late := hmoves.late
  rw [hafter]
  constructor
  · intro hthen
    constructor
    · intro hcame
      have hself : request.id ∈ after.late := by
        rw [hlate, if_pos hcame]
        exact mem_append_right _ (mem_singleton_self _)
      have hnot : ¬after.Bears request.id := hthen.gone request.id hself
      by_contra hbrings
      rcases Bool.or_eq_true_iff.mp (Bool.not_eq_false _ ▸ hbrings) with hset | hsigns
      · obtain ⟨c, hc⟩ := exists_mem_of_ne_nil (setCookies request.id [] answer.cookies) (by simpa using hset)
        have hjar : c ∈ after.jar := hmoves.jar ▸ (setCookies_mem _).mpr (.inr hc)
        exact hnot (.inl ⟨c, mem_append_right _ hjar, setCookies_source _ hc⟩)
      · obtain ⟨hsign, hsigns⟩ := Bool.and_eq_true_iff.mp hsigns
        exact hnot (hbears hsign hsigns)
    · intro presented hspends hstatus hall held hheld
      have hnone : (client.dropHeld deeds.erase).device.stored = none := by rw [dropHeld_stored, if_pos hall]
      have hmem : (presented, client.device.stored, (client.dropHeld deeds.erase).device.stored) ∈
          client.refusals ++ client.refusal request answer deeds := by
        refine mem_append_right _ ?_
        simp only [refusal, mem_def.mp hspends, if_pos hstatus]
        exact mem_singleton_self _
      exact hthen.refused _ hmem hnone held hheld
  · rintro ⟨hbrings, hrefusal⟩
    constructor
    · intro n hn hbear
      have hn' : n ∈ client.late ∨ (n = request.id ∧ request.endings < client.endings) := by
        have hcases : n ∈ if request.endings < client.endings then client.late ++ [request.id] else client.late := hlate ▸ hn
        split at hcases
        · next hcame => exact (mem_append.mp hcases).imp_right fun he => ⟨mem_singleton.mp he, hcame⟩
        · exact .inl hcases
      have hbear' : client.Bears n ∨ (n = request.id ∧ brings request answer = true) := by
        rcases hmoves.bears n hbear with htaken | hgranted
        · rcases bears_of_take htaken with hbefore | ⟨rfl, hset⟩
          · exact .inl hbefore
          · exact .inr ⟨rfl, Bool.or_eq_true_iff.mpr (.inl (by simpa using hset))⟩
        · split at hgranted
          · next hsigns => exact .inr ⟨(Option.some.inj hgranted).symm, Bool.or_eq_true_iff.mpr (.inr hsigns)⟩
          · cases hgranted
      rcases hn' with hold | ⟨rfl, hcame⟩
      · rcases hbear' with hbefore | ⟨rfl, -⟩
        · exact hfinal.gone n hold hbefore
        · exact (h.late _ hold).2 request hin rfl
      · rcases hbear' with hbefore | ⟨-, hbrought⟩
        · exact (h.bears _ hbefore).2 request hin rfl
        · exact Bool.noConfusion ((hbrings hcame).symm.trans hbrought)
    · intro refusal hmem hnone held hheld
      rcases mem_append.mp hmem with hold | hnew
      · exact hfinal.refused refusal hold hnone held hheld
      · unfold SynClient.refusal at hnew
        split at hnew
        · next presented hspends =>
          split at hnew
          · next hstatus =>
            obtain rfl := mem_singleton.mp hnew
            -- What was stored is gone, so the erasure went through.
            have herased := hnone
            dsimp only at herased hheld
            rw [dropHeld_stored] at herased
            split at herased
            · next hall => exact hrefusal presented hspends hstatus hall held hheld
            · rw [herased] at hheld
              cases hheld
          · exact absurd hnew not_mem_nil
        · exact absurd hnew not_mem_nil

private theorem Final.step_iff (hfinal : Final client) (h : Inv client) (e : Event × Deeds) : Final (client.step e) ↔ client.Kept e := by
  rcases step_cases client e with ⟨n, answer, request, hreply, hfind, hstep⟩ | ⟨hmoves, hkept⟩
  · rw [hstep, hfinal.answered_iff h (mem_of_find?_eq_some hfind) answer e.2]
    simp only [Kept, hreply, hfind, mem_some_iff, forall_eq']
  · refine ⟨fun _ => hkept, fun _ => ⟨fun n hn hbear => ?_, fun refusal hmem => ?_⟩⟩
    · rw [hmoves.late] at hn
      exact hfinal.gone n hn ((hmoves.bears n hbear).resolve_right (some_ne_none n).symm)
    · rw [hmoves.refusals] at hmem
      exact hfinal.refused refusal hmem

/-- In a run no answer to a request made before a sign-out is had after it, and no refusal erases a credential it was
not of, exactly where each answer keeps the condition. -/
theorem signOut_final_iff (config : Config) (configCookie : List (String × String)) (device : DeviceCredential)
    (events : List (Event × Deeds)) :
    (∀ before after, events = before ++ after → Final (run step (make config configCookie device) before)) ↔
      Each step Kept (make config configCookie device) events :=
  have hadmitted : Each step (fun _ _ => True) (make config configCookie device) events := each_of_all (fun _ _ => trivial) _ _
  forall_prefix_iff (I := fun client => Inv client ∧ Final client) (fun _ e hI _ => hI.2.step_iff hI.1 e)
    (fun _ e hI _ hok => ⟨step_inv hI.1 e, (hI.2.step_iff hI.1 e).mpr hok⟩) ⟨make_inv .., make_final ..⟩ (make_final ..) hadmitted

def desktop : Config := ⟨"/login", "/logout", true, 500, 10000, "account", "laptop"⟩

def steady (event : Event) : Event × Deeds := (event, ⟨.done, .done, .done⟩)

def signedIn : Answer := ⟨200, "s1", "sid", "d1", "k1", none, []⟩

/-- A sign-in that is answered before the sign-out. -/
def answeredInTime : List (Event × Deeds) :=
  [ .start, .reply 0 ⟨200, "", "", "", "", none, [("sid", some "s0")]⟩, .login true "nonce" "verifier",
    .loopbackAnswer "code" "nonce" "", .reply 1 signedIn, .connected, .logout, .reply 2 ⟨200, "", "", "", "", none, [("sid", none)]⟩].map
    steady

theorem answeredInTime_final : Final (run step (make desktop [] ⟨true, none⟩) answeredInTime) :=
  (signOut_final_iff desktop [] ⟨true, none⟩ answeredInTime).mpr (by decide) answeredInTime [] (append_nil _).symm

def claimedAfterSignOut : List (Event × Deeds) :=
  [ .start, .login true "nonce" "verifier", .loopbackAnswer "code" "nonce" "", .logout, .reply 1 signedIn].map steady

def refusedAfterSignIn : List (Event × Deeds) :=
  [ .start, .login true "nonce" "verifier", .loopbackAnswer "code" "nonce" "", .reply 1 signedIn,
    .reply 0 ⟨404, "", "", "", "", none, []⟩].map steady

theorem signOut_not_final : ¬Final (run step (make desktop [] ⟨true, none⟩) claimedAfterSignOut) ∧
    ¬Final (run step (make desktop [] ⟨true, some ⟨"d0", "k0", none⟩⟩) refusedAfterSignIn) := by
  constructor
  · intro h
    exact h.gone 1 (by decide) (.inl ⟨⟨"sid", "s1", some 1⟩, by decide, rfl⟩)
  · intro h
    have hsame := h.refused (⟨"d0", "k0", none⟩, some ⟨"d1", "k1", some 1⟩, none) (by decide) rfl ⟨"d1", "k1", some 1⟩ rfl
    exact absurd hsame.1 (by decide)

end SynClient
end SynQt.Native
