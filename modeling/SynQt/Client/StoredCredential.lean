import SynQt.Client.CredentialSpending

/-! What the secure store holds between one launch and the next. A call that was given up on may take effect at any later
moment; the calls given up on are kept beside the client, with the credential it has received last. -/
namespace SynQt.Native
open Lib

/-- A call into the store that was not answered in time. -/
inductive Call where
  | save (held : Held)
  | erase
deriving DecidableEq

namespace DeviceCredential

/-- A call that is late and has not landed is given up on. -/
def abandonedByErase (device : DeviceCredential) (deed : Deed) : List Call :=
  if device.available && deed == .late false then [.erase] else []

def abandonedBySave (device : DeviceCredential) (held : Held) (deeds : Deeds) : List Call :=
  if !device.available || !held.isValid then []
  else match deeds.save with
    | .done => []
    | .failed => device.abandonedByErase deeds.erase
    | .late true => device.abandonedByErase deeds.erase
    | .late false => .save held :: device.abandonedByErase deeds.erase

def refusesErase (device : DeviceCredential) (deed : Deed) : Bool := device.available && deed == .failed

def refusesSave (device : DeviceCredential) (held : Held) (deeds : Deeds) : Bool :=
  !(!device.available || !held.isValid) && deeds.save != .done && device.refusesErase deeds.erase

end DeviceCredential

namespace SynClient
variable {client : SynClient}

/-- The credential that an event brings and the client takes: of a sign-in, or of a redemption. -/
def received (client : SynClient) (event : Event) : Option Held :=
  match client.replied event with
  | some (request, answer) =>
    let held : Held := ⟨answer.deviceId, answer.deviceSecret, some request.id⟩
    if signs request && answer.signsIn && held.isValid && client.deviceBuilt then some held else none
  | none => none

/-- Whether an event ends what the credential is for: the visitor signs out, or the edge refuses the credential. -/
def gives (client : SynClient) (event : Event) : Bool :=
  match event with
  | .logout => !client.config.logoutRoute.isEmpty
  | .reply _ _ =>
    match client.replied event with
    | some (request, answer) => (spends request).isSome && answer.status == 404
    | none => false
  | _ => false

end SynClient

namespace DeviceCredential
variable {device : DeviceCredential} {deed : Deed}

variable (device : DeviceCredential)

private theorem erase_stored (deed : Deed) :
    (device.erase deed).stored = if device.available && deed.lands then none else device.stored := by
  rw [erase]
  split
  · rfl
  · rfl

private theorem erased_iff (deed : Deed) (current : Option Held) :
    device.refusesErase deed = true ∨ (device.erase deed).stored = none ∨ (device.erase deed).stored = current ↔
      device.stored = none ∨ device.stored = current ∨ device.available = true ∧ deed ≠ .late false := by
  rw [erase_stored, refusesErase]
  cases device.available with
  | false => simp
  | true =>
    cases deed with
    | done => simp [Deed.lands]
    | failed => simp
    | late landed =>
      cases landed with
      | false => simp [Deed.lands]
      | true => simp [Deed.lands]

private theorem saved_iff {held : Held} (hvalid : held.isValid = true) (deeds : Deeds) :
    device.refusesSave held deeds = true ∨ (device.save held deeds).stored = none ∨ (device.save held deeds).stored = some held ↔
      device.stored = none ∨ device.stored = some held ∨
        device.available = true ∧ (deeds.save = .done ∨ deeds.save = .late true ∨ deeds.erase ≠ .late false) := by
  rw [refusesSave, save, hvalid]
  cases havailable : device.available with
  | false => simp
  | true =>
    have herased := device.erased_iff deeds.erase (some held)
    rw [havailable] at herased
    cases hsave : deeds.save with
    | done => simp
    | failed => simpa using herased
    | late landed =>
      cases landed with
      | false => simpa using herased
      | true =>
        have hwritten := ({ device with stored := some held } : DeviceCredential).erased_iff deeds.erase (some held)
        rw [refusesErase] at hwritten
        rw [refusesErase]
        simpa [havailable] using hwritten

end DeviceCredential

namespace SynClient
variable {client : SynClient}

variable (client : SynClient)

private theorem stored_presentOrBootstrap : client.presentOrBootstrap.device = client.device := by
  unfold presentOrBootstrap
  split
  · rfl
  · rfl

private theorem stored_openSession (deed : Deed) : (client.openSession deed).device.stored = client.device.stored := by
  have hstore : client.deviceStore.device = client.device := by
    unfold deviceStore
    split
    · rfl
    · rfl
  unfold openSession
  split
  · rfl
  dsimp only
  split
  swap
  · rw [stored_presentOrBootstrap, hstore]
  have hloaded : (client.deviceStore.loadHeld deed).device.stored = client.device.stored := by
    unfold loadHeld
    split
    · rw [hstore]
    · exact (client.deviceStore.device.stored_load deed).trans (congrArg DeviceCredential.stored hstore)
  split
  · exact hloaded
  · rw [stored_presentOrBootstrap, hloaded]

private theorem stored_keep (held : Held) (deeds : Deeds) :
    (client.keep held deeds).device = if held.isValid && client.deviceBuilt then client.device.save held deeds else client.device := by
  unfold keep
  split
  · rfl
  · rfl

theorem stored_answered (request : Request) (answer : Answer) (deeds : Deeds) :
    (client.answered request answer deeds).device.stored =
      let held : Held := ⟨answer.deviceId, answer.deviceSecret, some request.id⟩
      if signs request && answer.signsIn && held.isValid && client.deviceBuilt then (client.device.save held deeds).stored
      else if (spends request).isSome && answer.status == 404 then
        (if client.deviceBuilt then client.device.erase deeds.erase else client.device).stored
      else client.device.stored := by
  have hbuilt : (client.take request answer).deviceBuilt = client.deviceBuilt ∧ (client.take request answer).device = client.device := ⟨rfl, rfl⟩
  unfold answered signs spends
  dsimp only
  generalize client.take request answer = taken at hbuilt
  rw [← hbuilt.1, ← hbuilt.2]
  cases request.kind with
  | claim code verifier device =>
    dsimp only
    rw [Bool.true_and, Option.isSome_none, Bool.false_and, if_neg Bool.false_ne_true, claimAnswered]
    dsimp only
    cases hsigns : answer.signsIn with
    | false => rfl
    | true =>
      rw [Bool.not_true, if_neg Bool.false_ne_true, Bool.true_and]
      refine (congrArg DeviceCredential.stored (stored_keep taken.endDesktopLogin _ deeds)).trans ?_
      exact apply_ite DeviceCredential.stored _ _ _
  | redeem presented =>
    dsimp only
    rw [Bool.true_and, Option.isSome_some, Bool.true_and, redeemAnswered]
    dsimp only
    cases hsigns : answer.signsIn with
    | true =>
      have hstatus : ¬ (answer.status == 404) = true := by
        rw [answer.signsIn_status hsigns]
        decide
      rw [if_pos rfl, Bool.true_and, if_neg hstatus]
      refine (congrArg DeviceCredential.stored (stored_keep { taken with redeeming := false } _ deeds)).trans ?_
      exact apply_ite DeviceCredential.stored _ _ _
    | false =>
      rw [if_neg Bool.false_ne_true, Bool.false_and, Bool.false_and, if_neg Bool.false_ne_true]
      by_cases hgone : answer.status = 404
      · rw [if_pos hgone, if_pos (beq_iff_eq.mpr hgone), stored_presentOrBootstrap]
        rfl
      · rw [if_neg hgone, if_neg (mt beq_iff_eq.mp hgone)]
        split
        · rw [stored_presentOrBootstrap]
        · rw [stored_presentOrBootstrap]
  | bootstrap => rfl
  | logout cookie => exact stored_openSession { taken with sessionCookie := [], configCookie := [] } deeds.load

theorem stored_step (e : Event × Deeds) : (client.step e).device.stored =
    match client.received e.1 with
    | some held => (client.device.save held e.2).stored
    | none =>
      if client.gives e.1 then (if client.deviceBuilt then client.device.erase e.2.erase else client.device).stored
      else client.device.stored := by
  obtain ⟨event, deeds⟩ := e
  cases event with
  | start => exact stored_openSession client deeds.load
  | login listens loginState loginVerifier =>
    show (client.beginLogin listens loginState loginVerifier).device.stored = client.device.stored
    unfold beginLogin
    split
    · rfl
    · rfl
  | loopbackAnswer code state error =>
    show (client.step (.loopbackAnswer code state error, deeds)).device.stored = client.device.stored
    have hclaimed : (client.claimSession code).device.stored = client.device.stored := by
      unfold claimSession deviceStore
      split
      · rfl
      · rfl
    simp only [step]
    split
    · unfold onLoginAnswer
      split
      · rfl
      · split
        · rfl
        · exact hclaimed
    · rfl
  | loginTimeout =>
    show (client.step (.loginTimeout, deeds)).device.stored = client.device.stored
    simp only [step]
    split
    · rfl
    · rfl
  | logout =>
    have hreceived : client.received .logout = none := rfl
    have hgives : client.gives .logout = !client.config.logoutRoute.isEmpty := rfl
    show (client.endSession deeds).device.stored = _
    simp only [hreceived, hgives, endSession]
    cases client.config.logoutRoute.isEmpty with
    | true => rfl
    | false => rfl
  | reconnect =>
    show (client.step (.reconnect, deeds)).device.stored = client.device.stored
    simp only [step]
    split
    · exact stored_openSession { client with reconnectTimer := none } deeds.load
    · rfl
  | handshakeTimeout =>
    show (client.step (.handshakeTimeout, deeds)).device.stored = client.device.stored
    simp only [step, onDisconnected, scheduleReconnect]
    split_ifs
    · rfl
    · rfl
    · rfl
    · rfl
  | connected =>
    show (client.step (.connected, deeds)).device.stored = client.device.stored
    simp only [step]
    split
    · rfl
    · rfl
  | disconnected =>
    show (client.step (.disconnected, deeds)).device.stored = client.device.stored
    simp only [step, onDisconnected, scheduleReconnect]
    split_ifs
    · rfl
    · rfl
    · rfl
    · rfl
  | elapse ms => rfl
  | reply n answer =>
    cases hfind : client.requests.find? (·.id = n) with
    | none => simp only [step, received, gives, replied, hfind, Option.map_none]; rfl
    | some request =>
      simp only [step, received, gives, replied, hfind, Option.map_some]
      rw [stored_answered]
      dsimp only
      split
      · rfl
      · rfl

end SynClient

/-- The client and its store: the calls given up on, the credential received last unless it was signed out of or refused, and
whether the store has refused to erase. -/
structure Keyring where
  client : SynClient
  abandoned : List Call := []
  current : Option Held
  refused : Bool := false

namespace Keyring
open SynClient

inductive Act where
  | event (e : Event × Deeds)
  | land (i : Nat)

def putStored (client : SynClient) (stored : Option Held) : SynClient :=
  { client with device := { client.device with stored := stored } }

def step (k : Keyring) : Act → Keyring
  | .event e =>
    let device := k.client.device
    match k.client.received e.1 with
    | some given =>
      { client := k.client.step e
        abandoned := k.abandoned ++ device.abandonedBySave given e.2
        current := some given
        refused := k.refused || device.refusesSave given e.2 }
    | none =>
      if k.client.gives e.1 then
        { client := k.client.step e
          abandoned := k.abandoned ++ if k.client.deviceBuilt then device.abandonedByErase e.2.erase else []
          current := none
          refused := k.refused || k.client.deviceBuilt && device.refusesErase e.2.erase }
      else { k with client := k.client.step e }
  | .land i =>
    match k.abandoned[i]? with
    | some (.save given) => { k with client := putStored k.client (some given), abandoned := k.abandoned.eraseIdx i }
    | some .erase => { k with client := putStored k.client none, abandoned := k.abandoned.eraseIdx i }
    | none => k

/-- At launch what the store has is what an earlier launch received last. -/
def make (client : SynClient) : Keyring := { client := client, current := client.device.stored }

/-- The store holds nothing or what is current, unless it has refused to erase. -/
def Current (k : Keyring) : Prop := k.refused = true ∨ k.client.device.stored = none ∨ k.client.device.stored = k.current
deriving Decidable

/-- The condition on an event. A credential received is written, or what is stored is erased; where neither is for certain, or
the store is written off, there is nothing older in it. One that was signed out of or refused is erased, or there is none. -/
def Settles (k : Keyring) (e : Event × Deeds) : Prop :=
  let device := k.client.device
  match k.client.received e.1 with
  | some given => device.stored = none ∨ device.stored = some given ∨
      device.available = true ∧ (e.2.save = .done ∨ e.2.save = .late true ∨ e.2.erase ≠ .late false)
  | none => k.client.gives e.1 = true → device.stored = none ∨
      k.client.deviceBuilt = true ∧ device.available = true ∧ e.2.erase ≠ .late false

def Lands (k : Keyring) (i : Nat) : Prop := ∀ held, k.abandoned[i]? = some (.save held) → k.current = some held

def Ok (k : Keyring) (act : Act) : Prop :=
  k.refused = true ∨ match act with
    | .event e => k.Settles e
    | .land i => k.Lands i

variable {k : Keyring}

private theorem received_isValid {client : SynClient} {event : Event} {held : Held} (h : client.received event = some held) : held.isValid = true := by
  unfold received at h
  split at h
  · dsimp only at h
    split at h
    · next htaken =>
      rw [Bool.and_eq_true, Bool.and_eq_true] at htaken
      exact Option.some.inj h ▸ htaken.1.2
    · cases h
  · cases h

theorem current_event_iff (h : Current k) (e : Event × Deeds) : Current (k.step (.event e)) ↔ Ok k (.event e) := by
  have hstored := stored_step k.client e
  unfold Current Ok Settles
  cases hreceived : k.client.received e.1 with
  | some held =>
    rw [hreceived] at hstored
    simp only [step, hreceived, Bool.or_eq_true]
    rw [hstored, or_assoc]
    exact or_congr_right (k.client.device.saved_iff (received_isValid hreceived) e.2)
  | none =>
    rw [hreceived] at hstored
    cases hgives : k.client.gives e.1 with
    | false =>
      rw [hgives] at hstored
      simp only [step, hreceived, hgives]
      rw [if_neg Bool.false_ne_true]
      dsimp only at hstored ⊢
      rw [if_neg Bool.false_ne_true] at hstored
      rw [hstored]
      exact ⟨fun _ => .inr nofun, fun _ => h⟩
    | true =>
      rw [hgives] at hstored
      simp only [step, hreceived, hgives]
      rw [if_pos trivial]
      dsimp only at hstored ⊢
      rw [if_pos rfl] at hstored
      rw [hstored, Bool.or_eq_true, or_assoc]
      refine or_congr_right ?_
      cases k.client.deviceBuilt with
      | false => simp
      | true =>
        have herased := k.client.device.erased_iff e.2.erase none
        simpa using herased

private theorem current_land_iff (h : Current k) (i : Nat) : Current (k.step (.land i)) ↔ Ok k (.land i) := by
  unfold Current Ok Lands
  cases hcall : k.abandoned[i]? with
  | none =>
    simp only [step, hcall]
    exact ⟨fun _ => .inr nofun, fun _ => h⟩
  | some call =>
    cases call with
    | erase =>
      simp only [step, hcall]
      exact ⟨fun _ => .inr fun held hsave => absurd (Option.some.inj hsave) Call.noConfusion, fun _ => .inr (.inl rfl)⟩
    | save held =>
      simp only [step, hcall]
      refine or_congr_right ⟨fun hthen held' hsame => ?_, fun hcurrent => .inr (hcurrent held rfl).symm⟩
      obtain rfl := Call.save.inj (Option.some.inj hsame)
      exact (hthen.resolve_left (Option.some_ne_none held)).symm

/-- In a run the store holds nothing or what is current after each event and each late effect, unless it refused to erase, exactly
where each of them meets the condition. -/
theorem stored_current_iff (config : Config) (configCookie : List (String × String)) (device : DeviceCredential) (acts : List Act) :
    (∀ before after, acts = before ++ after → Current (run step (make (SynClient.make config configCookie device)) before)) ↔
      Each step Ok (make (SynClient.make config configCookie device)) acts := by
  have hstart : Current (make (SynClient.make config configCookie device)) := .inr (.inr rfl)
  have hadmitted : Each step (fun _ _ => True) (make (SynClient.make config configCookie device)) acts := each_of_all (fun _ _ => trivial) _ _
  have hstep (k : Keyring) (act : Act) (h : Current k) : Current (k.step act) ↔ Ok k act := by
    cases act with
    | event e => exact current_event_iff h e
    | land i => exact current_land_iff h i
  exact forall_prefix_iff (I := Current) (fun k act h _ => hstep k act h) (fun k act h _ hok => (hstep k act h).mpr hok)
    hstart hstart hadmitted

/-- A redemption whose credential is saved too late, so that it is erased and the store written off; the next redemption is not
stored; and then the first save takes effect. -/
def landsLate : List Act :=
  [.start, .reply 0 (Ledger.rotated "1"), .connected, .disconnected, .reconnect, .disconnected, .reconnect,
    .reply 1 (Ledger.rotated "2")].map (fun event => .event (event, ⟨.done, .late false, .done⟩)) ++ [.land 0]

/-- What is stored then is the credential the second redemption spent. -/
theorem landsLate_not_current : ¬ ∀ before after, landsLate = before ++ after →
    Current (run step (make (SynClient.make desktop [] ⟨true, some ⟨"d0", "k0", none⟩⟩)) before) := by
  intro hcurrent
  have hlast := hcurrent landsLate [] (List.append_nil _).symm
  exact absurd hlast (by decide +kernel)

end Keyring
end SynQt.Native
