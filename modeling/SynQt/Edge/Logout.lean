import SynQt.Edge.ProviderRun

namespace SynQt
open Lib DeviceRegistry Option

namespace SessionManager
variable {m : SessionManager} {now : Int}

/-- The id a request path takes a cookie to stand for. -/
def resolve (m : SessionManager) (now : Int) (id : QByteArray) : QByteArray :=
  if (m.rotationOf now id).isEmpty then id else m.rotationOf now id

/-- A hand-off in its grace leads from one id to another. -/
def HandsOver (m : SessionManager) (now : Int) (k k' : QByteArray) : Prop :=
  ∃ e, m.rotations.find k = some e ∧ now - e.atMs ≤ rotationGraceMs ∧ e.to_ = k'

/-- Along hand-offs, none or more of them. -/
def Chain (m : SessionManager) (now : Int) : QByteArray → QByteArray → Prop :=
  Relation.ReflTransGen (m.HandsOver now)

/-- Nothing else along the hand-offs of `id` is live, so a request path stays with `id`. -/
theorem resolve_eq_self (hl : m.Loopless) {id : QByteArray}
    (hdead : ∀ k, m.Chain now id k → k ≠ id → m.isLive now k = false) : m.resolve now id = id := by
  unfold resolve
  split
  · rfl
  · rename_i hne
    obtain ⟨e, he, hgrace, hto, hlive⟩ := rotationOf_eq_some (mt List.isEmpty_iff.mpr hne) rfl
    have hstep : m.Chain now id (m.rotationOf now id) :=
      Relation.ReflTransGen.single ⟨e, he, hgrace, hto⟩
    have hother : m.rotationOf now id ≠ id := hto ▸ hl id e he
    rw [hdead _ hstep hother] at hlive
    cases hlive

private theorem revoke_isLive (id k : QByteArray) :
    (m.revoke id).manager.isLive now k = if k = id then false else m.isLive now k := by
  have hw := m.revoke_within id
  simp only [isLive, lookup, revoke_lookup, hw.ttlMs]
  by_cases hk : k = id
  · simp only [if_pos hk]; rfl
  · simp only [if_neg hk]

/-- A revocation takes the hand-off its record points back at, and no other. -/
theorem revoke_rotations (id k : QByteArray) :
    (m.revoke id).manager.rotations.find k =
      if k ≠ [] ∧ (m.sessions.find id).map (·.rotatedFrom) = some k then none else m.rotations.find k := by
  unfold revoke
  cases hs : m.sessions.find id with
  | none => simp
  | some record =>
    simp only [removeRecord, dropRotationTo_lookup, map_some, Option.some.injEq]
    by_cases hk : k = record.rotatedFrom
    · simp [hk]
    · simp [hk, Ne.symm hk]

end SessionManager

namespace IdentityProvider
variable {keyFor : QByteArray → QString} {p : IdentityProvider} {now : Int}

def deviceRow (p : IdentityProvider) (family : QString) : Option DeviceRow :=
  p.devices.bind (·.devices.find family)

def boundFamily (keyFor : QByteArray → QString) (p : IdentityProvider) (id : QByteArray) : Option QString :=
  p.devices.bind fun devices => (devices.sessionFamily.find (keyFor id)).map (·.1)

section
variable {f : DeviceStore → DeviceStore} (hf : ∀ devices, (f devices).devices = devices.devices)
include hf

private theorem deviceRow_map (family : QString) : ({ p with devices := p.devices.map f } : IdentityProvider).deviceRow family =
      p.deviceRow family := by
  cases hd : p.devices <;> simp [deviceRow, hd, hf]

private theorem exec_devices (devices : DeviceStore) : (devices.exec f).1.devices = devices.devices := by
  unfold DeviceStore.exec
  split
  · exact hf devices
  · rfl

end

variable (devices : DeviceStore)

@[simp] theorem unbindSession_devices (id : QByteArray) :
    (unbindSession keyFor devices id).devices = devices.devices := by
  unfold unbindSession unbindSessionKey
  split
  · rfl
  · split
    · rfl
    · apply exec_devices
      exact fun _ => rfl

@[simp] theorem unbindSession_isHealthy (id : QByteArray) :
    (unbindSession keyFor devices id).isHealthy = devices.isHealthy := by
  unfold unbindSession unbindSessionKey DeviceStore.exec
  split
  · rfl
  · split
    · rfl
    · split <;> rfl

@[simp] theorem bindSession_devices (id : QByteArray) (family : QString) :
    (bindSession keyFor devices now id family).devices = devices.devices := by
  unfold bindSession
  split
  · rfl
  · simp only
    rw [exec_devices, exec_devices] <;> exact fun _ => rfl

private theorem familyOf_eq {id : QByteArray} (hid : id ≠ []) :
    familyOf keyFor devices id =
      if devices.isHealthy then ((devices.sessionFamily.find (keyFor id)).map (·.1)).getD "" else "" := by
  unfold familyOf isOpen
  cases hh : devices.isHealthy with
  | false => simp
  | true => cases hf : devices.sessionFamily.find (keyFor id) <;> simp [hid]

@[simp] theorem releaseTokens_deviceRow (key : QByteArray) (family : QString) :
    (p.releaseTokens key).deviceRow family = p.deviceRow family := by
  simp [deviceRow]

private theorem releaseTokens_tokens (key : QByteArray) (hr : (p.releaseTokens key).holder.reached = true) :
    (p.releaseTokens key).tokens.find key = none := by
  rw [releaseTokens_holder] at hr
  simp [releaseTokens, hr]

@[simp] theorem receive_deviceRow (e : Emission) (family : QString) :
    (receive keyFor now p e).deviceRow family = p.deviceRow family := by
  have forgot (token : QByteArray) : (p.forgetSession keyFor token).deviceRow family = p.deviceRow family := by
    rw [forgetSession, releaseTokens_deviceRow]
    exact deviceRow_map (unbindSession_devices · token) family
  obtain ⟨signal, m⟩ := e
  cases signal with
  | sessionExpired token => exact forgot token
  | sessionRemoved token =>
    simp only [receive]
    split
    · exact forgot token
    · rfl
  | sessionRotated from_ to_ =>
    simp only [receive, followRotation]
    split
    · rfl
    · have hrekeyed : (p.rekeyTokens from_ to_).deviceRow family = p.deviceRow family := by simp [deviceRow]
      rw [← hrekeyed]
      refine deviceRow_map (fun devices => ?_) family
      split
      · rfl
      · simp
  | sessionUpserted => rfl
  | rotationRecorded => rfl

@[simp] theorem perform_deviceRow (effect : Effect) (family : QString) :
    (p.perform keyFor now effect).deviceRow family = p.deviceRow family := by
  unfold perform
  have hq : ({ p with sessions := effect.manager } : IdentityProvider).deviceRow family =
      p.deviceRow family := rfl
  revert hq
  generalize ({ p with sessions := effect.manager } : IdentityProvider) = q
  induction effect.emitted generalizing q with
  | nil => exact id
  | cons e emitted ih => exact fun hq => ih (receive keyFor now q e) (by simpa using hq)

@[simp] theorem endSession_sessions (id : QByteArray) :
    (p.endSession keyFor now id).sessions = (p.sessions.revoke id).manager := by
  simp [endSession]

/-- The row of the family bound to the session goes, where the store takes the statement. -/
theorem endSession_deviceRow {id : QByteArray} (hid : id ≠ []) (family : QString) :
    (p.endSession keyFor now id).deviceRow family =
      if p.boundFamily keyFor id = some family ∧ family ≠ "" ∧ p.devices.map (·.isHealthy) = some true then none
      else p.deviceRow family := by
  simp only [endSession, releaseTokens_deviceRow, perform_deviceRow]
  cases hd : p.devices with
  | none => simp [deviceRow, boundFamily, hd]
  | some devices =>
    simp only [deviceRow, boundFamily, hd, map_some, bind_some, familyOf_eq devices hid]
    cases hf : devices.sessionFamily.find (keyFor id) with
    | none => simp
    | some entry =>
      cases hh : devices.isHealthy with
      | false => simp
      | true =>
        by_cases hname : entry.1 = ""
        · simp [hname]
        · by_cases hf : family = entry.1
          · simp [hname, hf, forget_find, hh]
          · simp [hname, hf, Ne.symm hf, forget_find, hh]

end IdentityProvider

namespace ProviderRun
open SessionManager IdentityProvider
variable {keyFor hashOf : QByteArray → QString} {cfg : IdentitySettings}
  {p : IdentityProvider} {now : Int} {id : QByteArray}

/-- What signing out with `id` promises, of the state before and the state after. -/
structure LoggedOut (keyFor : QByteArray → QString) (p p' : IdentityProvider) (now : Int) (id : QByteArray) :
    Prop where
  dead : ∀ k, p.sessions.Chain now id k → p'.sessions.isLive now k = false
  handoffs : ∀ k e, p'.sessions.rotations.find k = some e → e.to_ ≠ p.sessions.resolve now id
  family : ∀ family, p.boundFamily keyFor (p.sessions.resolve now id) = some family → p'.deviceRow family = none
  tokens : p'.tokens.find id = none ∧ p'.tokens.find (p.sessions.resolve now id) = none

/-- The id is the newest of its chain, its record points back at the only hand-off to it, and
the device store can forget the family bound to it. -/
structure Current (keyFor : QByteArray → QString) (p : IdentityProvider) (now : Int) (id : QByteArray) :
    Prop where
  newest : ∀ k, p.sessions.Chain now id k → k ≠ id → p.sessions.isLive now k = false
  pointedBack : ∀ k e, p.sessions.rotations.find k = some e → e.to_ = id →
    k ≠ [] ∧ (p.sessions.sessions.find id).map (·.rotatedFrom) = some k
  forgets : ∀ family, p.boundFamily keyFor id = some family →
    p.devices.map (·.isHealthy) = some true ∨ p.deviceRow family = none

private theorem Inv.boundFamily_ne (h : Inv p) {family : QString} (hb : p.boundFamily keyFor id = some family) :
    family ≠ "" := by
  obtain ⟨devices, hd, hentry⟩ := bind_eq_some_iff.mp hb
  obtain ⟨entry, he, rfl⟩ := map_eq_some_iff.mp hentry
  exact h.named devices hd _ entry he

private theorem Inv.endSession_tokens (h : Inv p) (id : QByteArray) :
    (p.endSession keyFor now id).tokens.find id = none := by
  have hinv : Inv (p.endSession keyFor now id) := h.endSession id
  cases hr : (p.endSession keyFor now id).holder.reached with
  | false => exact hinv.detached hr id
  | true =>
    unfold IdentityProvider.endSession at hr ⊢
    exact releaseTokens_tokens id hr

theorem Inv.endSession_iff (h : Inv p) (hid : id ≠ []) :
    LoggedOut keyFor p (p.endSession keyFor now id) now id ↔ Current keyFor p now id := by
  have hlive (k : QByteArray) : (p.endSession keyFor now id).sessions.isLive now k =
      if k = id then false else p.sessions.isLive now k := by
    rw [endSession_sessions, revoke_isLive]
  constructor
  · intro hout
    have hnewest : ∀ k, p.sessions.Chain now id k → k ≠ id → p.sessions.isLive now k = false := by
      intro k hk hne
      have hdead := hout.dead k hk
      rwa [hlive, if_neg hne] at hdead
    have hself := resolve_eq_self h.loopless hnewest
    refine ⟨hnewest, fun k e he hto => ?_, fun family hb => ?_⟩
    · by_contra hback
      refine hout.handoffs k e ?_ (hto.trans hself.symm)
      rw [endSession_sessions, revoke_rotations, if_neg hback]
      exact he
    · by_contra hkept
      rw [not_or] at hkept
      have hgone := hout.family family (hself.symm ▸ hb)
      rw [endSession_deviceRow hid, if_neg fun hforgot => hkept.1 hforgot.2.2] at hgone
      exact hkept.2 hgone
  · intro hcur
    have hself := resolve_eq_self h.loopless hcur.newest
    refine ⟨fun k hk => ?_, fun k e he hto => ?_, fun family hb => ?_, h.endSession_tokens id, ?_⟩
    · rw [hlive]
      split
      · rfl
      · exact hcur.newest k hk ‹_›
    · rw [endSession_sessions, revoke_rotations] at he
      split at he
      · cases he
      · exact absurd (hcur.pointedBack k e he (hto.trans hself)) ‹_›
    · rw [hself] at hb
      rw [endSession_deviceRow hid]
      split
      · rfl
      · rename_i hkept
        exact (hcur.forgets family hb).resolve_left fun hh => hkept ⟨hb, h.boundFamily_ne hb, hh⟩
    · rw [hself]
      exact h.endSession_tokens id

/-- In every state a run reaches, an admitted sign-out keeps its promise exactly when the cookie
carries the id at the end of its chain. -/
theorem logged_out_iff (keyFor hashOf : QByteArray → QString) (cfg : IdentitySettings) (defaultScope : QString) (ttlMinutes maximum started : Int) (holder : TokenHolder)
    (persists : Bool) (ops : List ProviderOp) (request : LogoutRequest)
    (hops : Each (step keyFor hashOf cfg) Fresh (start defaultScope ttlMinutes maximum started holder persists) ops)
    (hadmits : admitsLogout cfg request = true) (hid : cookieValue request.cookie cfg.cookieName ≠ []) :
    let s := run (step keyFor hashOf cfg) (start defaultScope ttlMinutes maximum started holder persists) ops
    let id := cookieValue request.cookie cfg.cookieName
    LoggedOut keyFor s.provider (handleLogout keyFor cfg s.provider s.now request).2 s.now id ↔
      Current keyFor s.provider s.now id := by
  intro s id
  have hinv : Inv s.provider := Each.invariant (fun s => Inv s.provider) (fun _ _ h hop => h.step hop) hops
    (Inv.start defaultScope ttlMinutes maximum started holder persists)
  have hended : (handleLogout keyFor cfg s.provider s.now request).2 = s.provider.endSession keyFor s.now id := by
    simp [handleLogout, hadmits, hid, id]
  rw [hended]
  exact hinv.endSession_iff hid

def settings : IdentitySettings where
  cookieName := asciiBytes "sid"
  sameSiteNone := false
  appRoute := "/"
  edgeOrigin := "https://app.test"
  device := DeviceRegistry.standard

/-- The ops after which a visitor is signed in as `s1`, on an enrolled device. -/
def signedIn : List ProviderOp :=
  [.callback (fun _ => false) (asciiBytes "state") (asciiBytes "s1") [] "user" [("sub", "u1")],
    .claim (asciiBytes "s1") (asciiBytes "x1") "f1" .user]

def elevatedSince : List ProviderOp := signedIn ++ [.setScope (asciiBytes "s2") (asciiBytes "s1") "admin" [] .keep]

def reached (ops : List ProviderOp) : ProviderRun :=
  run (step DeviceRegistry.lettersOf DeviceRegistry.lettersOf settings)
    (start "anonymous" 720 100000 0 .backend true) ops

def signOut (id : QString) : LogoutRequest := ⟨asciiBytes "same-origin", asciiBytes ("theme=dark; sid=" ++ id)⟩

def signedOut (ops : List ProviderOp) (id : QString) : IdentityProvider :=
  (handleLogout DeviceRegistry.lettersOf settings (reached ops).provider (reached ops).now (signOut id)).2

theorem logged_out_iff_signedIn :
    (reached signedIn).provider.sessions.isLive 0 (asciiBytes "s1") = true ∧
    LoggedOut DeviceRegistry.lettersOf (reached signedIn).provider (signedOut signedIn "s1") 0 (asciiBytes "s1") := by
  have norot (k : QByteArray) : (reached signedIn).provider.sessions.rotations.find k = none := rfl
  refine ⟨by decide, ?_⟩
  have hiff := logged_out_iff DeviceRegistry.lettersOf DeviceRegistry.lettersOf settings "anonymous" 720 100000 0
    .backend true signedIn (signOut "s1") (by decide) (by decide) (by decide)
  have hcookie : cookieValue (signOut "s1").cookie settings.cookieName = asciiBytes "s1" := by decide
  rw [hcookie] at hiff
  refine hiff.mpr ⟨fun k hk hne => ?_, fun k e he => ?_, fun family _ => .inl (by decide)⟩
  · obtain rfl | ⟨next, ⟨e, he, -⟩, -⟩ := hk.cases_head
    · exact absurd rfl hne
    · cases (norot _).symm.trans he
  · cases (norot k).symm.trans he

/-- A visitor who was elevated since the page was loaded signs out: the session the old id leads
to stays live, with its hand-off, its device family and its tokens. -/
theorem elevated_not_logged_out :
    (reached elevatedSince).provider.sessions.rotationOf 0 (asciiBytes "s1") = asciiBytes "s2" ∧
    (signedOut elevatedSince "s1").sessions.isLive 0 (asciiBytes "s2") = true ∧
    ((signedOut elevatedSince "s1").deviceRow "f1").isSome = true ∧
    ((signedOut elevatedSince "s1").tokens.find (asciiBytes "s2")).isSome = true ∧
    ¬ LoggedOut DeviceRegistry.lettersOf (reached elevatedSince).provider (signedOut elevatedSince "s1") 0
      (asciiBytes "s1") := by
  refine ⟨by decide, by decide, by decide, by decide, fun hout => ?_⟩
  have hled : (reached elevatedSince).provider.sessions.Chain 0 (asciiBytes "s1") (asciiBytes "s2") :=
    Relation.ReflTransGen.single ⟨⟨asciiBytes "s2", 0⟩, by decide, by decide, rfl⟩
  have hdead := hout.dead _ hled
  revert hdead
  decide

end ProviderRun
end SynQt
