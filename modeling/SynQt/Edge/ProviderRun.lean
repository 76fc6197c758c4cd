import SynQt.Edge.IdentityProvider

/-! An identity provider over a run of its routes and of the session table below it, and
what holds between any two steps. -/
namespace SynQt
open Lib DeviceRegistry

namespace SessionManager
variable {m : SessionManager}

def Loopless (m : SessionManager) : Prop := ∀ k e, m.rotations.find k = some e → e.to_ ≠ k

theorem Within.loopless {m' : SessionManager} (h : m'.Within m) (hl : m.Loopless) : m'.Loopless :=
  fun k e he => hl k e (h.rotations k e he)

section
variable (hl : m.Loopless)
include hl

private theorem createSession_loopless (now : Int) (inUse : QByteArray → Bool)
    (fresh : QByteArray) (scope : QString) (identity : QVariantMap) :
    (m.createSession now inUse fresh scope identity).1.manager.Loopless := by
  rcases m.createSession_cases now inUse fresh scope identity with
    ⟨_, hw, _⟩ | ⟨_, kept, _, hw, hm, _⟩
  · exact hw.loopless hl
  · intro k e he
    rw [hm] at he
    exact hw.loopless hl k e (by simpa using he)

private theorem setScope_loopless (now : Int) {fresh : QByteArray} (hf : m.Unused fresh)
    (wasId : QByteArray) (scope : QString) (identity : QVariantMap) (handoff : Handoff) :
    (m.setScope now fresh wasId scope identity handoff).1.manager.Loopless := by
  obtain ⟨-, hsess, hrot⟩ := hf
  cases hold : m.sessions.find wasId with
  | none => simpa [setScope_of_none hold] using hl
  | some old =>
    intro k e he
    cases handoff with
    | none => exact hl k e (by rwa [setScope_none_rotations] at he)
    | keep =>
      rw [setScope_keep_rotations hold] at he
      split at he
      · rename_i hk
        obtain rfl : (⟨fresh, now⟩ : Rotation) = e := by simpa using he
        rintro rfl
        rw [← hk, hsess] at hold
        cases hold
      · split at he
        · obtain ⟨head, hhead, rfl⟩ := Option.map_eq_some_iff.mp he
          rintro rfl
          rw [hrot] at hhead
          cases hhead
        · exact hl k e he

private theorem receive_loopless (now : Int) (message : StoreMessage) :
    (message.receive m now).manager.Loopless := by
  cases message with
  | sessionUpserted => simpa [StoreMessage.receive, applyUpsert, Loopless] using hl
  | sessionRemoved token => exact (applyRemove_within token).loopless hl
  | sessionRotated from_ to_ =>
    intro k e he
    simp only [StoreMessage.receive, applyRotation_rotations] at he
    split at he
    · rename_i ht
      obtain rfl : (⟨to_, now⟩ : Rotation) = e := by simpa using he
      rw [ht.2]
      exact fun heq => ht.1.2.2.1 heq.symm
    · exact hl k e he

private theorem revokeByKey_loopless (keyFor : QByteArray → QString) (key : QString) :
    (m.revokeByKey keyFor key).manager.Loopless := by
  unfold revokeByKey
  split
  · exact hl
  · split
    · exact hl
    · exact (revoke_within _).loopless hl

end

end SessionManager

open IdentityProvider

structure ProviderRun where
  provider : IdentityProvider
  now : Int

inductive ProviderOp where
  | createSession (inUse : QByteArray → Bool) (fresh : QByteArray)
  | callback (inUse : QByteArray → Bool) (state fresh : QByteArray) (held : QVariantMap) (scope : QString)
      (identity : QVariantMap)
  | claim (claimed secret : QByteArray) (family : QString) (binding : DeviceBinding)
  | device (inUse : QByteArray → Bool) (family : QString) (secret next fresh : QByteArray) (scope : QString)
  | setScope (fresh id : QByteArray) (scope : QString) (identity : QVariantMap) (handoff : Handoff)
  | revoke (id : QByteArray)
  | store (message : StoreMessage)
  | sweep
  | logout (request : LogoutRequest)
  | attachRemote
  | health (isHealthy : Bool)
  | advance (ms : Nat)

namespace ProviderRun
variable (keyFor hashOf : QByteArray → QString) (cfg : IdentitySettings)

/-- Empty tables, with or without a device store. -/
def start (defaultScope : QString) (ttlMinutes maximum now : Int) (holder : TokenHolder)
    (persists : Bool) : ProviderRun where
  provider :=
    { sessions := (SessionManager.make defaultScope ttlMinutes).setMaximumSessions maximum
      devices := if persists then some ⟨true, ∅, ∅⟩ else none
      holder := holder
      tokens := ∅ }
  now := now

def step (s : ProviderRun) : ProviderOp → ProviderRun
  | .createSession inUse fresh =>
    { s with provider :=
        s.provider.perform keyFor s.now (s.provider.sessions.createSession s.now inUse fresh "" []).1 }
  | .callback inUse state fresh held scope identity =>
    { s with provider := s.provider.finishCallback keyFor s.now inUse state fresh held scope identity }
  | .claim claimed secret family binding =>
    { s with provider := finishClaim keyFor hashOf cfg s.provider s.now claimed secret family binding }
  | .device inUse family secret next fresh scope =>
    { s with provider := finishDevice keyFor hashOf cfg s.provider s.now inUse family secret next fresh scope }
  | .setScope fresh id scope identity handoff =>
    { s with provider :=
        s.provider.perform keyFor s.now (s.provider.sessions.setScope s.now fresh id scope identity handoff).1 }
  | .revoke id => { s with provider := s.provider.perform keyFor s.now (s.provider.sessions.revoke id) }
  | .store message =>
    { s with provider := s.provider.perform keyFor s.now (message.receive s.provider.sessions s.now) }
  | .sweep =>
    let swept := s.provider.sessions.purgeExpired s.now
    { s with provider := s.provider.perform keyFor s.now ⟨swept.1, swept.2, []⟩ }
  | .logout request => { s with provider := (handleLogout keyFor cfg s.provider s.now request).2 }
  | .attachRemote =>
    let holder := match s.provider.holder with
      | .backend => TokenHolder.backend
      | .entity _ => .entity true
    { s with provider := { s.provider with holder := holder } }
  | .health isHealthy =>
    let devices := s.provider.devices.map fun devices => { devices with isHealthy := isHealthy }
    { s with provider := { s.provider with devices := devices } }
  | .advance ms => { s with now := s.now + ms }

/-- The generator answers an id the table does not use. -/
def Fresh (s : ProviderRun) : ProviderOp → Prop
  | .setScope fresh _ _ _ _ => s.provider.sessions.Unused fresh
  | _ => True

instance (s : ProviderRun) : (op : ProviderOp) → Decidable (s.Fresh op)
  | .setScope fresh _ _ _ _ => inferInstanceAs (Decidable (s.provider.sessions.Unused fresh))
  | .createSession .. | .callback .. | .claim .. | .device .. | .revoke _ | .store _ | .sweep | .logout _ | .attachRemote
  | .health _ | .advance _ => .isTrue trivial

/-- What holds of the provider between any two steps. -/
structure Inv (p : IdentityProvider) : Prop where
  loopless : p.sessions.Loopless
  named : ∀ devices ∈ p.devices, ∀ key entry, devices.sessionFamily.find key = some entry → entry.1 ≠ ""
  /-- Tokens this edge could not have released, it does not hold. -/
  detached : p.holder.reached = false → ∀ key, p.tokens.find key = none

variable {keyFor hashOf cfg}

namespace Inv
variable {p : IdentityProvider} {now : Int}

/-- Writing to the device tables keeps the invariant when it binds no unnamed family. -/
theorem withDevices (h : Inv p) {f : DeviceStore → DeviceStore}
    (hf : ∀ devices key entry, (f devices).sessionFamily.find key = some entry →
      devices.sessionFamily.find key = some entry ∨ entry.1 ≠ "") :
    Inv { p with devices := p.devices.map f } := by
  refine ⟨h.loopless, fun devices hd key entry he => ?_, h.detached⟩
  obtain ⟨before, hbefore, rfl⟩ := Option.map_eq_some_iff.mp hd
  rcases hf before key entry he with hold | hnew
  · exact h.named before hbefore key entry hold
  · exact hnew

variable (devices : DeviceStore)

private theorem unbindSessionKey_sub (sessionKey key : QString) (entry : QString × Int)
    (h : (unbindSessionKey devices sessionKey).sessionFamily.find key = some entry) :
    devices.sessionFamily.find key = some entry := by
  unfold unbindSessionKey DeviceStore.exec at h
  split at h
  · exact h
  · split at h
    · simp only [Hash.find_erase] at h
      split at h
      · cases h
      · exact h
    · exact h

private theorem unbindSession_sub (id : QByteArray) (key : QString) (entry : QString × Int)
    (h : (unbindSession keyFor devices id).sessionFamily.find key = some entry) :
    devices.sessionFamily.find key = some entry := by
  unfold unbindSession at h
  split at h
  · exact h
  · exact unbindSessionKey_sub _ _ _ _ h

private theorem bindSession_sub (id : QByteArray) (family key : QString)
    (entry : QString × Int)
    (h : (bindSession keyFor devices now id family).sessionFamily.find key = some entry) :
    devices.sessionFamily.find key = some entry ∨ entry.1 ≠ "" := by
  unfold bindSession at h
  split at h
  · exact .inl h
  · rename_i hguard
    simp only [isOpen, Bool.or_eq_true, Bool.not_eq_true', String.isEmpty_iff, not_or,
      Bool.not_eq_false] at hguard
    simp only [DeviceStore.exec, hguard.1.1, if_true, Hash.find_insert, Hash.find_erase] at h
    split at h
    · cases h
      exact .inr hguard.2
    · exact .inl h

theorem releaseTokens (h : Inv p) (key : QByteArray) : Inv (p.releaseTokens key) := by
  refine ⟨by simpa using h.loopless, by simpa using h.named, fun hd k => ?_⟩
  rw [releaseTokens_holder] at hd
  simpa [IdentityProvider.releaseTokens, hd] using h.detached hd k

theorem rekeyTokens (h : Inv p) (a b : QByteArray) : Inv (p.rekeyTokens a b) := by
  refine ⟨by simpa using h.loopless, by simpa using h.named, fun hd k => ?_⟩
  rw [rekeyTokens_holder] at hd
  simpa [IdentityProvider.rekeyTokens, hd] using h.detached hd k

theorem forgetSession (h : Inv p) (id : QByteArray) : Inv (p.forgetSession keyFor id) :=
  (h.withDevices fun devices key entry he => .inl (unbindSession_sub devices id key entry he)).releaseTokens id

theorem followRotation (h : Inv p) (from_ to_ : QByteArray) : Inv (p.followRotation keyFor now from_ to_) := by
  unfold IdentityProvider.followRotation
  split
  · exact h
  · refine (h.rekeyTokens from_ to_).withDevices fun devices key entry he => ?_
    simp only at he
    split at he
    · exact .inl he
    · exact (bindSession_sub _ _ _ _ _ he).imp (unbindSession_sub _ _ _ _) id

theorem receive (h : Inv p) (e : Emission) : Inv (receive keyFor now p e) := by
  obtain ⟨signal, m⟩ := e
  cases signal with
  | sessionExpired token => exact h.forgetSession token
  | sessionRemoved token =>
    simp only [IdentityProvider.receive]
    split
    · exact h.forgetSession token
    · exact h
  | sessionRotated from_ to_ => exact h.followRotation from_ to_
  | sessionUpserted => exact h
  | rotationRecorded => exact h

theorem perform (keyFor : QByteArray → QString) (now : Int) (h : Inv p) {effect : Effect} (hl : effect.manager.Loopless) :
    Inv (p.perform keyFor now effect) := by
  unfold IdentityProvider.perform
  have hq : Inv { p with sessions := effect.manager } := ⟨hl, h.named, h.detached⟩
  revert hq
  generalize ({ p with sessions := effect.manager } : IdentityProvider) = q
  induction effect.emitted generalizing q with
  | nil => exact id
  | cons e emitted ih => exact fun hq => ih (IdentityProvider.receive keyFor now q e) (hq.receive e)

theorem bindFamily (h : Inv p) (id : QByteArray) (family : QString) : Inv (p.bindFamily keyFor now id family) := by
  unfold IdentityProvider.bindFamily
  split
  · exact h
  · exact h.withDevices fun devices key entry he => bindSession_sub devices id family key entry he

theorem callback (h : Inv p) (inUse : QByteArray → Bool) (state fresh : QByteArray) (held : QVariantMap)
    (scope : QString) (identity : QVariantMap) :
    Inv (p.finishCallback keyFor now inUse state fresh held scope identity) := by
  unfold IdentityProvider.finishCallback
  split
  · exact h
  · rename_i hreached
    have hex : Inv { p with tokens := p.tokens.insert state ⟨held, false⟩ } :=
      ⟨h.loopless, h.named, fun hd => absurd hd (by simpa using hreached)⟩
    simp only
    split
    · exact hex.releaseTokens state
    · have hcreated := hex.perform keyFor now
        (SessionManager.createSession_loopless h.loopless now inUse fresh scope identity)
      split
      · exact hcreated.releaseTokens state
      · exact hcreated.rekeyTokens state _

private theorem exec_sub {devices : DeviceStore} {f : DeviceStore → DeviceStore}
    (hf : ∀ key entry, (f devices).sessionFamily.find key = some entry →
      devices.sessionFamily.find key = some entry) (key : QString) (entry : QString × Int)
    (h : (devices.exec f).1.sessionFamily.find key = some entry) :
    devices.sessionFamily.find key = some entry := by
  unfold DeviceStore.exec at h
  split at h
  · exact hf key entry h
  · exact h

private theorem forget_sub (family key : QString) (entry : QString × Int)
    (h : (forget devices family).sessionFamily.find key = some entry) :
    devices.sessionFamily.find key = some entry := by
  unfold forget at h
  split at h
  · exact h
  · exact exec_sub (fun _ _ he => he) key entry h

private theorem enrol_sub (family : QString) (secret : QByteArray) (sub : QString)
    (identity : QVariantMap) (edgeOrigin : QString) (binding : DeviceBinding) (key : QString)
    (entry : QString × Int)
    (h : (enrol hashOf cfg.device devices now family secret sub identity edgeOrigin
      binding).1.sessionFamily.find key = some entry) :
    devices.sessionFamily.find key = some entry := by
  have purged (key : QString) (entry : QString × Int)
      (hp : (purgeExpired cfg.device devices now).sessionFamily.find key = some entry) :
      devices.sessionFamily.find key = some entry := by
    unfold purgeExpired at hp
    have hkept := exec_sub (fun _ _ he => ((Hash.find_filter_eq_some _ _ _ _).mp he).1) key entry hp
    exact exec_sub (fun _ _ he => he) key entry hkept
  unfold enrol at h
  split at h
  · exact h
  · split at h
    · exact h
    · simp only at h
      split at h
      · exact purged key entry h
      · split at h <;> exact purged key entry (exec_sub (fun _ _ he => he) key entry h)

private theorem redeem_sub (hashOf : QByteArray → QString) (cfg : IdentitySettings) (now : Int)
    (devices : DeviceStore) (fresh : QByteArray) (family : QString) (secret : QByteArray)
    (edgeOrigin key : QString) (entry : QString × Int)
    (h : (redeem hashOf cfg.device devices now fresh family secret
      edgeOrigin).1.sessionFamily.find key = some entry) :
    devices.sessionFamily.find key = some entry := by
  unfold redeem at h
  split at h
  · exact h
  · rename_i row _
    cases hv : judge hashOf cfg.device now edgeOrigin secret row with
    | refused => rwa [hv] at h
    | lapsed | reused => rw [hv] at h; exact forget_sub devices family key entry h
    | rotate retire =>
      rw [hv] at h
      have hissue : (issue hashOf devices fresh family row.currentHash row.currentGen now
          row.expiresMs retire).1.sessionFamily.find key = some entry := by
        simp only [settle] at h
        split at h <;> exact h
      unfold issue at hissue
      have hexec : (devices.exec (·.update family (rotated hashOf fresh row.currentHash
          row.currentGen now retire))).1.sessionFamily.find key = some entry := by
        simp only at hissue
        split at hissue <;> exact hissue
      refine exec_sub (fun key entry he => ?_) key entry hexec
      unfold DeviceStore.update at he
      split at he <;> exact he

private theorem replaceDevices (h : Inv p) {devices devices' : DeviceStore} (hd : p.devices = some devices)
    (hsub : ∀ key entry, devices'.sessionFamily.find key = some entry →
      devices.sessionFamily.find key = some entry) : Inv { p with devices := some devices' } := by
  refine ⟨h.loopless, fun d hmem key entry he => ?_, h.detached⟩
  obtain rfl : devices' = d := Option.some.inj hmem
  exact h.named devices hd key entry (hsub key entry he)

theorem claim (h : Inv p) (claimed secret : QByteArray) (family : QString) (binding : DeviceBinding) :
    Inv (finishClaim keyFor hashOf cfg p now claimed secret family binding) := by
  unfold finishClaim
  split
  · rename_i devices record hd _
    split
    · exact h
    · exact (h.replaceDevices hd fun key entry he =>
        enrol_sub _ _ _ _ _ _ _ key entry he).bindFamily claimed _
  · exact h

theorem reuse (h : Inv p) (family : QString) : Inv (p.onReuseDetected keyFor now family) := by
  unfold onReuseDetected
  split
  · exact h
  · rename_i devices hd
    generalize sessionsOfFamily devices family = keys
    clear hd
    induction keys generalizing p with
    | nil => exact h
    | cons key keys ih =>
      have hp : Inv { p with devices := p.devices.map (unbindSessionKey · key) } :=
        h.withDevices fun d k entry he => .inl (unbindSessionKey_sub d key k entry he)
      exact ih (hp.perform keyFor now (SessionManager.revokeByKey_loopless h.loopless keyFor key))

theorem device (h : Inv p) (inUse : QByteArray → Bool) (family : QString) (secret next fresh : QByteArray)
    (scope : QString) : Inv (finishDevice keyFor hashOf cfg p now inUse family secret next fresh scope) := by
  unfold finishDevice
  split
  · exact h
  · rename_i devices hd
    split
    · exact h
    · have hspent := h.replaceDevices hd fun key entry he =>
        redeem_sub hashOf cfg now devices next family secret cfg.edgeOrigin key entry he
      simp only
      split
      · exact hspent.reuse family
      · split
        · exact hspent
        · have hcreated := hspent.perform keyFor now (SessionManager.createSession_loopless h.loopless now inUse
            fresh scope (redeem hashOf cfg.device devices now next family secret
              cfg.edgeOrigin).2.1.identity)
          split
          · exact hcreated
          · exact hcreated.bindFamily _ _

theorem endSession (h : Inv p) (id : QByteArray) : Inv (p.endSession keyFor now id) := by
  unfold IdentityProvider.endSession
  have hforgot := h.withDevices (f := fun devices =>
    let family := familyOf keyFor devices id
    let unbound := unbindSession keyFor devices id
    if family.isEmpty then unbound else forget unbound family) fun devices key entry he => by
      simp only at he
      split at he
      · exact .inl (unbindSession_sub devices id key entry he)
      · exact .inl (unbindSession_sub devices id key entry (forget_sub _ _ key entry he))
  exact (hforgot.perform keyFor now ((SessionManager.revoke_within id).loopless h.loopless)).releaseTokens id

theorem start (defaultScope : QString) (ttlMinutes maximum now : Int) (holder : TokenHolder) (persists : Bool) :
    Inv (ProviderRun.start defaultScope ttlMinutes maximum now holder persists).provider := by
  refine ⟨fun k e he => ?_, fun devices hd key entry he => ?_, fun _ key => Hash.find_empty key⟩
  · have hnone : (ProviderRun.start defaultScope ttlMinutes maximum now holder
        persists).provider.sessions.rotations.find k = none := Hash.find_empty k
    rw [hnone] at he
    cases he
  · cases persists with
    | false => cases hd
    | true =>
      obtain rfl : (⟨true, ∅, ∅⟩ : DeviceStore) = devices := Option.some.inj hd
      simp at he

theorem step {s : ProviderRun} (h : Inv s.provider) {op : ProviderOp} (hop : s.Fresh op) :
    Inv (s.step keyFor hashOf cfg op).provider := by
  cases op with
  | createSession inUse fresh =>
    exact h.perform keyFor s.now (SessionManager.createSession_loopless h.loopless s.now inUse fresh "" [])
  | callback inUse state fresh held scope identity => exact h.callback inUse state fresh held scope identity
  | claim claimed secret family binding => exact h.claim claimed secret family binding
  | device inUse family secret next fresh scope => exact h.device inUse family secret next fresh scope
  | setScope fresh id scope identity handoff =>
    exact h.perform keyFor s.now (SessionManager.setScope_loopless h.loopless s.now hop id scope identity handoff)
  | revoke id => exact h.perform keyFor s.now ((SessionManager.revoke_within id).loopless h.loopless)
  | store message => exact h.perform keyFor s.now (SessionManager.receive_loopless h.loopless s.now message)
  | sweep => exact h.perform keyFor s.now ((SessionManager.purgeExpired_within _ s.now).loopless h.loopless)
  | logout request =>
    simp only [ProviderRun.step, handleLogout]
    split
    · exact h
    · simp only
      split
      · exact h
      · exact h.endSession _
  | attachRemote =>
    refine ⟨h.loopless, h.named, fun hd => ?_⟩
    simp only [ProviderRun.step] at hd
    split at hd <;> cases hd
  | health isHealthy => exact h.withDevices fun devices key entry he => .inl he
  | advance ms => exact h

end Inv
end ProviderRun
end SynQt
