import SynQt.Identity.DeviceRegistry
import SynQt.Service.Mesh

/-! The identity routes of an edge: what they hold for a session (provider tokens, the
device family it came from), how that follows the session table, and signing out. -/
namespace SynQt
open Lib

def asciiBytes (text : QString) : QByteArray := text.toList.map fun c => UInt8.ofNat c.toNat

/-- `isspace` in the C locale. -/
def isSpaceByte (b : UInt8) : Bool := b == 32 || (9 ≤ b && b ≤ 13)

def trimmed (bytes : QByteArray) : QByteArray :=
  ((bytes.dropWhile isSpaceByte).reverse.dropWhile isSpaceByte).reverse

/-- The value of one named cookie in a `Cookie` header; the first match wins. -/
def cookieValue (cookieHeader name : QByteArray) : QByteArray :=
  let pfx := name ++ asciiBytes "="
  match ((cookieHeader.splitOn 59).map trimmed).find? pfx.isPrefixOf with
  | none => []
  | some part => part.drop pfx.length

structure TokenEntry where
  held : QVariantMap
  bound : Bool
  deriving DecidableEq

/-- Where provider tokens are: in this process, or on the auth entity, reached over a
Replica that may not be attached yet. -/
inductive TokenHolder where
  | backend
  | entity (attached : Bool)
  deriving DecidableEq

def TokenHolder.reached : TokenHolder → Bool
  | .backend => true
  | .entity attached => attached

structure IdentitySettings where
  cookieName : QByteArray
  sameSiteNone : Bool
  appRoute : QString
  edgeOrigin : QString
  device : DeviceConfig

/-- `tokens` are the ones of `holder`, as this edge's calls leave them: keyed by login state
until a session is bound, then by session id. -/
structure IdentityProvider where
  sessions : SessionManager
  devices : Option DeviceStore
  holder : TokenHolder
  tokens : Hash QByteArray TokenEntry

structure LogoutRequest where
  secFetchSite : QByteArray
  cookie : QByteArray

structure HttpResponse where
  status : Nat
  body : QString := ""
  location : QString := ""
  setCookie : List QByteArray := []
  deriving DecidableEq

def redirectTo (location : QString) (setCookies : List QByteArray) : HttpResponse where
  status := 302
  location := location
  setCookie := setCookies.filter (fun cookie => !cookie.isEmpty)

namespace IdentityProvider
variable (keyFor : QByteArray → QString) (hashOf : QByteArray → QString)

/-- `OAuthBackend::rekeyTokens`, here or on the auth entity. -/
def rekeyTokens (p : IdentityProvider) (fromKey toKey : QByteArray) : IdentityProvider :=
  if !p.holder.reached || fromKey == toKey then p
  else match p.tokens.find fromKey with
    | none => p
    | some entry => { p with tokens := (p.tokens.insert toKey { entry with bound := true }).erase fromKey }

def releaseTokens (p : IdentityProvider) (key : QByteArray) : IdentityProvider :=
  if p.holder.reached then { p with tokens := p.tokens.erase key } else p

def forgetSession (p : IdentityProvider) (sessionId : QByteArray) : IdentityProvider :=
  let p' := { p with devices := p.devices.map (DeviceRegistry.unbindSession keyFor · sessionId) }
  p'.releaseTokens sessionId

def followRotation (p : IdentityProvider) (now : Int) (from_ to_ : QByteArray) : IdentityProvider :=
  if from_.isEmpty || to_.isEmpty || from_ == to_ then p
  else
    let p' := p.rekeyTokens from_ to_
    { p' with devices := p'.devices.map fun devices =>
        let family := DeviceRegistry.familyOf keyFor devices from_
        if family.isEmpty then devices
        else DeviceRegistry.bindSession keyFor (DeviceRegistry.unbindSession keyFor devices from_) now to_ family }

/-- What the edge connects the session table's signals to. -/
def receive (now : Int) (p : IdentityProvider) (emission : Emission) : IdentityProvider :=
  match emission.signal with
  | .sessionExpired token => p.forgetSession keyFor token
  | .sessionRemoved token =>
    if (emission.manager.rotationOf now token).isEmpty then p.forgetSession keyFor token else p
  | .sessionRotated from_ to_ => p.followRotation keyFor now from_ to_
  | .sessionUpserted _ _ _ _ | .rotationRecorded _ _ => p

/-- An operation of the session table, with its signals delivered as it emits them. -/
def perform (p : IdentityProvider) (now : Int) (effect : Effect) : IdentityProvider :=
  effect.emitted.foldl (receive keyFor now) { p with sessions := effect.manager }

/-- The end of a sign-in: the exchange has left what the provider issued under the login's
state, and the identity has been placed in a scope. -/
def finishCallback (p : IdentityProvider) (now : Int) (inUse : QByteArray → Bool) (state fresh : QByteArray)
    (held : QVariantMap) (scope : QString) (identity : QVariantMap) : IdentityProvider :=
  if !p.holder.reached then p
  else
    let exchanged := { p with tokens := p.tokens.insert state ⟨held, false⟩ }
    if scope.isEmpty then exchanged.releaseTokens state
    else
      let created := p.sessions.createSession now inUse fresh scope identity
      let p' := exchanged.perform keyFor now created.1
      if created.2.isEmpty then p'.releaseTokens state else p'.rekeyTokens state created.2

def bindFamily (p : IdentityProvider) (now : Int) (sessionId : QByteArray) (family : QString) : IdentityProvider :=
  if family.isEmpty then p
  else { p with devices := p.devices.map (DeviceRegistry.bindSession keyFor · now sessionId family) }

def subOf (identity : QVariantMap) : QString := (identity.lookup "sub").getD ""

/-- The enrolment of a claimed session whose client asked for it. -/
def finishClaim (cfg : IdentitySettings) (p : IdentityProvider) (now : Int) (claimed secret : QByteArray)
    (family : QString) (binding : DeviceBinding) : IdentityProvider :=
  match p.devices, p.sessions.lookup now claimed with
  | some devices, some record =>
    if (subOf record.identity).isEmpty then p
    else
      let enrolled := DeviceRegistry.enrol hashOf cfg.device devices now family secret (subOf record.identity)
        record.identity cfg.edgeOrigin binding
      ({ p with devices := some enrolled.1 } : IdentityProvider).bindFamily keyFor now claimed enrolled.2.family
  | _, _ => p

def onReuseDetected (p : IdentityProvider) (now : Int) (family : QString) : IdentityProvider :=
  match p.devices with
  | none => p
  | some devices => (DeviceRegistry.sessionsOfFamily devices family).foldl (fun p sessionKey =>
      let p' := { p with devices := p.devices.map (DeviceRegistry.unbindSessionKey · sessionKey) }
      p'.perform keyFor now (p'.sessions.revokeByKey keyFor sessionKey)) p

/-- The redemption of a device credential, past the rate limit. -/
def finishDevice (cfg : IdentitySettings) (p : IdentityProvider) (now : Int) (inUse : QByteArray → Bool)
    (family : QString) (secret next fresh : QByteArray) (scope : QString) : IdentityProvider :=
  match p.devices with
  | none => p
  | some devices =>
    if !p.sessions.hasRoom inUse then p
    else
      let redeemed := DeviceRegistry.redeem hashOf cfg.device devices now next family secret cfg.edgeOrigin
      let spent : IdentityProvider := { p with devices := some redeemed.1 }
      if redeemed.2.2 then spent.onReuseDetected keyFor now family
      else if !redeemed.2.1.ok || scope.isEmpty then spent
      else
        let created := p.sessions.createSession now inUse fresh scope redeemed.2.1.identity
        let p' := spent.perform keyFor now created.1
        if created.2.isEmpty then p' else p'.bindFamily keyFor now created.2 redeemed.2.1.next.family

/-- A sign-out is refused when another site sends the visitor to it, and under the
same-origin model also when a sibling does. -/
def admitsLogout (cfg : IdentitySettings) (request : LogoutRequest) : Bool :=
  !(request.secFetchSite == asciiBytes "cross-site" ||
    (request.secFetchSite == asciiBytes "same-site" && !cfg.sameSiteNone))

/-- What signing out does to the session the cookie carries. -/
def endSession (p : IdentityProvider) (now : Int) (sessionId : QByteArray) : IdentityProvider :=
  let forgot := { p with devices := p.devices.map fun devices =>
    let family := DeviceRegistry.familyOf keyFor devices sessionId
    let unbound := DeviceRegistry.unbindSession keyFor devices sessionId
    if family.isEmpty then unbound else DeviceRegistry.forget unbound family }
  (forgot.perform keyFor now (p.sessions.revoke sessionId)).releaseTokens sessionId

def handleLogout (cfg : IdentitySettings) (p : IdentityProvider) (now : Int) (request : LogoutRequest) :
    HttpResponse × IdentityProvider :=
  if !admitsLogout cfg request then ({ status := 403, body := "sign out from the application" }, p)
  else
    let sessionId := cookieValue request.cookie cfg.cookieName
    let ended := if sessionId.isEmpty then p else p.endSession keyFor now sessionId
    (redirectTo cfg.appRoute [cfg.cookieName ++ asciiBytes "=; HttpOnly; Path=/; Max-Age=0"], ended)

variable {keyFor} {hashOf} {p : IdentityProvider} {now : Int}

@[simp] theorem rekeyTokens_sessions (a b : QByteArray) : (p.rekeyTokens a b).sessions = p.sessions := by
  unfold rekeyTokens
  split
  · rfl
  · split <;> rfl
@[simp] theorem rekeyTokens_devices (a b : QByteArray) : (p.rekeyTokens a b).devices = p.devices := by
  unfold rekeyTokens
  split
  · rfl
  · split <;> rfl
@[simp] theorem rekeyTokens_holder (a b : QByteArray) : (p.rekeyTokens a b).holder = p.holder := by
  unfold rekeyTokens
  split
  · rfl
  · split <;> rfl

@[simp] theorem releaseTokens_sessions (a : QByteArray) : (p.releaseTokens a).sessions = p.sessions := by
  unfold releaseTokens; split <;> rfl
@[simp] theorem releaseTokens_devices (a : QByteArray) : (p.releaseTokens a).devices = p.devices := by
  unfold releaseTokens; split <;> rfl
@[simp] theorem releaseTokens_holder (a : QByteArray) : (p.releaseTokens a).holder = p.holder := by
  unfold releaseTokens; split <;> rfl

@[simp] theorem receive_sessions (e : Emission) : (receive keyFor now p e).sessions = p.sessions := by
  obtain ⟨signal, m⟩ := e
  cases signal with
  | sessionRemoved token => simp only [receive]; split <;> simp [forgetSession]
  | sessionRotated from_ to_ => simp only [receive, followRotation]; split <;> simp
  | sessionExpired token => simp [receive, forgetSession]
  | _ => rfl

@[simp] theorem perform_sessions (effect : Effect) : (p.perform keyFor now effect).sessions = effect.manager := by
  unfold perform
  generalize hq : ({ p with sessions := effect.manager } : IdentityProvider) = q
  have hs : q.sessions = effect.manager := by rw [← hq]
  clear hq
  induction effect.emitted generalizing q with
  | nil => exact hs
  | cons e emitted ih => exact ih (receive keyFor now q e) (by simpa using hs)

end IdentityProvider
end SynQt
