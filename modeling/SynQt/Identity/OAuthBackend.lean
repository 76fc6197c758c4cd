import SynQt.Lib.Run
import SynQt.Service.SessionManager

/-! The OAuth engine behind the sign-in routes: the logins waiting for a browser to come
back, and the tokens held for those that did. -/
namespace SynQt
open Lib

/-- A URL as the identity code reads one: its scheme, its host, and whatever follows. -/
structure QUrl where
  scheme : QString := ""
  host : QString := ""
  rest : QString := ""
deriving DecidableEq

def QUrl.isEmpty (url : QUrl) : Bool := url.scheme.isEmpty && url.host.isEmpty && url.rest.isEmpty

def isSecureIdentityEndpoint (url : QUrl) : Bool :=
  url.scheme == "https" ||
  url.scheme == "http" &&
    (url.host == "localhost" || url.host == "127.0.0.1" || url.host == "::1" || url.host == "[::1]")

structure IdentityProviderConfig where
  name : QString
  authorizeUrl : QUrl
  tokenUrl : QUrl
  userinfoUrl : QUrl := {}
  emailsUrl : QUrl := {}
  jwksUrl : QUrl := {}
  scopes : List QString := []
  clientId : QString := ""
  clientSecret : QString := ""
  useIdToken : Bool := false
  issuer : QString := ""
  devStub : Bool := false
deriving DecidableEq

structure IdentityConfig where
  providers : List IdentityProviderConfig
  allowDevStub : Bool := false
deriving DecidableEq

def IdentityConfig.provider (config : IdentityConfig) (name : QString) : Option IdentityProviderConfig :=
  config.providers.find? (·.name == name)

def insecureEndpoint (provider : IdentityProviderConfig) : QString :=
  let endpoints := [("authorization", provider.authorizeUrl), ("token", provider.tokenUrl),
    ("userinfo", provider.userinfoUrl), ("emails", provider.emailsUrl), ("JWKS", provider.jwksUrl)]
  ((endpoints.find? fun e => !e.2.isEmpty && !isSecureIdentityEndpoint e.2).map Prod.fst).getD ""

namespace OAuthBackend

structure Pending where
  providerName : QString
  nonce : QString
  binding : QString
  context : QString
  createdMs : Int
deriving DecidableEq

structure TokenEntry where
  providerName : QString
  accessToken : QString
  refreshToken : QString
  idToken : QString
  expiresAtMs : Int := 0
  storedMs : Int := 0
  bound : Bool := false
deriving DecidableEq

/-- A refresh that waits on the provider: the key it was asked under, and the entry read then. -/
structure Asked where
  key : QString
  entry : TokenEntry
deriving DecidableEq

/-- A sweep under way: the refresh it waits on, and the keys it has yet to come to. -/
structure Sweep where
  asked : Asked
  due : List QString
deriving DecidableEq

end OAuthBackend

structure OAuthBackend where
  config : IdentityConfig
  pending : Hash QString OAuthBackend.Pending := ∅
  tokens : Hash QString OAuthBackend.TokenEntry := ∅
  sweep : Option OAuthBackend.Sweep := none
  unclaimedWindowSeconds : Int := 300

namespace OAuthBackend

def kMaxPendingLogins : Nat := 1024

/-- A login has five minutes to complete. -/
def pendingLifetimeMs : Int := 5 * 60 * 1000

structure BeginResult where
  state : QString := ""
  authorizeUrl : QUrl := {}
  error : QString := ""
deriving DecidableEq

/-- What one login draws: the random state and nonce, and the URL the flow builds of them. -/
structure Draw where
  state : QString
  nonce : QString := ""
  authorizeUrl : QUrl := {}
deriving DecidableEq

def expirePending (b : OAuthBackend) (now : Int) : OAuthBackend :=
  { b with pending := b.pending.filter fun _ p => !decide (now - p.createdMs > pendingLifetimeMs) }

/-- Why a login may not begin with this provider, or nothing. -/
def refusal (b : OAuthBackend) (providerName : QString) : QString :=
  match b.config.provider providerName with
  | none => "unknown provider"
  | some provider =>
    if provider.devStub && !b.config.allowDevStub then "dev stub provider is disabled"
    else if !(insecureEndpoint provider).isEmpty then "insecure provider endpoint"
    else if provider.useIdToken && provider.issuer.isEmpty then "provider names no issuer"
    else if b.pending.size ≥ kMaxPendingLogins then "too many logins in flight"
    else ""

def begin_ (b : OAuthBackend) (now : Int) (providerName binding context : QString) (draw : Draw) :
    OAuthBackend × BeginResult :=
  let b := b.expirePending now
  let error := b.refusal providerName
  if !error.isEmpty then (b, { error := error })
  else if draw.authorizeUrl.isEmpty then (b, { error := "could not build the authorization URL" })
  else
    let useIdToken := ((b.config.provider providerName).map (·.useIdToken)).getD false
    let pending : Pending :=
      { providerName := providerName, nonce := if useIdToken then draw.nonce else ""
        binding := binding, context := context, createdMs := now }
    ({ b with pending := b.pending.insert draw.state pending },
      { state := draw.state, authorizeUrl := draw.authorizeUrl })

structure ExchangeResult where
  tokenKey : QString := ""
  error : QString := ""
  context : QString := ""
deriving DecidableEq

/-- An exchange is answered at once, or goes on as a job that waits for the provider. -/
inductive ExchangeStart where
  | answered (result : ExchangeResult)
  | started (pending : Pending) (state : QString) (provider : IdentityProviderConfig)
deriving DecidableEq

def exchangeAsync (b : OAuthBackend) (state presentedBinding : QString) : OAuthBackend × ExchangeStart :=
  match b.pending.find state with
  | none => (b, .answered { error := "invalid or expired state" })
  | some pending =>
    if state.isEmpty then (b, .answered { error := "invalid or expired state" })
    else
      let b := { b with pending := b.pending.erase state }
      if !pending.binding.isEmpty && presentedBinding != pending.binding then
        (b, .answered { error := "login session mismatch" })
      else
        match b.config.provider pending.providerName with
        | none => (b, .answered { error := "unknown provider", context := pending.context })
        | some provider => (b, .started pending state provider)

/-- The end of an exchange: the tokens are stored under the state key, and unclaimed. -/
def finish (b : OAuthBackend) (now : Int) (state : QString) (entry : TokenEntry) : OAuthBackend :=
  { b with tokens := b.tokens.insert state { entry with storedMs := now, bound := false } }

def rekeyTokens (b : OAuthBackend) (fromKey toKey : QString) : OAuthBackend :=
  if fromKey = toKey then b
  else
    match b.tokens.find fromKey with
    | none => b
    | some moved => { b with tokens := (b.tokens.insert toKey { moved with bound := true }).erase fromKey }

def releaseTokens (b : OAuthBackend) (key : QString) : OAuthBackend := { b with tokens := b.tokens.erase key }

def releaseUnclaimed (b : OAuthBackend) (now : Int) : OAuthBackend :=
  let window := b.unclaimedWindowSeconds * 1000
  { b with tokens := b.tokens.filter fun _ e => e.bound || !decide (now - e.storedMs ≥ window) }

/-- What a provider answers a refresh with. An object names its fields, empty where it lacks them. -/
inductive RefreshAnswer where
  | failed
  | notAnObject
  | object (access rotated freshId : QString) (expiresIn : Option Int)
deriving DecidableEq

def refreshBody (provider : IdentityProviderConfig) (entry : TokenEntry) : List (QString × QString) :=
  [("grant_type", "refresh_token"), ("refresh_token", entry.refreshToken), ("client_id", provider.clientId)] ++
  (if provider.clientSecret.isEmpty then [] else [("client_secret", provider.clientSecret)]) ++
  (if provider.scopes.isEmpty then [] else [("scope", " ".intercalate provider.scopes)])

/-- The first half of a refresh: the entry read out, and the request posted with its token. -/
def ask (b : OAuthBackend) (key : QString) : Option (Asked × QUrl × List (QString × QString)) :=
  match b.tokens.find key with
  | none => none
  | some entry =>
    if entry.refreshToken.isEmpty then none
    else
      match b.config.provider entry.providerName with
      | none => none
      | some provider => some (⟨key, entry⟩, provider.tokenUrl, refreshBody provider entry)

def TokenEntry.refreshed (entry : TokenEntry) (now : Int) (access rotated freshId : QString)
    (expiresIn : Option Int) : TokenEntry :=
  { entry with
    accessToken := access
    refreshToken := if rotated.isEmpty then entry.refreshToken else rotated
    idToken := if freshId.isEmpty then entry.idToken else freshId
    expiresAtMs := match expiresIn with
      | none => 0
      | some seconds => now + seconds * 1000 }

/-- The second half: the row is looked up again under the key it was asked by. -/
def settle (b : OAuthBackend) (now : Int) (key : QString) : RefreshAnswer → OAuthBackend × Bool
  | .failed | .notAnObject => (b, false)
  | .object access rotated freshId expiresIn =>
    if access.isEmpty then (b, false)
    else
      match b.tokens.find key with
      | none => (b, false)
      | some after =>
        ({ b with tokens := b.tokens.insert key (after.refreshed now access rotated freshId expiresIn) }, true)

/-- The sweep goes on to the next key that has something to ask, or ends. -/
def proceed (b : OAuthBackend) : List QString → OAuthBackend
  | [] => { b with sweep := none }
  | key :: due =>
    match b.ask key with
    | none => b.proceed due
    | some request => { b with sweep := some ⟨request.1, due⟩ }

def dueKeys (b : OAuthBackend) (now marginSeconds : Int) : List QString :=
  (b.tokens.entries.filter fun e =>
    !e.2.refreshToken.isEmpty && decide (e.2.expiresAtMs > 0) &&
      decide (e.2.expiresAtMs ≤ now + marginSeconds * 1000)).map Prod.fst

/-- One sweep at a time. `order` is the order the table is walked in. -/
def refreshExpiring (b : OAuthBackend) (now marginSeconds : Int) (order : List QString → List QString) : OAuthBackend :=
  if b.sweep.isSome then b else b.proceed (order (b.dueKeys now marginSeconds))

/-- The provider's answer arrives, and the sweep goes on. -/
def reply (b : OAuthBackend) (now : Int) (answer : RefreshAnswer) : OAuthBackend :=
  match b.sweep with
  | none => b
  | some sweep => (b.settle now sweep.asked.key answer).1.proceed sweep.due

end OAuthBackend
end SynQt
