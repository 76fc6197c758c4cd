import Mathlib.Data.List.Nodup
import SynQt.Lib.Run

/-! The native client's session: the requests it has out to its edge, what each answer does, and the reconnects.
What a request bought is marked with the request's number, which the client itself does not know. -/
namespace SynQt.Native
open Lib

structure Cookie where
  name : String
  value : String
  /-- The request whose answer brought it. -/
  source : Option Nat
deriving DecidableEq

structure Held where
  id : String
  secret : String
  source : Option Nat
deriving DecidableEq

namespace Held

def none : Held := ⟨"", "", Option.none⟩

def isValid (held : Held) : Bool := !held.id.isEmpty && !held.secret.isEmpty

end Held

/-- How one call into the secure store goes. A late one has its effect or not, and nobody knows which. -/
inductive Deed where
  | done
  | failed
  | late (landed : Bool)
deriving DecidableEq

def Deed.lands : Deed → Bool
  | done => true
  | failed => false
  | late landed => landed

structure Deeds where
  load : Deed
  save : Deed
  erase : Deed
deriving DecidableEq

structure DeviceCredential where
  available : Bool
  stored : Option Held
deriving DecidableEq

namespace DeviceCredential

def load (device : DeviceCredential) (deed : Deed) : Held × DeviceCredential :=
  if !device.available then (.none, device)
  else match deed with
    | .done => (device.stored.getD .none, device)
    | .failed => (.none, device)
    | .late _ => (.none, { device with available := false })

def erase (device : DeviceCredential) (deed : Deed) : DeviceCredential :=
  if device.available && deed.lands then { device with stored := none } else device

/-- What could not be saved for certain is erased. -/
def save (device : DeviceCredential) (held : Held) (deeds : Deeds) : DeviceCredential :=
  if !device.available || !held.isValid then device
  else match deeds.save with
    | .done => { device with stored := some held }
    | .failed => device.erase deeds.erase
    | .late landed =>
      let written := if landed then { device with stored := some held } else device
      { written.erase deeds.erase with available := false }

end DeviceCredential

/-- An answer as its handler reads it. A status of zero is no answer at all. -/
structure Answer where
  status : Nat
  session : String
  cookieName : String
  deviceId : String
  deviceSecret : String
  retryAfter : Option Int
  /-- The cookies it sets, and those it expires. -/
  cookies : List (String × Option String)
deriving DecidableEq

def Answer.signsIn (answer : Answer) : Bool :=
  answer.status == 200 && !answer.session.isEmpty && !answer.cookieName.isEmpty

inductive Kind where
  /-- With the binding and the label to enrol this machine under. -/
  | claim (code verifier : String) (device : Option (String × String))
  | redeem (presented : Held)
  | bootstrap
  | logout (cookie : List Cookie)
deriving DecidableEq

/-- A request, its number, and how often the session had been ended when it was made. -/
structure Request where
  id : Nat
  kind : Kind
  endings : Nat
deriving DecidableEq

inductive LinkState where
  | offline
  | connecting
  | connected
  | reconnecting
deriving DecidableEq

structure Config where
  loginRoute : String
  logoutRoute : String
  deviceSession : Bool
  reconnectBaseMs : Nat
  reconnectMaxMs : Nat
  bindingName : String
  machineLabel : String
deriving DecidableEq

structure SynClient where
  config : Config
  /-- `m_config.sessionCookie`, which reconnects read. -/
  configCookie : List Cookie
  sessionCookie : List Cookie
  device : DeviceCredential
  deviceBuilt : Bool
  held : Held
  sessionAccepted : Bool
  redeeming : Bool
  credentialSpent : Bool
  /-- What is left of the wait before another redemption. -/
  redeemNotBefore : Nat
  loopback : Bool
  loginState : String
  loginVerifier : String
  state : LinkState
  /-- What the open socket's handshake presents. -/
  socket : Option (List Cookie)
  reconnectTimer : Option Nat
  handshakeTimer : Bool
  backoffMs : Nat
  jar : List Cookie
  requests : List Request
  made : Nat
  /-- How often `endSession` was called, the requests answered after a call that followed them, and for each
  credential the edge refused what was stored before and after. -/
  endings : Nat
  late : List Nat
  refusals : List (Held × Option Held × Option Held)

namespace SynClient

def make (config : Config) (configCookie : List (String × String)) (device : DeviceCredential) : SynClient where
  config := config
  configCookie := configCookie.map fun cookie => ⟨cookie.1, cookie.2, none⟩
  sessionCookie := []
  device := { device with stored := device.stored.map fun held => { held with source := none } }
  deviceBuilt := false
  held := .none
  sessionAccepted := false
  redeeming := false
  credentialSpent := false
  redeemNotBefore := 0
  loopback := false
  loginState := ""
  loginVerifier := ""
  state := .offline
  socket := none
  reconnectTimer := none
  handshakeTimer := false
  backoffMs := config.reconnectBaseMs
  jar := []
  requests := []
  made := 0
  endings := 0
  late := []
  refusals := []

def request (client : SynClient) (kind : Kind) : SynClient :=
  { client with
    requests := client.requests ++ [⟨client.made, kind, client.endings⟩]
    made := client.made + 1 }

/-- The old socket is torn down, and a new one opened with the session in hand. -/
def connectToEdge (client : SynClient) : SynClient :=
  { client with state := .connecting, socket := some client.sessionCookie, handshakeTimer := true }

def redeemDeviceCredential (client : SynClient) : SynClient :=
  { client with state := .connecting, redeeming := true }.request (.redeem client.held)

def bootstrapAnonymousSession (client : SynClient) : SynClient :=
  { client with state := .connecting }.request .bootstrap

def deviceStore (client : SynClient) : SynClient :=
  if client.config.deviceSession then { client with deviceBuilt := true } else client

/-- The configured session where there is one, and else an anonymous one. -/
def presentOrBootstrap (client : SynClient) : SynClient :=
  if client.configCookie ≠ [] then { client with sessionCookie := client.configCookie }.connectToEdge
  else client.bootstrapAnonymousSession

/-- The credential in hand, or else the one stored. -/
def loadHeld (client : SynClient) (deed : Deed) : SynClient :=
  if client.held.isValid then client
  else { client with held := (client.device.load deed).1, device := (client.device.load deed).2 }

def openSession (client : SynClient) (deed : Deed) : SynClient :=
  if client.configCookie ≠ [] ∧ client.sessionAccepted then
    { client with sessionAccepted := false, sessionCookie := client.configCookie }.connectToEdge
  else
    let client := client.deviceStore
    if client.config.deviceSession ∧ !client.redeeming ∧ !client.credentialSpent ∧ client.redeemNotBefore = 0 then
      let client := client.loadHeld deed
      if client.held.isValid then client.redeemDeviceCredential else client.presentOrBootstrap
    else client.presentOrBootstrap

def start (client : SynClient) (deed : Deed) : SynClient := client.openSession deed

/-- `beginDesktopLogin`, with the two secrets it draws. -/
def beginLogin (client : SynClient) (listens : Bool) (loginState loginVerifier : String) : SynClient :=
  if client.config.loginRoute.isEmpty || client.loopback || !listens then client
  else { client with loopback := true, loginState := loginState, loginVerifier := loginVerifier }

def endDesktopLogin (client : SynClient) : SynClient :=
  { client with loopback := false, loginState := "", loginVerifier := "" }

def claimSession (client : SynClient) (code : String) : SynClient :=
  let client := client.deviceStore
  let enrolment :=
    if client.config.deviceSession && client.device.available then
      some (client.config.bindingName, client.config.machineLabel)
    else none
  { client with loginVerifier := "" }.request (.claim code client.loginVerifier enrolment)

def onLoginAnswer (client : SynClient) (code state error : String) : SynClient :=
  if state ≠ client.loginState then client.endDesktopLogin
  else if !error.isEmpty || code.isEmpty then client.endDesktopLogin
  else client.claimSession code

/-- The credential goes, from the hand and from the store. -/
def dropHeld (client : SynClient) (deed : Deed) : SynClient :=
  { client with
    held := .none
    device := if client.deviceBuilt then client.device.erase deed else client.device }

def endSession (client : SynClient) (deeds : Deeds) : SynClient :=
  let client := { client with endings := client.endings + 1 }
  if client.config.logoutRoute.isEmpty then client
  else (client.endDesktopLogin.dropHeld deeds.erase).request (.logout client.sessionCookie)

/-- The enrolled or rotated credential is kept, in the store and in hand. -/
def keep (client : SynClient) (held : Held) (deeds : Deeds) : SynClient :=
  if held.isValid && client.deviceBuilt then
    { client with device := client.device.save held deeds, held := held }
  else client

def present (client : SynClient) (n : Nat) (answer : Answer) : SynClient :=
  { client with
    sessionCookie := [⟨answer.cookieName, answer.session, some n⟩]
    configCookie := [⟨answer.cookieName, answer.session, some n⟩] }.connectToEdge

def claimAnswered (client : SynClient) (n : Nat) (answer : Answer) (deeds : Deeds) : SynClient :=
  let client := client.endDesktopLogin
  if !answer.signsIn then client
  else
    let enrolled : Held := ⟨answer.deviceId, answer.deviceSecret, some n⟩
    let kept := client.keep enrolled deeds
    { kept with credentialSpent := kept.credentialSpent || (enrolled.isValid && client.deviceBuilt) }.present n answer

def kDefaultHoldMs : Nat := 60 * 1000

def kMaxHoldMs : Nat := 5 * 60 * 1000

/-- How long a redemption waits for an edge that answered something else. -/
def holdMs (retryAfter : Option Int) : Nat :=
  match retryAfter with
  | none => kDefaultHoldMs
  | some seconds => if 0 < seconds * 1000 then min (seconds * 1000).toNat kMaxHoldMs else kDefaultHoldMs

def dropRefused (client : SynClient) (presented : Held) (deed : Deed) : SynClient :=
  let dropped := client.dropHeld deed
  { dropped with refusals := client.refusals ++ [(presented, client.device.stored, dropped.device.stored)] }

def redeemAnswered (client : SynClient) (n : Nat) (presented : Held) (answer : Answer) (deeds : Deeds) : SynClient :=
  let client := { client with redeeming := false }
  if answer.signsIn then
    let next : Held := ⟨answer.deviceId, answer.deviceSecret, some n⟩
    { client.keep next deeds with credentialSpent := true }.present n answer
  else if answer.status = 404 then (client.dropRefused presented deeds.erase).presentOrBootstrap
  else if answer.status ≠ 0 then { client with redeemNotBefore := holdMs answer.retryAfter }.presentOrBootstrap
  else client.presentOrBootstrap

def bootstrapAnswered (client : SynClient) : SynClient :=
  { client with sessionCookie := client.jar }.connectToEdge

def logoutAnswered (client : SynClient) (deeds : Deeds) : SynClient :=
  { client with sessionCookie := [], configCookie := [] }.start deeds.load

/-- The network manager's jar takes in what an answer sets. -/
def setCookies (n : Nat) : List Cookie → List (String × Option String) → List Cookie
  | jar, [] => jar
  | jar, (name, none) :: rest => setCookies n (jar.filter (·.name ≠ name)) rest
  | jar, (name, some value) :: rest => setCookies n (jar.filter (·.name ≠ name) ++ [⟨name, value, some n⟩]) rest

/-- The request is no longer out, its cookies are in the jar, and it may have come after a sign-out. -/
def take (client : SynClient) (request : Request) (answer : Answer) : SynClient :=
  { client with
    requests := client.requests.filter (·.id ≠ request.id)
    jar := setCookies request.id client.jar answer.cookies
    late := if request.endings < client.endings then client.late ++ [request.id] else client.late }

def answered (client : SynClient) (request : Request) (answer : Answer) (deeds : Deeds) : SynClient :=
  let client := client.take request answer
  match request.kind with
  | .claim _ _ _ => client.claimAnswered request.id answer deeds
  | .redeem presented => client.redeemAnswered request.id presented answer deeds
  | .bootstrap => client.bootstrapAnswered
  | .logout _ => client.logoutAnswered deeds

def onConnected (client : SynClient) : SynClient :=
  { client with
    handshakeTimer := false
    backoffMs := client.config.reconnectBaseMs
    sessionAccepted := true
    credentialSpent := false
    state := .connected }

def scheduleReconnect (client : SynClient) : SynClient :=
  if client.reconnectTimer.isSome then client
  else
    { client with
      reconnectTimer := some client.backoffMs
      backoffMs := min (client.backoffMs * 2) client.config.reconnectMaxMs }

def onDisconnected (client : SynClient) : SynClient :=
  if client.state = .reconnecting then client else { client with state := .reconnecting }.scheduleReconnect

inductive Event where
  | start
  | login (listens : Bool) (loginState loginVerifier : String)
  | loopbackAnswer (code state error : String)
  | loginTimeout
  | logout
  | reconnect
  | handshakeTimeout
  | connected
  | disconnected
  | elapse (ms : Nat)
  | reply (n : Nat) (answer : Answer)
deriving DecidableEq

def step (client : SynClient) (e : Event × Deeds) : SynClient :=
  match e.1 with
  | .start => client.start e.2.load
  | .login listens loginState loginVerifier => client.beginLogin listens loginState loginVerifier
  | .loopbackAnswer code state error => if client.loopback then client.onLoginAnswer code state error else client
  | .loginTimeout => if client.loopback then client.endDesktopLogin else client
  | .logout => client.endSession e.2
  | .reconnect => if client.reconnectTimer.isSome then { client with reconnectTimer := none }.start e.2.load else client
  | .handshakeTimeout => if client.handshakeTimer then { client with handshakeTimer := false }.onDisconnected else client
  | .connected => if client.socket.isSome then client.onConnected else client
  | .disconnected => if client.socket.isSome then client.onDisconnected else client
  | .elapse ms => { client with redeemNotBefore := client.redeemNotBefore - ms }
  | .reply n answer =>
    match client.requests.find? (·.id = n) with
    | some request => client.answered request answer e.2
    | none => client

end SynClient
end SynQt.Native
