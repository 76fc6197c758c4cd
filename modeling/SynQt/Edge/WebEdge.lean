import SynQt.Edge.IdentityProvider
import SynQt.Edge.SourceTable

/-! The browser side of an edge: the upgrade check, the connections it hosts, and how they
follow the session table. A connection's deferred deletion runs before the next event. -/
namespace SynQt
open Lib

abbrev Address := { text : QString // text ≠ "" }

/-- The other end of a socket: its address as the socket prints it, and as it is after an
IPv4-mapped one is unmapped. -/
structure Peer where
  address : QString
  port : Nat
  normalized : Address

def peerKey (address : QString) (port : Nat) : QString := address ++ ":" ++ toString port

def Peer.key (peer : Peer) : QString := peerKey peer.address peer.port

/-- The visitor's address: the nearest hop, from the right, that is no trusted proxy. `hops` are
the entries of `X-Forwarded-For`, nothing where one does not parse. -/
def resolveAddress (trusted : Address → Bool) (peer : Address) (hops : List (Option Address)) : Address :=
  if !trusted peer then peer
  else match hops.reverse.find? (fun hop => hop.all (fun address => !trusted address)) with
    | some (some address) => address
    | _ => peer

structure WebEdgeConfig where
  cookieName : QByteArray
  allowedOrigins : List QString
  identityRequired : Bool
  maxConnectionsGlobal : Int
  maxConnectionsPerIp : Int
  maxSessions : Int
  handshakeTimeoutMs : Int
  trusted : Address → Bool
  scopeOrder : ScopeOrder
  connectPoints : List WebEdgeConnectPoint

structure UpgradeRequest where
  peer : Peer
  origin : QString
  cookie : QByteArray
  /-- The decoded value of the query item `s`. -/
  tab : QString
  forwardedFor : List (Option Address)

structure VerifiedSession where
  id : QByteArray := []
  verifiedMs : Int := 0
  clientIp : QString := ""

/-- A hosted connection. `told` is whether its socket has been asked to shut down. -/
structure Connection where
  transport : Nat
  ip : QString
  liveSession : QByteArray
  hosted : Hash QString Nat
  told : Bool

structure WebEdge where
  sessions : SessionManager
  pendingSessions : Hash QString VerifiedSession
  activeGlobal : Int
  activePerIp : Hash QString Int
  sessionSockets : List (QByteArray × Nat)
  /-- In the order they were hosted, which is the order they hear a signal in. -/
  connections : List Connection
  table : SourceTable
  /-- The Replica of each entity behind this front, while there is one. -/
  entitiesBehind : Hash QString Nat
  nextTransport : Nat

inductive UpgradeResponse where
  | accept (key : QString)
  | deny (status : Nat) (reason body : QString)
  deriving DecidableEq

def tabNonce (value : QString) : QByteArray :=
  if value.isEmpty || value.length > 32 then []
  else if value.toList.all (fun c => c.toNat ≤ 127 && c.isAlphanum) then asciiBytes value
  else []

def cookieNameFor (cfg : WebEdgeConfig) (nonce : QByteArray) : QByteArray :=
  if nonce.isEmpty then cfg.cookieName else cfg.cookieName ++ asciiBytes "_" ++ nonce

def sessionIdOf (cfg : WebEdgeConfig) (request : UpgradeRequest) : QByteArray :=
  cookieValue request.cookie (cookieNameFor cfg (tabNonce request.tab))

namespace WebEdge
variable (cfg : WebEdgeConfig)

/-- Entries past the handshake window belong to sockets that never arrived. -/
def rememberVerifiedSession (s : WebEdge) (now : Int) (key : QString) (sessionId : QByteArray)
    (clientIp : QString) : WebEdge :=
  let kept := s.pendingSessions.filter fun _ verified =>
    !decide (now - verified.verifiedMs > max cfg.handshakeTimeoutMs 1000)
  { s with pendingSessions := kept.insert key ⟨sessionId, now, clientIp⟩ }

def clientIp (request : UpgradeRequest) : QString :=
  (resolveAddress cfg.trusted request.peer.normalized request.forwardedFor).val

def verifyUpgrade (s : WebEdge) (now : Int) (request : UpgradeRequest) : WebEdge × UpgradeResponse :=
  if !cfg.allowedOrigins.contains request.origin then
    (s, .deny 403 ("origin not allowed: " ++ request.origin) "origin not allowed")
  else
    let sessionId := sessionIdOf cfg request
    if !s.sessions.isLive now sessionId then (s, .deny 401 "no valid session" "no valid session")
    else if cfg.identityRequired && (s.sessions.lookup now sessionId).all (·.identity.isEmpty) then
      (s, .deny 403 "authentication required" "authentication required")
    else
      let ip := clientIp cfg request
      if s.activeGlobal ≥ cfg.maxConnectionsGlobal ∨ (s.activePerIp.find ip).getD 0 ≥ cfg.maxConnectionsPerIp then
        (s, .deny 503 "connection cap reached" "too many connections")
      else (rememberVerifiedSession cfg s now request.peer.key sessionId ip, .accept request.peer.key)

/-- The accepted socket becomes a connection of the session stashed for its peer, or ends. -/
def hostConnection (s : WebEdge) (qt : Runtime) (now : Int) (peer : Peer) : WebEdge :=
  let verified := (s.pendingSessions.find peer.key).getD {}
  let taken := { s with pendingSessions := s.pendingSessions.erase peer.key }
  if verified.id.isEmpty then
    let table := { s.table with rejected := s.table.rejected ++ ["no verified session for the accepted socket"] }
    { taken with table := table }
  else
    let ip := if verified.clientIp.isEmpty then peer.normalized.val else verified.clientIp
    let hosted := (s.table.claim verified.id).hostPoints cfg.scopeOrder qt s.entitiesBehind.find cfg.connectPoints
      verified.id (Visitor.of s.sessions now verified.id)
    { taken with
      activeGlobal := s.activeGlobal + 1
      activePerIp := s.activePerIp.insert ip ((s.activePerIp.find ip).getD 0 + 1)
      table := hosted.1
      sessionSockets := s.sessionSockets ++ [(verified.id, s.nextTransport)]
      connections := s.connections ++ [⟨s.nextTransport, ip, verified.id, hosted.2, false⟩]
      nextTransport := s.nextTransport + 1 }

def removeSocket (s : WebEdge) (id : QByteArray) (transport : Nat) : WebEdge :=
  { s with sessionSockets := s.sessionSockets.filter (· != (id, transport)) }

def disconnected (s : WebEdge) (transport : Nat) : WebEdge :=
  match s.connections.find? (·.transport == transport) with
  | none => s
  | some c =>
    let left := (s.activePerIp.find c.ip).getD 0 - 1
    let s' := s.removeSocket c.liveSession transport
    { s' with
      activeGlobal := s.activeGlobal - 1
      activePerIp := if left ≤ 0 then s.activePerIp.erase c.ip else s.activePerIp.insert c.ip left
      table := s.table.releaseSessionSources c.liveSession
      connections := s.connections.filter (·.transport != transport) }

/-- A session has ended, unless a hand-off says it goes on under another id. -/
def dropSession (s : WebEdge) (m : SessionManager) (now : Int) (sessionId : QByteArray) : WebEdge :=
  if sessionId.isEmpty then s
  else if !(m.rotationOf now sessionId).isEmpty then s
  else
    let transports := (s.sessionSockets.filter (·.1 == sessionId)).map (·.2)
    { s with
      sessionSockets := s.sessionSockets.filter (·.1 != sessionId)
      connections := s.connections.map fun c =>
        if transports.contains c.transport then { c with told := true } else c }

def followRotation (s : WebEdge) (from_ to_ : QByteArray) (transport : Nat) : WebEdge :=
  let s' := s.removeSocket from_ transport
  { s' with
    sessionSockets := s'.sessionSockets ++ [(to_, transport)]
    table := s.table.followRotation from_ to_ }

/-- What one connection does when a credential rotates. Its gate has moved to the new id. -/
def onSessionRotated (s : WebEdge) (qt : Runtime) (v : Visitor) (from_ to_ : QByteArray) (c : Connection) :
    WebEdge × Connection :=
  if c.liveSession != from_ then (s, c)
  else
    let followed := s.followRotation from_ to_ c.transport
    let decided := followed.table.decidePoints cfg.scopeOrder qt s.entitiesBehind.find cfg.connectPoints to_ v c.hosted
    ({ followed with table := decided.1 }, { c with liveSession := to_, hosted := decided.2 })

def rotateConnections (qt : Runtime) (v : Visitor) (from_ to_ : QByteArray) (s : WebEdge) :
    List Connection → WebEdge × List Connection
  | [] => (s, [])
  | c :: rest =>
    let told := onSessionRotated cfg s qt v from_ to_ c
    let others := rotateConnections qt v from_ to_ told.1 rest
    (others.1, told.2 :: others.2)

/-- What the edge connects the session table's signals to. -/
def receive (qt : Runtime) (now : Int) (s : WebEdge) (emission : Emission) : WebEdge :=
  match emission.signal with
  | .sessionRemoved token | .sessionExpired token => s.dropSession emission.manager now token
  | .sessionRotated from_ to_ =>
    let rotated := rotateConnections cfg qt (Visitor.of emission.manager now to_) from_ to_ s s.connections
    { rotated.1 with connections := rotated.2 }
  | .sessionUpserted _ _ _ _ | .rotationRecorded _ _ => s

/-- An operation of the session table, with its signals delivered as it emits them. -/
def perform (qt : Runtime) (now : Int) (s : WebEdge) (effect : Effect) : WebEdge :=
  effect.emitted.foldl (receive cfg qt now) { s with sessions := effect.manager }

def setEntityBehind (s : WebEdge) (entity : QString) (replica : Nat) : WebEdge :=
  { s with
    entitiesBehind := s.entitiesBehind.insert entity replica
    table := s.table.setEntityBehind entity replica }

/-- The Replica of an entity is deleted, and every pointer to it is null. -/
def lostEntityBehind (s : WebEdge) (entity : QString) : WebEdge :=
  match s.entitiesBehind.find entity with
  | none => s
  | some lost =>
    { s with
      entitiesBehind := s.entitiesBehind.filter fun _ replica => replica != lost
      table := { s.table with following := s.table.following.filter fun _ replica => replica != lost } }

/-- What eviction may not take: a session a browser is connected on. -/
def inUse (s : WebEdge) (id : QByteArray) : Bool := s.sessionSockets.any (·.1 == id)

end WebEdge

/-- `ahead` are the upgrades accepted since a connection was last hosted; the edge keeps no such
list. -/
structure EdgeRun where
  edge : WebEdge
  now : Int
  ahead : List QString

inductive WebEdgeOp where
  | verifyUpgrade (request : UpgradeRequest)
  | hostConnection (qt : Runtime) (peer : Peer)
  | disconnected (transport : Nat)
  | createSession (qt : Runtime) (fresh : QByteArray) (scope : QString) (identity : QVariantMap)
  | setScope (qt : Runtime) (fresh id : QByteArray) (scope : QString) (identity : QVariantMap) (handoff : Handoff)
  | revoke (qt : Runtime) (id : QByteArray)
  | store (qt : Runtime) (message : StoreMessage)
  | sweep (qt : Runtime)
  | setEntityBehind (entity : QString) (replica : Nat)
  | lostEntityBehind (entity : QString)
  | advance (ms : Nat)

namespace EdgeRun
variable (cfg : WebEdgeConfig)

def start (defaultScope : QString) (ttlMinutes now : Int) : EdgeRun where
  edge :=
    { sessions := (SessionManager.make defaultScope ttlMinutes).setMaximumSessions cfg.maxSessions
      pendingSessions := ∅
      activeGlobal := 0
      activePerIp := ∅
      sessionSockets := []
      connections := []
      table := .empty
      entitiesBehind := ∅
      nextTransport := 0 }
  now := now
  ahead := []

def effectOf (s : EdgeRun) : WebEdgeOp → Option (Runtime × Effect)
  | .createSession qt fresh scope identity =>
    some (qt, (s.edge.sessions.createSession s.now s.edge.inUse fresh scope identity).1)
  | .setScope qt fresh id scope identity handoff =>
    some (qt, (s.edge.sessions.setScope s.now fresh id scope identity handoff).1)
  | .revoke qt id => some (qt, s.edge.sessions.revoke id)
  | .store qt message => some (qt, message.receive s.edge.sessions s.now)
  | .sweep qt =>
    let swept := s.edge.sessions.purgeExpired s.now
    some (qt, ⟨swept.1, swept.2, []⟩)
  | _ => none

def step (s : EdgeRun) (op : WebEdgeOp) : EdgeRun :=
  match s.effectOf op with
  | some (qt, effect) => { s with edge := s.edge.perform cfg qt s.now effect }
  | none => match op with
    | .verifyUpgrade request =>
      let answer := s.edge.verifyUpgrade cfg s.now request
      match answer.2 with
      | .accept key => { s with edge := answer.1, ahead := key :: s.ahead }
      | .deny _ _ _ => s
    | .hostConnection qt peer =>
      let edge := s.edge.hostConnection cfg qt s.now peer
      { s with edge := edge, ahead := if edge.activeGlobal = s.edge.activeGlobal then s.ahead else [] }
    | .disconnected transport => { s with edge := s.edge.disconnected transport }
    | .setEntityBehind entity replica => { s with edge := s.edge.setEntityBehind entity replica }
    | .lostEntityBehind entity => { s with edge := s.edge.lostEntityBehind entity }
    | .advance ms => { s with now := s.now + ms }
    | _ => s

end EdgeRun
end SynQt
