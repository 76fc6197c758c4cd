import SynQt.Lib.Run

/-! The consumer's side of a mesh link: the sockets one client opens after another, the timer that
opens the next, and the receiver that takes a connected one. -/
namespace SynQt
open Lib Function

inductive SocketState where
  | connecting | connected | closed
deriving DecidableEq

/-- Who frees a socket: the client, or the node of the receiver that took it. -/
inductive SocketParent where
  | client | node
deriving DecidableEq

structure MeshSocket where
  state : SocketState
  parent : SocketParent
  /-- A local socket asks for the peer's credentials once it is connected. -/
  isLocal : Bool
  handled : Bool
deriving DecidableEq

/-- A socket that is let go of: no signal of it reaches the client any more. -/
def MeshSocket.aborted (socket : MeshSocket) : MeshSocket := { socket with state := .closed, handled := false }

/-- A socket's number is its place in the order they were opened in. -/
structure MeshClient where
  sockets : Nat → MeshSocket
  opened : Nat
  sslSocket : Option Nat
  localSocket : Option Nat
  retryTimer : Option Nat
  backoffMs : Nat
  retrying : Bool
  socketName : String
  /-- The socket whose node the receiver reads, and those whose nodes it lets go of. -/
  consumed : Option Nat
  retired : List Nat

namespace MeshClient

def ReconnectBaseMs : Nat := 500
def ReconnectMaxMs : Nat := 10000

def make : MeshClient where
  sockets := fun _ => ⟨.closed, .client, false, false⟩
  opened := 0
  sslSocket := none
  localSocket := none
  retryTimer := none
  backoffMs := ReconnectBaseMs
  retrying := true
  socketName := ""
  consumed := none
  retired := []

def device (c : MeshClient) : Option Nat := c.sslSocket.or c.localSocket

def setSocket (c : MeshClient) (s : Nat) (socket : MeshSocket) : MeshClient :=
  { c with sockets := update c.sockets s socket }

/-- The part of `retireUnusedSocket` about one pointer. -/
def retireSocket (c : MeshClient) : Option Nat → MeshClient
  | some s => if (c.sockets s).parent = .client then c.setSocket s (MeshSocket.aborted (c.sockets s)) else c
  | none => c

def retireUnusedSocket (c : MeshClient) : MeshClient :=
  { (c.retireSocket c.sslSocket).retireSocket c.localSocket with sslSocket := none, localSocket := none }

def openMutualTls (c : MeshClient) : MeshClient :=
  let c := c.retireUnusedSocket
  { c.setSocket c.opened ⟨.connecting, .client, false, true⟩ with sslSocket := some c.opened, opened := c.opened + 1 }

def openLocal (c : MeshClient) : MeshClient :=
  let c := c.retireUnusedSocket
  { c.setSocket c.opened ⟨.connecting, .client, true, true⟩ with localSocket := some c.opened, opened := c.opened + 1 }

def connectMutualTls (c : MeshClient) : MeshClient := c.openMutualTls

def connectLocal (c : MeshClient) (socketName : String) : MeshClient := { c with socketName := socketName }.openLocal

def scheduleRetry (c : MeshClient) : MeshClient :=
  if !c.retrying then c
  else if c.retryTimer.isSome then c
  else { c with retryTimer := some c.backoffMs, backoffMs := min (c.backoffMs * 2) ReconnectMaxMs }

/-- What the handlers of `disconnected` and `errorOccurred` do, of whichever socket they are. -/
def reported (c : MeshClient) (s : Nat) : MeshClient := if (c.sockets s).handled then c.scheduleRetry else c

def stop (c : MeshClient) : MeshClient := { c with retrying := false, retryTimer := none }

/-- `openConsumerLink`: the new node takes the device, and the one before is let go of after this turn. -/
def takeUp (c : MeshClient) (s : Nat) : MeshClient :=
  { c.setSocket s { c.sockets s with parent := .node } with
    consumed := some s
    retired := (c.consumed.toList.filter (· != s)) ++ c.retired }

end MeshClient

inductive MeshEvent where
  /-- `encrypted`, or `connected` of a local socket with what the credential check says. -/
  | connected (s : Nat) (peerRunsAsThisUser : Bool)
  | take (s : Nat)
  | disconnected (s : Nat)
  | errorOccurred (s : Nat) (down : Bool)
  | timeout
  /-- A retired node is freed, and the socket it took with it. -/
  | delete (s : Nat)
  | stop

namespace MeshClient

def step (c : MeshClient) : MeshEvent → MeshClient
  | .connected s peerRunsAsThisUser =>
    let socket := c.sockets s
    if socket.state = .closed ∨ socket.handled = false then c
    else if socket.isLocal && !peerRunsAsThisUser then (c.setSocket s (MeshSocket.aborted socket)).scheduleRetry
    else { c.setSocket s { socket with state := .connected } with backoffMs := ReconnectBaseMs }
  | .take s => if (c.sockets s).state = .connected then c.takeUp s else c
  | .disconnected s => (c.setSocket s { c.sockets s with state := .closed }).reported s
  | .errorOccurred s down =>
    (if down then c.setSocket s { c.sockets s with state := .closed } else c).reported s
  | .timeout =>
    if c.retryTimer.isNone then c
    else if c.socketName ≠ "" then { c with retryTimer := none }.openLocal
    else { c with retryTimer := none }.openMutualTls
  | .delete s =>
    if s ∉ c.retired then c
    else
      -- Destroying a socket that is still connected disconnects it, which its handlers hear.
      let told := if (c.sockets s).state = .connected then c.reported s else c
      { told.setSocket s (MeshSocket.aborted (c.sockets s)) with retired := c.retired.erase s }
  | .stop => c.stop

section Frame
variable (c : MeshClient)

structure SameBut (c c' : MeshClient) : Prop where
  sockets : c'.sockets = c.sockets
  retrying : c'.retrying = c.retrying
  device : c'.device = c.device
  opened : c'.opened = c.opened
  consumed : c'.consumed = c.consumed
  retired : c'.retired = c.retired

theorem scheduleRetry_same : c.SameBut c.scheduleRetry := by
  unfold scheduleRetry
  split
  · exact ⟨rfl, rfl, rfl, rfl, rfl, rfl⟩
  · split <;> exact ⟨rfl, rfl, rfl, rfl, rfl, rfl⟩

theorem reported_same (s : Nat) : c.SameBut (c.reported s) := by
  unfold reported
  split
  · exact c.scheduleRetry_same
  · exact ⟨rfl, rfl, rfl, rfl, rfl, rfl⟩

theorem scheduleRetry_timer (h : c.retrying = true) : c.scheduleRetry.retryTimer.isSome = true := by
  unfold scheduleRetry
  rw [h]
  split
  · next hn => cases hn
  · split
    · next hs => exact hs
    · rfl

theorem scheduleRetry_of_isSome (h : c.retryTimer.isSome = true) : c.scheduleRetry = c := by
  unfold scheduleRetry
  split
  · rfl
  · rfl

theorem reported_of_isSome (s : Nat) (h : c.retryTimer.isSome = true) : c.reported s = c := by
  unfold reported
  split
  · exact c.scheduleRetry_of_isSome h
  · rfl

private theorem retireSocket_sockets (p : Option Nat) (s : Nat) :
    (c.retireSocket p).sockets s = c.sockets s ∨ (c.retireSocket p).sockets s = (c.sockets s).aborted := by
  unfold retireSocket
  split
  · next p =>
    split
    · by_cases hs : s = p
      · subst hs
        exact .inr (update_self ..)
      · exact .inl (update_of_ne hs ..)
    · exact .inl rfl
  · exact .inl rfl

private theorem retireSocket_frame (p : Option Nat) : (c.retireSocket p).retrying = c.retrying ∧
    (c.retireSocket p).retryTimer = c.retryTimer ∧ (c.retireSocket p).backoffMs = c.backoffMs ∧
      (c.retireSocket p).opened = c.opened ∧ (c.retireSocket p).consumed = c.consumed ∧
        (c.retireSocket p).retired = c.retired := by
  unfold retireSocket
  split
  · split <;> exact ⟨rfl, rfl, rfl, rfl, rfl, rfl⟩
  · exact ⟨rfl, rfl, rfl, rfl, rfl, rfl⟩

private theorem retireUnusedSocket_sockets (s : Nat) :
    c.retireUnusedSocket.sockets s = c.sockets s ∨ c.retireUnusedSocket.sockets s = (c.sockets s).aborted := by
  have hlocal := (c.retireSocket c.sslSocket).retireSocket_sockets c.localSocket s
  have hssl := c.retireSocket_sockets c.sslSocket s
  change ((c.retireSocket c.sslSocket).retireSocket c.localSocket).sockets s = c.sockets s ∨
    ((c.retireSocket c.sslSocket).retireSocket c.localSocket).sockets s = (c.sockets s).aborted
  rcases hlocal with hlocal | hlocal <;> rcases hssl with hssl | hssl <;> rw [hlocal, hssl]
  · exact .inl rfl
  · exact .inr rfl
  · exact .inr rfl
  · exact .inr rfl

end Frame

/-- What opening a socket does, over either transport: the one before is retired, and the new one connects. -/
structure Opens (c c' : MeshClient) : Prop where
  device : c'.device = some c.opened
  opened : c'.opened = c.opened + 1
  new : (c'.sockets c.opened).state = .connecting ∧ (c'.sockets c.opened).handled = true
  others : ∀ s, s ≠ c.opened → c'.sockets s = c.sockets s ∨ c'.sockets s = (c.sockets s).aborted
  retrying : c'.retrying = c.retrying
  retryTimer : c'.retryTimer = c.retryTimer
  backoffMs : c'.backoffMs = c.backoffMs
  consumed : c'.consumed = c.consumed
  retired : c'.retired = c.retired

private theorem opens_of_retired (c : MeshClient) {c' : MeshClient} {socket : MeshSocket} (hstate : socket.state = .connecting)
    (hhandled : socket.handled = true) (hdevice : c'.device = some c.retireUnusedSocket.opened)
    (hc' : { c' with sslSocket := none, localSocket := none } = { c.retireUnusedSocket.setSocket c.retireUnusedSocket.opened socket
      with opened := c.retireUnusedSocket.opened + 1 }) : c.Opens c' := by
  obtain ⟨h1, h2, h3, h4, h5, h6⟩ := c.retireSocket_frame c.sslSocket
  obtain ⟨h1', h2', h3', h4', h5', h6'⟩ := (c.retireSocket c.sslSocket).retireSocket_frame c.localSocket
  have hopened : c.retireUnusedSocket.opened = c.opened := h4'.trans h4
  have hsockets : c'.sockets = update c.retireUnusedSocket.sockets c.opened socket := by
    rw [← hopened]
    exact congrArg sockets hc'
  refine ⟨hopened ▸ hdevice, ?_, ?_, fun s hs => ?_, ?_, ?_, ?_, ?_, ?_⟩
  · rw [← hopened]
    exact congrArg MeshClient.opened hc'
  · rw [hsockets, update_self]
    exact ⟨hstate, hhandled⟩
  · rw [hsockets, update_of_ne hs]
    exact c.retireUnusedSocket_sockets s
  · exact (congrArg MeshClient.retrying hc').trans (h1'.trans h1)
  · exact (congrArg MeshClient.retryTimer hc').trans (h2'.trans h2)
  · exact (congrArg MeshClient.backoffMs hc').trans (h3'.trans h3)
  · exact (congrArg MeshClient.consumed hc').trans (h5'.trans h5)
  · exact (congrArg MeshClient.retired hc').trans (h6'.trans h6)

theorem openMutualTls_opens (c : MeshClient) : c.Opens c.openMutualTls := c.opens_of_retired rfl rfl rfl rfl

theorem openLocal_opens (c : MeshClient) : c.Opens c.openLocal := c.opens_of_retired rfl rfl rfl rfl

end MeshClient
end SynQt
