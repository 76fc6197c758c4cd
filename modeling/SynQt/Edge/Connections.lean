import SynQt.Edge.WebEdge
import SynQt.Service.Endings
import SynQt.Lib.Keyed

/-! What following the session table leaves as it was, on the edge and on each connection. -/
namespace SynQt
open Lib List

namespace WebEdge
variable {cfg : WebEdgeConfig} {s s' s'' : WebEdge}

/-- The part of a connection that no signal changes. -/
def identityOf (c : Connection) : Nat × QString := (c.transport, c.ip)

/-- The same connections, counted the same way, under the same pending upgrades. -/
structure Kept (s' s : WebEdge) : Prop where
  pendingSessions : s'.pendingSessions = s.pendingSessions
  activeGlobal : s'.activeGlobal = s.activeGlobal
  activePerIp : s'.activePerIp = s.activePerIp
  nextTransport : s'.nextTransport = s.nextTransport
  connections : s'.connections.map identityOf = s.connections.map identityOf

namespace Kept

@[refl] theorem refl (s : WebEdge) : Kept s s := ⟨rfl, rfl, rfl, rfl, rfl⟩

theorem trans (h : Kept s'' s') (h' : Kept s' s) : Kept s'' s :=
  ⟨h.pendingSessions.trans h'.pendingSessions, h.activeGlobal.trans h'.activeGlobal,
    h.activePerIp.trans h'.activePerIp, h.nextTransport.trans h'.nextTransport,
    h.connections.trans h'.connections⟩

end Kept

private theorem dropSession_kept (m : SessionManager) (now : Int) (id : QByteArray) : Kept (s.dropSession m now id) s := by
  unfold dropSession
  split
  · rfl
  · split
    · rfl
    · refine ⟨rfl, rfl, rfl, rfl, ?_⟩
      simp only [map_map]
      apply map_congr_left
      intro c _
      simp only [Function.comp]
      split <;> rfl

theorem onSessionRotated_of_ne (s : WebEdge) (qt : Runtime) (v : Visitor) {from_ to_ : QByteArray} {c : Connection}
    (hc : c.liveSession ≠ from_) : onSessionRotated cfg s qt v from_ to_ c = (s, c) := by
  unfold onSessionRotated
  rw [if_pos (bne_iff_ne.mpr hc)]

theorem onSessionRotated_of_eq (s : WebEdge) (qt : Runtime) (v : Visitor) {from_ to_ : QByteArray} {c : Connection}
    (hc : c.liveSession = from_) :
    onSessionRotated cfg s qt v from_ to_ c =
      let decided := (s.table.followRotation from_ to_).decidePoints cfg.scopeOrder qt s.entitiesBehind.find
        cfg.connectPoints to_ v c.hosted
      ({ s.followRotation from_ to_ c.transport with table := decided.1 },
        { c with liveSession := to_, hosted := decided.2 }) := by
  unfold onSessionRotated
  rw [if_neg (by simpa using hc)]
  rfl

section
variable (cfg : WebEdgeConfig)

theorem onSessionRotated_kept (s : WebEdge) (qt : Runtime) (v : Visitor) (from_ to_ : QByteArray) (c : Connection) :
    Kept (onSessionRotated cfg s qt v from_ to_ c).1 s ∧
      identityOf (onSessionRotated cfg s qt v from_ to_ c).2 = identityOf c ∧
      (onSessionRotated cfg s qt v from_ to_ c).1.sessions = s.sessions ∧
      (onSessionRotated cfg s qt v from_ to_ c).1.connections = s.connections := by
  unfold onSessionRotated
  split
  · exact ⟨Kept.refl s, rfl, rfl, rfl⟩
  · exact ⟨⟨rfl, rfl, rfl, rfl, rfl⟩, rfl, rfl, rfl⟩

section
variable (qt : Runtime)

theorem rotateConnections_kept (v : Visitor) (from_ to_ : QByteArray) (cs : List Connection)
    (s : WebEdge) :
    Kept (rotateConnections cfg qt v from_ to_ s cs).1 s ∧
      (rotateConnections cfg qt v from_ to_ s cs).2.map identityOf = cs.map identityOf ∧
      (rotateConnections cfg qt v from_ to_ s cs).1.sessions = s.sessions := by
  induction cs generalizing s with
  | nil => exact ⟨Kept.refl s, rfl, rfl⟩
  | cons c rest ih =>
    obtain ⟨hkept, hsame, hsessions, -⟩ := onSessionRotated_kept cfg s qt v from_ to_ c
    obtain ⟨hrest, hothers, hend⟩ := ih (onSessionRotated cfg s qt v from_ to_ c).1
    refine ⟨hrest.trans hkept, ?_, hend.trans hsessions⟩
    simp only [rotateConnections, map_cons, hsame, hothers]

@[simp] theorem rotateConnections_entitiesBehind (v : Visitor) (from_ to_ : QByteArray)
    (cs : List Connection) (s : WebEdge) :
    (rotateConnections cfg qt v from_ to_ s cs).1.entitiesBehind = s.entitiesBehind := by
  induction cs generalizing s with
  | nil => rfl
  | cons c rest ih =>
    have hself : (onSessionRotated cfg s qt v from_ to_ c).1.entitiesBehind = s.entitiesBehind := by
      unfold onSessionRotated
      split <;> rfl
    exact (ih _).trans hself

theorem receive_kept (now : Int) (s : WebEdge) (e : Emission) :
    Kept (receive cfg qt now s e) s ∧ (receive cfg qt now s e).sessions = s.sessions := by
  obtain ⟨signal, m⟩ := e
  have dropped (token : QByteArray) : (s.dropSession m now token).sessions = s.sessions := by
    unfold dropSession
    split
    · rfl
    · split <;> rfl
  cases signal with
  | sessionRemoved token | sessionExpired token => exact ⟨dropSession_kept m now token, dropped token⟩
  | sessionRotated from_ to_ =>
    obtain ⟨hkept, hconns, hsessions⟩ :=
      rotateConnections_kept cfg qt (Visitor.of m now to_) from_ to_ s.connections s
    exact ⟨⟨hkept.pendingSessions, hkept.activeGlobal, hkept.activePerIp, hkept.nextTransport, hconns⟩, hsessions⟩
  | sessionUpserted | rotationRecorded => exact ⟨Kept.refl s, rfl⟩

theorem perform_kept (now : Int) (s : WebEdge) (effect : Effect) :
    Kept (s.perform cfg qt now effect) s ∧ (s.perform cfg qt now effect).sessions = effect.manager := by
  unfold perform
  have hq : Kept { s with sessions := effect.manager } s := ⟨rfl, rfl, rfl, rfl, rfl⟩
  have hm : ({ s with sessions := effect.manager } : WebEdge).sessions = effect.manager := rfl
  revert hq hm
  generalize ({ s with sessions := effect.manager } : WebEdge) = q
  induction effect.emitted generalizing q with
  | nil => exact fun hq hm => ⟨hq, hm⟩
  | cons e emitted ih =>
    intro hq hm
    obtain ⟨hkept, hsessions⟩ := receive_kept cfg qt now q e
    exact ih (receive cfg qt now q e) (hkept.trans hq) (hsessions.trans hm)

end

end

@[simp] theorem hostConnection_sessions (qt : Runtime) (now : Int) (peer : Peer) :
    (s.hostConnection cfg qt now peer).sessions = s.sessions := by
  unfold hostConnection
  simp only
  split <;> rfl

@[simp] theorem disconnected_sessions (transport : Nat) : (s.disconnected transport).sessions = s.sessions := by
  unfold disconnected
  split <;> rfl

structure Numbered (s : WebEdge) : Prop where
  distinct : (s.connections.map (·.transport)).Nodup
  below : ∀ c ∈ s.connections, c.transport < s.nextTransport

namespace Numbered

private theorem transports_eq (l : List Connection) : l.map (·.transport) = (l.map identityOf).map Prod.fst := by
  rw [map_map]
  rfl

theorem kept (h : Numbered s) (hk : Kept s' s) : Numbered s' := by
  have heq : s'.connections.map (·.transport) = s.connections.map (·.transport) := by
    rw [transports_eq, transports_eq, hk.connections]
  refine ⟨heq ▸ h.distinct, fun c hc => ?_⟩
  have hmem : c.transport ∈ s.connections.map (·.transport) := heq ▸ mem_map_of_mem hc
  obtain ⟨c₀, hc₀, hsame⟩ := mem_map.mp hmem
  rw [hk.nextTransport, ← hsame]
  exact h.below c₀ hc₀

theorem hostConnection (h : Numbered s) (qt : Runtime) (now : Int) (peer : Peer) :
    Numbered (s.hostConnection cfg qt now peer) := by
  unfold WebEdge.hostConnection
  simp only
  split
  · exact ⟨h.distinct, h.below⟩
  · refine ⟨?_, fun c hc => ?_⟩
    · simp only [map_append, map_cons, map_nil]
      refine nodup_append.mpr ⟨h.distinct, nodup_singleton _, fun a ha b hb => ?_⟩
      obtain ⟨c, hc, rfl⟩ := mem_map.mp ha
      rw [mem_singleton.mp hb]
      exact Nat.ne_of_lt (h.below c hc)
    · rcases mem_append.mp hc with hold | hnew
      · exact Nat.lt_succ_of_lt (h.below c hold)
      · rw [mem_singleton.mp hnew]
        exact Nat.lt_succ_self _

theorem disconnected (h : Numbered s) (transport : Nat) : Numbered (s.disconnected transport) := by
  unfold WebEdge.disconnected
  split
  · exact h
  · refine ⟨h.distinct.sublist (filter_sublist.map _), fun c hc => ?_⟩
    exact h.below c (mem_of_mem_filter hc)

end Numbered
end WebEdge

namespace EdgeRun
variable {cfg : WebEdgeConfig} {s : EdgeRun}

/-- The cases of a step: an operation of the session table, one of the three of a connection,
or one that touches neither the connections nor the table. -/
theorem step_cases (cfg : WebEdgeConfig) (s : EdgeRun) (op : WebEdgeOp) :
    (∃ qt effect, s.effectOf op = some (qt, effect) ∧
      s.step cfg op = { s with edge := s.edge.perform cfg qt s.now effect }) ∨
    (∃ request key, op = .verifyUpgrade request ∧
      (s.edge.verifyUpgrade cfg s.now request).2 = .accept key ∧
      s.step cfg op = { s with edge := (s.edge.verifyUpgrade cfg s.now request).1, ahead := key :: s.ahead }) ∨
    (∃ qt peer, op = .hostConnection qt peer ∧ s.step cfg op =
      { s with
        edge := s.edge.hostConnection cfg qt s.now peer
        ahead := if (s.edge.hostConnection cfg qt s.now peer).activeGlobal = s.edge.activeGlobal then s.ahead else [] }) ∨
    (∃ transport, op = .disconnected transport ∧
      s.step cfg op = { s with edge := s.edge.disconnected transport }) ∨
    (∃ behind following now, s.step cfg op =
      { s with
        edge := { s.edge with entitiesBehind := behind, table := { s.edge.table with following := following } }
        now := now }) := by
  cases op with
  | verifyUpgrade request =>
    cases hv : (s.edge.verifyUpgrade cfg s.now request).2 with
    | accept key =>
      refine .inr (.inl ⟨request, key, rfl, hv, ?_⟩)
      simp only [step, effectOf, hv]
    | deny status reason body =>
      refine .inr (.inr (.inr (.inr ⟨s.edge.entitiesBehind, s.edge.table.following, s.now, ?_⟩)))
      simp only [step, effectOf, hv]
  | hostConnection qt peer => exact .inr (.inr (.inl ⟨qt, peer, rfl, rfl⟩))
  | disconnected transport => exact .inr (.inr (.inr (.inl ⟨transport, rfl, rfl⟩)))
  | setEntityBehind entity replica => exact .inr (.inr (.inr (.inr ⟨_, _, s.now, rfl⟩)))
  | lostEntityBehind entity =>
    refine .inr (.inr (.inr (.inr ?_)))
    simp only [step, effectOf, WebEdge.lostEntityBehind]
    split
    · exact ⟨s.edge.entitiesBehind, s.edge.table.following, s.now, rfl⟩
    · exact ⟨_, _, s.now, rfl⟩
  | advance ms => exact .inr (.inr (.inr (.inr ⟨s.edge.entitiesBehind, s.edge.table.following, _, rfl⟩)))
  | createSession qt fresh scope identity | setScope qt fresh id scope identity handoff | revoke qt id
  | store qt message | sweep qt => exact .inl ⟨_, _, rfl, rfl⟩

/-- Every operation of the session table stores records under their own ids. -/
theorem effectOf_keyed (h : s.edge.sessions.Keyed) {op : WebEdgeOp} {qt : Runtime} {effect : Effect}
    (heffect : s.effectOf op = some (qt, effect)) : effect.manager.Keyed := by
  cases op with
  | createSession qt' fresh scope identity =>
    cases heffect
    exact h.createSession s.now s.edge.inUse fresh scope identity
  | setScope qt' fresh id scope identity handoff =>
    cases heffect
    exact h.setScope s.now fresh id scope identity handoff
  | revoke qt' id =>
    cases heffect
    exact (SessionManager.revoke_within id).keyed h
  | store qt' message =>
    cases heffect
    exact h.receive s.now message
  | sweep qt' =>
    cases heffect
    exact (SessionManager.purgeExpired_within _ s.now).keyed h
  | _ => cases heffect

theorem start_keyed (cfg : WebEdgeConfig) (defaultScope : QString) (ttlMinutes now : Int) :
    (start cfg defaultScope ttlMinutes now).edge.sessions.Keyed := by
  intro k r hr
  have hnone : (start cfg defaultScope ttlMinutes now).edge.sessions.sessions.find k = none := Hash.find_empty k
  rw [hnone] at hr
  cases hr

/-- An accepted upgrade found a live session and both counters below their ceilings, and
stashed what the connection is hosted with. -/
theorem verifyUpgrade_accepted {request : UpgradeRequest} {key : QString} {edge : WebEdge} {now : Int}
    (h : (edge.verifyUpgrade cfg now request).2 = .accept key) :
    key = request.peer.key ∧ edge.sessions.isLive now (sessionIdOf cfg request) = true ∧
      edge.activeGlobal < cfg.maxConnectionsGlobal ∧
      (edge.activePerIp.find (WebEdge.clientIp cfg request)).getD 0 < cfg.maxConnectionsPerIp ∧
      (edge.verifyUpgrade cfg now request).1 = edge.rememberVerifiedSession cfg now key (sessionIdOf cfg request)
        (WebEdge.clientIp cfg request) := by
  unfold WebEdge.verifyUpgrade at h ⊢
  split at h
  · cases h
  · rename_i horigin
    simp only at h
    split at h
    · cases h
    · rename_i hlive
      split at h
      · cases h
      · rename_i hidentity
        split at h
        · cases h
        · rename_i hcap
          cases h
          obtain ⟨hglobal, hip⟩ := not_or.mp hcap
          refine ⟨rfl, by simpa using hlive, Int.not_le.mp hglobal, Int.not_le.mp hip, ?_⟩
          simp only [if_neg horigin, if_neg hlive, if_neg hidentity, if_neg hcap]

/-- A small deployment: at most one connection, and none of its own points. -/
def oneVisitor : WebEdgeConfig where
  cookieName := asciiBytes "sid"
  allowedOrigins := ["https://app.test"]
  identityRequired := false
  maxConnectionsGlobal := 1
  maxConnectionsPerIp := 1
  maxSessions := 100
  handshakeTimeoutMs := 5000
  trusted := fun _ => false
  scopeOrder := ⟨["anonymous", "user"], true⟩
  connectPoints := []

def fewVisitors : WebEdgeConfig := { oneVisitor with maxConnectionsGlobal := 10, maxConnectionsPerIp := 10 }

def loadsAll : Runtime := ⟨fun _ => none, fun _ => true, fun _ => true⟩

def peerAt (port : Nat) : Peer := ⟨"10.0.0.1", port, ⟨"10.0.0.1", by decide⟩⟩

def upgradeOf (id : QString) (port : Nat) : UpgradeRequest :=
  ⟨peerAt port, "https://app.test", asciiBytes ("sid=" ++ id), "", []⟩

def visit (id : QString) : WebEdgeOp := .createSession loadsAll (asciiBytes id) "" []

def verify (id : QString) (port : Nat) : WebEdgeOp := .verifyUpgrade (upgradeOf id port)

def host (port : Nat) : WebEdgeOp := .hostConnection loadsAll (peerAt port)

end EdgeRun
end SynQt
