import SynQt.Edge.Connections
import SynQt.Edge.SourceBalance

namespace SynQt
open Lib Function List

private theorem count_relocate {from_ to_ : QByteArray} (hne : from_ ≠ to_) (ids : List QByteArray) (id : QByteArray) :
    (ids.map fun k => if k = from_ then to_ else k).count id =
      SourceTable.moved (fun k => ids.count k) from_ to_ id := by
  induction ids with
  | nil => simp [SourceTable.moved]
  | cons k ids ih =>
    rw [map_cons, count_cons, ih]
    unfold SourceTable.moved
    by_cases hfrom : k = from_
    · subst hfrom
      by_cases hto : id = to_
      · simp [hto, hne]
        omega
      · by_cases hk : id = k
        · simp [hk, hne, Ne.symm hne]
        · simp [hto, hk, Ne.symm hto, Ne.symm hk]
    · by_cases hto : id = to_
      · subst hto
        by_cases hk : k = id
        · simp [hk, Ne.symm hne]
          omega
        · simp [hfrom, hk]
      · by_cases hk : id = from_
        · simp [hk, hfrom, hne]
        · simp [hfrom, hto, hk, count_cons]

namespace WebEdge
open SourceTable
variable {cfg : WebEdgeConfig} {s s' : WebEdge}

def openFor (s : WebEdge) (id : QByteArray) : Nat := (s.connections.map (·.liveSession)).count id

/-- Every session's entry counts its connections and is there while there is one; the Sources that
have not been deleted are the ones registered for a connection's session. -/
structure Accounted (s : WebEdge) : Prop where
  counts : ∀ id, (s.table.entryOf id).connections = s.openFor id
  exist : ∀ id, (s.table.sessionSources.find id).isSome ↔ 1 ≤ s.openFor id
  live : ∀ source, source ∈ s.table.live ↔
    ∃ c ∈ s.connections, ∃ point, s.table.Registered c.liveSession point source

def Accounts (s : WebEdge) : Prop := s.table.Balanced s.openFor

namespace Accounts

theorem accounted (h : Accounts s) : Accounted s := by
  have hsome (id : QByteArray) : (s.table.sessionSources.find id).isSome ↔ 1 ≤ s.openFor id := by
    by_cases hzero : s.openFor id = 0
    · rw [h.find_none hzero, hzero]
      simp
    · obtain ⟨entry, hfind, -⟩ := h.find_some hzero
      rw [hfind]
      simpa using Nat.one_le_iff_ne_zero.mpr hzero
  refine ⟨h.entryOf_connections, hsome, fun source => ?_⟩
  rw [h.live]
  constructor
  · rintro ⟨id, point, hr⟩
    have hopen : 1 ≤ s.openFor id := by
      obtain ⟨entry, hfind, -⟩ := hr
      rw [← hsome, hfind]
      rfl
    obtain ⟨c, hc, hid⟩ := mem_map.mp (count_pos_iff.mp hopen)
    exact ⟨c, hc, point, hid ▸ hr⟩
  · rintro ⟨c, -, point, hr⟩
    exact ⟨c.liveSession, point, hr⟩

theorem congr (h : Accounts s) (ht : s'.table = s.table)
    (hl : s'.connections.map (·.liveSession) = s.connections.map (·.liveSession)) : Accounts s' := by
  have hopen : s'.openFor = s.openFor := by
    funext id
    rw [openFor, openFor, hl]
  rw [Accounts, ht, hopen]
  exact h

theorem dropSession (h : Accounts s) (m : SessionManager) (now : Int) (token : QByteArray) :
    Accounts (s.dropSession m now token) := by
  unfold WebEdge.dropSession
  split
  · exact h
  · split
    · exact h
    · refine h.congr rfl ?_
      rw [map_map]
      apply map_congr_left
      intro c _
      simp only [comp]
      split <;> rfl

end Accounts

private theorem rotateConnections_lives (qt : Runtime) (v : Visitor) (from_ to_ : QByteArray) (cs : List Connection)
    (s : WebEdge) : (rotateConnections cfg qt v from_ to_ s cs).2.map (·.liveSession) =
      (cs.map (·.liveSession)).map fun k => if k = from_ then to_ else k := by
  induction cs generalizing s with
  | nil => rfl
  | cons c rest ih =>
    simp only [rotateConnections, map_cons, ih]
    congr 1
    by_cases hc : c.liveSession = from_
    · rw [onSessionRotated_of_eq s qt v hc, if_pos hc]
    · rw [onSessionRotated_of_ne s qt v hc, if_neg hc]

theorem rotateConnections_of_none (qt : Runtime) (v : Visitor) (from_ to_ : QByteArray) (cs : List Connection)
    (s : WebEdge) (hnone : ∀ c ∈ cs, c.liveSession ≠ from_) :
    rotateConnections cfg qt v from_ to_ s cs = (s, cs) := by
  induction cs generalizing s with
  | nil => rfl
  | cons c rest ih =>
    rw [forall_mem_cons] at hnone
    simp only [rotateConnections, onSessionRotated_of_ne s qt v hnone.1, ih s hnone.2]

/-- The first connection told moves the Sources, and every other one finds nothing to move. -/
theorem rotateConnections_balanced (qt : Runtime) (v : Visitor) {from_ to_ : QByteArray} (hne : from_ ≠ to_)
    {count : QByteArray → Nat} (hpos : count from_ ≠ 0) (cs : List Connection) (s : WebEdge)
    (h : (s.table.followRotation from_ to_).Balanced (moved count from_ to_))
    (hleft : s.table.sessionSources.find from_ ≠ none → ∃ c ∈ cs, c.liveSession = from_) :
    (rotateConnections cfg qt v from_ to_ s cs).1.table.Balanced (moved count from_ to_) := by
  induction cs generalizing s with
  | nil =>
    have hnone : s.table.sessionSources.find from_ = none := by
      by_contra hsome
      obtain ⟨c, hc, -⟩ := hleft hsome
      cases hc
    rw [followRotation_of_none hnone] at h
    exact h
  | cons c rest ih =>
    by_cases hc : c.liveSession = from_
    · have hto : moved count from_ to_ to_ ≠ 0 := by
        rw [moved, if_pos rfl]
        omega
      have hfrom : moved count from_ to_ from_ = 0 := by
        rw [moved, if_neg hne, if_pos rfl]
      have hdecided := h.decidePoints cfg.scopeOrder qt s.entitiesBehind.find hto v cfg.connectPoints c.hosted
      have hnone := hdecided.find_none hfrom
      simp only [rotateConnections, onSessionRotated_of_eq s qt v hc]
      exact ih _ (by rw [followRotation_of_none hnone]; exact hdecided) fun hsome => absurd hnone hsome
    · simp only [rotateConnections, onSessionRotated_of_ne s qt v hc]
      refine ih s h fun hsome => ?_
      obtain ⟨c', hc', hlive⟩ := hleft hsome
      rcases mem_cons.mp hc' with rfl | hrest
      · exact absurd hlive hc
      · exact ⟨c', hrest, hlive⟩

namespace Accounts

theorem rotated (cfg : WebEdgeConfig) (h : Accounts s) (qt : Runtime) (now : Int) (m : SessionManager) {from_ to_ : QByteArray}
    (hne : from_ ≠ to_) (hapart : s.table.apart from_ to_ = true) :
    Accounts (WebEdge.receive cfg qt now s ⟨.sessionRotated from_ to_, m⟩) := by
  simp only [WebEdge.receive]
  generalize Visitor.of m now to_ = v
  have hopen : WebEdge.openFor { (rotateConnections cfg qt v from_ to_ s s.connections).1 with
      connections := (rotateConnections cfg qt v from_ to_ s s.connections).2 } = moved s.openFor from_ to_ := by
    funext id
    rw [openFor, rotateConnections_lives]
    exact count_relocate hne _ id
  rw [Accounts, hopen]
  by_cases hzero : s.openFor from_ = 0
  · have hnone : ∀ c ∈ s.connections, c.liveSession ≠ from_ := by
      intro c hc heq
      have hmem : from_ ∈ s.connections.map (·.liveSession) := heq ▸ mem_map_of_mem hc
      exact absurd hzero (Nat.ne_of_gt (count_pos_iff.mpr hmem))
    simp only [rotateConnections_of_none qt v from_ to_ s.connections s hnone, moved_of_zero hzero]
    exact h
  · refine rotateConnections_balanced qt v hne hzero s.connections s (h.followRotation hne hapart) fun _ => ?_
    obtain ⟨c, hc, hlive⟩ := mem_map.mp (count_pos_iff.mp (Nat.pos_of_ne_zero hzero))
    exact ⟨c, hc, hlive⟩

theorem received (h : Accounts s) (qt : Runtime) (now : Int) {e : Emission} (he : e.signal.rotates = false) :
    Accounts (WebEdge.receive cfg qt now s e) := by
  obtain ⟨signal, m⟩ := e
  cases signal with
  | sessionRemoved token | sessionExpired token => exact h.dropSession m now token
  | sessionRotated => cases he
  | sessionUpserted => exact h
  | rotationRecorded => exact h

theorem delivered (h : Accounts s) (qt : Runtime) (now : Int) {emitted : List Emission}
    (he : ∀ e ∈ emitted, e.signal.rotates = false) : Accounts (emitted.foldl (WebEdge.receive cfg qt now) s) := by
  induction emitted generalizing s with
  | nil => exact h
  | cons e emitted ih =>
    rw [forall_mem_cons] at he
    exact ih (h.received qt now he.1) he.2

private theorem openFor_append (c : Connection) (h : s'.connections = s.connections ++ [c]) :
    s'.openFor = update s.openFor c.liveSession (s.openFor c.liveSession + 1) := by
  funext id
  rw [openFor, h, map_append, count_append]
  by_cases hid : id = c.liveSession
  · subst hid
    simp [openFor]
  · simp [update_of_ne hid, openFor, Ne.symm hid]

theorem hostConnection (h : Accounts s) (qt : Runtime) (now : Int) (peer : Peer) :
    Accounts (s.hostConnection cfg qt now peer) := by
  unfold WebEdge.hostConnection
  simp only
  split
  · exact Balanced.congr h rfl rfl (Nat.le_refl _)
  · rw [Accounts, openFor_append _ rfl]
    apply Balanced.hostPoints
    · exact h.claim _
    · simp

theorem disconnected (h : Accounts s) (hn : Numbered s) (transport : Nat) :
    Accounts (s.disconnected transport) := by
  unfold WebEdge.disconnected
  cases hfind : s.connections.find? (·.transport == transport) with
  | none => exact h
  | some c =>
    have hperm := (perm_cons_filter hn.distinct hfind).map (·.liveSession)
    have hcount (id : QByteArray) := hperm.count_eq id
    have hpos : s.openFor c.liveSession ≠ 0 := by
      rw [openFor, hcount, map_cons, count_cons_self]
      exact Nat.succ_ne_zero _
    have hrelease := h.releaseSessionSources hpos
    have hopen : update s.openFor c.liveSession (s.openFor c.liveSession - 1) =
        fun id => ((s.connections.filter (·.transport != transport)).map (·.liveSession)).count id := by
      funext id
      by_cases hid : id = c.liveSession
      · subst hid
        rw [update_self, openFor, hcount, map_cons, count_cons_self]
        rfl
      · rw [update_of_ne hid, openFor, hcount, map_cons, count_cons_of_ne (Ne.symm hid)]
    rw [hopen] at hrelease
    exact hrelease

end Accounts
end WebEdge

namespace EdgeRun
open WebEdge SessionManager
variable {cfg : WebEdgeConfig} {s : EdgeRun}

/-- A relayed rotation the edge takes up leads to an id whose Sources, if it keeps any, answer
for other connect points; a generated id is one nothing is kept under. -/
def Apart (s : EdgeRun) : WebEdgeOp → Prop
  | .setScope _ fresh _ _ _ _ =>
    s.edge.sessions.Unused fresh ∧ (s.edge.table.sessionSources.find fresh).isNone
  | .store _ (.sessionRotated from_ to_) =>
    s.edge.sessions.TakesRotation from_ to_ → s.edge.table.apart from_ to_ = true
  | _ => True

instance (s : EdgeRun) : (op : WebEdgeOp) → Decidable (s.Apart op)
  | .setScope _ fresh _ _ _ _ =>
    inferInstanceAs (Decidable (s.edge.sessions.Unused fresh ∧ (s.edge.table.sessionSources.find fresh).isNone))
  | .store _ (.sessionRotated from_ to_) =>
    inferInstanceAs (Decidable (s.edge.sessions.TakesRotation from_ to_ → s.edge.table.apart from_ to_ = true))
  | .store _ (.sessionUpserted ..) | .store _ (.sessionRemoved _) | .verifyUpgrade _ | .hostConnection .. | .disconnected _
  | .createSession .. | .revoke .. | .sweep _ | .setEntityBehind .. | .lostEntityBehind _ | .advance _ => .isTrue trivial

structure AccountInv (s : EdgeRun) : Prop where
  numbered : Numbered s.edge
  keyed : s.edge.sessions.Keyed
  accounts : Accounts s.edge

theorem apart_of_isNone {t : SourceTable} (from_ : QByteArray) {to_ : QByteArray}
    (h : (t.sessionSources.find to_).isNone) : t.apart from_ to_ = true := by
  have hentry : t.entryOf to_ = {} := by
    rw [SourceTable.entryOf, Option.isNone_iff_eq_none.mp h]
    rfl
  rw [SourceTable.apart, hentry]
  exact all_eq_true.mpr fun point _ => rfl

theorem Accounts.effectOf (h : Accounts s.edge) (hkeyed : s.edge.sessions.Keyed) {op : WebEdgeOp} (hop : s.Apart op)
    {qt : Runtime} {effect : Effect} (heffect : s.effectOf op = some (qt, effect)) :
    Accounts (s.edge.perform cfg qt s.now effect) := by
  have hq : Accounts { s.edge with sessions := effect.manager } := h.congr rfl rfl
  cases op with
  | createSession qt' fresh scope identity =>
    cases heffect
    exact hq.delivered qt s.now (createSession_reports hkeyed s.now s.edge.inUse fresh scope identity).still
  | revoke qt' id =>
    cases heffect
    exact hq.delivered qt s.now (revoke_reports id).still
  | sweep qt' =>
    cases heffect
    exact hq.delivered qt s.now (purgeExpired_reports _ s.now).still
  | setScope qt' fresh id scope identity handoff =>
    cases heffect
    obtain ⟨⟨hfresh, hsess, -⟩, hnone⟩ := hop
    cases hold : s.edge.sessions.sessions.find id with
    | none =>
      rw [setScope_of_none hold] at hq ⊢
      exact hq
    | some old =>
      have hne : id ≠ fresh := by
        rintro rfl
        rw [hsess] at hold
        cases hold
      have hrotated := hq.rotated cfg qt s.now
        (s.edge.sessions.setScope s.now fresh id scope identity handoff).1.manager hne (apart_of_isNone id hnone)
      simp only [setScope, hold] at hrotated ⊢
      -- the rotation is the second signal, and the first one is read by nobody here
      cases handoff with
      | keep => exact hrotated.delivered qt s.now (by simp [Signal.rotates])
      | none => exact hrotated.delivered qt s.now (by simp [Signal.rotates])
  | store qt' message =>
    cases heffect
    cases message with
    | sessionUpserted token scope identity createdMs => exact hq.delivered qt s.now (insertRecord_reports _ []).still
    | sessionRemoved token => exact hq.delivered qt s.now (applyRemove_reports token).still
    | sessionRotated from_ to_ =>
      by_cases ht : s.edge.sessions.TakesRotation from_ to_
      · have hrotated := hq.rotated cfg qt s.now
          (StoreMessage.receive s.edge.sessions s.now (.sessionRotated from_ to_)).manager ht.2.2.1 (hop ht)
        have hemitted := applyRotation_emitted ht s.now
        rw [WebEdge.perform, StoreMessage.receive, hemitted]
        exact hrotated
      · have hsame : StoreMessage.receive s.edge.sessions s.now (.sessionRotated from_ to_) =
            ⟨s.edge.sessions, [], []⟩ := applyRotation_of_not ht
        rw [hsame] at hq ⊢
        exact hq
  | _ => cases heffect

theorem AccountInv.step (h : AccountInv s) {op : WebEdgeOp} (hop : s.Apart op) : AccountInv (s.step cfg op) := by
  rcases step_cases cfg s op with ⟨qt, effect, heffect, heq⟩ | ⟨request, key, -, hv, heq⟩ | ⟨qt, peer, rfl, heq⟩ |
    ⟨transport, -, heq⟩ | ⟨behind, following, now, heq⟩ <;> rw [heq]
  · obtain ⟨hkept, hmanager⟩ := perform_kept cfg qt s.now s.edge effect
    exact ⟨h.numbered.kept hkept, hmanager ▸ effectOf_keyed h.keyed heffect,
      Accounts.effectOf h.accounts h.keyed hop heffect⟩
  · obtain ⟨-, -, -, -, hstash⟩ := verifyUpgrade_accepted hv
    rw [hstash]
    exact ⟨⟨h.numbered.distinct, h.numbered.below⟩, h.keyed, h.accounts.congr rfl rfl⟩
  · exact ⟨h.numbered.hostConnection qt s.now peer, by simpa using h.keyed,
      h.accounts.hostConnection qt s.now peer⟩
  · exact ⟨h.numbered.disconnected transport, by simpa using h.keyed,
      h.accounts.disconnected h.numbered transport⟩
  · exact ⟨⟨h.numbered.distinct, h.numbered.below⟩, h.keyed, SourceTable.Balanced.congr h.accounts rfl rfl (Nat.le_refl _)⟩

theorem AccountInv.start (cfg : WebEdgeConfig) (defaultScope : QString) (ttlMinutes now : Int) :
    AccountInv (start cfg defaultScope ttlMinutes now) := by
  refine ⟨⟨nodup_nil, fun _ hc => by cases hc⟩, start_keyed cfg defaultScope ttlMinutes now, ?_⟩
  have hnone (id : QByteArray) (point : QString) (source : Nat) : ¬ SourceTable.empty.Registered id point source := by
    rintro ⟨entry, hfind, -⟩
    cases (Hash.find_empty id).symm.trans hfind
  refine ⟨fun id => rfl, fun source => ⟨fun hmem => (by cases hmem), ?_⟩, fun source id point _ _ hr => ?_,
    fun _ hmem => by cases hmem⟩
  · rintro ⟨id, point, hr⟩
    exact absurd hr (hnone id point source)
  · exact absurd hr (hnone id point source)

/-- In every run whose relayed rotations lead to ids that keep no Source of the same connect
point, every session's Sources are accounted for. -/
theorem sources_accounted (cfg : WebEdgeConfig) (defaultScope : QString) (ttlMinutes now : Int)
    (ops : List WebEdgeOp) (hops : Each (step cfg) Apart (start cfg defaultScope ttlMinutes now) ops) :
    Accounted (run (step cfg) (start cfg defaultScope ttlMinutes now) ops).edge := by
  exact (hops.invariant AccountInv (fun _ _ h hop => h.step hop)
    (AccountInv.start cfg defaultScope ttlMinutes now)).accounts.accounted

def ownTodo : WebEdgeConfig := { fewVisitors with connectPoints := [⟨"todo", "Todo", "todo.qml", "", false, []⟩] }

/-- Two tabs of one visitor, the second opened after an elevation. -/
def twoTabs : List WebEdgeOp :=
  [visit "s1", verify "s1" 1, host 1, .setScope loadsAll (asciiBytes "s2") (asciiBytes "s1") "user" [] .keep,
    verify "s2" 2, host 2, .disconnected 0]

theorem sources_accounted_twoTabs :
    ((run (step ownTodo) (start ownTodo "anonymous" 720 0) twoTabs).edge.table.entryOf (asciiBytes "s2")).connections
      = 1 ∧ Accounted (run (step ownTodo) (start ownTodo "anonymous" 720 0) twoTabs).edge :=
  ⟨by decide, sources_accounted ownTodo "anonymous" 720 0 twoTabs (by decide)⟩

/-- The elevation was another edge's: its session reaches this edge first, a tab opens under it, and
then the hand-off arrives. -/
def tabBeforeHandoff : List WebEdgeOp :=
  [visit "s1", verify "s1" 1, host 1, .store loadsAll (.sessionUpserted (asciiBytes "s2") "user" [] 0),
    verify "s2" 2, host 2, .store loadsAll (.sessionRotated (asciiBytes "s1") (asciiBytes "s2")),
    .disconnected 0, .disconnected 1]

/-- Nobody is connected, and a Source is left. -/
theorem sources_leaked :
    (run (step ownTodo) (start ownTodo "anonymous" 720 0) tabBeforeHandoff).edge.connections.length = 0 ∧
    (run (step ownTodo) (start ownTodo "anonymous" 720 0) tabBeforeHandoff).edge.table.live = [1] ∧
    ¬ Accounted (run (step ownTodo) (start ownTodo "anonymous" 720 0) tabBeforeHandoff).edge := by
  have hnobody :
      (run (step ownTodo) (start ownTodo "anonymous" 720 0) tabBeforeHandoff).edge.connections.length = 0 := by decide
  have hleft : (run (step ownTodo) (start ownTodo "anonymous" 720 0) tabBeforeHandoff).edge.table.live = [1] := by
    decide
  refine ⟨hnobody, hleft, fun haccounted => ?_⟩
  obtain ⟨c, hc, -⟩ := (haccounted.live 1).mp (hleft ▸ mem_singleton.mpr rfl)
  exact absurd hnobody (Nat.ne_of_gt (length_pos_of_mem hc))

end EdgeRun
end SynQt
