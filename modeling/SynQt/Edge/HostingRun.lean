import SynQt.Edge.Entitlement
import SynQt.Edge.Following

namespace SynQt
open Lib Option List

namespace WebEdge
open SourceTable
variable {cfg : WebEdgeConfig} {s s' : WebEdge} {now : Int}

/-- Every connection hosts what belongs to its session, and of a live one what its scope is served. -/
structure Entitled (cfg : WebEdgeConfig) (s : WebEdge) (now : Int) : Prop where
  linked : ∀ c ∈ s.connections, Linked cfg s.table c.liveSession c.hosted
  current : ∀ c ∈ s.connections, ∀ scope, Visitor.of s.sessions now c.liveSession = some scope →
    Current cfg s.entitiesBehind.find s.table c.liveSession (some scope) c.hosted

def SameHosting (s' s : WebEdge) : Prop :=
  ∀ c' ∈ s'.connections, ∃ c ∈ s.connections, c'.liveSession = c.liveSession ∧ c'.hosted = c.hosted

namespace Entitled

theorem congr (h : Entitled cfg s now) (hc : SameHosting s' s) (hb : s'.entitiesBehind = s.entitiesBehind)
    (ht : ∀ c ∈ s'.connections, Untouched s.table s'.table c.liveSession)
    (hn : ∀ c ∈ s'.connections, Visitor.Narrows s'.sessions s.sessions now c.liveSession) : Entitled cfg s' now := by
  refine ⟨fun c' hc' => ?_, fun c' hc' scope hv => ?_⟩
  · obtain ⟨c, hmem, hlive, hhosted⟩ := hc c' hc'
    have hlinked := h.linked c hmem
    rw [← hlive, ← hhosted] at hlinked
    exact hlinked.congr (ht c' hc')
  · obtain ⟨c, hmem, hlive, hhosted⟩ := hc c' hc'
    have hcurrent := h.current c hmem scope (hlive ▸ hn c' hc' scope hv)
    rw [← hlive, ← hhosted] at hcurrent
    rw [hb]
    exact hcurrent.congr (ht c' hc')

theorem delivered_same (cfg : WebEdgeConfig) (qt : Runtime) (now : Int) {emitted : List Emission}
    (he : ∀ e ∈ emitted, e.signal.rotates = false) (s : WebEdge) :
    SameHosting (emitted.foldl (receive cfg qt now) s) s ∧
      (emitted.foldl (receive cfg qt now) s).table = s.table ∧
      (emitted.foldl (receive cfg qt now) s).entitiesBehind = s.entitiesBehind ∧
      (emitted.foldl (receive cfg qt now) s).sessions = s.sessions := by
  have dropped (s : WebEdge) (m : SessionManager) (token : QByteArray) :
      SameHosting (s.dropSession m now token) s ∧ (s.dropSession m now token).table = s.table ∧
        (s.dropSession m now token).entitiesBehind = s.entitiesBehind := by
    unfold dropSession
    split
    · exact ⟨fun c hc => ⟨c, hc, rfl, rfl⟩, rfl, rfl⟩
    · split
      · exact ⟨fun c hc => ⟨c, hc, rfl, rfl⟩, rfl, rfl⟩
      · refine ⟨fun c' hc' => ?_, rfl, rfl⟩
        obtain ⟨c, hc, rfl⟩ := mem_map.mp hc'
        refine ⟨c, hc, ?_⟩
        split <;> exact ⟨rfl, rfl⟩
  induction emitted generalizing s with
  | nil => exact ⟨fun c hc => ⟨c, hc, rfl, rfl⟩, rfl, rfl, rfl⟩
  | cons e emitted ih =>
    rw [forall_mem_cons] at he
    obtain ⟨hrest, htable, hbehind, hsessions⟩ := ih he.2 (receive cfg qt now s e)
    have hone : SameHosting (receive cfg qt now s e) s ∧ (receive cfg qt now s e).table = s.table ∧
        (receive cfg qt now s e).entitiesBehind = s.entitiesBehind := by
      obtain ⟨signal, m⟩ := e
      cases signal with
      | sessionRemoved token => exact dropped s m token
      | sessionExpired token => exact dropped s m token
      | sessionRotated => cases he.1
      | sessionUpserted => exact ⟨fun c hc => ⟨c, hc, rfl, rfl⟩, rfl, rfl⟩
      | rotationRecorded => exact ⟨fun c hc => ⟨c, hc, rfl, rfl⟩, rfl, rfl⟩
    refine ⟨fun c'' hc'' => ?_, htable.trans hone.2.1, hbehind.trans hone.2.2,
      hsessions.trans (receive_kept cfg qt now s e).2⟩
    obtain ⟨c', hc', hlive', hhosted'⟩ := hrest c'' hc''
    obtain ⟨c, hc, hlive, hhosted⟩ := hone.1 c' hc'
    exact ⟨c, hc, hlive'.trans hlive, hhosted'.trans hhosted⟩

theorem delivered (h : Entitled cfg s now) (qt : Runtime) {emitted : List Emission}
    (he : ∀ e ∈ emitted, e.signal.rotates = false) :
    Entitled cfg (emitted.foldl (receive cfg qt now) s) now := by
  obtain ⟨hsame, htable, hbehind, hsessions⟩ := delivered_same cfg qt now he s
  refine h.congr hsame hbehind (fun c _ => Untouched.of_eq (by rw [htable]) (by rw [htable])) fun c _ => ?_
  rw [hsessions]
  exact fun scope hv => hv

private theorem connection_of_registered (ha : Accounts s) {id : QByteArray} {p : QString} {x : Nat}
    (hr : s.table.Registered id p x) : ∃ c ∈ s.connections, c.liveSession = id := by
  obtain ⟨entry, hfind, -⟩ := hr
  have hopen : 1 ≤ s.openFor id := by
    rw [← ha.accounted.exist, hfind]
    rfl
  exact mem_map.mp (count_pos_iff.mp hopen)

section
variable (h : Entitled cfg s now)
include h

variable {scope : QString}

private theorem movable (ha : Accounts s) {from_ to_ : QByteArray} (hne : from_ ≠ to_)
    (hapart : s.table.apart from_ to_ = true) (hv : Visitor.of s.sessions now to_ = some scope)
    {c : Connection} (hc : c ∈ s.connections) (hlive : c.liveSession = from_) :
    Movable cfg s.entitiesBehind.find (s.table.followRotation from_ to_) to_ (some scope) c := by
  have hlinked := h.linked c hc
  rw [hlive] at hlinked
  have hreg := followRotation_registered hne hapart
  refine ⟨fun point hp => ⟨fun x hx => ?_, hlinked.opened point hp, fun hf hnone hs x hx => ?_⟩, hlinked.named⟩
  · exact (hreg to_ point.name x).mpr (.inl ⟨rfl, .inl (hlinked.registered point.name x hx)⟩)
  · rw [followRotation_relayTargets]
    rcases (hreg to_ point.name x).mp hx with ⟨-, hfrom | hto⟩ | ⟨hself, -⟩
    · exact hlinked.quiet point hp hf hnone x hfrom
    · -- a connection `to_` has already is current, and served as this one will be
      obtain ⟨d, hd, hdlive⟩ := connection_of_registered ha hto
      have hcurrent := h.current d hd scope (hdlive.symm ▸ hv)
      rw [hdlive] at hcurrent
      exact hcurrent.quiet hp hf hs hto
    · exact absurd rfl hself

/-- The relays of one live session are where they belong, and every connection is one that was there or
one of that session. -/
theorem rehosted {id : QByteArray} (hv : Visitor.of s.sessions now id = some scope) (hs : s'.sessions = s.sessions)
    (hb : s'.entitiesBehind = s.entitiesBehind)
    (hpointed : Pointed cfg s.entitiesBehind.find s'.table id (some scope))
    (hkept : ∀ name x, s.table.Registered id name x → s'.table.Registered id name x)
    (hcases : ∀ c ∈ s'.connections,
      (c ∈ s.connections ∧ (c.liveSession ≠ id → Untouched s.table s'.table c.liveSession)) ∨
      Moved cfg s.entitiesBehind.find s'.table id (some scope) c) : Entitled cfg s' now := by
  have hone : ∀ c ∈ s'.connections, (c ∈ s.connections ∧ Untouched s.table s'.table c.liveSession) ∨
      (c.liveSession = id ∧ Linked cfg s'.table id c.hosted ∧
        Current cfg s.entitiesBehind.find s'.table id (some scope) c.hosted) := by
    intro c hc
    rcases hcases c hc with ⟨hmem, hstill⟩ | ⟨hlive, hserved, hregistered, hnamed⟩
    · by_cases hid : c.liveSession = id
      · have hlinked := h.linked c hmem
        have hserved := (h.current c hmem scope (hid.symm ▸ hv)).served
        have hcurrent : Current cfg s.entitiesBehind.find s'.table id (some scope) c.hosted := ⟨hserved, hpointed⟩
        refine .inr ⟨hid, hcurrent.linked (fun name x hx => ?_) hlinked.named, hcurrent⟩
        exact hkept name x (hid ▸ hlinked.registered name x hx)
      · exact .inl ⟨hmem, hstill hid⟩
    · have hcurrent : Current cfg s.entitiesBehind.find s'.table id (some scope) c.hosted := ⟨hserved, hpointed⟩
      exact .inr ⟨hlive, hcurrent.linked hregistered hnamed, hcurrent⟩
  refine ⟨fun c hc => ?_, fun c hc scope' hv' => ?_⟩
  · rcases hone c hc with ⟨hmem, hstill⟩ | ⟨hlive, hlinked, -⟩
    · exact (h.linked c hmem).congr hstill
    · exact hlive ▸ hlinked
  · rw [hs] at hv'
    rw [hb]
    rcases hone c hc with ⟨hmem, hstill⟩ | ⟨hlive, -, hcurrent⟩
    · exact (h.current c hmem scope' hv').congr hstill
    · rw [hlive, hv] at hv'
      cases hv'
      exact hlive ▸ hcurrent

theorem rotated (ha : Accounts s) {qt : Runtime}
    (hl : ∀ point ∈ cfg.connectPoints, qt.Loads point) (hnd : (cfg.connectPoints.map (·.name)).Nodup)
    {from_ to_ : QByteArray} (hne : from_ ≠ to_) (hapart : s.table.apart from_ to_ = true) (hv : Visitor.of s.sessions now to_ = some scope) :
    Entitled cfg (receive cfg qt now s ⟨.sessionRotated from_ to_, s.sessions⟩) now := by
  simp only [receive, hv]
  by_cases hzero : s.openFor from_ = 0
  · have hnone : ∀ c ∈ s.connections, c.liveSession ≠ from_ := by
      intro c hc heq
      have hmem : from_ ∈ s.connections.map (·.liveSession) := heq ▸ mem_map_of_mem hc
      exact absurd hzero (Nat.ne_of_gt (count_pos_iff.mpr hmem))
    rw [rotateConnections_of_none qt _ from_ to_ s.connections s hnone]
    exact h
  · obtain ⟨c₀, hc₀, hlive₀⟩ := mem_map.mp (count_pos_iff.mp (Nat.pos_of_ne_zero hzero))
    obtain ⟨htouches, hmoved, hpointed⟩ := rotateConnections_decided qt hne hzero hl hnd s.connections s
      (ha.followRotation hne hapart) (fun _ => ⟨c₀, hc₀, hlive₀⟩) fun c hc hlive => h.movable ha hne hapart hv hc hlive
    refine h.rehosted hv (rotateConnections_kept cfg qt (some scope) from_ to_ s.connections s).2.2
      (rotateConnections_entitiesBehind cfg qt (some scope) from_ to_ s.connections s)
      (hpointed (.inl ⟨c₀, hc₀, hlive₀⟩)) (fun name x hr => ?_) fun c hc => ?_
    · exact htouches.kept to_ name x ((followRotation_registered hne hapart to_ name x).mpr (.inl ⟨rfl, .inr hr⟩))
    · obtain ⟨hmem, hfrom⟩ | hto := hmoved c hc
      · exact .inl ⟨hmem, fun hto => (followRotation_untouched hne hapart hfrom hto).trans (htouches.untouched hto)⟩
      · exact .inr hto

theorem hostConnection (ha : Accounts s) {qt : Runtime}
    (hl : ∀ point ∈ cfg.connectPoints, qt.Loads point) (hnd : (cfg.connectPoints.map (·.name)).Nodup) {peer : Peer}
    (hlive : ∀ verified ∈ s.pendingSessions.find peer.key, verified.id ≠ [] →
      s.sessions.isLive now verified.id = true) : Entitled cfg (s.hostConnection cfg qt now peer) now := by
  unfold WebEdge.hostConnection
  cases hstash : s.pendingSessions.find peer.key with
  | none => exact h.congr (fun c hc => ⟨c, hc, rfl, rfl⟩) rfl (fun _ _ => Untouched.of_eq rfl rfl) fun _ _ _ hv => hv
  | some verified =>
    simp only [getD_some]
    split
    · exact h.congr (fun c hc => ⟨c, hc, rfl, rfl⟩) rfl (fun _ _ => Untouched.of_eq rfl rfl) fun _ _ _ hv => hv
    · rename_i hne
      obtain ⟨record, hrecord⟩ := isSome_iff_exists.mp (hlive verified hstash (by simpa using hne))
      have hv : Visitor.of s.sessions now verified.id = some record.scope := by
        rw [Visitor.of, hrecord]
        rfl
      have hclaim := claim_untouched s.table verified.id
      have hpointed : Pointed cfg s.entitiesBehind.find (s.table.claim verified.id) verified.id (some record.scope) := by
        intro point hp hf x hx
        have hold := ((hclaim verified.id).same point.name x).mp hx
        obtain ⟨d, hd, hdlive⟩ := connection_of_registered ha hold
        have hcurrent := h.current d hd record.scope (hdlive.symm ▸ hv)
        exact hcurrent.pointed point hp hf x (hdlive.symm ▸ hold)
      have hpos : Function.update s.openFor verified.id (s.openFor verified.id + 1) verified.id ≠ 0 := by simp
      have hdecided := hostPoints_decided qt (ha.claim verified.id) hpos hl hnd hpointed
      have hnamed : ∀ name x, (∅ : Hash QString Nat).find name = some x → name ∈ cfg.connectPoints.map (·.name) := by
        intro name x hx
        rw [Hash.find_empty] at hx
        cases hx
      rw [hv]
      refine h.rehosted hv rfl rfl hdecided.pointed (fun name x hr => ?_) fun c hc => ?_
      · exact hdecided.touches.kept _ name x (((hclaim _).same name x).mpr hr)
      · rcases mem_append.mp hc with hmem | hnew
        · exact .inl ⟨hmem, fun hid => (hclaim _).trans (hdecided.touches.untouched hid)⟩
        · rw [mem_singleton.mp hnew]
          exact .inr ⟨rfl, hdecided.served, (hdecided.linked hnamed).registered, hdecided.named hnamed⟩

theorem disconnected (ha : Accounts s) (hn : Numbered s) (transport : Nat) :
    Entitled cfg (s.disconnected transport) now := by
  unfold WebEdge.disconnected
  cases hfind : s.connections.find? (·.transport == transport) with
  | none => exact h
  | some c =>
    refine h.congr (fun d hd => ⟨d, mem_of_mem_filter hd, rfl, rfl⟩) rfl (fun d hd => ?_) fun _ _ _ hv => hv
    apply releaseSessionSources_untouched ha
    rw [or_iff_not_imp_left, not_not]
    intro hsame
    have hperm := (perm_cons_filter hn.distinct hfind).map (·.liveSession)
    have hrest : 1 ≤ ((s.connections.filter (·.transport != transport)).map (·.liveSession)).count c.liveSession :=
      count_pos_iff.mpr (hsame ▸ mem_map_of_mem hd)
    rw [openFor, hperm.count_eq, map_cons, count_cons_self]
    exact Nat.succ_le_succ hrest

/-- Entities behind a front come, are replaced and go, where no live session is served otherwise. -/
theorem behind (entities : Hash QString Nat) (following : Hash Nat Nat)
    (hs : ∀ c ∈ s.connections, ∀ scope ∈ Visitor.of s.sessions now c.liveSession, ∀ point ∈ cfg.connectPoints,
      cfg.scopeOrder.servesScope entities.find point (some scope) =
        cfg.scopeOrder.servesScope s.entitiesBehind.find point (some scope)) :
    Entitled cfg { s with entitiesBehind := entities, table := { s.table with following := following } } now := by
  refine ⟨fun c hc => (h.linked c hc).congr (Untouched.of_eq rfl rfl), fun c hc scope hv => ?_⟩
  have hcurrent := (h.current c hc scope hv).congr (Untouched.of_eq rfl rfl : Untouched s.table
    { s.table with following := following } c.liveSession)
  refine ⟨fun point hp => ?_, fun point hp hf x hx => ?_⟩
  · rw [hcurrent.served point hp, hs c hc scope hv point hp]
  · rw [hcurrent.pointed point hp hf x hx, ScopeOrder.tierFor, ScopeOrder.tierFor, hs c hc scope hv point hp]

end

end Entitled
end WebEdge

namespace EdgeRun
open WebEdge SessionManager
variable {cfg : WebEdgeConfig} {s : EdgeRun}

/-- With these entities behind the front, every live session with a connection is served as it is now. -/
def ServedAlike (cfg : WebEdgeConfig) (s : EdgeRun) (entities : Hash QString Nat) : Prop :=
  ∀ c ∈ s.edge.connections, ∀ scope ∈ Visitor.of s.edge.sessions s.now c.liveSession, ∀ point ∈ cfg.connectPoints,
    cfg.scopeOrder.servesScope entities.find point (some scope) =
      cfg.scopeOrder.servesScope s.edge.entitiesBehind.find point (some scope)
deriving Decidable

/-- Sources load, a connection is hosted while its session is live, a generated id is one nothing is
kept under, a relayed record or rotation is of a session as the edge has it; and an entity comes up or goes
only where no connected session is served otherwise for it. -/
def KeepsServed (cfg : WebEdgeConfig) (s : EdgeRun) : WebEdgeOp → Prop
  | .hostConnection qt peer => (∀ point ∈ cfg.connectPoints, qt.Loads point) ∧
      ∀ verified ∈ s.edge.pendingSessions.find peer.key, verified.id ≠ [] →
        s.edge.sessions.isLive s.now verified.id = true
  | .createSession _ fresh _ _ => (s.edge.table.sessionSources.find fresh).isNone
  | .setScope qt fresh _ _ _ _ => (∀ point ∈ cfg.connectPoints, qt.Loads point) ∧
      s.edge.sessions.Unused fresh ∧ (s.edge.table.sessionSources.find fresh).isNone
  | .store _ (.sessionUpserted token scope _ _) => ∀ c ∈ s.edge.connections, c.liveSession = token →
      Visitor.of s.edge.sessions s.now token = some scope
  | .store qt (.sessionRotated from_ to_) => (∀ point ∈ cfg.connectPoints, qt.Loads point) ∧
      (s.edge.sessions.TakesRotation from_ to_ →
        s.edge.table.apart from_ to_ = true ∧ s.edge.sessions.isLive s.now to_ = true)
  | .setEntityBehind entity replica => ServedAlike cfg s (s.edge.setEntityBehind entity replica).entitiesBehind
  | .lostEntityBehind entity => ServedAlike cfg s (s.edge.lostEntityBehind entity).entitiesBehind
  | _ => True

instance (cfg : WebEdgeConfig) (s : EdgeRun) : (op : WebEdgeOp) → Decidable (KeepsServed cfg s op)
  | .hostConnection qt peer => inferInstanceAs (Decidable ((∀ point ∈ cfg.connectPoints, qt.Loads point) ∧
      ∀ verified ∈ s.edge.pendingSessions.find peer.key, verified.id ≠ [] →
        s.edge.sessions.isLive s.now verified.id = true))
  | .createSession _ fresh _ _ => inferInstanceAs (Decidable ((s.edge.table.sessionSources.find fresh).isNone = true))
  | .setScope qt fresh _ _ _ _ => inferInstanceAs (Decidable ((∀ point ∈ cfg.connectPoints, qt.Loads point) ∧
      s.edge.sessions.Unused fresh ∧ (s.edge.table.sessionSources.find fresh).isNone))
  | .store _ (.sessionUpserted token scope _ _) => inferInstanceAs (Decidable (∀ c ∈ s.edge.connections,
      c.liveSession = token → Visitor.of s.edge.sessions s.now token = some scope))
  | .store qt (.sessionRotated from_ to_) => inferInstanceAs (Decidable ((∀ point ∈ cfg.connectPoints, qt.Loads point) ∧
      (s.edge.sessions.TakesRotation from_ to_ →
        s.edge.table.apart from_ to_ = true ∧ s.edge.sessions.isLive s.now to_ = true)))
  | .setEntityBehind entity replica =>
    inferInstanceAs (Decidable (ServedAlike cfg s (s.edge.setEntityBehind entity replica).entitiesBehind))
  | .lostEntityBehind entity =>
    inferInstanceAs (Decidable (ServedAlike cfg s (s.edge.lostEntityBehind entity).entitiesBehind))
  | .store _ (.sessionRemoved _) | .verifyUpgrade _ | .disconnected _ | .revoke .. | .sweep _ | .advance _ =>
    .isTrue trivial

theorem KeepsServed.apart {op : WebEdgeOp} (h : KeepsServed cfg s op) : s.Apart op := by
  cases op with
  | setScope qt fresh id scope identity handoff => exact h.2
  | store qt message =>
    cases message with
    | sessionRotated from_ to_ => exact fun ht => (h.2 ht).1
    | _ => trivial
  | _ => trivial

structure HostingInv (cfg : WebEdgeConfig) (s : EdgeRun) : Prop where
  accounts : AccountInv s
  entitled : Entitled cfg s.edge s.now
  follows : s.edge.table.Follows s.edge.entitiesBehind.find

namespace HostingInv

theorem same (s : WebEdge) (m : SessionManager) : SameHosting { s with sessions := m } s :=
  fun c hc => ⟨c, hc, rfl, rfl⟩

section
variable (h : HostingInv cfg s)
include h

/-- The sessions change under the connections, and none of theirs gets another scope. -/
theorem narrowed {m : SessionManager}
    (hn : ∀ c ∈ s.edge.connections, Visitor.Narrows m s.edge.sessions s.now c.liveSession) :
    Entitled cfg { s.edge with sessions := m } s.now :=
  h.entitled.congr (same s.edge m) rfl (fun _ _ => SourceTable.Untouched.of_eq rfl rfl) hn

variable {fresh : QByteArray}

private theorem not_bound (hnone : (s.edge.table.sessionSources.find fresh).isNone) {c : Connection} (hc : c ∈ s.edge.connections) :
    c.liveSession ≠ fresh := by
  rintro rfl
  have hopen : 1 ≤ s.edge.openFor c.liveSession := count_pos_iff.mpr (mem_map_of_mem hc)
  rw [← h.accounts.accounts.accounted.exist, isSome_iff_ne_none] at hopen
  exact hopen (isNone_iff_eq_none.mp hnone)

theorem created (qt : Runtime) (scope : QString) (identity : QVariantMap)
    (hnone : (s.edge.table.sessionSources.find fresh).isNone) :
    Entitled cfg (s.edge.perform cfg qt s.now
      (s.edge.sessions.createSession s.now s.edge.inUse fresh scope identity).1) s.now := by
  apply Entitled.delivered
  · refine h.narrowed fun c hc => ?_
    have hother := h.not_bound hnone hc
    rcases s.edge.sessions.createSession_cases s.now s.edge.inUse fresh scope identity with
      ⟨-, hw, -⟩ | ⟨-, kept, -, hw, hm, -⟩
    · exact Visitor.Narrows.of_within hw
    · rw [hm]
      refine Visitor.Narrows.of_find (by simp [hw.ttlMs]) fun r hr => ⟨r, hw.sessions _ r ?_, rfl, rfl⟩
      simpa [minted, hother] using hr
  · exact (createSession_reports h.accounts.keyed s.now s.edge.inUse fresh scope identity).still

theorem elevated (hnd : (cfg.connectPoints.map (·.name)).Nodup) {qt : Runtime} (id : QByteArray) (scope : QString) (identity : QVariantMap) (handoff : Handoff)
    (hl : ∀ point ∈ cfg.connectPoints, qt.Loads point) (hfresh : s.edge.sessions.Unused fresh)
    (hnone : (s.edge.table.sessionSources.find fresh).isNone) :
    Entitled cfg (s.edge.perform cfg qt s.now (s.edge.sessions.setScope s.now fresh id scope identity handoff).1)
      s.now := by
  cases hold : s.edge.sessions.sessions.find id with
  | none =>
    rw [setScope_of_none hold]
    exact h.narrowed fun _ _ _ hv => hv
  | some old =>
    have hne : id ≠ fresh := by
      rintro rfl
      rw [hfresh.2.1] at hold
      cases hold
    obtain ⟨-, hfind, -⟩ := setScope_of_lookup hold s.now fresh scope identity handoff
    obtain ⟨httl, -⟩ := setScope_settings id s.now fresh scope identity handoff (m := s.edge.sessions)
    have hq := h.narrowed (m := (s.edge.sessions.setScope s.now fresh id scope identity handoff).1.manager) fun c hc => by
      refine Visitor.Narrows.of_find httl fun r hr => ⟨r, ?_, rfl, rfl⟩
      rw [hfind, if_neg (h.not_bound hnone hc)] at hr
      split at hr
      · cases hr
      · exact hr
    have hv : Visitor.of (s.edge.sessions.setScope s.now fresh id scope identity handoff).1.manager s.now fresh =
        some (s.edge.sessions.elevated s.now fresh id old scope identity handoff).scope := by
      refine (Visitor.of_eq_some _ _ _ _).mpr ⟨_, by rw [hfind, if_pos rfl], ?_, rfl⟩
      simp only [SessionManager.elevated]
      omega
    have hrotated := hq.rotated (h.accounts.accounts.congr rfl rfl) hl hnd hne (apart_of_isNone id hnone) hv
    simp only [setScope, hold] at hrotated ⊢
    -- the rotation is the second signal, and the first one is read by nobody here
    cases handoff with
    | keep => exact hrotated.delivered qt (by simp [Signal.rotates])
    | none => exact hrotated.delivered qt (by simp [Signal.rotates])

theorem received (hnd : (cfg.connectPoints.map (·.name)).Nodup) {qt : Runtime}
    {message : StoreMessage} (hop : KeepsServed cfg s (.store qt message)) :
    Entitled cfg (s.edge.perform cfg qt s.now (message.receive s.edge.sessions s.now)) s.now := by
  cases message with
  | sessionUpserted token scope identity createdMs =>
    refine Entitled.delivered (h.narrowed fun c hc => ?_) qt (insertRecord_reports _ []).still
    intro scope' hv
    by_cases htoken : c.liveSession = token
    · have hsame := hop c hc htoken
      obtain ⟨r, hr, -, hscope⟩ := (Visitor.of_eq_some _ _ _ _).mp hv
      rw [htoken] at hr ⊢
      simp only [StoreMessage.receive, applyUpsert, insertRecord_sessions, Hash.find_insert, if_true,
        Option.some.injEq] at hr
      rw [hsame, ← hscope, ← hr]
    · refine Visitor.Narrows.of_find (by simp [StoreMessage.receive, applyUpsert]) (fun r hr => ⟨r, ?_, rfl, rfl⟩) scope' hv
      simpa [StoreMessage.receive, applyUpsert, htoken] using hr
  | sessionRemoved token =>
    refine Entitled.delivered (h.narrowed fun c _ => ?_) qt (applyRemove_reports token).still
    exact Visitor.Narrows.of_within (applyRemove_within token)
  | sessionRotated from_ to_ =>
    have hn (k : QByteArray) : Visitor.Narrows (s.edge.sessions.applyRotation s.now from_ to_).manager s.edge.sessions
        s.now k := by
      refine Visitor.Narrows.of_find (by simp) fun r hr => ?_
      rw [applyRotation_sessions] at hr
      split at hr
      · obtain ⟨r₀, hr₀, rfl⟩ := map_eq_some_iff.mp hr
        exact ⟨r₀, hr₀, rfl, rfl⟩
      · exact ⟨r, hr, rfl, rfl⟩
    have hq := h.narrowed fun c _ => hn c.liveSession
    by_cases ht : s.edge.sessions.TakesRotation from_ to_
    · obtain ⟨hapart, hlive⟩ := hop.2 ht
      obtain ⟨record, hrecord⟩ := isSome_iff_exists.mp hlive
      have hvisitor : Visitor.of s.edge.sessions s.now to_ = some record.scope := by
        rw [Visitor.of, hrecord]
        rfl
      obtain ⟨r, hr, hage, hscope⟩ := (Visitor.of_eq_some _ _ _ _).mp hvisitor
      have hv : Visitor.of (s.edge.sessions.applyRotation s.now from_ to_).manager s.now to_ = some record.scope := by
        refine (Visitor.of_eq_some _ _ _ _).mpr ⟨{ r with rotatedFrom := from_ }, ?_, by simpa using hage, hscope⟩
        rw [applyRotation_sessions, if_pos ⟨ht, rfl⟩, hr]
        rfl
      have hrotated := hq.rotated (h.accounts.accounts.congr rfl rfl) hop.1 hnd ht.2.2.1 hapart hv
      have hemitted := applyRotation_emitted ht s.now
      rw [WebEdge.perform, StoreMessage.receive, hemitted]
      exact hrotated
    · have hsame : StoreMessage.receive s.edge.sessions s.now (.sessionRotated from_ to_) =
          ⟨s.edge.sessions, [], []⟩ := applyRotation_of_not ht
      rw [hsame]
      exact h.narrowed fun _ _ _ hv => hv

end

theorem verified (cfg : WebEdgeConfig) (s : EdgeRun) (request : UpgradeRequest) :
    ∃ pending ahead, s.step cfg (.verifyUpgrade request) =
      { s with edge := { s.edge with pendingSessions := pending }, ahead := ahead } := by
  cases hv : (s.edge.verifyUpgrade cfg s.now request).2 with
  | accept key =>
    obtain ⟨-, -, -, -, hstash⟩ := verifyUpgrade_accepted hv
    simp only [EdgeRun.step, effectOf, hv, hstash]
    exact ⟨_, _, rfl⟩
  | deny status reason body =>
    simp only [EdgeRun.step, effectOf, hv]
    exact ⟨s.edge.pendingSessions, s.ahead, rfl⟩

theorem step (h : HostingInv cfg s) (hnd : (cfg.connectPoints.map (·.name)).Nodup) {op : WebEdgeOp}
    (hop : KeepsServed cfg s op) : HostingInv cfg (s.step cfg op) := by
  refine ⟨h.accounts.step hop.apart, ?_, ?_⟩
  · cases op with
    | verifyUpgrade request =>
      obtain ⟨pending, ahead, heq⟩ := verified cfg s request
      rw [heq]
      exact ⟨h.entitled.linked, h.entitled.current⟩
    | hostConnection qt peer => exact h.entitled.hostConnection h.accounts.accounts hop.1 hnd hop.2
    | disconnected transport => exact h.entitled.disconnected h.accounts.accounts h.accounts.numbered transport
    | createSession qt fresh scope identity => exact h.created qt scope identity hop
    | setScope qt fresh id scope identity handoff =>
      exact h.elevated hnd id scope identity handoff hop.1 hop.2.1 hop.2.2
    | revoke qt id =>
      refine Entitled.delivered (h.narrowed fun c _ => ?_) qt (revoke_reports id).still
      exact Visitor.Narrows.of_within (revoke_within id)
    | store qt message => exact h.received hnd hop
    | sweep qt =>
      refine Entitled.delivered (h.narrowed fun c _ => ?_) qt (purgeExpired_reports _ s.now).still
      exact Visitor.Narrows.of_within (purgeExpired_within _ s.now)
    | setEntityBehind entity replica => exact h.entitled.behind _ _ hop
    | lostEntityBehind entity =>
      have hbehind := h.entitled.behind (s.edge.lostEntityBehind entity).entitiesBehind
        (s.edge.lostEntityBehind entity).table.following hop
      simp only [EdgeRun.step, effectOf]
      revert hbehind
      unfold WebEdge.lostEntityBehind
      split <;> exact fun hbehind => hbehind
    | advance ms =>
      refine ⟨h.entitled.linked, fun c hc scope hv => ?_⟩
      exact h.entitled.current c hc scope (Visitor.of_later hv)
  · cases op with
    | verifyUpgrade request =>
      obtain ⟨pending, ahead, heq⟩ := verified cfg s request
      rw [heq]
      exact h.follows
    | hostConnection qt peer => exact Follows.hostConnection h.follows qt s.now peer
    | disconnected transport => exact Follows.disconnected h.follows transport
    | setEntityBehind entity replica => exact Follows.setEntityBehind h.follows entity replica
    | lostEntityBehind entity => exact Follows.lostEntityBehind h.follows entity
    | advance ms => exact h.follows
    | _ => exact Follows.delivered _ s.now _ _ h.follows

theorem start (cfg : WebEdgeConfig) (defaultScope : QString) (ttlMinutes now : Int) :
    HostingInv cfg (start cfg defaultScope ttlMinutes now) := by
  refine ⟨AccountInv.start cfg defaultScope ttlMinutes now, ⟨?_, ?_⟩, fun _ => rfl⟩
  · exact fun _ hc => absurd hc not_mem_nil
  · exact fun _ hc => absurd hc not_mem_nil

end HostingInv

/-- What a connection of a live session hosts is what serves its scope; each relay it hosts follows the
Replica there is of the entity that answers the scope, and the relay of a front it does not host
follows nothing. -/
structure Served (cfg : WebEdgeConfig) (s : WebEdge) (scope : QString) (c : Connection) : Prop where
  hosts : ∀ name, (c.hosted.find name).isSome ↔ ∃ point ∈ cfg.connectPoints, point.name = name ∧
    cfg.scopeOrder.servesScope s.entitiesBehind.find point (some scope) = true
  follows : ∀ point ∈ cfg.connectPoints, point.fronted = true → ∀ source, c.hosted.find point.name = some source →
    ∃ replica, s.entitiesBehind.find (cfg.scopeOrder.entityFor point scope) = some replica ∧
      s.table.following.find source = some replica
  withdrawn : ∀ point ∈ cfg.connectPoints, point.fronted = true → c.hosted.find point.name = none →
    ∀ source, s.table.Registered c.liveSession point.name source → s.table.following.find source = none

def ScopeFollowed (cfg : WebEdgeConfig) (s : EdgeRun) : Prop :=
  ∀ c ∈ s.edge.connections, ∀ scope, Visitor.of s.edge.sessions s.now c.liveSession = some scope →
    Served cfg s.edge scope c

private theorem HostingInv.scopeFollowed (h : HostingInv cfg s) : ScopeFollowed cfg s := by
  intro c hc scope hv
  have hlinked := h.entitled.linked c hc
  have hcurrent := h.entitled.current c hc scope hv
  refine ⟨fun name => ⟨fun hsome => ?_, ?_⟩, fun point hp hf source hsource => ?_, fun point hp hf hnone source hr => ?_⟩
  · obtain ⟨source, hsource⟩ := isSome_iff_exists.mp hsome
    obtain ⟨point, hp, rfl⟩ := mem_map.mp (hlinked.named name source hsource)
    exact ⟨point, hp, rfl, (hcurrent.served point hp).symm.trans hsome⟩
  · rintro ⟨point, hp, rfl, hs⟩
    exact (hcurrent.served point hp).trans hs
  · have hs : cfg.scopeOrder.servesScope s.edge.entitiesBehind.find point (some scope) = true := by
      rw [← hcurrent.served point hp, hsource]
      rfl
    obtain ⟨replica, hreplica⟩ := isSome_iff_exists.mp (ScopeOrder.servesScope_fronted hs hf).2
    refine ⟨replica, hreplica, ?_⟩
    rw [h.follows, hcurrent.pointed point hp hf source (hlinked.registered point.name source hsource),
      ScopeOrder.tierFor, if_pos hs]
    exact hreplica
  · rw [h.follows, hlinked.quiet point hp hf hnone source hr]
    rfl

/-- In every run in which no entity comes up, or goes, that a connected session would be served by,
what each connection of a live session hosts and follows is what its scope is served. -/
theorem hosting_follows_scope (cfg : WebEdgeConfig) (hnd : (cfg.connectPoints.map (·.name)).Nodup)
    (defaultScope : QString) (ttlMinutes now : Int) (ops : List WebEdgeOp)
    (hops : Each (step cfg) (KeepsServed cfg) (start cfg defaultScope ttlMinutes now) ops) :
    ScopeFollowed cfg (run (step cfg) (start cfg defaultScope ttlMinutes now) ops) :=
  (hops.invariant (HostingInv cfg) (fun _ _ h hop => h.step hnd hop)
    (HostingInv.start cfg defaultScope ttlMinutes now)).scopeFollowed

def frontDesk : WebEdgeConfig :=
  { fewVisitors with
    connectPoints := [⟨"desk", "Desk", "", "", false, [("anonymous", "Lobby"), ("user", "Office")]⟩] }

/-- Both entities are up when a visitor connects, the visitor is elevated, and the mesh link to the
office comes up again. -/
def deskHours : List WebEdgeOp :=
  [.setEntityBehind "Lobby" 1, .setEntityBehind "Office" 2, visit "s1", verify "s1" 1, host 1,
    .setScope loadsAll (asciiBytes "s2") (asciiBytes "s1") "user" [] .keep, .setEntityBehind "Office" 3]

theorem hosting_follows_scope_deskHours :
    (run (step frontDesk) (start frontDesk "anonymous" 720 0) deskHours).edge.table.following.find 0 = some 3 ∧
    ScopeFollowed frontDesk (run (step frontDesk) (start frontDesk "anonymous" 720 0) deskHours) :=
  ⟨by decide, hosting_follows_scope frontDesk (by decide) "anonymous" 720 0 deskHours (by decide)⟩

def earlyVisitor : List WebEdgeOp := [visit "s1", verify "s1" 1, host 1, .setEntityBehind "Lobby" 1]

theorem lobby_never_hosted :
    ¬ ScopeFollowed frontDesk (run (step frontDesk) (start frontDesk "anonymous" 720 0) earlyVisitor) := by
  have hconnected :
      (run (step frontDesk) (start frontDesk "anonymous" 720 0) earlyVisitor).edge.connections.map
        (fun c => (c.liveSession, (c.hosted.find "desk").isSome)) = [(asciiBytes "s1", false)] := by decide
  have hvisitor : Visitor.of (run (step frontDesk) (start frontDesk "anonymous" 720 0) earlyVisitor).edge.sessions
      (run (step frontDesk) (start frontDesk "anonymous" 720 0) earlyVisitor).now (asciiBytes "s1") =
        some "anonymous" := by decide
  have hserved : ∃ point ∈ frontDesk.connectPoints, point.name = "desk" ∧ frontDesk.scopeOrder.servesScope
      (run (step frontDesk) (start frontDesk "anonymous" 720 0) earlyVisitor).edge.entitiesBehind.find point
        (some "anonymous") = true := by decide
  intro hfollowed
  obtain ⟨c, hc, heq⟩ : ∃ c ∈ (run (step frontDesk) (start frontDesk "anonymous" 720 0) earlyVisitor).edge.connections,
      (c.liveSession, (c.hosted.find "desk").isSome) = (asciiBytes "s1", false) :=
    mem_map.mp (hconnected ▸ mem_singleton.mpr rfl)
  obtain ⟨hlive, hnone⟩ := Prod.mk.injEq _ _ _ _ ▸ heq
  have hhosted := ((hfollowed c hc "anonymous" (hlive ▸ hvisitor)).hosts "desk").mpr hserved
  rw [hnone] at hhosted
  cases hhosted

end EdgeRun
end SynQt
