import SynQt.Edge.Connections

namespace SynQt
open Lib List

namespace WebEdge
variable {cfg : WebEdgeConfig} {s s' : WebEdge}

def hostedFor (s : WebEdge) (ip : QString) : Nat := s.connections.countP (·.ip == ip)

structure Counted (s : WebEdge) : Prop where
  global : s.activeGlobal = s.connections.length
  perIp : ∀ ip, (s.activePerIp.find ip).getD 0 = s.hostedFor ip

/-- A ceiling below nothing admits nobody. -/
structure UnderCeilings (cfg : WebEdgeConfig) (s : WebEdge) : Prop where
  global : (s.connections.length : Int) ≤ max 0 cfg.maxConnectionsGlobal
  perIp : ∀ ip, (s.hostedFor ip : Int) ≤ max 0 cfg.maxConnectionsPerIp

theorem Kept.length (h : Kept s' s) : s'.connections.length = s.connections.length := by
  simpa using congrArg List.length h.connections

private theorem Kept.hostedFor (h : Kept s' s) (ip : QString) : s'.hostedFor ip = s.hostedFor ip := by
  have count (l : List Connection) : l.countP (·.ip == ip) = (l.map identityOf).countP (·.2 == ip) := by
    rw [countP_map]
    rfl
  rw [WebEdge.hostedFor, WebEdge.hostedFor, count, count, h.connections]

theorem Counted.kept (h : Counted s) (hk : Kept s' s) : Counted s' where
  global := by rw [hk.activeGlobal, h.global, hk.length]
  perIp ip := by rw [hk.activePerIp, h.perIp, hk.hostedFor]

theorem UnderCeilings.kept (h : UnderCeilings cfg s) (hk : Kept s' s) : UnderCeilings cfg s' where
  global := by rw [hk.length]; exact h.global
  perIp ip := by rw [hk.hostedFor]; exact h.perIp ip

/-- A hosted connection is counted once, under the address it was verified with. -/
theorem hostConnection_cases (cfg : WebEdgeConfig) (s : WebEdge) (qt : Runtime) (now : Int) (peer : Peer) :
    Kept { s.hostConnection cfg qt now peer with pendingSessions := s.pendingSessions } s ∨
    ∃ verified ip hosted, s.pendingSessions.find peer.key = some verified ∧
      (verified.clientIp ≠ "" → ip = verified.clientIp) ∧
      (s.hostConnection cfg qt now peer).activeGlobal = s.activeGlobal + 1 ∧
      (s.hostConnection cfg qt now peer).activePerIp =
        s.activePerIp.insert ip ((s.activePerIp.find ip).getD 0 + 1) ∧
      (s.hostConnection cfg qt now peer).connections =
        s.connections ++ [⟨s.nextTransport, ip, verified.id, hosted, false⟩] := by
  unfold WebEdge.hostConnection
  cases hstash : s.pendingSessions.find peer.key with
  | none => exact .inl ⟨rfl, rfl, rfl, rfl, rfl⟩
  | some verified =>
    simp only [Option.getD_some]
    split
    · exact .inl ⟨rfl, rfl, rfl, rfl, rfl⟩
    · exact .inr ⟨verified, _, _, rfl, fun hne => by simp [hne], rfl, rfl, rfl⟩

@[simp] theorem hostConnection_pendingSessions (qt : Runtime) (now : Int) (peer : Peer) :
    (s.hostConnection cfg qt now peer).pendingSessions = s.pendingSessions.erase peer.key := by
  unfold WebEdge.hostConnection
  simp only
  split <;> rfl

private theorem hostedFor_append (c : Connection) (ip : QString) (h : s'.connections = s.connections ++ [c]) :
    s'.hostedFor ip = s.hostedFor ip + if c.ip = ip then 1 else 0 := by
  simp only [hostedFor, h, countP_append, countP_singleton, beq_iff_eq]

theorem Counted.hostConnection (h : Counted s) (qt : Runtime) (now : Int) (peer : Peer) :
    Counted (s.hostConnection cfg qt now peer) := by
  rcases hostConnection_cases cfg s qt now peer with hkept | ⟨verified, ip, hosted, -, -, hglobal, hperIp, hconns⟩
  · have hcounted := h.kept hkept
    exact ⟨hcounted.global, hcounted.perIp⟩
  · refine ⟨?_, fun other => ?_⟩
    · rw [hglobal, hconns, h.global]
      simp
    · rw [hperIp, hostedFor_append _ other hconns, Hash.find_insert]
      have hold := h.perIp other
      by_cases heq : other = ip
      · subst heq
        simp [hold]
      · simp [heq, Ne.symm heq, hold]

theorem Counted.disconnected (h : Counted s) (hn : Numbered s) (transport : Nat) :
    Counted (s.disconnected transport) := by
  unfold WebEdge.disconnected
  cases hfind : s.connections.find? (·.transport == transport) with
  | none => exact h
  | some c =>
    have hperm := perm_cons_filter hn.distinct hfind
    have hlength := hperm.length_eq
    have hcount (ip : QString) := hperm.countP_eq (·.ip == ip)
    refine ⟨?_, fun ip => ?_⟩
    · simp only [h.global, hlength, length_cons]
      omega
    · have hip := h.perIp ip
      have hown := hcount ip
      rw [countP_cons] at hown
      simp only [WebEdge.hostedFor] at hip ⊢
      rw [hown] at hip
      by_cases heq : ip = c.ip
      · subst heq
        simp only [beq_self_eq_true, if_true] at hip
        split
        · rename_i hleft
          simp only [Hash.find_erase, if_true, Option.getD_none]
          omega
        · simp only [Hash.find_insert, if_true, Option.getD_some]
          omega
      · have hne : (c.ip == ip) = false := by simpa using Ne.symm heq
        simp only [hne] at hip
        split
        · simpa [heq] using hip
        · simpa [heq] using hip

end WebEdge

namespace EdgeRun
open WebEdge
variable {cfg : WebEdgeConfig} {s : EdgeRun}

structure Inv (s : EdgeRun) : Prop where
  numbered : Numbered s.edge
  counted : Counted s.edge
  /-- Every accepted upgrade is stashed with an address. -/
  addressed : ∀ key verified, s.edge.pendingSessions.find key = some verified → verified.clientIp ≠ ""

/-- An accepted upgrade no connection was hosted after finds room still. -/
def Roomy (cfg : WebEdgeConfig) (s : EdgeRun) : Prop :=
  ∀ key ∈ s.ahead, ∀ verified, s.edge.pendingSessions.find key = some verified →
    s.edge.activeGlobal < cfg.maxConnectionsGlobal ∧
      (s.edge.activePerIp.find verified.clientIp).getD 0 < cfg.maxConnectionsPerIp

/-- The edge hosts an upgrade before it hosts any other that was verified since. -/
def InTurn (s : EdgeRun) : WebEdgeOp → Prop
  | .hostConnection _ peer => (s.edge.pendingSessions.find peer.key).isNone ∨ peer.key ∈ s.ahead
  | _ => True

instance (s : EdgeRun) : (op : WebEdgeOp) → Decidable (s.InTurn op)
  | .hostConnection _ peer =>
    inferInstanceAs (Decidable ((s.edge.pendingSessions.find peer.key).isNone ∨ peer.key ∈ s.ahead))
  | .verifyUpgrade _ | .disconnected _ | .createSession .. | .setScope .. | .revoke .. | .store .. | .sweep _
  | .setEntityBehind .. | .lostEntityBehind _ | .advance _ => .isTrue trivial

private theorem clientIp_ne (request : UpgradeRequest) : clientIp cfg request ≠ "" :=
  (resolveAddress cfg.trusted request.peer.normalized request.forwardedFor).property

private theorem rememberVerifiedSession_find (edge : WebEdge) (now : Int) (key : QString) (id : QByteArray) (ip : QString)
    {k : QString} {verified : VerifiedSession}
    (h : (edge.rememberVerifiedSession cfg now key id ip).pendingSessions.find k = some verified) :
    (k = key ∧ verified = ⟨id, now, ip⟩) ∨ edge.pendingSessions.find k = some verified := by
  simp only [rememberVerifiedSession, Hash.find_insert] at h
  split at h
  · rename_i hk
    exact .inl ⟨hk, (Option.some.inj h).symm⟩
  · exact .inr ((Hash.find_filter_eq_some _ _ _ _).mp h).1

theorem Inv.step (h : Inv s) (op : WebEdgeOp) : Inv (s.step cfg op) := by
  rcases step_cases cfg s op with ⟨qt, effect, -, heq⟩ | ⟨request, key, -, hv, heq⟩ | ⟨qt, peer, -, heq⟩ |
    ⟨transport, -, heq⟩ | ⟨behind, following, now, heq⟩ <;> rw [heq]
  · have hkept := (perform_kept cfg qt s.now s.edge effect).1
    exact ⟨h.numbered.kept hkept, h.counted.kept hkept, hkept.pendingSessions ▸ h.addressed⟩
  · obtain ⟨-, -, -, -, hstash⟩ := verifyUpgrade_accepted hv
    rw [hstash]
    refine ⟨⟨h.numbered.distinct, h.numbered.below⟩, ⟨h.counted.global, h.counted.perIp⟩, fun k verified hk => ?_⟩
    rcases rememberVerifiedSession_find _ _ _ _ _ hk with ⟨-, rfl⟩ | hold
    · exact clientIp_ne request
    · exact h.addressed k verified hold
  · refine ⟨h.numbered.hostConnection qt s.now peer, h.counted.hostConnection qt s.now peer, fun k verified hk => ?_⟩
    simp only [hostConnection_pendingSessions, Hash.find_erase] at hk
    split at hk
    · cases hk
    · exact h.addressed k verified hk
  · refine ⟨h.numbered.disconnected transport, h.counted.disconnected h.numbered transport, fun k verified hk => ?_⟩
    refine h.addressed k verified ?_
    unfold WebEdge.disconnected at hk
    split at hk <;> exact hk
  · exact ⟨⟨h.numbered.distinct, h.numbered.below⟩, ⟨h.counted.global, h.counted.perIp⟩, h.addressed⟩

theorem start_inv (cfg : WebEdgeConfig) (defaultScope : QString) (ttlMinutes now : Int) : Inv (start cfg defaultScope ttlMinutes now) where
  numbered := ⟨nodup_nil, fun _ hc => by cases hc⟩
  counted := ⟨rfl, fun _ => rfl⟩
  addressed key verified hk := by
    have hnone : (start cfg defaultScope ttlMinutes now).edge.pendingSessions.find key = none := Hash.find_empty key
    rw [hnone] at hk
    cases hk

private theorem disconnected_hostedFor_le (edge : WebEdge) (transport : Nat) :
    (edge.disconnected transport).connections.length ≤ edge.connections.length ∧
      ∀ ip, (edge.disconnected transport).hostedFor ip ≤ edge.hostedFor ip := by
  unfold WebEdge.disconnected WebEdge.hostedFor
  split
  · exact ⟨Nat.le_refl _, fun _ => Nat.le_refl _⟩
  · exact ⟨length_filter_le _ _, fun ip => filter_sublist.countP_le⟩

/-- Only a hosting counts up, and after one no accepted upgrade is taken to find room. -/
theorem Roomy.step (h : Roomy cfg s) (hinv : Inv s) (op : WebEdgeOp) : Roomy cfg (s.step cfg op) := by
  rcases step_cases cfg s op with ⟨qt, effect, -, heq⟩ | ⟨request, accepted, -, hv, heq⟩ | ⟨qt, peer, -, heq⟩ |
    ⟨transport, -, heq⟩ | ⟨behind, following, now, heq⟩ <;> rw [heq]
  · have hkept := (perform_kept cfg qt s.now s.edge effect).1
    intro key hkey verified hfind
    rw [hkept.pendingSessions] at hfind
    simp only [hkept.activeGlobal, hkept.activePerIp]
    exact h key hkey verified hfind
  · obtain ⟨-, -, hglobal, hip, hstash⟩ := verifyUpgrade_accepted hv
    rw [hstash]
    intro key hkey verified hfind
    rcases rememberVerifiedSession_find _ _ _ _ _ hfind with ⟨-, rfl⟩ | hold
    · exact ⟨hglobal, hip⟩
    · rcases mem_cons.mp hkey with rfl | hbefore
      · -- the stash of this key has just been written
        simp only [rememberVerifiedSession, Hash.find_insert, if_true, Option.some.injEq] at hfind
        subst hfind
        exact ⟨hglobal, hip⟩
      · exact h key hbefore verified hold
  · intro key hkey verified hfind
    rcases hostConnection_cases cfg s.edge qt s.now peer with hkept | ⟨-, -, -, -, -, hglobal, -, -⟩
    · have hglobal : (s.edge.hostConnection cfg qt s.now peer).activeGlobal = s.edge.activeGlobal := hkept.activeGlobal
      have hperIp : (s.edge.hostConnection cfg qt s.now peer).activePerIp = s.edge.activePerIp := hkept.activePerIp
      rw [if_pos hglobal] at hkey
      rw [hostConnection_pendingSessions, Hash.find_erase] at hfind
      split at hfind
      · cases hfind
      · dsimp only
        rw [hglobal, hperIp]
        exact h key hkey verified hfind
    · rw [hglobal, if_neg (by omega)] at hkey
      cases hkey
  · have hcounted := hinv.counted.disconnected hinv.numbered transport
    obtain ⟨hlength, hcount⟩ := disconnected_hostedFor_le s.edge transport
    intro key hkey verified hfind
    have hpending : (s.edge.disconnected transport).pendingSessions = s.edge.pendingSessions := by
      unfold WebEdge.disconnected
      split <;> rfl
    rw [hpending] at hfind
    obtain ⟨hglobal, hip⟩ := h key hkey verified hfind
    rw [hinv.counted.global] at hglobal
    rw [hinv.counted.perIp] at hip
    have hless := hcount verified.clientIp
    refine ⟨?_, ?_⟩
    · simp only [hcounted.global]
      omega
    · simp only [hcounted.perIp]
      omega
  · exact h

theorem under_step (h : UnderCeilings cfg s.edge) (hinv : Inv s) (hroom : Roomy cfg s) {op : WebEdgeOp}
    (hturn : s.InTurn op) : UnderCeilings cfg (s.step cfg op).edge := by
  rcases step_cases cfg s op with ⟨qt, effect, -, heq⟩ | ⟨request, accepted, -, hv, heq⟩ | ⟨qt, peer, rfl, heq⟩ |
    ⟨transport, -, heq⟩ | ⟨behind, following, now, heq⟩ <;> rw [heq]
  · exact h.kept (perform_kept cfg qt s.now s.edge effect).1
  · obtain ⟨-, -, -, -, hstash⟩ := verifyUpgrade_accepted hv
    rw [hstash]
    exact ⟨h.global, h.perIp⟩
  · rcases hostConnection_cases cfg s.edge qt s.now peer with hkept | ⟨verified, ip, hosted, hstash, hip, -, -, hconns⟩
    · have hunder := h.kept hkept
      exact ⟨hunder.global, hunder.perIp⟩
    · have hahead : peer.key ∈ s.ahead := by
        rcases hturn with hgone | hahead
        · rw [hstash] at hgone
          cases hgone
        · exact hahead
      obtain ⟨hglobal, hroomy⟩ := hroom peer.key hahead verified hstash
      have hsame := hip (hinv.addressed peer.key verified hstash)
      rw [hinv.counted.global] at hglobal
      rw [hinv.counted.perIp] at hroomy
      refine ⟨?_, fun other => ?_⟩
      · simp only [hconns, length_append, length_singleton]
        omega
      · have hother := h.perIp other
        rw [hostedFor_append _ other hconns]
        split
        · rename_i heqip
          obtain rfl : ip = other := heqip
          rw [hsame]
          omega
        · omega
  · obtain ⟨hlength, hcount⟩ := disconnected_hostedFor_le s.edge transport
    have hglobal := h.global
    refine ⟨?_, fun ip => ?_⟩
    · simp only
      omega
    · have hless := hcount ip
      have hip := h.perIp ip
      simp only
      omega
  · exact ⟨h.global, h.perIp⟩

/-- The counters are true in every run, and the ceilings hold in every run that hosts each
upgrade before any other connection is hosted after its check. -/
theorem ceilings_hold (cfg : WebEdgeConfig) (defaultScope : QString) (ttlMinutes now : Int) (ops : List WebEdgeOp) :
    let s := run (step cfg) (start cfg defaultScope ttlMinutes now) ops
    Counted s.edge ∧
      (Each (step cfg) InTurn (start cfg defaultScope ttlMinutes now) ops → UnderCeilings cfg s.edge) := by
  intro s
  have hstart := start_inv cfg defaultScope ttlMinutes now
  have hinv : Inv s := run_invariant Inv (fun _ op h => h.step op) hstart ops
  refine ⟨hinv.counted, fun hturn => ?_⟩
  have hall := hturn.invariant (fun s => Inv s ∧ Roomy cfg s ∧ UnderCeilings cfg s.edge)
    (fun s op ⟨hinv, hroom, hunder⟩ hop => ⟨hinv.step op, hroom.step hinv op, under_step hunder hinv hroom hop⟩)
    ⟨hstart, fun _ hkey => by (cases hkey), ⟨Int.le_max_left 0 _, fun _ => Int.le_max_left 0 _⟩⟩
  exact hall.2.2

/-- One tab closes before the next one opens; the third finds the edge full. -/
def oneAfterAnother : List WebEdgeOp :=
  [visit "s1", verify "s1" 1, host 1, .disconnected 0, verify "s1" 2, host 2, verify "s1" 3]

theorem ceilings_hold_oneAfterAnother :
    (run (step oneVisitor) (start oneVisitor "anonymous" 720 0) oneAfterAnother).edge.connections.length = 1 ∧
    UnderCeilings oneVisitor (run (step oneVisitor) (start oneVisitor "anonymous" 720 0) oneAfterAnother).edge :=
  ⟨by decide, (ceilings_hold oneVisitor "anonymous" 720 0 oneAfterAnother).2 (by decide)⟩

/-- Two upgrades checked before either is hosted. -/
def checkedTogether : List WebEdgeOp := [visit "s1", verify "s1" 1, verify "s1" 2, host 1, host 2]

theorem ceilings_exceeded :
    ¬ UnderCeilings oneVisitor (run (step oneVisitor) (start oneVisitor "anonymous" 720 0) checkedTogether).edge := by
  intro hunder
  have htwo : (run (step oneVisitor) (start oneVisitor "anonymous" 720 0) checkedTogether).edge.connections.length
      = 2 := by decide
  have hglobal := hunder.global
  rw [htwo] at hglobal
  revert hglobal
  decide

end EdgeRun
end SynQt
