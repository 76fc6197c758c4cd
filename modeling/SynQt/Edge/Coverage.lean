import SynQt.Edge.Connections

namespace SynQt
open Lib List

namespace WebEdge
open SessionManager
variable {cfg : WebEdgeConfig} {s s' : WebEdge}

/-- Ending the connection's session would reach its socket. -/
def Filed (s : WebEdge) (c : Connection) : Prop := (c.liveSession, c.transport) ∈ s.sessionSockets

/-- What has become of a connection, in `s'`, since `s`: it was told, or it is filed under the
id it has been moved to. -/
structure Since (s s' : WebEdge) (moved : QByteArray → QByteArray) (spared : QByteArray → Prop) (c c' : Connection) :
    Prop where
  liveSession : c'.liveSession = moved c.liveSession
  told : c.told = true → c'.told = true
  filed : c'.told = false → Filed s c → Filed s' c' ∧ spared c.liveSession

theorem Since.refl (c : Connection) : Since s s id (fun _ => True) c c :=
  ⟨rfl, id, fun _ hf => ⟨hf, trivial⟩⟩

private theorem dropSession_since (m : SessionManager) (now : Int) (token : QByteArray) :
    ∀ c' ∈ (s.dropSession m now token).connections, ∃ c ∈ s.connections,
      Since s (s.dropSession m now token) id (fun k => token = k → k ≠ [] → m.rotationOf now k ≠ []) c c' := by
  unfold dropSession
  split
  · rename_i hempty
    intro c hc
    exact ⟨c, hc, rfl, id, fun _ hf => ⟨hf, fun heq hne => absurd (isEmpty_iff.mp hempty) (heq ▸ hne)⟩⟩
  · split
    · rename_i hled
      intro c hc
      refine ⟨c, hc, rfl, id, fun _ hf => ⟨hf, fun heq _ hnone => ?_⟩⟩
      rw [heq, hnone] at hled
      cases hled
    · intro c' hc'
      obtain ⟨c, hc, rfl⟩ := mem_map.mp hc'
      refine ⟨c, hc, ?_⟩
      by_cases hreached : ((s.sessionSockets.filter (·.1 == token)).map (·.2)).contains c.transport
      · rw [if_pos hreached]
        exact ⟨rfl, fun _ => rfl, fun hu => by cases hu⟩
      · rw [if_neg hreached]
        refine ⟨rfl, id, fun _ hf => ?_⟩
        have hother : token ≠ c.liveSession := by
          rintro rfl
          refine hreached (contains_iff_mem.mpr (mem_map.mpr ⟨_, mem_filter.mpr ⟨hf, ?_⟩, rfl⟩))
          exact beq_self_eq_true c.liveSession
        exact ⟨mem_filter.mpr ⟨hf, by simpa using hother.symm⟩, fun heq => absurd heq hother⟩

private theorem onSessionRotated_sockets (qt : Runtime) (v : Visitor) (from_ to_ : QByteArray) (c : Connection)
    {socket : QByteArray × Nat} (hs : socket ∈ s.sessionSockets) (hother : socket.2 ≠ c.transport) :
    socket ∈ (onSessionRotated cfg s qt v from_ to_ c).1.sessionSockets := by
  unfold onSessionRotated
  split
  · exact hs
  · refine mem_append_left _ (mem_filter.mpr ⟨hs, ?_⟩)
    rw [bne_iff_ne]
    exact fun heq => hother (congrArg Prod.snd heq)

private theorem rotateConnections_sockets (qt : Runtime) (v : Visitor) (from_ to_ : QByteArray) {socket : QByteArray × Nat}
    (cs : List Connection) (s : WebEdge) (hs : socket ∈ s.sessionSockets)
    (hother : socket.2 ∉ cs.map (·.transport)) :
    socket ∈ (rotateConnections cfg qt v from_ to_ s cs).1.sessionSockets := by
  induction cs generalizing s with
  | nil => exact hs
  | cons c rest ih =>
    rw [map_cons, mem_cons, not_or] at hother
    exact ih _ (onSessionRotated_sockets qt v from_ to_ c hs hother.1) hother.2

private theorem onSessionRotated_since (cfg : WebEdgeConfig) (s : WebEdge) (qt : Runtime) (v : Visitor) (from_ to_ : QByteArray) (c : Connection) :
    Since s (onSessionRotated cfg s qt v from_ to_ c).1 (fun k => if k = from_ then to_ else k) (fun _ => True) c
      (onSessionRotated cfg s qt v from_ to_ c).2 := by
  unfold onSessionRotated
  split
  · rename_i hne
    have hkept : c.liveSession ≠ from_ := by simpa using hne
    exact ⟨(if_neg hkept).symm, id, fun _ hf => ⟨hf, trivial⟩⟩
  · rename_i heq
    have hmoved : c.liveSession = from_ := by simpa using heq
    refine ⟨(if_pos hmoved).symm, id, fun _ _ => ⟨?_, trivial⟩⟩
    exact mem_append_right _ (mem_singleton.mpr rfl)

private theorem rotateConnections_since (cfg : WebEdgeConfig) (qt : Runtime) (v : Visitor) (from_ to_ : QByteArray) (cs : List Connection)
    (s : WebEdge) (hnd : (cs.map (·.transport)).Nodup) :
    ∀ c' ∈ (rotateConnections cfg qt v from_ to_ s cs).2, ∃ c ∈ cs,
      Since s (rotateConnections cfg qt v from_ to_ s cs).1 (fun k => if k = from_ then to_ else k) (fun _ => True)
        c c' := by
  induction cs generalizing s with
  | nil => exact fun c hc => by cases hc
  | cons c rest ih =>
    rw [map_cons, nodup_cons] at hnd
    intro c' hc'
    rcases mem_cons.mp hc' with rfl | hrest
    · obtain ⟨hlive, htold, hfiled⟩ := onSessionRotated_since cfg s qt v from_ to_ c
      refine ⟨c, mem_cons_self, hlive, htold, fun hu hf => ⟨?_, trivial⟩⟩
      refine rotateConnections_sockets qt v from_ to_ rest _ (hfiled hu hf).1 ?_
      have hsame := (onSessionRotated_kept cfg s qt v from_ to_ c).2.1
      have htransport : (onSessionRotated cfg s qt v from_ to_ c).2.transport = c.transport := congrArg Prod.fst hsame
      exact htransport.symm ▸ hnd.1
    · obtain ⟨c₀, hc₀, hlive, htold, hfiled⟩ := ih (onSessionRotated cfg s qt v from_ to_ c).1 hnd.2 c' hrest
      refine ⟨c₀, mem_cons_of_mem _ hc₀, hlive, htold, fun hu hf => hfiled hu ?_⟩
      refine onSessionRotated_sockets qt v from_ to_ c hf fun heq => hnd.1 ?_
      exact heq ▸ mem_map_of_mem hc₀

private theorem receive_since (qt : Runtime) (now : Int) (e : Emission) (hn : Numbered s) :
    ∀ c' ∈ (receive cfg qt now s e).connections, ∃ c ∈ s.connections,
      Since s (receive cfg qt now s e) e.signal.relocate
        (fun k => e.signal.ended = some k → k ≠ [] → e.manager.rotationOf now k ≠ []) c c' := by
  obtain ⟨signal, m⟩ := e
  have unended (c : Connection) (hc : c ∈ s.connections) (hquiet : signal.ended = none)
      (hstill : ∀ k, signal.relocate k = k) : ∃ c₀ ∈ s.connections, Since s s signal.relocate
        (fun k => signal.ended = some k → k ≠ [] → m.rotationOf now k ≠ []) c₀ c :=
    ⟨c, hc, (hstill _).symm, id, fun _ hf => ⟨hf, fun hended => by rw [hquiet] at hended; cases hended⟩⟩
  have dropped (token : QByteArray) (c' : Connection) (hc' : c' ∈ (s.dropSession m now token).connections) :
      ∃ c ∈ s.connections, Since s (s.dropSession m now token) id
        (fun k => some token = some k → k ≠ [] → m.rotationOf now k ≠ []) c c' := by
    obtain ⟨c, hc, hlive, htold, hfiled⟩ := dropSession_since m now token c' hc'
    exact ⟨c, hc, hlive, htold, fun hu hf => ⟨(hfiled hu hf).1, fun heq => (hfiled hu hf).2 (Option.some.inj heq)⟩⟩
  cases signal with
  | sessionRemoved token | sessionExpired token => exact dropped token
  | sessionUpserted | rotationRecorded => exact fun c hc => unended c hc rfl fun _ => rfl
  | sessionRotated from_ to_ =>
    intro c' hc'
    obtain ⟨c, hc, hlive, htold, hfiled⟩ :=
      rotateConnections_since cfg qt (Visitor.of m now to_) from_ to_ s.connections s hn.distinct c' hc'
    exact ⟨c, hc, hlive, htold, fun hu hf => ⟨(hfiled hu hf).1, fun hended => by cases hended⟩⟩

private theorem emitted_since (qt : Runtime) (now : Int) (emitted : List Emission) (s : WebEdge) (hn : Numbered s) :
    ∀ c' ∈ (emitted.foldl (receive cfg qt now) s).connections, ∃ c ∈ s.connections,
      Since s (emitted.foldl (receive cfg qt now) s) (relocated emitted) (Spared now emitted) c c' := by
  induction emitted generalizing s with
  | nil => exact fun c hc => ⟨c, hc, Since.refl c⟩
  | cons e emitted ih =>
    intro c'' hc''
    have hkept := (receive_kept cfg qt now s e).1
    obtain ⟨c', hc', hlive', htold', hfiled'⟩ := ih (receive cfg qt now s e) (hn.kept hkept) c'' hc''
    obtain ⟨c, hc, hlive, htold, hfiled⟩ := receive_since qt now e hn c' hc'
    refine ⟨c, hc, ?_, fun ht => htold' (htold ht), fun hu hf => ?_⟩
    · rw [hlive', hlive]
      rfl
    · have hu' : c'.told = false := by
        cases hb : c'.told with
        | false => rfl
        | true => rw [htold' hb] at hu; cases hu
      obtain ⟨hf', hfirst⟩ := hfiled hu' hf
      obtain ⟨hf'', hrest⟩ := hfiled' hu hf'
      exact ⟨hf'', hfirst, hlive ▸ hrest⟩

/-- Bound to an id the table names, where ending it reaches the socket; or told to go. -/
def Bound (s : WebEdge) : Prop :=
  ∀ c ∈ s.connections, c.told = true ∨ (Filed s c ∧ s.sessions.Names c.liveSession)

theorem Bound.perform (h : Bound s) (hn : Numbered s) (qt : Runtime) (now : Int) {effect : Effect}
    (hs : s.sessions.Survives now effect) : Bound (s.perform cfg qt now effect) := by
  intro c' hc'
  have hmanager := (perform_kept cfg qt now s effect).2
  have hn' : Numbered { s with sessions := effect.manager } := ⟨hn.distinct, hn.below⟩
  obtain ⟨c, hc, hlive, htold, hfiled⟩ := emitted_since qt now effect.emitted _ hn' c' hc'
  rcases h c hc with ht | ⟨hf, hnames⟩
  · exact .inl (htold ht)
  · cases hb : c'.told with
    | true => exact .inl rfl
    | false =>
      obtain ⟨hf', hspared⟩ := hfiled hb hf
      refine .inr ⟨hf', ?_⟩
      rw [hmanager, hlive]
      exact hs c.liveSession hnames hspared

theorem Bound.hostConnection (h : Bound s) (qt : Runtime) (now : Int) (peer : Peer)
    (hheld : ∀ verified, s.pendingSessions.find peer.key = some verified → verified.id ≠ [] →
      s.sessions.Names verified.id) : Bound (s.hostConnection cfg qt now peer) := by
  unfold WebEdge.hostConnection
  cases hstash : s.pendingSessions.find peer.key with
  | none => exact h
  | some verified =>
    simp only [Option.getD_some]
    split
    · exact h
    · rename_i hne
      intro c hc
      rcases mem_append.mp hc with hold | hnew
      · exact (h c hold).imp id fun ⟨hf, hnames⟩ => ⟨mem_append_left _ hf, hnames⟩
      · rw [mem_singleton.mp hnew]
        exact .inr ⟨mem_append_right _ (mem_singleton.mpr rfl), hheld verified hstash (by simpa using hne)⟩

theorem Bound.disconnected (h : Bound s) (transport : Nat) : Bound (s.disconnected transport) := by
  unfold WebEdge.disconnected
  split
  · exact h
  · intro c hc
    obtain ⟨hmem, hother⟩ := mem_filter.mp hc
    refine (h c hmem).imp id fun ⟨hf, hnames⟩ => ⟨mem_filter.mpr ⟨hf, ?_⟩, hnames⟩
    rw [bne_iff_ne] at hother ⊢
    exact fun heq => hother (congrArg Prod.snd heq)

end WebEdge

namespace EdgeRun
open WebEdge SessionManager
variable {cfg : WebEdgeConfig} {s : EdgeRun}

/-- An upgrade is hosted while the table still names the session it was checked with, and so for
the target of a relayed hand-off; a generated id is one the table does not use. -/
def Sound (s : EdgeRun) : WebEdgeOp → Prop
  | .hostConnection _ peer => ∀ verified ∈ s.edge.pendingSessions.find peer.key,
      verified.id ≠ [] → s.edge.sessions.Names verified.id
  | .setScope _ fresh _ _ _ _ => s.edge.sessions.Unused fresh
  | .store _ message => s.edge.sessions.RelaySound message
  | _ => True

instance (s : EdgeRun) : (op : WebEdgeOp) → Decidable (s.Sound op)
  | .hostConnection _ peer => inferInstanceAs (Decidable (∀ verified ∈ s.edge.pendingSessions.find peer.key,
      verified.id ≠ [] → s.edge.sessions.Names verified.id))
  | .setScope _ fresh _ _ _ _ => inferInstanceAs (Decidable (s.edge.sessions.Unused fresh))
  | .store _ message => inferInstanceAs (Decidable (s.edge.sessions.RelaySound message))
  | .verifyUpgrade _ | .disconnected _ | .createSession .. | .revoke .. | .sweep _
  | .setEntityBehind .. | .lostEntityBehind _ | .advance _ => .isTrue trivial

/-- Every connection is told to go, or its session is in the table: live, or past its
time-to-live and waiting for the sweep. -/
def Covered (s : EdgeRun) : Prop :=
  ∀ c ∈ s.edge.connections, c.told = true ∨ s.edge.sessions.isLive s.now c.liveSession = true ∨
    s.edge.sessions.Overdue s.now c.liveSession

structure CoverInv (s : EdgeRun) : Prop where
  numbered : Numbered s.edge
  keyed : s.edge.sessions.Keyed
  bound : Bound s.edge

private theorem effectOf_survives (hkeyed : s.edge.sessions.Keyed) {op : WebEdgeOp} (hop : s.Sound op) {qt : Runtime}
    {effect : Effect} (h : s.effectOf op = some (qt, effect)) : s.edge.sessions.Survives s.now effect := by
  cases op with
  | createSession qt' fresh scope identity =>
    cases h
    exact (createSession_reports hkeyed s.now s.edge.inUse fresh scope identity).survives s.now
  | setScope qt' fresh id scope identity handoff =>
    cases h
    exact setScope_survives s.now hop id scope identity handoff
  | revoke qt' id =>
    cases h
    exact (revoke_reports id).survives s.now
  | store qt' message =>
    cases h
    exact receive_survives s.now hop
  | sweep qt' =>
    cases h
    exact (purgeExpired_reports _ s.now).survives s.now
  | _ => cases h

theorem CoverInv.step (h : CoverInv s) {op : WebEdgeOp} (hop : s.Sound op) : CoverInv (s.step cfg op) := by
  rcases step_cases cfg s op with ⟨qt, effect, heffect, heq⟩ | ⟨request, key, -, hv, heq⟩ | ⟨qt, peer, rfl, heq⟩ |
    ⟨transport, -, heq⟩ | ⟨behind, following, now, heq⟩ <;> rw [heq]
  · obtain ⟨hkept, hmanager⟩ := perform_kept cfg qt s.now s.edge effect
    exact ⟨h.numbered.kept hkept, hmanager ▸ effectOf_keyed h.keyed heffect,
      h.bound.perform h.numbered qt s.now (effectOf_survives h.keyed hop heffect)⟩
  · obtain ⟨-, -, -, -, hstash⟩ := verifyUpgrade_accepted hv
    rw [hstash]
    exact ⟨⟨h.numbered.distinct, h.numbered.below⟩, h.keyed, h.bound⟩
  · exact ⟨h.numbered.hostConnection qt s.now peer, by simpa using h.keyed,
      h.bound.hostConnection qt s.now peer hop⟩
  · exact ⟨h.numbered.disconnected transport, by simpa using h.keyed,
      h.bound.disconnected transport⟩
  · exact ⟨⟨h.numbered.distinct, h.numbered.below⟩, h.keyed, h.bound⟩

/-- In every run that hosts each upgrade while its session is still named, every hosted
connection is covered. -/
theorem connections_covered (cfg : WebEdgeConfig) (defaultScope : QString) (ttlMinutes now : Int)
    (ops : List WebEdgeOp) (hops : Each (step cfg) Sound (start cfg defaultScope ttlMinutes now) ops) :
    Covered (run (step cfg) (start cfg defaultScope ttlMinutes now) ops) := by
  have hstart : CoverInv (start cfg defaultScope ttlMinutes now) := by
    exact ⟨⟨nodup_nil, fun _ hc => by cases hc⟩, start_keyed cfg defaultScope ttlMinutes now,
      fun _ hc => by cases hc⟩
  have hinv := hops.invariant CoverInv (fun _ _ h hop => h.step hop) hstart
  intro c hc
  exact (hinv.bound c hc).imp id fun ⟨_, hnames⟩ => hnames.live_or_overdue _

/-- A tab that stays open across an elevation, and a second one that is there when the session
is revoked. -/
def elevatedThenRevoked : List WebEdgeOp :=
  [visit "s1", verify "s1" 1, host 1, .setScope loadsAll (asciiBytes "s2") (asciiBytes "s1") "user" [] .keep,
    verify "s2" 2, host 2, .revoke loadsAll (asciiBytes "s2"), .disconnected 0]

def reached (ops : List WebEdgeOp) : EdgeRun := run (step fewVisitors) (start fewVisitors "anonymous" 720 0) ops

theorem connections_covered_elevatedThenRevoked :
    (reached elevatedThenRevoked).edge.connections.map (·.told) = [true] ∧ Covered (reached elevatedThenRevoked) :=
  ⟨by decide, connections_covered fewVisitors "anonymous" 720 0 elevatedThenRevoked (by decide)⟩

/-- What a connection asks for when a session past its time-to-live does not count. -/
def LiveCover (s : EdgeRun) (c : Connection) : Prop :=
  c.told = true ∨ s.edge.sessions.isLive s.now c.liveSession = true ∨
    s.edge.sessions.rotationOf s.now c.liveSession ≠ []
deriving Decidable

/-- A session revoked between the check and the hosting, and one whose time has run out before
a sweep. -/
theorem connections_uncovered :
    (¬ ∀ c ∈ (reached [visit "s1", verify "s1" 1, .revoke loadsAll (asciiBytes "s1"), host 1]).edge.connections,
      LiveCover (reached [visit "s1", verify "s1" 1, .revoke loadsAll (asciiBytes "s1"), host 1]) c) ∧
    ¬ ∀ c ∈ (reached [visit "s1", verify "s1" 1, host 1, .advance 43200001]).edge.connections,
      LiveCover (reached [visit "s1", verify "s1" 1, host 1, .advance 43200001]) c := by
  constructor <;> decide

end EdgeRun
end SynQt
