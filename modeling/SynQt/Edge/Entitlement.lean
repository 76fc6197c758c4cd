import SynQt.Edge.Relays
import SynQt.Edge.SourceAccounts

/-! What the connections of a session host and where its relays are pointed, against the scope the
session has. -/
namespace SynQt
open Lib List

namespace Visitor
variable {m m' : SessionManager} {now : Int} {k : QByteArray}

theorem of_eq_some (m : SessionManager) (now : Int) (k : QByteArray) (scope : QString) :
    Visitor.of m now k = some scope ↔
      ∃ r, m.sessions.find k = some r ∧ ¬ (0 < m.ttlMs ∧ m.ttlMs < now - r.createdMs) ∧ r.scope = scope := by
  unfold Visitor.of SessionManager.lookup
  cases m.sessions.find k with
  | none => simp
  | some r =>
    simp only [Option.some.injEq, exists_eq_left']
    split
    · rename_i hold
      exact ⟨nofun, fun h => absurd hold h.1⟩
    · rename_i hold
      exact ⟨fun h => ⟨hold, Option.some.inj h⟩, fun h => congrArg some h.2⟩

def Narrows (m' m : SessionManager) (now : Int) (k : QByteArray) : Prop :=
  ∀ scope, Visitor.of m' now k = some scope → Visitor.of m now k = some scope

theorem Narrows.of_find (httl : m'.ttlMs = m.ttlMs) (h : ∀ r, m'.sessions.find k = some r →
    ∃ r₀, m.sessions.find k = some r₀ ∧ r₀.createdMs = r.createdMs ∧ r₀.scope = r.scope) : Narrows m' m now k := by
  intro scope hv
  obtain ⟨r, hfind, hlive, hscope⟩ := (of_eq_some m' now k scope).mp hv
  obtain ⟨r₀, hfind₀, hcreated, hsame⟩ := h r hfind
  exact (of_eq_some m now k scope).mpr ⟨r₀, hfind₀, by rwa [hcreated, ← httl], hsame.trans hscope⟩

theorem Narrows.of_within (h : m'.Within m) : Narrows m' m now k :=
  Narrows.of_find h.ttlMs fun r hr => ⟨r, h.sessions k r hr, rfl, rfl⟩

theorem of_later {ms : Nat} {scope : QString} (h : Visitor.of m (now + ms) k = some scope) :
    Visitor.of m now k = some scope := by
  obtain ⟨r, hfind, hlive, hscope⟩ := (of_eq_some m _ k scope).mp h
  refine (of_eq_some m now k scope).mpr ⟨r, hfind, fun ⟨httl, hold⟩ => hlive ⟨httl, ?_⟩, hscope⟩
  omega

end Visitor

namespace SourceTable
variable {cfg : WebEdgeConfig} {replicaOf : QString → Option Nat} {t t' : SourceTable} {id : QByteArray} {v : Visitor}
  {hosted hosted' : Hash QString Nat}

/-- A session whose Sources are what they were, and pointed where they were. -/
structure Untouched (t t' : SourceTable) (id : QByteArray) : Prop where
  same : ∀ p x, t'.Registered id p x ↔ t.Registered id p x
  still : ∀ p x, t.Registered id p x → t'.relayTargets.find x = t.relayTargets.find x

theorem Touches.untouched {names : List QString} {k : QByteArray} (h : Touches t t' id names) (hk : k ≠ id) :
    Untouched t t' k :=
  ⟨fun _ x => h.same (fun hp => hk hp.1) x, fun p x hr => h.still k p x hr fun hp => hk hp.1⟩

theorem Untouched.trans {t'' : SourceTable} (h : Untouched t t' id) (h' : Untouched t' t'' id) : Untouched t t'' id :=
  ⟨fun p x => (h'.same p x).trans (h.same p x),
    fun p x hr => (h'.still p x ((h.same p x).mpr hr)).trans (h.still p x hr)⟩

theorem Untouched.of_eq (hs : t'.sessionSources = t.sessionSources) (hr : t'.relayTargets = t.relayTargets) :
    Untouched t t' id := by
  refine ⟨fun p x => ?_, fun p x _ => by rw [hr]⟩
  simp only [Registered, hs]

@[simp] theorem followRotation_relayTargets (t : SourceTable) (from_ to_ : QByteArray) :
    (t.followRotation from_ to_).relayTargets = t.relayTargets := by
  unfold followRotation
  split <;> rfl

theorem followRotation_untouched {from_ to_ k : QByteArray} (hne : from_ ≠ to_) (hapart : t.apart from_ to_ = true)
    (hfrom : k ≠ from_) (hto : k ≠ to_) : Untouched t (t.followRotation from_ to_) k := by
  refine ⟨fun p x => ?_, fun p x _ => by rw [followRotation_relayTargets]⟩
  rw [followRotation_registered hne hapart]
  simp [hfrom, hto]

theorem claim_untouched (t : SourceTable) (id k : QByteArray) : Untouched t (t.claim id) k := by
  refine ⟨fun p x => ?_, fun _ _ _ => rfl⟩
  apply setEntry_registered
  exact entryOf_registered t id

theorem releaseSessionSources_untouched {count : QByteArray → Nat} (hb : t.Balanced count) {k : QByteArray}
    (hk : k ≠ id ∨ 2 ≤ count id) : Untouched t (t.releaseSessionSources id) k := by
  unfold releaseSessionSources
  cases hfind : t.sessionSources.find id with
  | none => exact Untouched.of_eq rfl rfl
  | some entry =>
    simp only
    have hentry : t.entryOf id = entry := by rw [entryOf, hfind]; rfl
    split
    · refine ⟨fun p x => setEntry_registered (fun p x => ?_) k p x, fun _ _ _ => rfl⟩
      rw [← entryOf_registered, hentry]
    · rename_i hlast
      have hcount := hb.entryOf_connections id
      rw [hentry] at hcount
      have hother : k ≠ id := hk.resolve_right (by omega)
      refine ⟨fun p x => by simp [Registered, hother], fun p x hr => ?_⟩
      have hkept : (entry.byConnectPoint.entries.map (·.2)).contains x = false := by
        by_contra hgone
        rw [Bool.not_eq_false, contains_iff_mem] at hgone
        obtain ⟨⟨q, y⟩, hmem, rfl⟩ := mem_map.mp hgone
        exact hother (hb.alone y k p id q hr ⟨entry, hfind, (Hash.mem_entries _ _ _).mp hmem⟩).1
      simp only [Hash.find_filter, hkept]
      cases t.relayTargets.find x <;> rfl

/-- Whatever its session: a connection hosts the session's Sources, for connect points there are, and
each that asks for nothing; and the relay of a front it does not host is pointed nowhere. -/
structure Linked (cfg : WebEdgeConfig) (t : SourceTable) (id : QByteArray) (hosted : Hash QString Nat) : Prop where
  registered : ∀ name x, hosted.find name = some x → t.Registered id name x
  named : ∀ name x, hosted.find name = some x → name ∈ cfg.connectPoints.map (·.name)
  opened : ∀ point ∈ cfg.connectPoints, point.scope.isEmpty = true → point.fronted = false →
    (hosted.find point.name).isSome
  quiet : ∀ point ∈ cfg.connectPoints, point.fronted = true → hosted.find point.name = none →
    ∀ x, t.Registered id point.name x → t.relayTargets.find x = none

def Pointed (cfg : WebEdgeConfig) (replicaOf : QString → Option Nat) (t : SourceTable) (id : QByteArray)
    (v : Visitor) : Prop :=
  ∀ point ∈ cfg.connectPoints, point.fronted = true → ∀ x, t.Registered id point.name x →
    t.relayTargets.find x = cfg.scopeOrder.tierFor replicaOf point v

/-- A connection hosts what serves the visitor, and the session's relays are where they belong. -/
structure Current (cfg : WebEdgeConfig) (replicaOf : QString → Option Nat) (t : SourceTable) (id : QByteArray)
    (v : Visitor) (hosted : Hash QString Nat) : Prop where
  served : ∀ point ∈ cfg.connectPoints, (hosted.find point.name).isSome = cfg.scopeOrder.servesScope replicaOf point v
  pointed : Pointed cfg replicaOf t id v

theorem Linked.congr (h : Linked cfg t id hosted) (ht : Untouched t t' id) : Linked cfg t' id hosted := by
  refine ⟨fun name x hx => (ht.same name x).mpr (h.registered name x hx), h.named, h.opened,
    fun point hp hf hn x hx => ?_⟩
  have hold := (ht.same point.name x).mp hx
  rw [ht.still point.name x hold]
  exact h.quiet point hp hf hn x hold

theorem Current.congr (h : Current cfg replicaOf t id v hosted) (ht : Untouched t t' id) :
    Current cfg replicaOf t' id v hosted := by
  refine ⟨h.served, fun point hp hf x hx => ?_⟩
  have hold := (ht.same point.name x).mp hx
  rw [ht.still point.name x hold]
  exact h.pointed point hp hf x hold

theorem Current.quiet (h : Current cfg replicaOf t id v hosted) {point : WebEdgeConnectPoint}
    (hp : point ∈ cfg.connectPoints) (hf : point.fronted = true)
    (hs : cfg.scopeOrder.servesScope replicaOf point v = false) {x : Nat} (hx : t.Registered id point.name x) :
    t.relayTargets.find x = none := by
  rw [h.pointed point hp hf x hx, ScopeOrder.tierFor, if_neg (by simp [hs])]

theorem Decided.current
    (h : Decided cfg.scopeOrder replicaOf id v cfg.connectPoints t t' hosted hosted') :
    Current cfg replicaOf t' id v hosted' :=
  ⟨h.served, h.pointed⟩

/-- What hosts exactly what serves the visitor hosts what asks for nothing, and nothing else is
followed for it. -/
theorem Current.linked (h : Current cfg replicaOf t id v hosted)
    (hr : ∀ name x, hosted.find name = some x → t.Registered id name x)
    (hn : ∀ name x, hosted.find name = some x → name ∈ cfg.connectPoints.map (·.name)) :
    Linked cfg t id hosted := by
  refine ⟨hr, hn, fun point hp hs hf => ?_, fun point hp hf hnone x hx => ?_⟩
  · rw [h.served point hp, ScopeOrder.servesScope_open hs hf]
  · have hserved := h.served point hp
    rw [hnone] at hserved
    exact h.quiet hp hf hserved.symm hx

section
variable (h : Decided cfg.scopeOrder replicaOf id v cfg.connectPoints t t' hosted hosted')
include h

theorem Decided.named (hn : ∀ name x, hosted.find name = some x → name ∈ cfg.connectPoints.map (·.name)) (name : QString) (x : Nat)
    (hx : hosted'.find name = some x) : name ∈ cfg.connectPoints.map (·.name) := by
  by_contra hnot
  rw [h.others name hnot] at hx
  exact hnot (hn name x hx)

theorem Decided.linked (hn : ∀ name x, hosted.find name = some x → name ∈ cfg.connectPoints.map (·.name)) :
    Linked cfg t' id hosted' := by
  refine h.current.linked (fun name x hx => ?_) (h.named hn)
  obtain ⟨point, hp, rfl⟩ := mem_map.mp (h.named hn name x hx)
  exact h.registered point hp x hx

end

end SourceTable

namespace WebEdge
open SourceTable
variable {cfg : WebEdgeConfig} {s s' : WebEdge}

structure Moved (cfg : WebEdgeConfig) (replicaOf : QString → Option Nat) (t : SourceTable) (to_ : QByteArray) (v : Visitor)
    (c : Connection) : Prop where
  liveSession : c.liveSession = to_
  served : ∀ point ∈ cfg.connectPoints, (c.hosted.find point.name).isSome = cfg.scopeOrder.servesScope replicaOf point v
  registered : ∀ name x, c.hosted.find name = some x → t.Registered to_ name x
  named : ∀ name x, c.hosted.find name = some x → name ∈ cfg.connectPoints.map (·.name)

/-- What a connection may find that is about to follow a rotation to `to_`. -/
structure Movable (cfg : WebEdgeConfig) (replicaOf : QString → Option Nat) (t : SourceTable) (to_ : QByteArray) (v : Visitor)
    (c : Connection) : Prop where
  ready : ∀ point ∈ cfg.connectPoints, Ready cfg.scopeOrder replicaOf t to_ v c.hosted point
  named : ∀ name x, c.hosted.find name = some x → name ∈ cfg.connectPoints.map (·.name)

/-- The connections that follow a rotation each host what serves the visitor; the first leaves the
session's relays where they belong, and the others find them there. -/
theorem rotateConnections_decided (qt : Runtime) {v : Visitor} {from_ to_ : QByteArray} (hne : from_ ≠ to_)
    {count : QByteArray → Nat} (hpos : count from_ ≠ 0) (hl : ∀ point ∈ cfg.connectPoints, qt.Loads point)
    (hnd : (cfg.connectPoints.map (·.name)).Nodup) (cs : List Connection) (s : WebEdge)
    (hb : (s.table.followRotation from_ to_).Balanced (moved count from_ to_))
    (hleft : s.table.sessionSources.find from_ ≠ none → ∃ c ∈ cs, c.liveSession = from_)
    (hready : ∀ c ∈ cs, c.liveSession = from_ →
      Movable cfg s.entitiesBehind.find (s.table.followRotation from_ to_) to_ v c) :
    Touches (s.table.followRotation from_ to_) (rotateConnections cfg qt v from_ to_ s cs).1.table to_
      (cfg.connectPoints.map (·.name)) ∧
    (∀ c' ∈ (rotateConnections cfg qt v from_ to_ s cs).2, (c' ∈ cs ∧ c'.liveSession ≠ from_) ∨
      Moved cfg s.entitiesBehind.find (rotateConnections cfg qt v from_ to_ s cs).1.table to_ v c') ∧
    ((∃ c ∈ cs, c.liveSession = from_) ∨ Pointed cfg s.entitiesBehind.find (s.table.followRotation from_ to_) to_ v →
      Pointed cfg s.entitiesBehind.find (rotateConnections cfg qt v from_ to_ s cs).1.table to_ v) := by
  induction cs generalizing s with
  | nil =>
    have hnone : s.table.sessionSources.find from_ = none := by
      by_contra hsome
      obtain ⟨c, hc, -⟩ := hleft hsome
      cases hc
    rw [followRotation_of_none hnone]
    refine ⟨Touches.refl _ _ _, (fun c hc => by cases hc), ?_⟩
    rintro (⟨c, hc, -⟩ | hpointed)
    · cases hc
    · exact hpointed
  | cons c rest ih =>
    by_cases hc : c.liveSession = from_
    · have hto : moved count from_ to_ to_ ≠ 0 := by
        rw [moved, if_pos rfl]
        omega
      have hfrom : moved count from_ to_ from_ = 0 := by
        rw [moved, if_neg hne, if_pos rfl]
      obtain ⟨hfirst, hnamed⟩ := hready c mem_cons_self hc
      have hdecided := decidePoints_decided hb hto hl hnd hfirst
      have hbalanced := hb.decidePoints cfg.scopeOrder qt s.entitiesBehind.find hto v cfg.connectPoints c.hosted
      simp only [rotateConnections, onSessionRotated_of_eq s qt v hc]
      revert hdecided hbalanced
      generalize (s.table.followRotation from_ to_).decidePoints cfg.scopeOrder qt s.entitiesBehind.find
        cfg.connectPoints to_ v c.hosted = decided
      intro hdecided hbalanced
      have hstill := followRotation_of_none (hbalanced.find_none hfrom) to_
      obtain ⟨htouches, hmoved, hpointed⟩ := ih { s.followRotation from_ to_ c.transport with table := decided.1 }
        (by rw [hstill]; exact hbalanced) (fun hsome => absurd (hbalanced.find_none hfrom) hsome)
        fun c' hc' hlive => by
          obtain ⟨hready', hnamed'⟩ := hready c' (mem_cons_of_mem _ hc') hlive
          rw [hstill]
          refine ⟨fun point hp => ⟨fun x hx => ?_, (hready' point hp).opened, fun hf _ hs x hx => ?_⟩, hnamed'⟩
          · exact hdecided.touches.kept to_ point.name x ((hready' point hp).registered x hx)
          · exact hdecided.current.quiet hp hf hs hx
      rw [hstill] at htouches hpointed
      refine ⟨(hdecided.touches.trans htouches).mono (by simp), fun c' hc' => ?_, fun _ => ?_⟩
      · rcases mem_cons.mp hc' with rfl | hrest
        · refine .inr ⟨rfl, hdecided.served, fun name x hx => ?_, hdecided.named hnamed⟩
          exact htouches.kept to_ name x ((hdecided.linked hnamed).registered name x hx)
        · exact (hmoved c' hrest).imp (And.imp_left (mem_cons_of_mem _)) id
      · exact hpointed (.inr hdecided.pointed)
    · simp only [rotateConnections, onSessionRotated_of_ne s qt v hc]
      have hothers : (∃ c' ∈ c :: rest, c'.liveSession = from_) → ∃ c' ∈ rest, c'.liveSession = from_ := by
        rintro ⟨c', hc', hlive⟩
        rcases mem_cons.mp hc' with rfl | hrest
        · exact absurd hlive hc
        · exact ⟨c', hrest, hlive⟩
      obtain ⟨htouches, hmoved, hpointed⟩ := ih s hb (fun hsome => hothers (hleft hsome))
        fun c' hc' => hready c' (mem_cons_of_mem _ hc')
      refine ⟨htouches, fun c' hc' => ?_, fun h => hpointed (h.imp hothers fun hp => hp)⟩
      rcases mem_cons.mp hc' with rfl | hrest
      · exact .inl ⟨mem_cons_self, hc⟩
      · exact (hmoved c' hrest).imp (And.imp_left (mem_cons_of_mem _)) id

end WebEdge
end SynQt
