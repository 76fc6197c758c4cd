import SynQt.Edge.SourceBalance

/-! What hosting a connect point and deciding it again leave: the Source a session has for it, and
where its relay is pointed. -/
namespace SynQt
open Lib List

def WebEdgeConnectPoint.fronted (point : WebEdgeConnectPoint) : Bool := !point.behind.isEmpty

def Runtime.Loads (qt : Runtime) (point : WebEdgeConnectPoint) : Prop :=
  qt.componentError point.serverFile = none ∧ qt.registered point.contract = true ∧ qt.remotes point.name = true
deriving Decidable

namespace ScopeOrder

/-- Where the relay of a front goes for a visitor. -/
def tierFor (order : ScopeOrder) (replicaOf : QString → Option Nat) (point : WebEdgeConnectPoint) (v : Visitor) :
    Option QString :=
  if order.servesScope replicaOf point v then some (order.entityFor point v.scope) else none

theorem servesScope_fronted {order : ScopeOrder} {replicaOf : QString → Option Nat} {point : WebEdgeConnectPoint}
    {v : Visitor} (h : order.servesScope replicaOf point v = true) (hf : point.fronted = true) :
    (order.entityFor point v.scope).isEmpty = false ∧ (replicaOf (order.entityFor point v.scope)).isSome := by
  have hbehind : point.behind.isEmpty = false := by simpa [WebEdgeConnectPoint.fronted] using hf
  unfold servesScope at h
  split at h
  · cases h
  · rw [if_neg (by simp [hbehind])] at h
    simpa using h

theorem servesScope_open {order : ScopeOrder} {replicaOf : QString → Option Nat} {point : WebEdgeConnectPoint}
    (hscope : point.scope.isEmpty = true) (hf : point.fronted = false) (v : Visitor) :
    order.servesScope replicaOf point v = true := by
  have hbehind : point.behind.isEmpty = true := by simpa [WebEdgeConnectPoint.fronted] using hf
  simp [servesScope, hscope, hbehind]

end ScopeOrder

namespace SourceTable
variable {order : ScopeOrder} {qt : Runtime} {replicaOf : QString → Option Nat} {t t' t'' : SourceTable}
  {count : QByteArray → Nat} {id : QByteArray} {v : Visitor} {point : WebEdgeConnectPoint}
  {hosted hosted' hosted'' : Hash QString Nat}

/-- From `t` to `t'` only the Sources `id` has for the connect points `names` have come or moved. -/
structure Touches (t t' : SourceTable) (id : QByteArray) (names : List QString) : Prop where
  kept : ∀ k p x, t.Registered k p x → t'.Registered k p x
  only : ∀ k p x, t'.Registered k p x → t.Registered k p x ∨ (k = id ∧ p ∈ names)
  still : ∀ k p x, t.Registered k p x → ¬ (k = id ∧ p ∈ names) → t'.relayTargets.find x = t.relayTargets.find x

namespace Touches
variable {names names' : List QString}

theorem refl (t : SourceTable) (id : QByteArray) (names : List QString) : Touches t t id names :=
  ⟨fun _ _ _ h => h, fun _ _ _ h => .inl h, fun _ _ _ _ _ => rfl⟩

section
variable (h : Touches t t' id names)
include h

theorem trans (h' : Touches t' t'' id names') : Touches t t'' id (names ++ names') := by
  refine ⟨fun k p x hr => h'.kept k p x (h.kept k p x hr), fun k p x hr => ?_, fun k p x hr hnot => ?_⟩
  · rcases h'.only k p x hr with hmid | ⟨hk, hp⟩
    · exact (h.only k p x hmid).imp (fun hold => hold) fun ⟨hk, hp⟩ => ⟨hk, mem_append_left _ hp⟩
    · exact .inr ⟨hk, mem_append_right _ hp⟩
  · have hfirst : ¬ (k = id ∧ p ∈ names) := fun ⟨hk, hp⟩ => hnot ⟨hk, mem_append_left _ hp⟩
    have hsecond : ¬ (k = id ∧ p ∈ names') := fun ⟨hk, hp⟩ => hnot ⟨hk, mem_append_right _ hp⟩
    exact (h'.still k p x (h.kept k p x hr) hsecond).trans (h.still k p x hr hfirst)

theorem mono (hsub : names ⊆ names') : Touches t t' id names' :=
  ⟨h.kept, fun k p x hr => (h.only k p x hr).imp (fun hold => hold) fun ⟨hk, hp⟩ => ⟨hk, hsub hp⟩,
    fun k p x hr hnot => h.still k p x hr fun ⟨hk, hp⟩ => hnot ⟨hk, hsub hp⟩⟩

theorem same {k : QByteArray} {p : QString} (hnot : ¬ (k = id ∧ p ∈ names)) (x : Nat) :
    t'.Registered k p x ↔ t.Registered k p x :=
  ⟨fun hr => (h.only k p x hr).resolve_right hnot, h.kept k p x⟩

end

theorem pointRelay (replicaOf : QString → Option Nat) (hb : t.Balanced count) {p : QString} {source : Nat} (hr : t.Registered id p source)
    (entity : QString) : Touches t (t.pointRelay replicaOf source entity) id [p] := by
  have hsources : (t.pointRelay replicaOf source entity).sessionSources = t.sessionSources := by
    unfold SourceTable.pointRelay
    split <;> rfl
  have hreg (k : QByteArray) (q : QString) (x : Nat) :
      (t.pointRelay replicaOf source entity).Registered k q x ↔ t.Registered k q x := by
    simp only [Registered, hsources]
  refine ⟨fun k q x => (hreg k q x).mpr, fun k q x h => .inl ((hreg k q x).mp h), fun k q x h hnot => ?_⟩
  have hother : x ≠ source := by
    rintro rfl
    obtain ⟨hk, hq⟩ := hb.alone x k q id p h hr
    exact hnot ⟨hk, mem_singleton.mpr hq⟩
  unfold SourceTable.pointRelay
  split <;> simp [hother]

end Touches

private theorem pointRelay_target (t : SourceTable) (source : Nat) (entity : QString) :
    (t.pointRelay replicaOf source entity).relayTargets.find source =
      if entity.isEmpty then none else some entity := by
  unfold pointRelay
  split <;> simp

private theorem pointRelay_registered (t : SourceTable) (source : Nat) (entity : QString) (k : QByteArray) (p : QString) (x : Nat) :
    (t.pointRelay replicaOf source entity).Registered k p x ↔ t.Registered k p x := by
  unfold pointRelay
  split <;> rfl

private theorem newSource_served (t : SourceTable) (hl : qt.Loads point) (hs : order.servesScope replicaOf point v = true) :
    ∃ source, (newSource order qt replicaOf t point v).2 = .ok source ∧
      (∀ x, x ≠ source → (newSource order qt replicaOf t point v).1.relayTargets.find x = t.relayTargets.find x) ∧
      (point.fronted = true → (newSource order qt replicaOf t point v).1.relayTargets.find source =
        some (order.entityFor point v.scope)) := by
  obtain ⟨hfile, hcontract, -⟩ := hl
  unfold newSource
  split
  · rename_i hbehind
    obtain ⟨hentity, hreplica⟩ := ScopeOrder.servesScope_fronted hs hbehind
    refine ⟨t.next, ?_⟩
    simp only [relayFor, hentity, hcontract, Option.isNone_eq_false_iff.mpr hreplica, Bool.false_eq_true, if_false, Bool.not_true]
    refine ⟨trivial, fun x hx => ?_, fun _ => ?_⟩
    · simp [pointRelay, hentity, made, hx]
    · rw [pointRelay_target, hentity]
      rfl
  · rename_i hbehind
    have hfront (h : point.fronted = true) : False := hbehind h
    split
    · have hshared : (sharedSource qt t point).2 = none ∧
          (sharedSource qt t point).1.relayTargets = t.relayTargets := by
        unfold sharedSource
        rw [hfile]
        cases t.sharedSources.find point.name <;> exact ⟨rfl, rfl⟩
      refine ⟨(sharedSource qt t point).1.next, ?_⟩
      simp only [mirrorFor, hshared.1, hcontract, Bool.not_true, Bool.false_eq_true, if_false]
      exact ⟨trivial, fun x _ => by rw [made, hshared.2], fun h => (hfront h).elim⟩
    · refine ⟨t.next, ?_⟩
      simp only [createSource, hfile]
      exact ⟨trivial, fun x _ => rfl, fun h => (hfront h).elim⟩

/-- The session's own Source for a connect point, a new one where it had none. -/
structure Acquired (order : ScopeOrder) (t t' : SourceTable) (id : QByteArray) (v : Visitor) (point : WebEdgeConnectPoint)
    (source : Nat) : Prop where
  touches : Touches t t' id [point.name]
  registered : t'.Registered id point.name source
  pointed : (t.Registered id point.name source ∧ t'.relayTargets.find source = t.relayTargets.find source) ∨
    (point.fronted = true → t'.relayTargets.find source = some (order.entityFor point v.scope))

theorem sourceForConnection_served (hb : t.Balanced count) (hpos : count id ≠ 0) (hl : qt.Loads point)
    (hs : order.servesScope replicaOf point v = true) :
    ∃ source, (sourceForConnection order qt replicaOf t point id v).2 = .ok source ∧
      Acquired order t (sourceForConnection order qt replicaOf t point id v).1 id v point source := by
  have hset : (t.setEntry id (t.entryOf id)).Balanced count :=
    hb.setEntry (fun _ _ => rfl) hpos (hb.entryOf_connections id) (entryOf_registered t id)
  have hreg := setEntry_registered (entryOf_registered t id)
  have hsame : (t.setEntry id (t.entryOf id)).entryOf id = t.entryOf id := by
    simp [entryOf, SourceTable.setEntry]
  unfold sourceForConnection
  simp only
  split
  · rename_i existing hfind
    have hold : t.Registered id point.name existing := (entryOf_registered t id point.name existing).mp hfind
    refine ⟨existing, rfl, ⟨fun k p x h => (hreg k p x).mpr h, fun k p x h => .inl ((hreg k p x).mp h), fun _ _ _ _ _ => rfl⟩,
      (hreg _ _ _).mpr hold, .inl ⟨hold, rfl⟩⟩
  · rename_i hnone
    obtain ⟨source, hok, hothers, hpointed⟩ :=
      newSource_served (t.setEntry id (t.entryOf id)) hl hs
    obtain ⟨hsources, hcases⟩ := newSource_cases order qt replicaOf (t.setEntry id (t.entryOf id)) point v
    revert hsources hcases hok hothers hpointed
    generalize newSource order qt replicaOf (t.setEntry id (t.entryOf id)) point v = built
    intro hok hothers hpointed hsources hcases
    rw [hok] at hcases ⊢
    obtain ⟨hnew, -, -⟩ := hcases
    have hinsert (k : QByteArray) (p : QString) (x : Nat) :
        (built.1.setEntry id { t.entryOf id with
          byConnectPoint := (t.entryOf id).byConnectPoint.insert point.name source }).Registered k p x ↔
        (k = id ∧ p = point.name ∧ x = source) ∨ (t.setEntry id (t.entryOf id)).Registered k p x := by
      refine registered_insert (hsame.symm ▸ hnone) ?_ k p x
      rw [hsame, SourceTable.setEntry, hsources]
    refine ⟨source, rfl, ⟨fun k p x h => ?_, fun k p x h => ?_, fun k p x h _ => ?_⟩, ?_, .inr hpointed⟩
    · exact (hinsert k p x).mpr (.inr ((hreg k p x).mpr h))
    · rcases (hinsert k p x).mp h with ⟨hk, hp, -⟩ | hold
      · exact .inr ⟨hk, mem_singleton.mpr hp⟩
      · exact .inl ((hreg k p x).mp hold)
    · refine hothers x fun heq => ?_
      have hbelow := hset.below x ((hset.live x).mpr ⟨k, p, (hreg k p x).mpr h⟩)
      omega
    · exact (hinsert id point.name source).mpr (.inl ⟨rfl, rfl, rfl⟩)

private theorem hostConnectPoint_served (hb : t.Balanced count) (hpos : count id ≠ 0) (hl : qt.Loads point)
    (hs : order.servesScope replicaOf point v = true) (hosted : Hash QString Nat) :
    ∃ source, (hostConnectPoint order qt replicaOf t point id v hosted).2 = hosted.insert point.name source ∧
      Acquired order t (hostConnectPoint order qt replicaOf t point id v hosted).1 id v point source := by
  obtain ⟨source, hok, hacquired⟩ := sourceForConnection_served hb hpos hl hs
  refine ⟨source, ?_⟩
  unfold hostConnectPoint
  simp only [hok, hl.2.2, Bool.not_true, Bool.false_eq_true, if_false]
  exact ⟨trivial, hacquired⟩

theorem Registered.unique {p : QString} {x y : Nat} (hx : t.Registered id p x) (hy : t.Registered id p y) : x = y := by
  obtain ⟨entry, hentry, hfind⟩ := hx
  obtain ⟨entry', hentry', hfind'⟩ := hy
  rw [hentry] at hentry'
  cases hentry'
  rw [hfind] at hfind'
  exact Option.some.inj hfind'

/-- What a connection of `id` hosts of these connect points has become what serves the visitor, and
every relay `id` has for one of them is where the visitor's scope sends it. -/
structure Decided (order : ScopeOrder) (replicaOf : QString → Option Nat) (id : QByteArray) (v : Visitor)
    (points : List WebEdgeConnectPoint) (t t' : SourceTable) (hosted hosted' : Hash QString Nat) : Prop where
  touches : Touches t t' id (points.map (·.name))
  others : ∀ name, name ∉ points.map (·.name) → hosted'.find name = hosted.find name
  served : ∀ point ∈ points, (hosted'.find point.name).isSome = order.servesScope replicaOf point v
  registered : ∀ point ∈ points, ∀ x, hosted'.find point.name = some x → t'.Registered id point.name x
  pointed : ∀ point ∈ points, point.fronted = true → ∀ x, t'.Registered id point.name x →
    t'.relayTargets.find x = order.tierFor replicaOf point v

namespace Decided

theorem nil (t : SourceTable) (hosted : Hash QString Nat) : Decided order replicaOf id v [] t t hosted hosted :=
  ⟨Touches.refl t id [], fun _ _ => rfl, fun _ h => absurd h not_mem_nil, fun _ h => absurd h not_mem_nil,
    fun _ h => absurd h not_mem_nil⟩

theorem cons {points : List WebEdgeConnectPoint} (hnot : point.name ∉ points.map (·.name))
    (h : Decided order replicaOf id v [point] t t' hosted hosted')
    (h' : Decided order replicaOf id v points t' t'' hosted' hosted'') :
    Decided order replicaOf id v (point :: points) t t'' hosted hosted'' := by
  have hself : point ∈ [point] := mem_singleton.mpr rfl
  have hsame := h'.touches.same (k := id) (p := point.name) fun hp => hnot hp.2
  refine ⟨h.touches.trans h'.touches, fun name hname => ?_, fun q hq => ?_, fun q hq x hx => ?_,
    fun q hq hf x hx => ?_⟩
  · rw [map_cons, mem_cons, not_or] at hname
    exact (h'.others name hname.2).trans (h.others name fun hmem => hname.1 (mem_singleton.mp hmem))
  · rcases mem_cons.mp hq with rfl | hq
    · rw [h'.others _ hnot]
      exact h.served _ hself
    · exact h'.served q hq
  · rcases mem_cons.mp hq with rfl | hq
    · rw [h'.others _ hnot] at hx
      exact (hsame x).mpr (h.registered _ hself x hx)
    · exact h'.registered q hq x hx
  · rcases mem_cons.mp hq with rfl | hq
    · have hmid := (hsame x).mp hx
      rw [h'.touches.still id _ x hmid fun hp => hnot hp.2]
      exact h.pointed _ hself hf x hmid
    · exact h'.pointed q hq hf x hx

end Decided

/-- What a connection may find where a connect point is decided again: a hosted Source is the
session's, a point of its own is hosted by everybody, and the relay of one that is neither hosted nor
served is pointed nowhere. -/
structure Ready (order : ScopeOrder) (replicaOf : QString → Option Nat) (t : SourceTable) (id : QByteArray) (v : Visitor)
    (hosted : Hash QString Nat) (point : WebEdgeConnectPoint) : Prop where
  registered : ∀ x, hosted.find point.name = some x → t.Registered id point.name x
  opened : point.scope.isEmpty = true → point.fronted = false → (hosted.find point.name).isSome
  quiet : point.fronted = true → hosted.find point.name = none → order.servesScope replicaOf point v = false →
    ∀ x, t.Registered id point.name x → t.relayTargets.find x = none

/-- A decision about the others leaves it so. -/
theorem Ready.after {names : List QString} (h : Ready order replicaOf t id v hosted point)
    (ht : Touches t t' id names) (hnot : point.name ∉ names)
    (hsame : hosted'.find point.name = hosted.find point.name) : Ready order replicaOf t' id v hosted' point := by
  have hreg := ht.same (k := id) (p := point.name) fun hp => hnot hp.2
  refine ⟨fun x hx => ?_, fun hs hf => ?_, fun hf hn hs x hx => ?_⟩
  · exact (hreg x).mpr (h.registered x (hsame ▸ hx))
  · exact hsame ▸ h.opened hs hf
  · rw [ht.still id point.name x ((hreg x).mp hx) fun hp => hnot hp.2]
    exact h.quiet hf (hsame ▸ hn) hs x ((hreg x).mp hx)

section
variable (ht : Touches t t' id [point.name])
include ht

theorem Decided.leave (hr : ∀ x, hosted.find point.name = some x → t'.Registered id point.name x)
    (hs : (hosted.find point.name).isSome = order.servesScope replicaOf point v)
    (hp : point.fronted = true → ∀ x, t'.Registered id point.name x →
      t'.relayTargets.find x = order.tierFor replicaOf point v) :
    Decided order replicaOf id v [point] t t' hosted hosted := by
  refine ⟨ht, fun _ _ => rfl, ?_, ?_, ?_⟩ <;> rw [forall_mem_singleton]
  · exact hs
  · exact hr
  · exact hp

theorem Decided.host {source : Nat} (hr : t'.Registered id point.name source)
    (hs : order.servesScope replicaOf point v = true)
    (hp : point.fronted = true → t'.relayTargets.find source = order.tierFor replicaOf point v) :
    Decided order replicaOf id v [point] t t' hosted (hosted.insert point.name source) := by
  refine ⟨ht, fun name hname => ?_, ?_, ?_, ?_⟩
  · have hother : name ≠ point.name := by simpa using hname
    rw [Hash.find_insert, if_neg hother]
  · rw [forall_mem_singleton, Hash.find_insert, if_pos rfl, hs]
    rfl
  · rw [forall_mem_singleton]
    intro x hx
    rw [Hash.find_insert, if_pos rfl] at hx
    exact Option.some.inj hx ▸ hr
  · rw [forall_mem_singleton]
    intro hf x hx
    exact hx.unique hr ▸ hp hf

private theorem Decided.withdraw (hs : order.servesScope replicaOf point v = false)
    (hp : point.fronted = true → ∀ x, t'.Registered id point.name x → t'.relayTargets.find x = none) :
    Decided order replicaOf id v [point] t t' hosted (hosted.erase point.name) := by
  have hgone : (hosted.erase point.name).find point.name = none := by rw [Hash.find_erase, if_pos rfl]
  refine ⟨ht, fun name hname => ?_, ?_, ?_, ?_⟩
  · have hother : name ≠ point.name := by simpa using hname
    rw [Hash.find_erase, if_neg hother]
  · rw [forall_mem_singleton, hgone, hs]
    rfl
  · rw [forall_mem_singleton, hgone]
    exact fun x hx => by cases hx
  · rw [forall_mem_singleton]
    intro hf x hx
    rw [hp hf x hx, ScopeOrder.tierFor, if_neg (by simp [hs])]

end

theorem decideAgain_decided (hb : t.Balanced count) (hpos : count id ≠ 0) (hl : qt.Loads point)
    (hr : Ready order replicaOf t id v hosted point) :
    Decided order replicaOf id v [point] t (decideAgain order qt replicaOf t point id v hosted).1 hosted
      (decideAgain order qt replicaOf t point id v hosted).2 := by
  unfold decideAgain
  simp only
  split
  · rename_i hown
    obtain ⟨hscope, hfront⟩ : point.scope.isEmpty = true ∧ point.fronted = false := by
      simpa [WebEdgeConnectPoint.fronted] using hown
    refine Decided.leave (Touches.refl t id _) hr.registered ?_ fun hf => absurd hf (by simp [hfront])
    rw [hr.opened hscope hfront, ScopeOrder.servesScope_open hscope hfront]
  · split
    · rename_i hs hnone
      obtain ⟨source, hinsert, hacquired⟩ := hostConnectPoint_served hb hpos hl hs hosted
      have hbalanced := hb.hostConnectPoint order qt replicaOf hpos point v hosted
      revert hinsert hacquired hbalanced
      generalize hostConnectPoint order qt replicaOf t point id v hosted = acc
      intro hinsert hacquired hbalanced
      rw [hinsert, Hash.find_insert, if_pos rfl]
      simp only
      split
      · rename_i hf
        obtain ⟨hentity, -⟩ := ScopeOrder.servesScope_fronted hs hf
        have htouches := hacquired.touches.trans
          (Touches.pointRelay replicaOf hbalanced hacquired.registered (order.entityFor point v.scope))
        refine Decided.host ?_ ((pointRelay_registered _ _ _ _ _ _).mpr hacquired.registered) hs fun _ => ?_
        · exact htouches.mono (by simp)
        · rw [pointRelay_target, hentity, ScopeOrder.tierFor, if_pos hs]
          rfl
      · rename_i hf
        rw [hinsert]
        exact Decided.host hacquired.touches hacquired.registered hs fun h => absurd h hf
    · rename_i source hs hsome
      have hreg := hr.registered source hsome
      split
      · refine Decided.withdraw (Touches.pointRelay replicaOf hb hreg "") hs fun _ x hx => ?_
        rw [((pointRelay_registered _ _ _ _ _ _).mp hx).unique hreg, pointRelay_target]
        rfl
      · rename_i hf
        exact Decided.withdraw (Touches.refl t id _) hs fun h => absurd h hf
    · rename_i source hs hsome
      have hreg := hr.registered source hsome
      have hserved : (hosted.find point.name).isSome = order.servesScope replicaOf point v := by
        rw [hsome, hs]
        rfl
      split
      · rename_i hmoved
        obtain ⟨hentity, -⟩ := ScopeOrder.servesScope_fronted hs (Bool.and_eq_true_iff.mp hmoved).1
        refine Decided.leave (Touches.pointRelay replicaOf hb hreg _) (fun x hx => ?_) hserved fun _ x hx => ?_
        · exact (pointRelay_registered _ _ _ _ _ _).mpr (hr.registered x hx)
        · rw [((pointRelay_registered _ _ _ _ _ _).mp hx).unique hreg, pointRelay_target, hentity,
            ScopeOrder.tierFor, if_pos hs]
          rfl
      · rename_i hstill
        refine Decided.leave (Touches.refl t id _) hr.registered hserved fun hf x hx => ?_
        obtain ⟨hentity, -⟩ := ScopeOrder.servesScope_fronted hs hf
        have hfront : (!point.behind.isEmpty) = true := hf
        have hthere : (t.relayTargets.find source).getD "" = order.entityFor point v.scope := by
          simpa [hfront] using hstill
        rw [hx.unique hreg, ScopeOrder.tierFor, if_pos hs]
        cases htarget : t.relayTargets.find source with
        | some tier => rw [← hthere, htarget, Option.getD_some]
        | none =>
          rw [htarget] at hthere
          rw [← hthere] at hentity
          cases hentity
    · rename_i hs hnone
      refine Decided.leave (Touches.refl t id _) hr.registered (by rw [hs, hnone]; rfl) fun hf x hx => ?_
      rw [hr.quiet hf hnone hs x hx, ScopeOrder.tierFor, if_neg (by simp [hs])]

/-- A scope change leaves every connect point decided for the visitor. -/
theorem decidePoints_decided (hb : t.Balanced count) (hpos : count id ≠ 0) {points : List WebEdgeConnectPoint}
    (hl : ∀ point ∈ points, qt.Loads point) (hnd : (points.map (·.name)).Nodup)
    (hr : ∀ point ∈ points, Ready order replicaOf t id v hosted point) :
    Decided order replicaOf id v points t (decidePoints order qt replicaOf points t id v hosted).1 hosted
      (decidePoints order qt replicaOf points t id v hosted).2 := by
  unfold decidePoints
  induction points generalizing t hosted with
  | nil => exact Decided.nil t hosted
  | cons point points ih =>
    rw [map_cons, nodup_cons] at hnd
    rw [forall_mem_cons] at hl hr
    have hfirst := decideAgain_decided hb hpos hl.1 hr.1
    rw [foldl_cons]
    refine Decided.cons hnd.1 hfirst (ih (hb.decideAgain hpos point v hosted) hl.2 hnd.2 fun q hq => ?_)
    have hother : q.name ∉ [point].map (·.name) := by
      intro hmem
      have heq : q.name = point.name := by simpa using hmem
      exact hnd.1 (heq ▸ mem_map_of_mem hq)
    exact (hr.2 q hq).after hfirst.touches hother (hfirst.others _ hother)

/-- A new connection hosts what serves its visitor, where the session's relays for the connect points
are where the visitor's scope sends them. -/
theorem hostPoints_decided (qt : Runtime) (hb : t.Balanced count) (hpos : count id ≠ 0) {points : List WebEdgeConnectPoint}
    (hl : ∀ point ∈ points, qt.Loads point) (hnd : (points.map (·.name)).Nodup)
    (hp : ∀ point ∈ points, point.fronted = true → ∀ x, t.Registered id point.name x →
      t.relayTargets.find x = order.tierFor replicaOf point v) :
    Decided order replicaOf id v points t (hostPoints order qt replicaOf points t id v).1 ∅
      (hostPoints order qt replicaOf points t id v).2 := by
  unfold hostPoints
  have hnone : ∀ point ∈ points, (∅ : Hash QString Nat).find point.name = none := fun _ _ => Hash.find_empty _
  revert hnone
  generalize (∅ : Hash QString Nat) = hosted
  intro hnone
  induction points generalizing t hosted with
  | nil => exact Decided.nil t hosted
  | cons point points ih =>
    rw [map_cons, nodup_cons] at hnd
    rw [forall_mem_cons] at hl hp hnone
    have hother (q : WebEdgeConnectPoint) (hq : q ∈ points) : q.name ∉ [point].map (·.name) := by
      intro hmem
      have heq : q.name = point.name := by simpa using hmem
      exact hnd.1 (heq ▸ mem_map_of_mem hq)
    have rest {t' : SourceTable} {hosted' : Hash QString Nat} (hb' : t'.Balanced count)
        (hfirst : Decided order replicaOf id v [point] t t' hosted hosted') := by
      refine Decided.cons hnd.1 hfirst (ih hb' hl.2 hnd.2 (fun q hq hf x hx => ?_) hosted' fun q hq => ?_)
      · have hnot : ¬ (id = id ∧ q.name ∈ [point].map (·.name)) := fun h => hother q hq h.2
        have hold := (hfirst.touches.same hnot x).mp hx
        rw [hfirst.touches.still id _ x hold hnot]
        exact hp.2 q hq hf x hold
      · rw [hfirst.others _ (hother q hq)]
        exact hnone.2 q hq
    rw [foldl_cons]
    split
    · rename_i hs
      obtain ⟨source, hinsert, hacquired⟩ := hostConnectPoint_served hb hpos hl.1 hs hosted
      have hstep : Decided order replicaOf id v [point] t (hostConnectPoint order qt replicaOf t point id v hosted).1
          hosted (hostConnectPoint order qt replicaOf t point id v hosted).2 := by
        rw [hinsert]
        refine Decided.host hacquired.touches hacquired.registered hs fun hf => ?_
        rcases hacquired.pointed with ⟨hold, hsame⟩ | hnew
        · rw [hsame]
          exact hp.1 hf source hold
        · rw [hnew hf, ScopeOrder.tierFor, if_pos hs]
      exact rest (hb.hostConnectPoint order qt replicaOf hpos point v hosted) hstep
    · rename_i hs
      refine rest hb (Decided.leave (Touches.refl t id _) (fun x hx => ?_) ?_ hp.1)
      · rw [hnone.1] at hx
        cases hx
      · rw [hnone.1]
        simpa using hs

end SourceTable
end SynQt
