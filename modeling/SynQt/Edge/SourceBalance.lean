import SynQt.Edge.SourceTable

/-! The table of Sources against the number of connections each session has open: it counts
them, keeps an entry while there is one, and holds every Source that has not been deleted. -/
namespace SynQt
open Lib Function

namespace SourceTable
variable {order : ScopeOrder} {qt : Runtime} {replicaOf : QString → Option Nat} {t t' : SourceTable}
  {count : QByteArray → Nat}

def Registered (t : SourceTable) (id : QByteArray) (point : QString) (source : Nat) : Prop :=
  ∃ entry, t.sessionSources.find id = some entry ∧ entry.byConnectPoint.find point = some source

theorem entryOf_registered (t : SourceTable) (id : QByteArray) (point : QString) (source : Nat) :
    (t.entryOf id).byConnectPoint.find point = some source ↔ t.Registered id point source := by
  unfold entryOf Registered
  cases t.sessionSources.find id with
  | none => simp
  | some entry => simp

theorem setEntry_registered {id : QByteArray} {entry : SessionSources}
    (hsame : ∀ point source, entry.byConnectPoint.find point = some source ↔ t.Registered id point source)
    (k : QByteArray) (point : QString) (source : Nat) :
    (t.setEntry id entry).Registered k point source ↔ t.Registered k point source := by
  by_cases hk : k = id
  · subst hk
    rw [← hsame]
    simp only [Registered, SourceTable.setEntry, Hash.find_insert, if_true, Option.some.injEq, exists_eq_left']
  · simp only [Registered, SourceTable.setEntry, Hash.find_insert, if_neg hk]

theorem registered_insert {id : QByteArray} {point : QString} {source : Nat}
    (hnone : (t.entryOf id).byConnectPoint.find point = none)
    (hs : t'.sessionSources = t.sessionSources.insert id
      { t.entryOf id with byConnectPoint := (t.entryOf id).byConnectPoint.insert point source })
    (k : QByteArray) (p : QString) (x : Nat) :
    t'.Registered k p x ↔ (k = id ∧ p = point ∧ x = source) ∨ t.Registered k p x := by
  by_cases hk : k = id
  · subst hk
    rw [← entryOf_registered t k p x]
    simp only [Registered, hs, Hash.find_insert, if_true, Option.some.injEq, exists_eq_left']
    by_cases hp : p = point
    · subst hp
      simp [hnone, eq_comm]
    · simp [hp]
  · simp [Registered, hs, hk]

structure Balanced (t : SourceTable) (count : QByteArray → Nat) : Prop where
  counts : ∀ id, (t.sessionSources.find id).map (·.connections) =
    if count id = 0 then none else some (count id : Int)
  live : ∀ source, source ∈ t.live ↔ ∃ id point, t.Registered id point source
  alone : ∀ source id point id' point', t.Registered id point source → t.Registered id' point' source →
    id = id' ∧ point = point'
  below : ∀ source ∈ t.live, source < t.next

namespace Balanced

section
variable (h : t.Balanced count)
include h

variable {id : QByteArray}

theorem find_none (hc : count id = 0) : t.sessionSources.find id = none := by
  have hcount := h.counts id
  rw [if_pos hc] at hcount
  exact Option.map_eq_none_iff.mp hcount

theorem find_some (hc : count id ≠ 0) :
    ∃ entry, t.sessionSources.find id = some entry ∧ entry.connections = count id := by
  have hcount := h.counts id
  rw [if_neg hc] at hcount
  exact Option.map_eq_some_iff.mp hcount

/-- What the other fields hold does not matter, and numbers are only used up. -/
theorem congr (hs : t'.sessionSources = t.sessionSources) (hl : t'.live = t.live)
    (hn : t.next ≤ t'.next) : t'.Balanced count := by
  have hreg (id : QByteArray) (point : QString) (source : Nat) :
      t'.Registered id point source ↔ t.Registered id point source := by
    simp only [Registered, hs]
  refine ⟨by simpa only [hs] using h.counts, fun source => ?_, fun source id point id' point' hr hr' => ?_,
    fun source hmem => ?_⟩
  · simp only [hl, hreg]
    exact h.live source
  · exact h.alone source id point id' point' ((hreg _ _ _).mp hr) ((hreg _ _ _).mp hr')
  · exact Nat.lt_of_lt_of_le (h.below source (hl ▸ hmem)) hn

/-- The table changes in one entry, which registers the same Sources as before. -/
theorem setEntry {entry : SessionSources} {count' : QByteArray → Nat}
    (hcount : ∀ k, k ≠ id → count' k = count k) (hpos : count' id ≠ 0) (hconn : entry.connections = count' id)
    (hsame : ∀ point source, entry.byConnectPoint.find point = some source ↔ t.Registered id point source) :
    (t.setEntry id entry).Balanced count' := by
  have hreg := setEntry_registered hsame
  refine ⟨fun k => ?_, fun source => ?_, fun source k point k' point' hr hr' => ?_, h.below⟩
  · by_cases hk : k = id
    · subst hk
      simp [SourceTable.setEntry, hpos, hconn]
    · simp only [SourceTable.setEntry, Hash.find_insert, if_neg hk, hcount k hk]
      exact h.counts k
  · simp only [hreg]
    exact h.live source
  · exact h.alone source k point k' point' ((hreg _ _ _).mp hr) ((hreg _ _ _).mp hr')

theorem entryOf_connections (id : QByteArray) : (t.entryOf id).connections = count id := by
  by_cases hc : count id = 0
  · rw [entryOf, h.find_none hc, hc]
    rfl
  · obtain ⟨entry, hfind, hconn⟩ := h.find_some hc
    rw [entryOf, hfind]
    exact hconn

theorem claim (id : QByteArray) :
    (t.claim id).Balanced (update count id (count id + 1)) := by
  refine h.setEntry (fun k hk => update_of_ne hk _ _) (by simp) ?_ (entryOf_registered t id)
  simp [h.entryOf_connections]

end

end Balanced

/-- A new Source is the next object, and nothing else about the entries changes; without one,
nothing does. -/
theorem newSource_cases (order : ScopeOrder) (qt : Runtime) (replicaOf : QString → Option Nat)
    (t : SourceTable) (point : WebEdgeConnectPoint) (v : Visitor) :
    (newSource order qt replicaOf t point v).1.sessionSources = t.sessionSources ∧
    match (newSource order qt replicaOf t point v).2 with
    | .error _ => (newSource order qt replicaOf t point v).1.live = t.live ∧
        t.next ≤ (newSource order qt replicaOf t point v).1.next
    | .ok source => t.next ≤ source ∧ source < (newSource order qt replicaOf t point v).1.next ∧
        (newSource order qt replicaOf t point v).1.live = t.live ++ [source] := by
  unfold newSource
  split
  · unfold relayFor
    simp only
    split
    · exact ⟨rfl, rfl, Nat.le_refl _⟩
    · rename_i hentity
      split
      · exact ⟨rfl, rfl, Nat.le_refl _⟩
      · split
        · exact ⟨rfl, rfl, Nat.le_refl _⟩
        · simp only [pointRelay, if_neg hentity]
          exact ⟨rfl, Nat.le_refl _, Nat.lt_succ_self _, rfl⟩
  · split
    · have hshared : (sharedSource qt t point).1.sessionSources = t.sessionSources ∧
          (sharedSource qt t point).1.live = t.live ∧ t.next ≤ (sharedSource qt t point).1.next := by
        unfold sharedSource
        split
        · exact ⟨rfl, rfl, Nat.le_refl _⟩
        · exact ⟨rfl, rfl, Nat.le_refl _⟩
        · exact ⟨rfl, rfl, Nat.le_succ _⟩
      obtain ⟨hsources, hlive, hnext⟩ := hshared
      unfold mirrorFor
      simp only
      split
      · exact ⟨hsources, hlive, hnext⟩
      · split
        · exact ⟨hsources, hlive, hnext⟩
        · exact ⟨hsources, hnext, Nat.lt_succ_self _, by rw [made, hlive]⟩
    · unfold createSource
      split
      · exact ⟨rfl, rfl, Nat.le_refl _⟩
      · exact ⟨rfl, Nat.le_refl _, Nat.lt_succ_self _, rfl⟩

namespace Balanced

variable {id : QByteArray}

theorem register (h : t.Balanced count) {point : QString} {source : Nat}
    (hpos : count id ≠ 0) (hnone : (t.entryOf id).byConnectPoint.find point = none)
    (hnew : t.next ≤ source) (hnext : source < t'.next) (hl : t'.live = t.live ++ [source])
    (hs : t'.sessionSources = t.sessionSources.insert id
      { t.entryOf id with byConnectPoint := (t.entryOf id).byConnectPoint.insert point source }) :
    t'.Balanced count := by
  have hfresh (k : QByteArray) (p : QString) : ¬ t.Registered k p source := fun hr =>
    absurd (h.below source ((h.live source).mpr ⟨k, p, hr⟩)) (Nat.not_lt.mpr hnew)
  have hreg := registered_insert hnone hs
  refine ⟨fun k => ?_, fun x => ?_, fun x k p k' p' hr hr' => ?_, fun x hx => ?_⟩
  · by_cases hk : k = id
    · subst hk
      simp [hs, hpos, h.entryOf_connections]
    · simp only [hs, Hash.find_insert, if_neg hk]
      exact h.counts k
  · rw [hl, List.mem_append, List.mem_singleton, h.live]
    constructor
    · rintro (⟨k, p, hr⟩ | rfl)
      · exact ⟨k, p, (hreg k p x).mpr (.inr hr)⟩
      · exact ⟨id, point, (hreg _ _ _).mpr (.inl ⟨rfl, rfl, rfl⟩)⟩
    · rintro ⟨k, p, hr⟩
      rcases (hreg k p x).mp hr with ⟨-, -, rfl⟩ | hold
      · exact .inr rfl
      · exact .inl ⟨k, p, hold⟩
  · rcases (hreg k p x).mp hr with ⟨rfl, rfl, rfl⟩ | hold <;>
      rcases (hreg k' p' x).mp hr' with ⟨rfl, rfl, hx⟩ | hold'
    · exact ⟨rfl, rfl⟩
    · exact absurd hold' (hfresh k' p')
    · exact absurd (hx ▸ hold) (hfresh k p)
    · exact h.alone x k p k' p' hold hold'
  · rw [hl, List.mem_append, List.mem_singleton] at hx
    rcases hx with hold | rfl
    · exact Nat.lt_trans (Nat.lt_of_lt_of_le (h.below x hold) hnew) hnext
    · exact hnext

theorem sourceForConnection (order : ScopeOrder) (qt : Runtime) (replicaOf : QString → Option Nat)
    (h : t.Balanced count) (hpos : count id ≠ 0)
    (point : WebEdgeConnectPoint) (v : Visitor) :
    (sourceForConnection order qt replicaOf t point id v).1.Balanced count := by
  obtain ⟨entry, hfind, -⟩ := h.find_some hpos
  have hentry : t.entryOf id = entry := by rw [entryOf, hfind]; rfl
  have hset : (t.setEntry id (t.entryOf id)).Balanced count :=
    h.setEntry (fun _ _ => rfl) hpos (h.entryOf_connections id) (entryOf_registered t id)
  have hsame : (t.setEntry id (t.entryOf id)).entryOf id = t.entryOf id := by
    simp [entryOf, SourceTable.setEntry]
  unfold SourceTable.sourceForConnection
  simp only
  split
  · exact hset
  · rename_i hnone
    have hcases := newSource_cases order qt replicaOf (t.setEntry id (t.entryOf id)) point v
    revert hcases
    generalize newSource order qt replicaOf (t.setEntry id (t.entryOf id)) point v = built
    intro ⟨hsources, hcases⟩
    split
    · rename_i error heq
      rw [heq] at hcases
      exact hset.congr hsources hcases.1 hcases.2
    · rename_i source heq
      rw [heq] at hcases
      obtain ⟨hnew, hnext, hlive⟩ := hcases
      refine hset.register hpos (hsame ▸ hnone) hnew hnext hlive ?_
      rw [hsame, SourceTable.setEntry, hsources]

theorem hostConnectPoint (order : ScopeOrder) (qt : Runtime) (replicaOf : QString → Option Nat)
    (h : t.Balanced count) (hpos : count id ≠ 0)
    (point : WebEdgeConnectPoint) (v : Visitor) (hosted : Hash QString Nat) :
    (hostConnectPoint order qt replicaOf t point id v hosted).1.Balanced count := by
  have hacquired := h.sourceForConnection order qt replicaOf hpos point v
  unfold SourceTable.hostConnectPoint
  simp only
  split
  · exact hacquired.congr rfl rfl (Nat.le_refl _)
  · split
    · exact hacquired.congr rfl rfl (Nat.le_refl _)
    · exact hacquired

theorem pointRelay (replicaOf : QString → Option Nat) (h : t.Balanced count) (source : Nat) (entity : QString) :
    (t.pointRelay replicaOf source entity).Balanced count := by
  unfold SourceTable.pointRelay
  split <;> exact h.congr rfl rfl (Nat.le_refl _)

theorem hostPoints (h : t.Balanced count) (hpos : count id ≠ 0) (v : Visitor)
    (points : List WebEdgeConnectPoint) : (hostPoints order qt replicaOf points t id v).1.Balanced count := by
  apply hostPoints_keeps order qt replicaOf (P := fun t => t.Balanced count) _ h
  exact fun _ point hosted h => h.hostConnectPoint order qt replicaOf hpos point v hosted

theorem decideAgain (h : t.Balanced count) (hpos : count id ≠ 0) (point : WebEdgeConnectPoint)
    (v : Visitor) (hosted : Hash QString Nat) :
    (decideAgain order qt replicaOf t point id v hosted).1.Balanced count := by
  apply decideAgain_keeps order qt replicaOf (P := fun t => t.Balanced count) _ _ h
  · exact fun _ point hosted h => h.hostConnectPoint order qt replicaOf hpos point v hosted
  · exact fun _ source entity h => h.pointRelay replicaOf source entity

theorem decidePoints (order : ScopeOrder) (qt : Runtime) (replicaOf : QString → Option Nat)
    (h : t.Balanced count) (hpos : count id ≠ 0) (v : Visitor)
    (points : List WebEdgeConnectPoint) (hosted : Hash QString Nat) :
    (decidePoints order qt replicaOf points t id v hosted).1.Balanced count := by
  apply decidePoints_keeps order qt replicaOf (P := fun t => t.Balanced count) _ _ h
  · exact fun _ point hosted h => h.hostConnectPoint order qt replicaOf hpos point v hosted
  · exact fun _ source entity h => h.pointRelay replicaOf source entity

end Balanced

/-- The Sources under two ids answer for different connect points. -/
def apart (t : SourceTable) (from_ to_ : QByteArray) : Bool :=
  (t.entryOf from_).byConnectPoint.entries.all fun point =>
    ((t.entryOf to_).byConnectPoint.find point.1).isNone

variable {from_ to_ : QByteArray}

private theorem apart_not_registered (h : t.apart from_ to_ = true) {point : QString} {x y : Nat}
    (hx : t.Registered from_ point x) : ¬ t.Registered to_ point y := by
  intro hy
  have hentry := ((t.entryOf from_).byConnectPoint.mem_entries point x).mpr
    ((entryOf_registered t from_ point x).mpr hx)
  have hnone := List.all_eq_true.mp h _ hentry
  rw [(entryOf_registered t to_ point y).mpr hy] at hnone
  cases hnone

private theorem entryOf_erase (t : SourceTable) (hne : from_ ≠ to_) :
    ({ t with sessionSources := t.sessionSources.erase from_ } : SourceTable).entryOf to_ = t.entryOf to_ := by
  simp [entryOf, Ne.symm hne]

/-- With no connect point under both ids, the Sources of the one are the other's. -/
theorem followRotation_registered (hne : from_ ≠ to_) (hapart : t.apart from_ to_ = true)
    (k : QByteArray) (p : QString) (x : Nat) : (t.followRotation from_ to_).Registered k p x ↔
      (k = to_ ∧ (t.Registered from_ p x ∨ t.Registered to_ p x)) ∨ (k ≠ to_ ∧ k ≠ from_ ∧ t.Registered k p x) := by
  cases hfind : t.sessionSources.find from_ with
  | none =>
    have hleft (p : QString) (x : Nat) : ¬ t.Registered from_ p x := by simp [Registered, hfind]
    have hsame : t.followRotation from_ to_ = t := by simp only [SourceTable.followRotation, hfind]
    rw [hsame]
    by_cases hk : k = to_
    · simp [hk, hleft]
    · by_cases hk' : k = from_
      · simp [hk', hne, hleft]
      · simp [hk, hk']
  | some leaving =>
    have hleft (p : QString) (x : Nat) : leaving.byConnectPoint.find p = some x ↔ t.Registered from_ p x := by
      simp [Registered, hfind]
    have hmerged (p : QString) (x : Nat) :
        ((t.entryOf to_).byConnectPoint.insertAll leaving.byConnectPoint.entries).find p = some x ↔
          t.Registered from_ p x ∨ t.Registered to_ p x := by
      rw [Hash.find_insertAll_entries, Option.or_eq_some_iff, hleft, entryOf_registered]
      constructor
      · exact fun hor => hor.imp id And.right
      · rintro (hfrom | hto)
        · exact .inl hfrom
        · refine .inr ⟨?_, hto⟩
          cases hp : leaving.byConnectPoint.find p with
          | none => rfl
          | some y => exact absurd hto (apart_not_registered hapart ((hleft p y).mp hp))
    simp only [SourceTable.followRotation, hfind, entryOf_erase t hne, SourceTable.setEntry, Registered,
      Hash.find_insert, Hash.find_erase]
    by_cases hk : k = to_
    · simp only [hk, if_true, Option.some.injEq, exists_eq_left', true_and, ne_eq, not_true, false_and, or_false]
      rw [hmerged p x, ← hleft]
      rfl
    · by_cases hk' : k = from_
      · simp [hk']
        exact fun heq => absurd heq hne
      · simp [hk, hk']

/-- What the connections of `from_` add to those of `to_`. -/
def moved (count : QByteArray → Nat) (from_ to_ : QByteArray) (id : QByteArray) : Nat :=
  if id = to_ then count to_ + count from_ else if id = from_ then 0 else count id

theorem moved_of_zero {from_ : QByteArray} (h : count from_ = 0) (to_ : QByteArray) : moved count from_ to_ = count := by
  funext id
  unfold moved
  split
  · rename_i hid
    rw [hid, h, Nat.add_zero]
  · split
    · rename_i hid
      rw [hid, h]
    · rfl

theorem followRotation_of_none {from_ : QByteArray} (hnone : t.sessionSources.find from_ = none) (to_ : QByteArray) :
    t.followRotation from_ to_ = t := by
  unfold followRotation
  rw [hnone]

namespace Balanced

/-- With no connect point under both ids, the two sets of Sources become one. -/
theorem followRotation (h : t.Balanced count) {from_ to_ : QByteArray} (hne : from_ ≠ to_)
    (hapart : t.apart from_ to_ = true) : (t.followRotation from_ to_).Balanced (moved count from_ to_) := by
  by_cases hzero : count from_ = 0
  · rw [moved_of_zero hzero, followRotation_of_none (h.find_none hzero)]
    exact h
  · obtain ⟨leaving, hfind, hleaving⟩ := h.find_some hzero
    have hreg := followRotation_registered hne hapart
    have harriving := entryOf_erase t hne
    refine ⟨fun k => ?_, fun x => ?_, fun x k p k' p' hr hr' => ?_, ?_⟩
    · have hto := h.entryOf_connections to_
      simp only [SourceTable.followRotation, hfind, harriving, SourceTable.setEntry, Hash.find_insert,
        Hash.find_erase, moved]
      by_cases hk : k = to_
      · have hsum : count to_ + count from_ ≠ 0 := by omega
        simp only [hk, if_true, Option.map_some, hto, hleaving, if_neg hsum]
        push_cast
        rfl
      · by_cases hk' : k = from_
        · simp [hk', hne]
        · simpa [hk, hk'] using h.counts k
    · have hlive : (t.followRotation from_ to_).live = t.live := by
        simp only [SourceTable.followRotation, hfind, SourceTable.setEntry]
      rw [hlive, h.live]
      constructor
      · rintro ⟨k, p, hr⟩
        by_cases hk : k = from_ ∨ k = to_
        · refine ⟨to_, p, (hreg _ _ _).mpr (.inl ⟨rfl, ?_⟩)⟩
          rcases hk with rfl | rfl
          · exact .inl hr
          · exact .inr hr
        · rw [not_or] at hk
          exact ⟨k, p, (hreg _ _ _).mpr (.inr ⟨hk.2, hk.1, hr⟩)⟩
      · rintro ⟨k, p, hr⟩
        rcases (hreg _ _ _).mp hr with ⟨-, hfrom | hto⟩ | ⟨-, -, hold⟩
        · exact ⟨from_, p, hfrom⟩
        · exact ⟨to_, p, hto⟩
        · exact ⟨k, p, hold⟩
    · rcases (hreg _ _ _).mp hr with ⟨hk, hfrom | hto⟩ | ⟨hk, hkf, hold⟩ <;>
        rcases (hreg _ _ _).mp hr' with ⟨hk', hfrom' | hto'⟩ | ⟨hk', hkf', hold'⟩
      · exact ⟨hk.trans hk'.symm, (h.alone _ _ _ _ _ hfrom hfrom').2⟩
      · exact ⟨hk.trans hk'.symm, (h.alone _ _ _ _ _ hfrom hto').2⟩
      · exact absurd (h.alone _ _ _ _ _ hfrom hold').1.symm hkf'
      · exact ⟨hk.trans hk'.symm, (h.alone _ _ _ _ _ hto hfrom').2⟩
      · exact ⟨hk.trans hk'.symm, (h.alone _ _ _ _ _ hto hto').2⟩
      · exact absurd (h.alone _ _ _ _ _ hto hold').1.symm hk'
      · exact absurd (h.alone _ _ _ _ _ hold hfrom').1 hkf
      · exact absurd (h.alone _ _ _ _ _ hold hto').1 hk
      · exact h.alone _ _ _ _ _ hold hold'
    · simp only [SourceTable.followRotation, hfind, SourceTable.setEntry]
      exact h.below

theorem releaseSessionSources (h : t.Balanced count) {id : QByteArray} (hpos : count id ≠ 0) :
    (t.releaseSessionSources id).Balanced (update count id (count id - 1)) := by
  obtain ⟨entry, hfind, hconn⟩ := h.find_some hpos
  unfold SourceTable.releaseSessionSources
  simp only [hfind]
  split
  · rename_i hmore
    refine h.setEntry (fun k hk => update_of_ne hk _ _) ?_ ?_ fun point source => ?_
    · rw [update_self]
      omega
    · rw [update_self]
      simp only
      omega
    · simp [Registered, hfind]
  · rename_i hlast
    have hone : count id - 1 = 0 := by omega
    have hgone (x : Nat) : (entry.byConnectPoint.entries.map (·.2)).contains x = true ↔ ∃ p, t.Registered id p x := by
      simp only [List.contains_iff_mem, List.mem_map, Prod.exists, exists_eq_right, Hash.mem_entries, Registered,
        hfind, Option.some.injEq, exists_eq_left']
    have hreg (k : QByteArray) (p : QString) (x : Nat) (t' : SourceTable)
        (ht' : t'.sessionSources = t.sessionSources.erase id) :
        t'.Registered k p x ↔ k ≠ id ∧ t.Registered k p x := by
      by_cases hk : k = id <;> simp [Registered, ht', hk]
    refine ⟨fun k => ?_, fun x => ?_, fun x k p k' p' hr hr' => ?_, fun x hx => ?_⟩
    · by_cases hk : k = id
      · subst hk
        simp [hone]
      · simpa [hk, update_of_ne hk] using h.counts k
    · simp only [List.mem_filter, Bool.not_eq_true', ← Bool.not_eq_true, hgone, h.live]
      constructor
      · rintro ⟨⟨k, p, hr⟩, hkept⟩
        refine ⟨k, p, (hreg k p x _ rfl).mpr ⟨?_, hr⟩⟩
        rintro rfl
        exact hkept ⟨p, hr⟩
      · rintro ⟨k, p, hr⟩
        obtain ⟨hk, hold⟩ := (hreg k p x _ rfl).mp hr
        exact ⟨⟨k, p, hold⟩, fun ⟨p', hid⟩ => hk (h.alone x k p id p' hold hid).1⟩
    · exact h.alone x k p k' p' ((hreg _ _ _ _ rfl).mp hr).2 ((hreg _ _ _ _ rfl).mp hr').2
    · exact h.below x (List.mem_of_mem_filter hx)

end Balanced
end SourceTable
end SynQt
