import SynQt.Edge.Connections

/-! What each relay follows, against the entity it is pointed at. -/
namespace SynQt
open Lib Function

namespace SourceTable
variable {replicaOf : QString → Option Nat} {t t' : SourceTable}

def Follows (t : SourceTable) (replicaOf : QString → Option Nat) : Prop :=
  ∀ source, t.following.find source = (t.relayTargets.find source).bind replicaOf

namespace Follows

section
variable (h : t.Follows replicaOf)
include h

theorem congr (hr : t'.relayTargets = t.relayTargets) (hf : t'.following = t.following) :
    t'.Follows replicaOf := by
  intro source
  rw [hr, hf]
  exact h source

theorem pointRelay (source : Nat) (entity : QString) :
    (t.pointRelay replicaOf source entity).Follows replicaOf := by
  intro x
  unfold SourceTable.pointRelay
  by_cases hx : x = source
  · subst hx
    split
    · simp
    · cases hreplica : replicaOf entity <;> simp [hreplica]
  · split
    · simpa [hx] using h x
    · cases replicaOf entity <;> simpa [hx] using h x

section
variable (order : ScopeOrder)

section
variable (qt : Runtime)

theorem newSource (point : WebEdgeConnectPoint)
    (v : Visitor) : (newSource order qt replicaOf t point v).1.Follows replicaOf := by
  unfold SourceTable.newSource
  split
  · unfold relayFor
    simp only
    split
    · exact h
    · split
      · exact h
      · split
        · exact h
        · have hmade : t.made.Follows replicaOf := h.congr rfl rfl
          exact hmade.pointRelay _ _
  · split
    · have hshared : (sharedSource qt t point).1.Follows replicaOf := by
        unfold sharedSource
        split <;> exact h.congr rfl rfl
      unfold mirrorFor
      simp only
      split
      · exact hshared
      · split
        · exact hshared
        · exact hshared.congr rfl rfl
    · unfold createSource
      split <;> exact h.congr rfl rfl

theorem hostConnectPoint (point : WebEdgeConnectPoint)
    (id : QByteArray) (v : Visitor) (hosted : Hash QString Nat) :
    (hostConnectPoint order qt replicaOf t point id v hosted).1.Follows replicaOf := by
  have hacquired : (sourceForConnection order qt replicaOf t point id v).1.Follows replicaOf := by
    have hset : (t.setEntry id (t.entryOf id)).Follows replicaOf := h.congr rfl rfl
    have hnew := hset.newSource order qt point v
    unfold sourceForConnection
    simp only
    split
    · exact hset
    · split
      · exact hnew
      · exact hnew.congr rfl rfl
  unfold SourceTable.hostConnectPoint
  simp only
  split
  · exact hacquired.congr rfl rfl
  · split
    · exact hacquired.congr rfl rfl
    · exact hacquired

theorem hostPoints (points : List WebEdgeConnectPoint)
    (id : QByteArray) (v : Visitor) : (hostPoints order qt replicaOf points t id v).1.Follows replicaOf := by
  apply hostPoints_keeps order qt replicaOf (P := fun t => t.Follows replicaOf) _ h
  exact fun _ point hosted h => h.hostConnectPoint order qt point id v hosted

theorem decidePoints (points : List WebEdgeConnectPoint)
    (id : QByteArray) (v : Visitor) (hosted : Hash QString Nat) :
    (decidePoints order qt replicaOf points t id v hosted).1.Follows replicaOf := by
  apply decidePoints_keeps order qt replicaOf (P := fun t => t.Follows replicaOf) _ _ h
  · exact fun _ point hosted h => h.hostConnectPoint order qt point id v hosted
  · exact fun _ source entity h => h.pointRelay source entity

end

end

theorem followRotation (from_ to_ : QByteArray) :
    (t.followRotation from_ to_).Follows replicaOf := by
  unfold SourceTable.followRotation
  split <;> exact h.congr rfl rfl

/-- A Source takes what it followed with it. -/
theorem releaseSessionSources (id : QByteArray) :
    (t.releaseSessionSources id).Follows replicaOf := by
  unfold SourceTable.releaseSessionSources
  split
  · exact h
  · rename_i entry _
    split
    · exact h.congr rfl rfl
    · intro x
      simp only [Hash.find_filter, h x]
      cases (entry.byConnectPoint.entries.map (·.2)).contains x
      · have hall (o : Option Nat) : o.filter (fun _ => !false) = o := by cases o <;> rfl
        rw [hall]
        cases t.relayTargets.find x <;> rfl
      · simp

/-- The Replica of one entity is replaced, and every relay pointed at it follows the new one. -/
theorem setEntityBehind (entity : QString) (replica : Nat) :
    (t.setEntityBehind entity replica).Follows (update replicaOf entity (some replica)) := by
  intro x
  have hmem (k : Nat) (e : QString) :
      (k, e) ∈ t.relayTargets.entries.filter (·.2 == entity) ↔ t.relayTargets.find k = some e ∧ e = entity := by
    rw [List.mem_filter, Hash.mem_entries, beq_iff_eq]
  have hkeys : ((t.relayTargets.entries.filter (·.2 == entity)).map fun relay => (relay.1, replica)).map Prod.fst =
      (t.relayTargets.entries.filter (·.2 == entity)).map Prod.fst := by
    rw [List.map_map]
    rfl
  unfold SourceTable.setEntityBehind
  simp only
  by_cases hx : t.relayTargets.find x = some entity
  · rw [hx, Option.bind_some, update_self]
    apply Hash.find_insertAll_of_mem
    · rw [hkeys]
      exact t.relayTargets.nodup_keys.sublist (List.filter_sublist.map Prod.fst)
    · exact List.mem_map.mpr ⟨(x, entity), (hmem x entity).mpr ⟨hx, rfl⟩, rfl⟩
  · rw [Hash.find_insertAll_of_not_mem, h x]
    · cases htarget : t.relayTargets.find x with
      | none => rfl
      | some tier =>
        have hother : tier ≠ entity := fun heq => hx (heq ▸ htarget)
        rw [Option.bind_some, Option.bind_some, update_of_ne hother]
    · rw [hkeys]
      intro hin
      obtain ⟨⟨k, e⟩, he, rfl⟩ := List.mem_map.mp hin
      obtain ⟨hfind, rfl⟩ := (hmem k e).mp he
      exact hx hfind

/-- A Replica is deleted, and every relay that followed it follows nothing. -/
theorem lost (replica : Nat) :
    ({ t with following := t.following.filter fun _ followed => followed != replica } : SourceTable).Follows
      fun entity => (replicaOf entity).filter (· != replica) := by
  intro x
  simp only [Hash.find_filter, h x]
  cases t.relayTargets.find x <;> rfl

end

end Follows
end SourceTable

namespace WebEdge
open SourceTable
variable {cfg : WebEdgeConfig} {s : WebEdge}

namespace Follows

theorem rotateConnections (cfg : WebEdgeConfig) (qt : Runtime) (v : Visitor) (from_ to_ : QByteArray) (cs : List Connection) (s : WebEdge)
    (h : s.table.Follows s.entitiesBehind.find) :
    (rotateConnections cfg qt v from_ to_ s cs).1.table.Follows s.entitiesBehind.find := by
  induction cs generalizing s with
  | nil => exact h
  | cons c rest ih =>
    have hself : (onSessionRotated cfg s qt v from_ to_ c).1.entitiesBehind = s.entitiesBehind ∧
        (onSessionRotated cfg s qt v from_ to_ c).1.table.Follows s.entitiesBehind.find := by
      unfold onSessionRotated
      split
      · exact ⟨rfl, h⟩
      · exact ⟨rfl, (h.followRotation from_ to_).decidePoints _ qt _ to_ v c.hosted⟩
    have hrest := ih (onSessionRotated cfg s qt v from_ to_ c).1 (by rw [hself.1]; exact hself.2)
    rw [hself.1] at hrest
    exact hrest

theorem delivered (qt : Runtime) (now : Int) (emitted : List Emission) (s : WebEdge)
    (h : s.table.Follows s.entitiesBehind.find) :
    (emitted.foldl (receive cfg qt now) s).table.Follows (emitted.foldl (receive cfg qt now) s).entitiesBehind.find := by
  induction emitted generalizing s with
  | nil => exact h
  | cons e emitted ih =>
    apply ih
    obtain ⟨signal, m⟩ := e
    have dropped (token : QByteArray) :
        (s.dropSession m now token).table.Follows (s.dropSession m now token).entitiesBehind.find := by
      unfold dropSession
      split
      · exact h
      · split <;> exact h
    cases signal with
    | sessionRemoved token => exact dropped token
    | sessionExpired token => exact dropped token
    | sessionRotated from_ to_ =>
      have hrotated := rotateConnections cfg qt (Visitor.of m now to_) from_ to_ s.connections s h
      simp only [receive, rotateConnections_entitiesBehind]
      exact hrotated
    | sessionUpserted => exact h
    | rotationRecorded => exact h

section
variable (h : s.table.Follows s.entitiesBehind.find)
include h

theorem hostConnection (qt : Runtime) (now : Int) (peer : Peer) :
    (s.hostConnection cfg qt now peer).table.Follows (s.hostConnection cfg qt now peer).entitiesBehind.find := by
  unfold WebEdge.hostConnection
  simp only
  split
  · exact h.congr rfl rfl
  · apply SourceTable.Follows.hostPoints
    exact h.congr rfl rfl

theorem disconnected (transport : Nat) :
    (s.disconnected transport).table.Follows (s.disconnected transport).entitiesBehind.find := by
  unfold WebEdge.disconnected
  split
  · exact h
  · exact h.releaseSessionSources _

theorem setEntityBehind (entity : QString) (replica : Nat) :
    (s.setEntityBehind entity replica).table.Follows (s.setEntityBehind entity replica).entitiesBehind.find := by
  have hset := h.setEntityBehind entity replica
  have hfind : (s.entitiesBehind.insert entity replica).find =
      update s.entitiesBehind.find entity (some replica) := by
    funext e
    by_cases he : e = entity
    · subst he
      simp
    · simp [he]
  simp only [WebEdge.setEntityBehind]
  rw [hfind]
  exact hset

theorem lostEntityBehind (entity : QString) :
    (s.lostEntityBehind entity).table.Follows (s.lostEntityBehind entity).entitiesBehind.find := by
  unfold WebEdge.lostEntityBehind
  split
  · exact h
  · rename_i lost hlost
    have hlost := h.lost lost
    have hfind : (s.entitiesBehind.filter fun _ replica => replica != lost).find =
        fun e => (s.entitiesBehind.find e).filter (· != lost) := by
      funext e
      rw [Hash.find_filter]
    simp only
    rw [hfind]
    exact hlost

end

end Follows

end WebEdge
end SynQt
