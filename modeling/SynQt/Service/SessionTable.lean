import SynQt.Service.SessionManager

/-! What each operation of the session table does to the records and hand-offs it holds. -/
namespace SynQt
open Lib

namespace SessionManager
variable {m m' m'' : SessionManager} {now : Int}

/-- `m'` holds no record and no hand-off that `m` did not, under the same settings. -/
structure Within (m' m : SessionManager) : Prop where
  sessions : ∀ k r, m'.sessions.find k = some r → m.sessions.find k = some r
  rotations : ∀ k e, m'.rotations.find k = some e → m.rotations.find k = some e
  ttlMs : m'.ttlMs = m.ttlMs
  remote : m'.remote = m.remote

namespace Within

@[refl] theorem refl (m : SessionManager) : m.Within m := ⟨fun _ _ => id, fun _ _ => id, rfl, rfl⟩

theorem trans (h : m''.Within m') (h' : m'.Within m) : m''.Within m :=
  ⟨fun k r hk => h'.sessions k r (h.sessions k r hk),
    fun k e hk => h'.rotations k e (h.rotations k e hk), h.ttlMs.trans h'.ttlMs,
    h.remote.trans h'.remote⟩

end Within

variable (r : SessionRecord)

@[simp] theorem trackExpiry_sessions :
    (m.trackExpiry r).sessions = m.sessions := by unfold trackExpiry; split <;> rfl
@[simp] theorem trackExpiry_rotations :
    (m.trackExpiry r).rotations = m.rotations := by unfold trackExpiry; split <;> rfl
@[simp] theorem trackExpiry_ttlMs :
    (m.trackExpiry r).ttlMs = m.ttlMs := by unfold trackExpiry; split <;> rfl
@[simp] theorem trackExpiry_remote :
    (m.trackExpiry r).remote = m.remote := by unfold trackExpiry; split <;> rfl

@[simp] theorem insertRecord_sessions :
    (m.insertRecord r).sessions = m.sessions.insert r.id r := by simp [insertRecord]
@[simp] theorem insertRecord_rotations :
    (m.insertRecord r).rotations = m.rotations := by simp [insertRecord]
@[simp] theorem insertRecord_ttlMs :
    (m.insertRecord r).ttlMs = m.ttlMs := by simp [insertRecord]
@[simp] theorem insertRecord_remote :
    (m.insertRecord r).remote = m.remote := by simp [insertRecord]

@[simp] theorem dropRotationTo_sessions :
    (m.dropRotationTo r).sessions = m.sessions := by unfold dropRotationTo; split <;> rfl
@[simp] theorem dropRotationTo_ttlMs :
    (m.dropRotationTo r).ttlMs = m.ttlMs := by unfold dropRotationTo; split <;> rfl
@[simp] theorem dropRotationTo_remote :
    (m.dropRotationTo r).remote = m.remote := by unfold dropRotationTo; split <;> rfl

theorem dropRotationTo_lookup (k : QByteArray) :
    (m.dropRotationTo r).rotations.find k =
      if r.rotatedFrom ≠ [] ∧ k = r.rotatedFrom then none else m.rotations.find k := by
  unfold dropRotationTo
  by_cases h : r.rotatedFrom = []
  · simp [h]
  · simp [h]

private theorem dropRotationTo_within : (m.dropRotationTo r).Within m := by
  refine ⟨by simp, ?_, by simp, by simp⟩
  intro k e hk
  rw [dropRotationTo_lookup] at hk
  split at hk
  · cases hk
  · exact hk

theorem removeRecord_within (token : QByteArray) (r : SessionRecord) :
    (m.removeRecord token r).Within m := by
  have hd := m.dropRotationTo_within r
  refine ⟨?_, hd.rotations, hd.ttlMs, hd.remote⟩
  intro k r' hk
  simp only [removeRecord, Hash.find_erase] at hk
  split at hk
  · cases hk
  · exact hk

@[simp] theorem removeRecord_lookup (token k : QByteArray) (r : SessionRecord) :
    (m.removeRecord token r).sessions.find k = if k = token then none else m.sessions.find k := by
  simp [removeRecord]

@[simp] theorem removeRecord_remote (token : QByteArray) (r : SessionRecord) :
    (m.removeRecord token r).remote = m.remote := by simp [removeRecord]

theorem revoke_within (id : QByteArray) : (m.revoke id).manager.Within m := by
  unfold revoke
  split
  · rfl
  · exact removeRecord_within _ _

theorem revoke_lookup (id k : QByteArray) :
    (m.revoke id).manager.sessions.find k = if k = id then none else m.sessions.find k := by
  unfold revoke
  split
  · rename_i h
    split <;> simp_all
  · simp

theorem applyRemove_within (token : QByteArray) : (m.applyRemove token).manager.Within m := by
  unfold applyRemove
  split
  · rfl
  · exact removeRecord_within _ _

theorem applyRemove_lookup (token k : QByteArray) :
    (m.applyRemove token).manager.sessions.find k =
      if k = token then none else m.sessions.find k := by
  unfold applyRemove
  split
  · rename_i h
    split <;> simp_all
  · simp

theorem sweepRotations_within (now : Int) : (m.sweepRotations now).Within m :=
  ⟨fun _ _ => id, fun _ _ hk => ((Hash.find_filter_eq_some _ _ _ _).mp hk).1, rfl, rfl⟩

theorem drainExpired_within (now : Int) (queue : List (Int × QByteArray)) (m : SessionManager) :
    (drainExpired now m queue).1.Within m := by
  induction queue generalizing m with
  | nil => exact ⟨fun _ _ => id, fun _ _ => id, rfl, rfl⟩
  | cons hint queue ih =>
    obtain ⟨createdMs, id⟩ := hint
    simp only [drainExpired]
    split
    · exact ⟨fun _ _ h => h, fun _ _ h => h, rfl, rfl⟩
    · split
      · split
        · rename_i record _ _
          apply (ih _).trans
          have hr := m.removeRecord_within id record
          exact ⟨hr.sessions, hr.rotations, hr.ttlMs, hr.remote⟩
        · exact ih m
      · exact ih m

private theorem drainExpired_keeps {k : QByteArray} {r : SessionRecord} (hr : now - r.createdMs ≤ m.ttlMs)
    (queue : List (Int × QByteArray)) (h : m.sessions.find k = some r) :
    (drainExpired now m queue).1.sessions.find k = some r := by
  induction queue generalizing m with
  | nil => exact h
  | cons hint queue ih =>
    obtain ⟨createdMs, id⟩ := hint
    simp only [drainExpired]
    split
    · exact h
    · rename_i hpast
      split
      · rename_i record hrecord
        split
        · rename_i hdate
          refine ih (by simpa using hr) ?_
          have hne : k ≠ id := by
            rintro rfl
            rw [h] at hrecord
            cases hrecord
            omega
          simpa [hne] using h
        · exact ih hr h
      · exact ih hr h

theorem purgeExpired_keeps (now : Int) {k : QByteArray} {r : SessionRecord} (h : m.sessions.find k = some r)
    (hr : 0 < m.ttlMs → now - r.createdMs ≤ m.ttlMs) :
    (m.purgeExpired now).1.sessions.find k = some r := by
  unfold purgeExpired
  simp only
  split
  · exact h
  · rename_i hpos
    have hpos' : 0 < m.ttlMs := by
      have : (m.sweepRotations now).ttlMs = m.ttlMs := rfl
      omega
    exact drainExpired_keeps (m := m.sweepRotations now) (hr hpos') _ h

theorem purgeExpired_within (m : SessionManager) (now : Int) : (m.purgeExpired now).1.Within m := by
  unfold purgeExpired
  simp only
  split
  · exact m.sweepRotations_within now
  · exact (drainExpired_within now _ _).trans (m.sweepRotations_within now)

section
variable {inUse : QByteArray → Bool} {e : Effect} (h : m.evictOne inUse = some e)
include h

theorem evictOne_within :
    e.manager.Within m := by
  unfold evictOne at h
  split at h
  · cases h
  · rename_i hint _
    obtain ⟨record, -, rfl⟩ := Option.map_eq_some_iff.mp h
    have hr := m.removeRecord_within hint.2 record
    exact ⟨fun k r hk => hr.sessions k r (by simpa [removeRecord] using hk), hr.rotations, hr.ttlMs,
      hr.remote⟩

private theorem evictOne_calls :
    ∃ gone : List QByteArray, e.calls = gone.map StoreCall.removeSession := by
  unfold evictOne at h
  split at h
  · cases h
  · obtain ⟨record, -, rfl⟩ := Option.map_eq_some_iff.mp h
    simp only [storeCalls]
    split
    · exact ⟨[record.id], rfl⟩
    · exact ⟨[], rfl⟩

end

def minted (m : SessionManager) (now : Int) (fresh : QByteArray) (scope : QString)
    (identity : QVariantMap) : SessionRecord :=
  ⟨fresh, if scope.isEmpty then m.defaultScope else scope, identity, now, []⟩

/-- A creation is refused, or stores the minted record over what the purge and at most
one eviction left. -/
theorem createSession_cases (m : SessionManager) (now : Int) (inUse : QByteArray → Bool)
    (fresh : QByteArray) (scope : QString) (identity : QVariantMap) :
    ((m.createSession now inUse fresh scope identity).2 = [] ∧
      (m.createSession now inUse fresh scope identity).1.manager.Within m ∧
      (m.createSession now inUse fresh scope identity).1.calls = []) ∨
    ((m.createSession now inUse fresh scope identity).2 = fresh ∧
      ∃ (kept : SessionManager) (gone : List QByteArray), kept.Within m ∧
        (m.createSession now inUse fresh scope identity).1.manager =
          kept.insertRecord (m.minted now fresh scope identity) ∧
        (m.createSession now inUse fresh scope identity).1.calls =
          gone.map .removeSession ++ kept.storeCalls [putCall (m.minted now fresh scope identity)]) := by
  have hp := m.purgeExpired_within now
  unfold createSession
  simp only
  split
  · exact .inl ⟨rfl, hp, rfl⟩
  · rename_i evicted h
    have hk : evicted.manager.Within m ∧
        ∃ gone : List QByteArray, evicted.calls = gone.map StoreCall.removeSession := by
      split at h
      · exact ⟨(evictOne_within h).trans hp, evictOne_calls h⟩
      · cases h
        exact ⟨hp, [], rfl⟩
    obtain ⟨hw, gone, hgone⟩ := hk
    refine .inr ⟨rfl, evicted.manager, gone, hw, rfl, ?_⟩
    rw [hgone]
    simp only [storeCalls, insertRecord_remote]
    rfl

theorem createSession_of_empty (hs : m.sessions = ∅) (hq : m.expiryQueue = []) (now : Int)
    (inUse : QByteArray → Bool) (fresh : QByteArray) (scope : QString) (identity : QVariantMap) :
    (m.createSession now inUse fresh scope identity).1.calls =
      m.storeCalls [putCall (m.minted now fresh scope identity)] ∧
    ∃ kept : SessionManager, kept.Within m ∧
      (m.createSession now inUse fresh scope identity).1.manager =
        kept.insertRecord (m.minted now fresh scope identity) := by
  have hp := m.purgeExpired_within now
  have hempty : (m.purgeExpired now).1.sessions = ∅ := by
    unfold purgeExpired
    simp only
    split
    · exact hs
    · simpa [sweepRotations, hq, drainExpired] using hs
  have hroom : ¬ ((m.purgeExpired now).1.maximumSessions > 0 ∧
      (m.purgeExpired now).1.sessions.size ≥ (m.purgeExpired now).1.maximumSessions) := by
    rw [hempty]
    rintro ⟨hpos, hfull⟩
    exact absurd (Nat.lt_of_lt_of_le hpos hfull) (Nat.lt_irrefl 0)
  simp only [createSession, if_neg hroom]
  refine ⟨?_, (m.purgeExpired now).1, hp, rfl⟩
  simp only [storeCalls, insertRecord_remote, hp.remote, List.nil_append]
  rfl

@[simp] theorem recordHandoff_sessions (p c t : QByteArray) :
    (m.recordHandoff now p c t).sessions = m.sessions := by
  unfold recordHandoff; simp only; split <;> rfl
@[simp] theorem recordHandoff_ttlMs (p c t : QByteArray) :
    (m.recordHandoff now p c t).ttlMs = m.ttlMs := by
  unfold recordHandoff; simp only; split <;> rfl
@[simp] theorem recordHandoff_remote (p c t : QByteArray) :
    (m.recordHandoff now p c t).remote = m.remote := by
  unfold recordHandoff; simp only; split <;> rfl

variable {wasId : QByteArray}

theorem setScope_of_lookup {old : SessionRecord}
    (h : m.sessions.find wasId = some old) (now : Int) (fresh : QByteArray) (scope : QString)
    (identity : QVariantMap) (handoff : Handoff) :
    (m.setScope now fresh wasId scope identity handoff).2 = fresh ∧
    (∀ k, (m.setScope now fresh wasId scope identity handoff).1.manager.sessions.find k =
      if k = fresh then some (m.elevated now fresh wasId old scope identity handoff)
      else if k = wasId then none else m.sessions.find k) ∧
    (m.setScope now fresh wasId scope identity handoff).1.calls = m.storeCalls
      ([putCall (m.elevated now fresh wasId old scope identity handoff)]
        ++ (if handoff = .keep then [.rotateSession wasId fresh] else []) ++ [.removeSession wasId]) := by
  simp only [setScope, h]
  refine ⟨trivial, fun k => ?_, ?_⟩
  · split <;> simp [elevated]
  · simp only [storeCalls]
    split <;> simp

theorem setScope_settings (wasId : QByteArray) (now : Int) (fresh : QByteArray) (scope : QString)
    (identity : QVariantMap) (handoff : Handoff) :
    (m.setScope now fresh wasId scope identity handoff).1.manager.ttlMs = m.ttlMs ∧
    (m.setScope now fresh wasId scope identity handoff).1.manager.remote = m.remote := by
  unfold setScope
  split
  · exact ⟨rfl, rfl⟩
  · simp only
    split <;> simp

@[simp] theorem setScope_of_none (h : m.sessions.find wasId = none) (now : Int)
    (fresh : QByteArray) (scope : QString) (identity : QVariantMap) (handoff : Handoff) :
    m.setScope now fresh wasId scope identity handoff = (⟨m, [], []⟩, []) := by
  simp only [setScope, h]

/-- A Keep elevation records its hand-off and moves the head its record names. -/
theorem setScope_keep_rotations {old : SessionRecord}
    (h : m.sessions.find wasId = some old) (now : Int) (fresh : QByteArray) (scope : QString)
    (identity : QVariantMap) (k : QByteArray) :
    (m.setScope now fresh wasId scope identity .keep).1.manager.rotations.find k =
      if k = wasId then some ⟨fresh, now⟩
      else if k = old.rotatedFrom then (m.rotations.find k).map ({ · with to_ := fresh })
      else m.rotations.find k := by
  simp only [setScope, h, if_true, recordHandoff, insertRecord_rotations, Hash.find_insert]
  by_cases hw : old.rotatedFrom = wasId
  · by_cases hk : k = wasId <;> simp [hw, hk]
  · rw [if_neg hw]
    cases hc : m.rotations.find old.rotatedFrom with
    | none | some head => by_cases hk : k = old.rotatedFrom <;> simp_all

/-- An elevation without a hand-off leaves every hand-off where it was. -/
theorem setScope_none_rotations (wasId : QByteArray) (now : Int) (fresh : QByteArray) (scope : QString)
    (identity : QVariantMap) :
    (m.setScope now fresh wasId scope identity .none).1.manager.rotations = m.rotations := by
  unfold setScope
  split <;> simp

variable (next previous : QByteArray)

@[simp] theorem pointBack_rotations :
    (m.pointBack next previous).rotations = m.rotations := by unfold pointBack; split <;> rfl
@[simp] theorem pointBack_ttlMs :
    (m.pointBack next previous).ttlMs = m.ttlMs := by unfold pointBack; split <;> rfl

@[simp] theorem pointBack_remote :
    (m.pointBack next previous).remote = m.remote := by unfold pointBack; split <;> rfl

private theorem pointBack_lookup (next previous k : QByteArray) :
    (m.pointBack next previous).sessions.find k =
      if k = next then (m.sessions.find k).map ({ · with rotatedFrom := previous })
      else m.sessions.find k := by
  unfold pointBack
  split
  · rename_i h
    split <;> simp_all
  · rename_i h
    simp only [Hash.find_insert]
    split <;> simp_all

/-- A generated id is no key of the table and of no hand-off. -/
def Unused (m : SessionManager) (id : QByteArray) : Prop :=
  id ≠ [] ∧ m.sessions.find id = none ∧ m.rotations.find id = none
deriving Decidable

/-- A relayed rotation the manager takes up: the ids are given and distinct, and `previous`
leads nowhere yet. -/
def TakesRotation (m : SessionManager) (previous next : QByteArray) : Prop :=
  previous ≠ [] ∧ next ≠ [] ∧ previous ≠ next ∧ m.rotations.find previous = none
deriving Decidable

variable {previous next : QByteArray}

theorem applyRotation_of_not (h : ¬ m.TakesRotation previous next) :
    m.applyRotation now previous next = ⟨m, [], []⟩ := by
  unfold TakesRotation at h
  unfold applyRotation
  split
  · rfl
  · split
    · rfl
    · rename_i h1 h2
      simp only [List.isEmpty_iff, not_or] at h1
      exact absurd ⟨h1.1, h1.2.1, h1.2.2, by simpa using h2⟩ h

theorem applyRotation_of_takes (h : m.TakesRotation previous next) :
    (m.applyRotation now previous next).manager =
      ({ m with rotations := m.rotations.insert previous ⟨next, now⟩ } : SessionManager).pointBack
        next previous := by
  obtain ⟨h1, h2, h3, h4⟩ := h
  simp [applyRotation, h1, h2, h3, h4]

theorem applyRotation_emitted (h : m.TakesRotation previous next) (now : Int) :
    (m.applyRotation now previous next).emitted =
      [⟨.sessionRotated previous next, (m.applyRotation now previous next).manager⟩,
        ⟨.rotationRecorded previous next, (m.applyRotation now previous next).manager⟩] := by
  obtain ⟨h1, h2, h3, h4⟩ := h
  simp [applyRotation, h1, h2, h3, h4]

theorem applyRotation_sessions (previous next k : QByteArray) :
    (m.applyRotation now previous next).manager.sessions.find k =
      if m.TakesRotation previous next ∧ k = next then
        (m.sessions.find k).map ({ · with rotatedFrom := previous })
      else m.sessions.find k := by
  by_cases h : m.TakesRotation previous next
  · rw [applyRotation_of_takes h, pointBack_lookup]
    simp [h]
  · rw [applyRotation_of_not h]
    simp [h]

theorem applyRotation_rotations (previous next k : QByteArray) :
    (m.applyRotation now previous next).manager.rotations.find k =
      if m.TakesRotation previous next ∧ k = previous then some ⟨next, now⟩
      else m.rotations.find k := by
  by_cases h : m.TakesRotation previous next
  · rw [applyRotation_of_takes h]
    simp [h]
  · rw [applyRotation_of_not h]
    simp [h]

@[simp] theorem applyRotation_ttlMs (previous next : QByteArray) :
    (m.applyRotation now previous next).manager.ttlMs = m.ttlMs := by
  by_cases h : m.TakesRotation previous next
  · rw [applyRotation_of_takes h]; simp
  · rw [applyRotation_of_not h]

@[simp] theorem applyRotation_remote (previous next : QByteArray) :
    (m.applyRotation now previous next).manager.remote = m.remote := by
  by_cases h : m.TakesRotation previous next
  · rw [applyRotation_of_takes h]; simp
  · rw [applyRotation_of_not h]

/-- A hand-off answers only inside its grace and only with the id it holds. -/
theorem rotationOf_eq_some {id next : QByteArray} (hn : next ≠ []) (h : m.rotationOf now id = next) :
    ∃ e, m.rotations.find id = some e ∧ now - e.atMs ≤ rotationGraceMs ∧ e.to_ = next ∧
      m.isLive now next := by
  unfold rotationOf at h
  split at h
  · exact absurd h.symm hn
  · rename_i e he
    split at h
    · exact absurd h.symm hn
    · split at h
      · subst h
        exact ⟨e, he, by omega, rfl, by assumption⟩
      · exact absurd h.symm hn

end SessionManager
end SynQt
