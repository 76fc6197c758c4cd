import SynQt.Service.Fixation

namespace SynQt
open Lib SessionManager Option List

namespace SessionManager
variable {m m' : SessionManager} {now : Int} {id : QByteArray} {record : SessionRecord}

/-- Every record is stored under its own id, and the queue has a hint of that id and its date. -/
structure Hinted (m : SessionManager) : Prop where
  own : ∀ id record, m.sessions.find id = some record → record.id = id
  hint : ∀ id record, m.sessions.find id = some record → (record.createdMs, id) ∈ m.expiryQueue

namespace Hinted

private theorem shrink (h : m.Hinted) (hsessions : ∀ id record, m'.sessions.find id = some record → m.sessions.find id = some record)
    (hqueue : ∀ id record, m'.sessions.find id = some record → (record.createdMs, id) ∈ m.expiryQueue →
      (record.createdMs, id) ∈ m'.expiryQueue) : m'.Hinted where
  own id record hrecord := h.own id record (hsessions id record hrecord)
  hint id record hrecord := hqueue id record hrecord (h.hint id record (hsessions id record hrecord))

theorem insertRecord (h : m.Hinted) (httl : 0 < m.ttlMs) (record : SessionRecord) : (m.insertRecord record).Hinted := by
  have hqueue : (m.insertRecord record).expiryQueue = m.expiryQueue ++ [(record.createdMs, record.id)] := by
    rw [SessionManager.insertRecord, trackExpiry, if_neg (Int.not_le.mpr httl)]
  constructor
  · intro id found hfound
    rw [insertRecord_sessions, Hash.find_insert] at hfound
    split at hfound
    · next hsame =>
      obtain rfl := Option.some.inj hfound
      exact hsame.symm
    · exact h.own id found hfound
  · intro id found hfound
    rw [hqueue, mem_append]
    rw [insertRecord_sessions, Hash.find_insert] at hfound
    split at hfound
    · next hsame =>
      obtain rfl := Option.some.inj hfound
      exact .inr (mem_singleton.mpr (by rw [hsame]))
    · exact .inl (h.hint id found hfound)

private theorem dropRotationTo_expiryQueue (record : SessionRecord) : (m.dropRotationTo record).expiryQueue = m.expiryQueue := by
  rw [dropRotationTo]
  split <;> rfl

theorem removeRecord (h : m.Hinted) (token : QByteArray) (record : SessionRecord) : (m.removeRecord token record).Hinted := by
  have hqueue : (m.removeRecord token record).expiryQueue = m.expiryQueue := dropRotationTo_expiryQueue record
  exact h.shrink (removeRecord_within token record).sessions fun _ _ _ hin => hqueue ▸ hin

theorem drainExpired (queue : List (Int × QByteArray)) (hown : ∀ id record, m.sessions.find id = some record → record.id = id)
    (hhint : ∀ id record, m.sessions.find id = some record → (record.createdMs, id) ∈ queue) :
    (drainExpired now m queue).1.Hinted := by
  induction queue generalizing m with
  | nil => exact ⟨hown, fun id record hrecord => absurd (hhint id record hrecord) not_mem_nil⟩
  | cons hint queue ih =>
    obtain ⟨createdMs, id⟩ := hint
    rw [drainExpired]
    split
    · exact ⟨hown, hhint⟩
    · cases hthere : m.sessions.find id with
      | none =>
        refine ih hown fun id' record hrecord => ?_
        obtain hsame | hin := mem_cons.mp (hhint id' record hrecord)
        · obtain ⟨-, rfl⟩ := Prod.mk.inj hsame
          cases hthere.symm.trans hrecord
        · exact hin
      | some found =>
        dsimp only
        split
        · next hdate =>
          refine ih (fun id' record hrecord => hown id' record ((removeRecord_within id found).sessions id' record hrecord))
            fun id' record hrecord => ?_
          have hrecord' : (m.removeRecord id found).sessions.find id' = some record := hrecord
          rw [removeRecord_lookup] at hrecord'
          split at hrecord'
          · cases hrecord'
          · next hother =>
            obtain hsame | hin := mem_cons.mp (hhint id' record hrecord')
            · exact absurd (Prod.mk.inj hsame).2 hother
            · exact hin
        · next hdate =>
          refine ih hown fun id' record hrecord => ?_
          obtain hsame | hin := mem_cons.mp (hhint id' record hrecord)
          · obtain ⟨hcreated, rfl⟩ := Prod.mk.inj hsame
            obtain rfl := Option.some.inj (hthere.symm.trans hrecord)
            exact absurd hcreated hdate
          · exact hin

section
variable (h : m.Hinted)
include h

theorem purgeExpired (now : Int) : (m.purgeExpired now).1.Hinted := by
  have hswept : (m.sweepRotations now).Hinted := ⟨h.own, h.hint⟩
  rw [SessionManager.purgeExpired]
  split
  · exact hswept
  · exact drainExpired _ hswept.own hswept.hint

theorem evictOne {inUse : QByteArray → Bool} {e : Effect} (he : m.evictOne inUse = some e) : e.manager.Hinted := by
  rw [SessionManager.evictOne] at he
  split at he
  · cases he
  · next hint _ =>
    obtain ⟨record, -, rfl⟩ := map_eq_some_iff.mp he
    have hsessions : ((m.dropRotationTo record).sessions.erase hint.2) = (m.removeRecord hint.2 record).sessions := by
      rw [dropRotationTo_sessions, SessionManager.removeRecord]
    refine (h.removeRecord hint.2 record).shrink (fun k r hr => ?_) fun id found hfound hin => ?_
    · rw [← hsessions]
      exact hr
    · have hother : id ≠ hint.2 := by
        rintro rfl
        have hfound' : ((m.dropRotationTo record).sessions.erase hint.2).find hint.2 = some found := hfound
        rw [hsessions, removeRecord_lookup, if_pos rfl] at hfound'
        cases hfound'
      exact (mem_erase_of_ne fun hsame => hother (congrArg Prod.snd hsame)).mpr hin

theorem createSession (httl : 0 < m.ttlMs) (now : Int) (inUse : QByteArray → Bool) (fresh : QByteArray)
    (scope : QString) (identity : QVariantMap) : (m.createSession now inUse fresh scope identity).1.manager.Hinted := by
  have hpurged := h.purgeExpired now
  have hwithin := m.purgeExpired_within now
  rw [SessionManager.createSession]
  dsimp only
  split
  · exact hpurged
  · next evicted hroom =>
    split at hroom
    · exact (hpurged.evictOne hroom).insertRecord ((evictOne_within hroom).ttlMs ▸ hwithin.ttlMs ▸ httl) _
    · obtain rfl := Option.some.inj hroom
      exact hpurged.insertRecord (hwithin.ttlMs ▸ httl) _

theorem of_same (hsessions : m'.sessions = m.sessions) (hqueue : m'.expiryQueue = m.expiryQueue) : m'.Hinted :=
  h.shrink (fun _ _ hrecord => hsessions ▸ hrecord) fun _ _ _ hin => hqueue ▸ hin

theorem setScope (httl : 0 < m.ttlMs) (now : Int) (fresh wasId : QByteArray) (scope : QString)
    (identity : QVariantMap) (handoff : Handoff) : (m.setScope now fresh wasId scope identity handoff).1.manager.Hinted := by
  rw [SessionManager.setScope]
  cases m.sessions.find wasId with
  | none => exact h
  | some old =>
    have herased : ({ m with sessions := m.sessions.erase wasId } : SessionManager).Hinted :=
      h.shrink (fun k r hr => by
        rw [Hash.find_erase] at hr
        split at hr
        · cases hr
        · exact hr) fun _ _ _ hin => hin
    have hrotated := herased.insertRecord httl (m.elevated now fresh wasId old scope identity handoff)
    dsimp only
    split
    · refine hrotated.of_same (recordHandoff_sessions _ _ _) ?_
      rw [recordHandoff]
      split <;> rfl
    · exact hrotated

theorem applyRotation (now : Int) (previous next : QByteArray) :
    (m.applyRotation now previous next).manager.Hinted := by
  have hqueue : (m.applyRotation now previous next).manager.expiryQueue = m.expiryQueue := by
    by_cases htakes : m.TakesRotation previous next
    · rw [applyRotation_of_takes htakes, pointBack]
      split <;> rfl
    · rw [applyRotation_of_not htakes]
  have hthere (id : QByteArray) (record : SessionRecord)
      (hrecord : (m.applyRotation now previous next).manager.sessions.find id = some record) :
      ∃ before, m.sessions.find id = some before ∧ before.id = record.id ∧ before.createdMs = record.createdMs := by
    rw [applyRotation_sessions] at hrecord
    split at hrecord
    · obtain ⟨before, hbefore, rfl⟩ := map_eq_some_iff.mp hrecord
      exact ⟨before, hbefore, rfl, rfl⟩
    · exact ⟨record, hrecord, rfl, rfl⟩
  constructor
  · intro id record hrecord
    obtain ⟨before, hbefore, hid, -⟩ := hthere id record hrecord
    exact hid ▸ h.own id before hbefore
  · intro id record hrecord
    obtain ⟨before, hbefore, -, hdate⟩ := hthere id record hrecord
    rw [hqueue, ← hdate]
    exact h.hint id before hbefore

end

end Hinted

private theorem dropRotationTo_find (hfrom : record.rotatedFrom ≠ []) : (m.dropRotationTo record).rotations.find record.rotatedFrom = none := by
  rw [dropRotationTo_lookup]
  exact if_pos ⟨hfrom, rfl⟩

/-- A record it takes was past its time, and the hand-off its back-pointer names goes with it. -/
theorem drainExpired_taken (queue : List (Int × QByteArray)) (hrecord : m.sessions.find id = some record)
    (htaken : (drainExpired now m queue).1.sessions.find id = none) :
    m.ttlMs < now - record.createdMs ∧
      (record.rotatedFrom ≠ [] → (drainExpired now m queue).1.rotations.find record.rotatedFrom = none) := by
  induction queue generalizing m with
  | nil => cases hrecord.symm.trans htaken
  | cons hint queue ih =>
    obtain ⟨createdMs, token⟩ := hint
    rw [drainExpired] at htaken ⊢
    split at htaken
    · cases hrecord.symm.trans htaken
    · next hpast =>
      rw [if_neg hpast]
      cases hthere : m.sessions.find token with
      | none =>
        simp only [hthere] at htaken
        exact ih hrecord htaken
      | some found =>
        simp only [hthere] at htaken ⊢
        split at htaken
        · next hdate =>
          rw [if_pos hdate]
          have hthis (k : QByteArray) : (m.sessions.erase token).find k = if k = token then none else m.sessions.find k :=
            Hash.find_erase _ _ _
          by_cases hsame : id = token
          · subst hsame
            obtain rfl := Option.some.inj (hrecord.symm.trans hthere)
            refine ⟨hdate ▸ Int.not_le.mp hpast, fun hfrom => ?_⟩
            have hwithin := drainExpired_within now queue
              { m.dropRotationTo record with sessions := m.sessions.erase id, expiryQueue := queue }
            rw [eq_none_iff_forall_ne_some]
            intro entry hentry
            cases (dropRotationTo_find (m := m) hfrom).symm.trans (hwithin.rotations _ _ hentry)
          · have hstill : (m.sessions.erase token).find id = some record := by rw [hthis, if_neg hsame, hrecord]
            obtain ⟨hage, hhandoff⟩ := @ih { m.dropRotationTo found with sessions := m.sessions.erase token, expiryQueue := queue }
              hstill htaken
            exact ⟨dropRotationTo_ttlMs (m := m) found ▸ hage, hhandoff⟩
        · next hdate =>
          rw [if_neg hdate]
          exact ih hrecord htaken

/-- A record goes once its hint and every one ahead of it are past their time. -/
theorem drainExpired_gone {queue ahead behind : List (Int × QByteArray)} (hqueue : queue = ahead ++ (record.createdMs, id) :: behind)
    (hrecord : ∀ found, m.sessions.find id = some found → found = record)
    (hpast : ∀ hint ∈ ahead ++ [(record.createdMs, id)], m.ttlMs < now - hint.1) :
    (drainExpired now m queue).1.sessions.find id = none := by
  induction ahead generalizing m queue with
  | nil =>
    subst hqueue
    rw [nil_append, forall_mem_singleton] at hpast
    rw [nil_append, drainExpired, if_neg (Int.not_le.mpr hpast)]
    cases hthere : m.sessions.find id with
    | none =>
      rw [eq_none_iff_forall_ne_some]
      intro found hfound
      cases hthere.symm.trans ((drainExpired_within now behind m).sessions id found hfound)
    | some found =>
      dsimp only
      rw [hrecord found hthere, if_pos rfl, eq_none_iff_forall_ne_some]
      intro other hother
      have herased := (drainExpired_within now behind _).sessions id other hother
      rw [Hash.find_erase, if_pos rfl] at herased
      cases herased
  | cons hint ahead ih =>
    subst hqueue
    obtain ⟨createdMs, token⟩ := hint
    rw [cons_append, forall_mem_cons] at hpast
    rw [cons_append, drainExpired, if_neg (Int.not_le.mpr hpast.1)]
    cases hthere : m.sessions.find token with
    | none => exact ih rfl hrecord hpast.2
    | some found =>
      dsimp only
      split
      · refine @ih { m.dropRotationTo found with sessions := m.sessions.erase token, expiryQueue := _ } _ rfl (fun other hother => ?_) ?_
        · exact hrecord other ((removeRecord_within token found).sessions id other hother)
        · exact (dropRotationTo_ttlMs (m := m) found).symm ▸ hpast.2
      · exact ih rfl hrecord hpast.2

/-- What a sweep at this moment does: it adds nothing, takes no record before its time, with each the hand-off its
back-pointer names, leaves no hand-off that led nowhere when it began, and takes every record whose hint and the hints
ahead of it are past their time. -/
structure Sweeps (m : SessionManager) (now : Int) : Prop where
  within : (m.purgeExpired now).1.Within m
  taken : ∀ id record, m.sessions.find id = some record → (m.purgeExpired now).1.sessions.find id = none →
    m.ttlMs < now - record.createdMs ∧
      (record.rotatedFrom ≠ [] → (m.purgeExpired now).1.rotations.find record.rotatedFrom = none)
  handoffs : ∀ from_ entry, (m.purgeExpired now).1.rotations.find from_ = some entry → (m.sessions.find entry.to_).isSome = true
  gone : ∀ id record ahead behind, m.sessions.find id = some record → m.expiryQueue = ahead ++ (record.createdMs, id) :: behind →
    (∀ hint ∈ ahead ++ [(record.createdMs, id)], m.ttlMs < now - hint.1) → (m.purgeExpired now).1.sessions.find id = none

private theorem sweeps_of_ttl (httl : 0 < m.ttlMs) (now : Int) : m.Sweeps now := by
  have hpurge : (m.purgeExpired now).1 = (drainExpired now (m.sweepRotations now) m.expiryQueue).1 := by
    rw [purgeExpired]
    exact congrArg Prod.fst (if_neg (Int.not_le.mpr httl))
  refine ⟨m.purgeExpired_within now, ?_, ?_, ?_⟩
  · intro id record hrecord htaken
    rw [hpurge] at htaken ⊢
    exact drainExpired_taken (m := m.sweepRotations now) m.expiryQueue hrecord htaken
  · intro from_ entry hentry
    rw [hpurge] at hentry
    have hswept := (drainExpired_within now m.expiryQueue (m.sweepRotations now)).rotations from_ entry hentry
    have hkept := ((Hash.find_filter_eq_some _ _ _ _).mp hswept).2
    rw [Bool.not_eq_true', Bool.or_eq_false_iff] at hkept
    exact isNone_eq_false_iff.mp hkept.2
  · intro id record ahead behind hrecord hqueue hpast
    rw [hpurge]
    exact drainExpired_gone (m := m.sweepRotations now) hqueue (fun found hfound => Option.some.inj (hfound.symm.trans hrecord)) hpast

end SessionManager

namespace SessionRun
variable {s : SessionRun}

structure Swept (s : SessionRun) : Prop where
  ttl : 0 < s.manager.ttlMs
  hinted : s.manager.Hinted

private theorem ttlMs_step (s : SessionRun) (op : SessionOp) : (s.step op).manager.ttlMs = s.manager.ttlMs := by
  cases op with
  | createSession inUse fresh scope identity =>
    obtain ⟨-, hwithin, -⟩ | ⟨-, kept, -, hkept, hmanager, -⟩ := s.manager.createSession_cases s.now inUse fresh scope identity
    · exact hwithin.ttlMs
    · exact (congrArg ttlMs hmanager).trans ((insertRecord_ttlMs _).trans hkept.ttlMs)
  | setScope fresh id scope identity handoff => exact (setScope_settings id s.now fresh scope identity handoff).1
  | revoke id => exact (revoke_within id).ttlMs
  | applyUpsert token scope identity createdMs => exact insertRecord_ttlMs _
  | applyRotation previous next => exact applyRotation_ttlMs previous next
  | applyRemove token => exact (applyRemove_within token).ttlMs
  | sweep => exact (s.manager.purgeExpired_within s.now).ttlMs
  | advance ms => rfl

theorem Swept.step (h : s.Swept) (op : SessionOp) : (s.step op).Swept := by
  refine ⟨ttlMs_step s op ▸ h.ttl, ?_⟩
  cases op with
  | createSession inUse fresh scope identity => exact h.hinted.createSession h.ttl s.now inUse fresh scope identity
  | setScope fresh id scope identity handoff => exact h.hinted.setScope h.ttl s.now fresh id scope identity handoff
  | revoke id =>
    have hrevoked : (s.manager.revoke id).manager.Hinted := by
      rw [revoke]
      split
      · exact h.hinted
      · exact h.hinted.removeRecord id _
    exact hrevoked
  | applyUpsert token scope identity createdMs => exact h.hinted.insertRecord h.ttl _
  | applyRotation previous next => exact h.hinted.applyRotation s.now previous next
  | applyRemove token =>
    have hremoved : (s.manager.applyRemove token).manager.Hinted := by
      rw [applyRemove]
      split
      · exact h.hinted
      · exact h.hinted.removeRecord token _
    exact hremoved
  | sweep => exact h.hinted.purgeExpired s.now
  | advance ms => exact h.hinted

/-- Every session is swept: in every run there is a hint for each, and a sweep at any moment takes what the hints say. -/
theorem sessions_swept (defaultScope : QString) {ttlMinutes : Int} (httl : 0 < ttlMinutes) (maximum now : Int)
    (ops : List SessionOp) (later : Int) :
    (Lib.run step (start defaultScope ttlMinutes maximum now) ops).manager.Hinted ∧
      (Lib.run step (start defaultScope ttlMinutes maximum now) ops).manager.Sweeps later := by
  have hstart : (start defaultScope ttlMinutes maximum now).Swept := by
    have hpos : 0 < ttlMinutes * 60 * 1000 := by omega
    exact ⟨hpos, fun _ _ hrecord => (by cases hrecord), fun _ _ hrecord => (by cases hrecord)⟩
  have hend : (Lib.run step (start defaultScope ttlMinutes maximum now) ops).Swept :=
    run_invariant Swept (fun _ op h => h.step op) hstart ops
  exact ⟨hend.hinted, SessionManager.sweeps_of_ttl hend.ttl later⟩

def elevatedTwice : List SessionOp :=
  [.createSession (fun _ => true) [1] "" [], .setScope [2] [1] "user" [] .keep, .setScope [3] [2] "admin" [] .keep, .advance 60001]

theorem sessions_swept_elevated :
    (0 : Int) < 1 ∧ (Lib.run step (start "anonymous" 1 100 0) elevatedTwice).manager.Hinted ∧
      (Lib.run step (start "anonymous" 1 100 0) elevatedTwice).manager.Sweeps 60001 :=
  ⟨by decide, sessions_swept "anonymous" (by decide) 100 0 elevatedTwice 60001⟩

/-- The sweep takes the session and leaves the hand-off the first elevation left, which still leads to it. -/
theorem handoff_left :
    let s := Lib.run step (start "anonymous" 1 100 0) elevatedTwice
    (s.manager.sessions.find [3]).isSome = true ∧ ((s.step .sweep).manager.sessions.find [3]) = none ∧
      (s.step .sweep).manager.rotations.find [1] = some ⟨[3], 0⟩ := by
  decide

end SessionRun
end SynQt
