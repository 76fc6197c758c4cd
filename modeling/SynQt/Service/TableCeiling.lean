import SynQt.Lib.Run
import SynQt.Service.SessionTable

namespace SynQt
open Lib Option List

/-- What `newToken` mints: never empty. -/
abbrev Token := { id : QByteArray // id ≠ [] }

namespace SessionManager
variable {m m' : SessionManager} {now : Int} {inUse : QByteArray → Bool}

inductive TableOp where
  | createSession (now : Int) (inUse : QByteArray → Bool) (fresh : Token) (scope : QString) (identity : QVariantMap)
  | setScope (now : Int) (fresh : Token) (id : QByteArray) (scope : QString) (identity : QVariantMap) (handoff : Handoff)
  | revoke (id : QByteArray)
  | revokeByKey (keyFor : QByteArray → QString) (key : QString)
  | applyUpsert (token : QByteArray) (scope : QString) (identity : QVariantMap) (createdMs : Int)
  | applyRotation (now : Int) (previous next : QByteArray)
  | applyRemove (token : QByteArray)
  | setMaximumSessions (maximum : Int)
  | attachRemote

def act (m : SessionManager) : TableOp → SessionManager
  | .createSession now inUse fresh scope identity => (m.createSession now inUse fresh.1 scope identity).1.manager
  | .setScope now fresh id scope identity handoff => (m.setScope now fresh.1 id scope identity handoff).1.manager
  | .revoke id => (m.revoke id).manager
  | .revokeByKey keyFor key => (m.revokeByKey keyFor key).manager
  | .applyUpsert token scope identity createdMs => (m.applyUpsert token scope identity createdMs).manager
  | .applyRotation now previous next => (m.applyRotation now previous next).manager
  | .applyRemove token => (m.applyRemove token).manager
  | .setMaximumSessions maximum => m.setMaximumSessions maximum
  | .attachRemote => m.attachRemote

def hintOf (record : SessionRecord) : Int × QByteArray := (record.createdMs, record.id)

structure Tracked (m : SessionManager) : Prop where
  keyed : ∀ id record, m.sessions.find id = some record → record.id = id
  hinted : 0 < m.ttlMs → ∀ id record, m.sessions.find id = some record → hintOf record ∈ m.expiryQueue
  unhinted : m.ttlMs ≤ 0 → m.expiryQueue = []

theorem tracked_make (defaultScope : QString) (ttlMinutes : Int) : Tracked (make defaultScope ttlMinutes) where
  keyed _ _ h := by cases h
  hinted _ _ _ h := by cases h
  unhinted _ := rfl

/-- Fewer records, the same settings, and no hint lost whose record is still there. -/
theorem Tracked.fewer (h : Tracked m) (httl : m'.ttlMs = m.ttlMs)
    (hsessions : ∀ id record, m'.sessions.find id = some record → m.sessions.find id = some record)
    (hhints : ∀ id record, m'.sessions.find id = some record → hintOf record ∈ m.expiryQueue → hintOf record ∈ m'.expiryQueue)
    (hnew : ∀ hint ∈ m'.expiryQueue, hint ∈ m.expiryQueue) : Tracked m' where
  keyed id record hr := h.keyed id record (hsessions id record hr)
  hinted hpos id record hr := by
    rw [httl] at hpos
    exact hhints id record hr (h.hinted hpos id record (hsessions id record hr))
  unhinted hnone := by
    rw [httl] at hnone
    have hempty := h.unhinted hnone
    rw [eq_nil_iff_forall_not_mem]
    intro hint hmem
    have hold := hnew hint hmem
    rw [hempty] at hold
    cases hold

theorem Tracked.insertRecord (h : Tracked m) (record : SessionRecord) : Tracked (m.insertRecord record) where
  keyed id r hr := by
    rw [insertRecord_sessions, Hash.find_insert] at hr
    split at hr
    · rename_i hid
      cases hr
      exact hid.symm
    · exact h.keyed id r hr
  hinted hpos id r hr := by
    rw [insertRecord_ttlMs] at hpos
    rw [insertRecord_sessions, Hash.find_insert] at hr
    rw [SessionManager.insertRecord, trackExpiry, if_neg (Int.not_le.mpr hpos), mem_append]
    split at hr
    · cases hr
      exact .inr (mem_singleton.mpr rfl)
    · exact .inl (h.hinted hpos id r hr)
  unhinted hnone := by
    rw [insertRecord_ttlMs] at hnone
    rw [SessionManager.insertRecord, trackExpiry, if_pos hnone]
    exact h.unhinted hnone

theorem Tracked.rotations (h : Tracked m) (rotations : Hash QByteArray Rotation) :
    Tracked { m with rotations := rotations } := ⟨h.keyed, h.hinted, h.unhinted⟩

theorem dropRotationTo_eq (m : SessionManager) (record : SessionRecord) :
    ∃ rotations, m.dropRotationTo record = { m with rotations := rotations } := by
  rw [dropRotationTo]
  split
  · exact ⟨m.rotations, rfl⟩
  · exact ⟨_, rfl⟩

theorem Tracked.erase (h : Tracked m) (id : QByteArray) : Tracked { m with sessions := m.sessions.erase id } := by
  refine h.fewer ?_ ?_ ?_ ?_
  · rfl
  · intro k record hr
    rw [Hash.find_erase] at hr
    split at hr
    · cases hr
    · exact hr
  · exact fun _ _ _ hmem => hmem
  · exact fun _ hmem => hmem

theorem Tracked.removeRecord (h : Tracked m) (token : QByteArray) (record : SessionRecord) :
    Tracked (m.removeRecord token record) := by
  rw [SessionManager.removeRecord]
  obtain ⟨rotations, hdrop⟩ := m.dropRotationTo_eq record
  rw [hdrop]
  exact (h.rotations rotations).erase token

theorem Tracked.replace (h : Tracked m) {id : QByteArray} {old new : SessionRecord} (hold : m.sessions.find id = some old)
    (hsame : hintOf new = hintOf old) : Tracked { m with sessions := m.sessions.insert id new } where
  keyed k r hr := by
    rw [Hash.find_insert] at hr
    split at hr
    · rename_i hk
      cases hr
      have hid : new.id = old.id := congrArg Prod.snd hsame
      rw [hid, hk]
      exact h.keyed id old hold
    · exact h.keyed k r hr
  hinted hpos k r hr := by
    rw [Hash.find_insert] at hr
    split at hr
    · cases hr
      rw [hsame]
      exact h.hinted hpos id old hold
    · exact h.hinted hpos k r hr
  unhinted := h.unhinted

theorem drainExpired_tracked (queue : List (Int × QByteArray)) (m : SessionManager)
    (h : Tracked { m with expiryQueue := queue }) (httl : 0 < m.ttlMs) : Tracked (drainExpired now m queue).1 := by
  induction queue generalizing m with
  | nil => exact h
  | cons hint queue ih =>
    obtain ⟨createdMs, id⟩ := hint
    rw [drainExpired]
    split
    · exact h
    · cases hfound : m.sessions.find id with
      | none =>
        apply ih m _ httl
        refine ⟨h.keyed, fun hpos k record hr => ?_, fun hnone => absurd httl (Int.not_lt.mpr hnone)⟩
        obtain heq | hlater := mem_cons.mp (h.hinted hpos k record hr)
        · have hkid : k = id := by
            rw [← h.keyed k record hr]
            exact congrArg Prod.snd heq
          rw [hkid] at hr
          rw [hfound] at hr
          cases hr
        · exact hlater
      | some record =>
        simp only
        split
        · obtain ⟨rotations, hdrop⟩ := m.dropRotationTo_eq record
          rw [hdrop]
          refine ih _ ?_ ?_
          swap
          · exact httl
          refine ⟨fun k r hr => ?_, fun hpos k r hr => ?_, fun hnone => absurd httl (Int.not_lt.mpr hnone)⟩
          · simp only [Hash.find_erase] at hr
            split at hr
            · cases hr
            · exact h.keyed k r hr
          · simp only [Hash.find_erase] at hr
            split at hr
            · cases hr
            · rename_i hk
              obtain heq | hlater := mem_cons.mp (h.hinted hpos k r hr)
              · have hrid : r.id = id := congrArg Prod.snd heq
                rw [h.keyed k r hr] at hrid
                exact absurd hrid hk
              · exact hlater
        · rename_i hdate
          apply ih m _ httl
          refine ⟨h.keyed, fun hpos k r hr => ?_, fun hnone => absurd httl (Int.not_lt.mpr hnone)⟩
          obtain heq | hlater := mem_cons.mp (h.hinted hpos k r hr)
          · have hrid : r.id = id := congrArg Prod.snd heq
            rw [h.keyed k r hr] at hrid
            rw [hrid, hfound] at hr
            cases hr
            exact absurd (congrArg Prod.fst heq) hdate
          · exact hlater

theorem Tracked.purgeExpired (h : Tracked m) (now : Int) : Tracked (m.purgeExpired now).1 := by
  have hswept : Tracked (m.sweepRotations now) := h.rotations _
  rw [SessionManager.purgeExpired]
  split
  · exact hswept
  · rename_i hpos
    exact drainExpired_tracked _ _ hswept (Int.not_le.mp hpos)

private theorem drainExpired_size (queue : List (Int × QByteArray)) (m : SessionManager) :
    (drainExpired now m queue).1.sessions.size ≤ m.sessions.size ∧
      (drainExpired now m queue).1.maximumSessions = m.maximumSessions := by
  induction queue generalizing m with
  | nil => exact ⟨Nat.le_refl _, rfl⟩
  | cons hint queue ih =>
    obtain ⟨createdMs, id⟩ := hint
    rw [drainExpired]
    split
    · exact ⟨Nat.le_refl _, rfl⟩
    · cases hfound : m.sessions.find id with
      | none => exact ih m
      | some record =>
        simp only
        split
        · obtain ⟨rotations, hdrop⟩ := m.dropRotationTo_eq record
          rw [hdrop]
          have hless := Hash.size_erase (Hash.contains_of_find hfound)
          have hrest := ih { m with rotations := rotations, sessions := m.sessions.erase id, expiryQueue := queue }
          refine ⟨Nat.le_trans hrest.1 ?_, hrest.2⟩
          exact hless ▸ Nat.le_succ _
        · exact ih m

private theorem purgeExpired_size (m : SessionManager) (now : Int) :
    (m.purgeExpired now).1.sessions.size ≤ m.sessions.size ∧
      (m.purgeExpired now).1.maximumSessions = m.maximumSessions := by
  rw [purgeExpired]
  split
  · exact ⟨Nat.le_refl _, rfl⟩
  · exact drainExpired_size _ _

def Full (m : SessionManager) : Prop := 0 < m.maximumSessions ∧ m.maximumSessions ≤ m.sessions.size

/-- The hint that eviction would go by is one of those it looks at. -/
theorem evictable_iff (h : Tracked m) (hint : Int × QByteArray) :
    (m.evictable inUse hint).isSome = true ↔
      ∃ id record, m.sessions.find id = some record ∧ m.isEvictable inUse record = true ∧ hint = hintOf record := by
  rw [evictable, isSome_iff_exists]
  constructor
  · rintro ⟨record, hrecord⟩
    obtain ⟨hfound, hfits⟩ := filter_eq_some_iff.mp hrecord
    rw [Bool.and_eq_true, beq_iff_eq] at hfits
    refine ⟨hint.2, record, hfound, hfits.2, Prod.ext hfits.1.symm ?_⟩
    exact (h.keyed hint.2 record hfound).symm
  · rintro ⟨id, record, hfound, hfits, rfl⟩
    refine ⟨record, filter_eq_some_iff.mpr ⟨?_, ?_⟩⟩
    · rw [hintOf, h.keyed id record hfound]
      exact hfound
    · rw [hintOf, hfits, beq_self_eq_true]
      rfl

theorem evictOne_cases (inUse : QByteArray → Bool) (m : SessionManager) :
    (m.evictOne inUse = none ∧ ∀ hint ∈ m.expiryQueue.take evictionSearchDepth, (m.evictable inUse hint).isSome = false) ∨
    ∃ hint record e, m.evictOne inUse = some e ∧ hint ∈ m.expiryQueue.take evictionSearchDepth ∧
      m.evictable inUse hint = some record ∧ e.manager =
        { m.dropRotationTo record with sessions := m.sessions.erase hint.2, expiryQueue := m.expiryQueue.erase hint } := by
  rw [evictOne]
  cases hfind : (m.expiryQueue.take evictionSearchDepth).find? fun hint => (m.evictable inUse hint).isSome with
  | none =>
    refine .inl ⟨rfl, fun hint hmem => ?_⟩
    rw [← Bool.not_eq_true]
    exact List.find?_eq_none.mp hfind hint hmem
  | some hint =>
    have hsome := List.find?_some hfind
    obtain ⟨record, hrecord⟩ := isSome_iff_exists.mp hsome
    obtain ⟨rotations, hdrop⟩ := m.dropRotationTo_eq record
    simp only [hrecord, map_some, hdrop]
    exact .inr ⟨hint, record, _, rfl, mem_of_find?_eq_some hfind, hrecord, by rw [hdrop]⟩

/-- At a full table an eviction comes about exactly when some evictable session has fewer hints
than the search depth in front of its own. -/
theorem evictOne_isSome (h : Tracked m) :
    (m.evictOne inUse).isSome = true ↔ 0 < m.ttlMs ∧
      ∃ id record, m.sessions.find id = some record ∧ m.isEvictable inUse record = true ∧
        m.expiryQueue.idxOf (hintOf record) < evictionSearchDepth := by
  constructor
  · intro hsome
    rcases evictOne_cases inUse m with ⟨hnone, _⟩ | ⟨hint, record, e, _, hmem, hrecord, _⟩
    · rw [hnone] at hsome
      cases hsome
    · obtain ⟨id, record, hfound, hfits, rfl⟩ := (evictable_iff h hint).mp (isSome_of_eq_some hrecord)
      have hqueued := mem_of_mem_take hmem
      refine ⟨?_, id, record, hfound, hfits, (mem_take_iff_idxOf_lt hqueued).mp hmem⟩
      by_contra hnone
      rw [h.unhinted (Int.not_lt.mp hnone)] at hqueued
      cases hqueued
  · rintro ⟨hpos, id, record, hfound, hfits, hahead⟩
    have hmem := (mem_take_iff_idxOf_lt (h.hinted hpos id record hfound)).mpr hahead
    have hevictable := (evictable_iff h (hintOf record)).mpr ⟨id, record, hfound, hfits, rfl⟩
    rcases evictOne_cases inUse m with ⟨_, hall⟩ | ⟨hint, record, e, he, _⟩
    · rw [hall _ hmem] at hevictable
      cases hevictable
    · rw [he]
      rfl

theorem Tracked.evictOne (h : Tracked m) {e : Effect} (he : m.evictOne inUse = some e) :
    Tracked e.manager ∧ e.manager.sessions.size + 1 = m.sessions.size ∧
      e.manager.maximumSessions = m.maximumSessions := by
  rcases evictOne_cases inUse m with ⟨hnone, _⟩ | ⟨hint, record, e', he', _, hrecord, hmanager⟩
  · rw [hnone] at he
    cases he
  · rw [he'] at he
    cases he
    obtain ⟨hfound, _⟩ := filter_eq_some_iff.mp hrecord
    obtain ⟨rotations, hdrop⟩ := m.dropRotationTo_eq record
    rw [hmanager, hdrop]
    refine ⟨?_, Hash.size_erase (Hash.contains_of_find hfound), rfl⟩
    have hdropped := h.rotations rotations
    refine hdropped.fewer ?_ ?_ ?_ ?_
    · rfl
    · intro k r hr
      rw [Hash.find_erase] at hr
      split at hr
      · cases hr
      · exact hr
    · intro k r hr hmem
      rw [Hash.find_erase] at hr
      split at hr
      · cases hr
      · rename_i hk
        refine (mem_erase_of_ne ?_).mpr hmem
        rintro rfl
        exact hk (h.keyed k r hr).symm
    · exact fun hint' hmem => mem_of_mem_erase hmem

def Bounded (m : SessionManager) : Prop := 0 < m.maximumSessions → m.sessions.size ≤ m.maximumSessions

/-- A live session that eviction may take, with fewer than the search depth of the live ones older. -/
def Promised (m : SessionManager) (now : Int) (inUse : QByteArray → Bool) : Prop :=
  ∃ id record, m.lookup now id = some record ∧ m.isEvictable inUse record = true ∧
    ((m.snapshot now).countP fun other => decide (other.createdMs < record.createdMs)) < evictionSearchDepth

def Lawful (m : SessionManager) (op : TableOp) : Prop :=
  Bounded (m.act op) ∧
    match op with
    | .createSession now inUse fresh scope identity =>
      Promised m now inUse → (m.createSession now inUse fresh.1 scope identity).2 ≠ []
    | _ => True

/-- Into a full table the store puts no session of its own, and a ceiling is not lowered below the
sessions held. A creation that was promised room in a full table finds a time-to-live, and an
evictable session with fewer hints than the search depth queued in front of its own. -/
def Sound (m : SessionManager) : TableOp → Prop
  | .createSession now inUse _ _ _ =>
    let purged := (m.purgeExpired now).1
    Promised m now inUse → Full purged → 0 < m.ttlMs ∧
      ∃ id record, purged.sessions.find id = some record ∧ purged.isEvictable inUse record = true ∧
        purged.expiryQueue.idxOf (hintOf record) < evictionSearchDepth
  | .applyUpsert token _ _ _ => Full m → m.sessions.contains token = true
  | .setMaximumSessions maximum => 0 < maximum → (m.sessions.size : Int) ≤ maximum
  | _ => True

structure Shrinks (m' m : SessionManager) : Prop where
  size : m'.sessions.size ≤ m.sessions.size
  maximum : m'.maximumSessions = m.maximumSessions

@[refl] theorem Shrinks.refl (m : SessionManager) : m.Shrinks m := ⟨Nat.le_refl _, rfl⟩

theorem Shrinks.bounded (h : m'.Shrinks m) (hbounded : Bounded m) : Bounded m' := by
  rw [Bounded, h.maximum]
  exact fun hpos => Nat.le_trans h.size (hbounded hpos)

@[simp] theorem insertRecord_maximumSessions (record : SessionRecord) :
    (m.insertRecord record).maximumSessions = m.maximumSessions := by
  rw [insertRecord, trackExpiry]
  split <;> rfl

private theorem removeRecord_shrinks (token : QByteArray) {record : SessionRecord} (h : m.sessions.find token = some record) :
    (m.removeRecord token record).Shrinks m := by
  obtain ⟨rotations, hdrop⟩ := m.dropRotationTo_eq record
  rw [removeRecord, hdrop]
  refine ⟨?_, rfl⟩
  have hless := Hash.size_erase (Hash.contains_of_find h)
  exact hless ▸ Nat.le_succ _

theorem revoke_keeps (h : Tracked m) (id : QByteArray) :
    Tracked (m.revoke id).manager ∧ (m.revoke id).manager.Shrinks m := by
  rw [revoke]
  cases hfound : m.sessions.find id with
  | none => exact ⟨h, .refl m⟩
  | some record => exact ⟨h.removeRecord id record, removeRecord_shrinks id hfound⟩

theorem revokeByKey_keeps (h : Tracked m) (keyFor : QByteArray → QString) (key : QString) :
    Tracked (m.revokeByKey keyFor key).manager ∧ (m.revokeByKey keyFor key).manager.Shrinks m := by
  rw [revokeByKey]
  split
  · exact ⟨h, .refl m⟩
  · split
    · exact ⟨h, .refl m⟩
    · exact revoke_keeps h _

theorem applyRemove_keeps (h : Tracked m) (token : QByteArray) :
    Tracked (m.applyRemove token).manager ∧ (m.applyRemove token).manager.Shrinks m := by
  rw [applyRemove]
  cases hfound : m.sessions.find token with
  | none => exact ⟨h, .refl m⟩
  | some record => exact ⟨h.removeRecord token record, removeRecord_shrinks token hfound⟩

theorem applyRotation_keeps (h : Tracked m) (now : Int) (previous next : QByteArray) :
    Tracked (m.applyRotation now previous next).manager ∧ (m.applyRotation now previous next).manager.Shrinks m := by
  by_cases htakes : m.TakesRotation previous next
  · rw [applyRotation_of_takes htakes, pointBack]
    have hrotated := h.rotations (m.rotations.insert previous ⟨next, now⟩)
    cases hfound : m.sessions.find next with
    | none => exact ⟨hrotated, Nat.le_refl _, rfl⟩
    | some record =>
      refine ⟨hrotated.replace hfound rfl, ?_, rfl⟩
      simp only
      rw [Hash.size_insert, Hash.contains_of_find hfound, if_pos rfl]
  · rw [applyRotation_of_not htakes]
    exact ⟨h, .refl m⟩

private theorem recordHandoff_eq (m : SessionManager) (now : Int) (previous chained next : QByteArray) :
    ∃ rotations, m.recordHandoff now previous chained next = { m with rotations := rotations } := by
  rw [recordHandoff]
  split
  · exact ⟨_, rfl⟩
  · exact ⟨_, rfl⟩

theorem setScope_keeps (h : Tracked m) (now : Int) (fresh id : QByteArray) (scope : QString) (identity : QVariantMap)
    (handoff : Handoff) :
    Tracked (m.setScope now fresh id scope identity handoff).1.manager ∧
      (m.setScope now fresh id scope identity handoff).1.manager.Shrinks m := by
  rw [setScope]
  cases hfound : m.sessions.find id with
  | none => exact ⟨h, .refl m⟩
  | some old =>
    simp only
    generalize m.elevated now fresh id old scope identity handoff = record
    have htracked := (h.erase id).insertRecord record
    have hshrinks : (({ m with sessions := m.sessions.erase id } : SessionManager).insertRecord record).Shrinks m := by
      have hless := Hash.size_erase (Hash.contains_of_find hfound)
      refine ⟨?_, insertRecord_maximumSessions record⟩
      rw [insertRecord_sessions]
      exact hless ▸ Hash.size_insert_le _ _ _
    split
    · obtain ⟨rotations, hhandoff⟩ := recordHandoff_eq
        (({ m with sessions := m.sessions.erase id } : SessionManager).insertRecord record) now id old.rotatedFrom fresh
      rw [hhandoff]
      exact ⟨htracked.rotations rotations, hshrinks.size, hshrinks.maximum⟩
    · exact ⟨htracked, hshrinks⟩

/-- A creation is refused by a full table that evicts nothing, or puts its record into what the sweep
left, less one record if that was full. -/
theorem createSession_answer (m : SessionManager) (now : Int) (inUse : QByteArray → Bool) (fresh : Token)
    (scope : QString) (identity : QVariantMap) :
    (Full (m.purgeExpired now).1 ∧ (m.purgeExpired now).1.evictOne inUse = none ∧
      (m.createSession now inUse fresh.1 scope identity).2 = [] ∧
      (m.createSession now inUse fresh.1 scope identity).1.manager = (m.purgeExpired now).1) ∨
    ((m.createSession now inUse fresh.1 scope identity).2 ≠ [] ∧
      ∃ kept record, (m.createSession now inUse fresh.1 scope identity).1.manager = kept.insertRecord record ∧
        ((¬ Full (m.purgeExpired now).1 ∧ kept = (m.purgeExpired now).1) ∨
          ∃ e, (m.purgeExpired now).1.evictOne inUse = some e ∧ kept = e.manager)) := by
  rw [createSession]
  generalize m.purgeExpired now = swept
  obtain ⟨purged, expired⟩ := swept
  simp only
  by_cases hfull : Full purged
  · have hceiling : purged.maximumSessions > 0 ∧ purged.sessions.size ≥ purged.maximumSessions := hfull
    rw [if_pos hceiling]
    cases hevict : purged.evictOne inUse with
    | none => exact .inl ⟨hfull, rfl, rfl, rfl⟩
    | some e => exact .inr ⟨fresh.2, e.manager, _, rfl, .inr ⟨e, rfl, rfl⟩⟩
  · have hroom : ¬ (purged.maximumSessions > 0 ∧ purged.sessions.size ≥ purged.maximumSessions) := hfull
    rw [if_neg hroom]
    exact .inr ⟨fresh.2, purged, _, rfl, .inl ⟨hfull, rfl⟩⟩

private theorem createSession_keeps (h : Tracked m) (hbounded : Bounded m) (now : Int) (inUse : QByteArray → Bool)
    (fresh : Token) (scope : QString) (identity : QVariantMap) :
    Tracked (m.createSession now inUse fresh.1 scope identity).1.manager ∧
      Bounded (m.createSession now inUse fresh.1 scope identity).1.manager := by
  have hpurged := h.purgeExpired now
  have hsize := m.purgeExpired_size now
  have hstill : Bounded (m.purgeExpired now).1 := Shrinks.bounded ⟨hsize.1, hsize.2⟩ hbounded
  rcases m.createSession_answer now inUse fresh scope identity with
    ⟨_, _, _, hmanager⟩ | ⟨_, kept, record, hmanager, ⟨hroom, rfl⟩ | ⟨e, he, rfl⟩⟩
  · rw [hmanager]
    exact ⟨hpurged, hstill⟩
  · rw [hmanager]
    refine ⟨hpurged.insertRecord record, fun hpos => ?_⟩
    rw [insertRecord_maximumSessions] at hpos ⊢
    rw [insertRecord_sessions]
    have hless : (m.purgeExpired now).1.sessions.size < (m.purgeExpired now).1.maximumSessions :=
      Nat.lt_of_not_le fun hle => hroom ⟨hpos, hle⟩
    exact Nat.le_trans (Hash.size_insert_le _ _ _) hless
  · obtain ⟨hevicted, hone, hmaximum⟩ := hpurged.evictOne he
    rw [hmanager]
    refine ⟨hevicted.insertRecord record, fun hpos => ?_⟩
    rw [insertRecord_maximumSessions, hmaximum] at hpos ⊢
    rw [insertRecord_sessions]
    exact Nat.le_trans (Hash.size_insert_le _ _ _) (hone ▸ hstill hpos)

private theorem createSession_promised (h : Tracked m) (now : Int) (inUse : QByteArray → Bool) (fresh : Token)
    (scope : QString) (identity : QVariantMap) :
    (Promised m now inUse → (m.createSession now inUse fresh.1 scope identity).2 ≠ []) ↔
      Sound m (.createSession now inUse fresh scope identity) := by
  have hevicts := @evictOne_isSome _ inUse (h.purgeExpired now)
  rw [(m.purgeExpired_within now).ttlMs] at hevicts
  rw [Sound]
  refine forall_congr' fun _ => ?_
  rw [← hevicts]
  rcases m.createSession_answer now inUse fresh scope identity with
    ⟨hfull, hnone, hrefused, _⟩ | ⟨hanswer, _, _, _, ⟨hroom, _⟩ | ⟨e, he, _⟩⟩
  · rw [hnone]
    exact iff_of_false (fun hne => hne hrefused) fun hfound => by cases hfound hfull
  · exact iff_of_true hanswer fun hfull => absurd hfull hroom
  · rw [he]
    exact iff_of_true hanswer fun _ => rfl

private theorem applyUpsert_keeps (h : Tracked m) (hbounded : Bounded m) (token : QByteArray) (scope : QString)
    (identity : QVariantMap) (createdMs : Int) :
    Tracked (m.applyUpsert token scope identity createdMs).manager ∧
      (Bounded (m.applyUpsert token scope identity createdMs).manager ↔ (Full m → m.sessions.contains token = true)) := by
  rw [applyUpsert]
  refine ⟨h.insertRecord _, ?_⟩
  simp only
  rw [Bounded, insertRecord_maximumSessions, insertRecord_sessions, Hash.size_insert, Full]
  rw [Bounded] at hbounded
  cases m.sessions.contains token with
  | true =>
    rw [if_pos rfl]
    exact iff_of_true hbounded fun _ => rfl
  | false =>
    rw [if_neg Bool.false_ne_true]
    constructor
    · rintro hroom ⟨hpos, hfull⟩
      exact absurd (hroom hpos) (by omega)
    · intro hroom hpos
      by_contra hover
      have hgrows := hroom ⟨hpos, by omega⟩
      cases hgrows

/-- An operation keeps the law exactly when it is sound. -/
theorem lawful_act (h : Tracked m) (hbounded : Bounded m) (op : TableOp) :
    Tracked (m.act op) ∧ (Lawful m op ↔ Sound m op) := by
  have hshrinks (hkeeps : Tracked (m.act op) ∧ (m.act op).Shrinks m) : Tracked (m.act op) ∧ Bounded (m.act op) :=
    ⟨hkeeps.1, hkeeps.2.bounded hbounded⟩
  cases op with
  | createSession now inUse fresh scope identity =>
    obtain ⟨htracked, hceiling⟩ := createSession_keeps h hbounded now inUse fresh scope identity
    exact ⟨htracked, (and_iff_right hceiling).trans (createSession_promised h now inUse fresh scope identity)⟩
  | setScope now fresh id scope identity handoff =>
    obtain ⟨htracked, hceiling⟩ := hshrinks (setScope_keeps h now fresh.1 id scope identity handoff)
    exact ⟨htracked, iff_of_true ⟨hceiling, trivial⟩ trivial⟩
  | revoke id =>
    obtain ⟨htracked, hceiling⟩ := hshrinks (revoke_keeps h id)
    exact ⟨htracked, iff_of_true ⟨hceiling, trivial⟩ trivial⟩
  | revokeByKey keyFor key =>
    obtain ⟨htracked, hceiling⟩ := hshrinks (revokeByKey_keeps h keyFor key)
    exact ⟨htracked, iff_of_true ⟨hceiling, trivial⟩ trivial⟩
  | applyUpsert token scope identity createdMs =>
    obtain ⟨htracked, hceiling⟩ := applyUpsert_keeps h hbounded token scope identity createdMs
    exact ⟨htracked, (and_iff_left trivial).trans hceiling⟩
  | applyRotation now previous next =>
    obtain ⟨htracked, hceiling⟩ := hshrinks (applyRotation_keeps h now previous next)
    exact ⟨htracked, iff_of_true ⟨hceiling, trivial⟩ trivial⟩
  | applyRemove token =>
    obtain ⟨htracked, hceiling⟩ := hshrinks (applyRemove_keeps h token)
    exact ⟨htracked, iff_of_true ⟨hceiling, trivial⟩ trivial⟩
  | setMaximumSessions maximum =>
    refine ⟨⟨h.keyed, h.hinted, h.unhinted⟩, (and_iff_left trivial).trans ?_⟩
    rw [act, Bounded, Sound, setMaximumSessions]
    simp only
    omega
  | attachRemote => exact ⟨⟨h.keyed, h.hinted, h.unhinted⟩, iff_of_true ⟨hbounded, trivial⟩ trivial⟩

private theorem bounded_make (defaultScope : QString) (ttlMinutes : Int) : Bounded (make defaultScope ttlMinutes) :=
  fun _ => Nat.zero_le _

/-- Over any run, under any time-to-live: the table keeps to its ceiling and lets in every newcomer
it has promised room, exactly when every operation is sound. -/
theorem ceiling_kept_iff (defaultScope : QString) (ttlMinutes : Int) (ops : List TableOp) :
    Each act Lawful (make defaultScope ttlMinutes) ops ↔ Each act Sound (make defaultScope ttlMinutes) ops := by
  have hgo (m : SessionManager) (h : Tracked m) (hbounded : Bounded m) : Each act Lawful m ops ↔ Each act Sound m ops := by
    induction ops generalizing m with
    | nil => exact Iff.rfl
    | cons op ops ih =>
      obtain ⟨htracked, hlawful⟩ := lawful_act h hbounded op
      rw [Each, Each, ← hlawful]
      exact and_congr_right fun hkept => ih (m.act op) htracked hkept.1
  exact hgo _ (tracked_make defaultScope ttlMinutes) (bounded_make defaultScope ttlMinutes)

/-- Sessions that never expire, one of them allowed: the first is anonymous and idle, and the
second is refused. -/
def unexpiring : List TableOp := [
  .setMaximumSessions 1,
  .createSession 0 (fun _ => false) ⟨[1], by decide⟩ "" [],
  .createSession 1 (fun _ => false) ⟨[2], by decide⟩ "" []]

theorem unexpiring_refused : ¬ Each act Lawful (make "anonymous" 0) unexpiring := by
  rintro ⟨_, _, ⟨_, hsecond⟩, _⟩
  apply hsecond
  · exact ⟨[1], ⟨[1], "anonymous", [], 0, []⟩, by decide, by decide, by decide⟩
  · decide

end SessionManager
end SynQt
