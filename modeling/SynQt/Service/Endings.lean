import SynQt.Service.Mesh

/-! What an operation of the session table tells its receivers of the sessions it lets go of and
the ids it moves. -/
namespace SynQt
open Lib Option List

def Signal.ended : Signal → Option QByteArray
  | .sessionRemoved token | .sessionExpired token => some token
  | _ => none

/-- Where a signal leaves a connection bound to `k`. -/
def Signal.relocate (signal : Signal) (k : QByteArray) : QByteArray :=
  match signal with
  | .sessionRotated from_ to_ => if k = from_ then to_ else k
  | _ => k

def Signal.rotates : Signal → Bool
  | .sessionRotated _ _ => true
  | _ => false

private theorem Signal.relocate_of_not {signal : Signal} (h : signal.rotates = false) (k : QByteArray) :
    signal.relocate k = k := by
  cases signal with
  | sessionRotated => cases h
  | _ => rfl

namespace SessionManager
variable {m : SessionManager} {now : Int}

/-- The table holds the id, and no hand-off leads on from it. -/
def Names (m : SessionManager) (id : QByteArray) : Prop :=
  id ≠ [] ∧ (m.sessions.find id).isSome ∧ m.rotations.find id = none
deriving Decidable

/-- Past its time-to-live, and not swept yet. -/
def Overdue (m : SessionManager) (now : Int) (id : QByteArray) : Prop :=
  ∃ record, m.sessions.find id = some record ∧ 0 < m.ttlMs ∧ m.ttlMs < now - record.createdMs

theorem Names.live_or_overdue {id : QByteArray} (h : m.Names id) (now : Int) :
    m.isLive now id = true ∨ m.Overdue now id := by
  obtain ⟨-, hheld, -⟩ := h
  obtain ⟨record, hrecord⟩ := isSome_iff_exists.mp hheld
  by_cases hpast : 0 < m.ttlMs ∧ m.ttlMs < now - record.createdMs
  · exact .inr ⟨record, hrecord, hpast⟩
  · left
    simp only [isLive, lookup, hrecord, if_neg hpast, isSome_some]

private theorem rotationOf_of_none {id : QByteArray} (h : m.rotations.find id = none) : m.rotationOf now id = [] := by
  simp only [rotationOf, h]

/-- No signal of the list ends the session a connection is bound to while it is delivered. -/
def Spared (now : Int) : List Emission → QByteArray → Prop
  | [], _ => True
  | e :: emitted, k =>
    (e.signal.ended = some k → k ≠ [] → e.manager.rotationOf now k ≠ []) ∧ Spared now emitted (e.signal.relocate k)

def relocated (emitted : List Emission) (k : QByteArray) : QByteArray :=
  emitted.foldl (fun k e => e.signal.relocate k) k

/-- An id the table names is still named, where the signals leave it, unless one ends it. -/
def Survives (m : SessionManager) (now : Int) (effect : Effect) : Prop :=
  ∀ k, m.Names k → Spared now effect.emitted k → effect.manager.Names (relocated effect.emitted k)

/-- An operation that rotates nothing and reports every session it lets go of. -/
structure Reports (m : SessionManager) (effect : Effect) : Prop where
  still : ∀ e ∈ effect.emitted, e.signal.rotates = false
  seen : ∀ e ∈ effect.emitted, ∀ k, m.rotations.find k = none → e.manager.rotations.find k = none
  rotations : ∀ k, m.rotations.find k = none → effect.manager.rotations.find k = none
  reported : ∀ k, (m.sessions.find k).isSome →
    (effect.manager.sessions.find k).isSome ∨ ∃ e ∈ effect.emitted, e.signal.ended = some k

private theorem relocated_of_still {emitted : List Emission} (h : ∀ e ∈ emitted, e.signal.rotates = false)
    (k : QByteArray) : relocated emitted k = k := by
  induction emitted with
  | nil => rfl
  | cons e emitted ih =>
    rw [forall_mem_cons] at h
    simpa only [relocated, foldl_cons, Signal.relocate_of_not h.1] using ih h.2

private theorem Spared.not_ended {emitted : List Emission} {k : QByteArray} (h : Spared now emitted k) (hk : k ≠ [])
    (hstill : ∀ e ∈ emitted, e.signal.rotates = false)
    (hseen : ∀ e ∈ emitted, e.manager.rotations.find k = none) : ∀ e ∈ emitted, e.signal.ended ≠ some k := by
  induction emitted with
  | nil => exact fun e he => by cases he
  | cons e emitted ih =>
    rw [forall_mem_cons] at hstill hseen ⊢
    obtain ⟨hfirst, hrest⟩ := h
    rw [Signal.relocate_of_not hstill.1] at hrest
    exact ⟨fun hended => hfirst hended hk (rotationOf_of_none hseen.1), ih hrest hstill.2 hseen.2⟩

theorem Reports.survives {effect : Effect} (h : m.Reports effect) (now : Int) : m.Survives now effect := by
  intro k ⟨hk, hheld, hnone⟩ hspared
  rw [relocated_of_still h.still]
  refine ⟨hk, ?_, h.rotations k hnone⟩
  rcases h.reported k hheld with hstays | ⟨e, he, hended⟩
  · exact hstays
  · exact absurd hended (hspared.not_ended hk h.still (fun e he => h.seen e he k hnone) e he)

private theorem Within.rotations_none {m' : SessionManager} (h : m'.Within m) {k : QByteArray}
    (hk : m.rotations.find k = none) : m'.rotations.find k = none := by
  cases he : m'.rotations.find k with
  | none => rfl
  | some e => exact absurd (h.rotations k e he) (by simp [hk])

theorem Reports.refl (m : SessionManager) (calls : List StoreCall) : m.Reports ⟨m, [], calls⟩ :=
  ⟨by simp, by simp, fun _ => id, fun _ hk => .inl hk⟩

theorem Reports.trans {first second : Effect} (h : m.Reports first) (h' : first.manager.Reports second)
    (calls : List StoreCall) : m.Reports ⟨second.manager, first.emitted ++ second.emitted, calls⟩ := by
  refine ⟨fun e he => ?_, fun e he k hk => ?_, fun k hk => h'.rotations k (h.rotations k hk), fun k hk => ?_⟩
  · rcases mem_append.mp he with hfirst | hsecond
    · exact h.still e hfirst
    · exact h'.still e hsecond
  · rcases mem_append.mp he with hfirst | hsecond
    · exact h.seen e hfirst k hk
    · exact h'.seen e hsecond k (h.rotations k hk)
  · rcases h.reported k hk with hstays | ⟨e, he, hended⟩
    · rcases h'.reported k hstays with hstays' | ⟨e, he, hended⟩
      · exact .inl hstays'
      · exact .inr ⟨e, mem_append_right _ he, hended⟩
    · exact .inr ⟨e, mem_append_left _ he, hended⟩

theorem insertRecord_reports (record : SessionRecord) (calls : List StoreCall) :
    m.Reports ⟨m.insertRecord record, [⟨upserted record, m.insertRecord record⟩], calls⟩ := by
  refine ⟨by simp [Signal.rotates, upserted], by simp, fun k hk => by simpa using hk, fun k hk => .inl ?_⟩
  rw [insertRecord_sessions, Hash.find_insert]
  split
  · rfl
  · exact hk

private theorem removeRecord_reports (id : QByteArray) (record : SessionRecord) (calls : List StoreCall) :
    m.Reports ⟨m.removeRecord id record, [⟨.sessionRemoved id, m.removeRecord id record⟩], calls⟩ := by
  have hw := m.removeRecord_within id record
  refine ⟨by simp [Signal.rotates], fun e he k => ?_, fun k => hw.rotations_none, fun k hk => ?_⟩
  · obtain rfl := mem_singleton.mp he
    exact hw.rotations_none
  · by_cases hkid : k = id
    · exact .inr ⟨_, mem_singleton.mpr rfl, by simp [Signal.ended, hkid]⟩
    · exact .inl (by simpa [hkid] using hk)

theorem revoke_reports (id : QByteArray) : m.Reports (m.revoke id) := by
  unfold revoke
  split
  · exact Reports.refl m _
  · exact removeRecord_reports id _ _

theorem applyRemove_reports (token : QByteArray) : m.Reports (m.applyRemove token) := by
  unfold applyRemove
  split
  · exact Reports.refl m _
  · exact removeRecord_reports token _ _

private theorem drainExpired_reports (now : Int) (queue : List (Int × QByteArray)) (m : SessionManager) :
    m.Reports ⟨(drainExpired now m queue).1, (drainExpired now m queue).2, []⟩ := by
  induction queue generalizing m with
  | nil => exact ⟨by simp [drainExpired], by simp [drainExpired], fun _ hk => hk, fun _ hk => .inl hk⟩
  | cons hint queue ih =>
    obtain ⟨createdMs, id⟩ := hint
    simp only [drainExpired]
    split
    · exact ⟨by simp, by simp, fun _ hk => hk, fun _ hk => .inl hk⟩
    · split
      · rename_i record _
        split
        · have hw : ({ m.dropRotationTo record with
              sessions := m.sessions.erase id, expiryQueue := queue } : SessionManager).Within m := by
            have hr := m.removeRecord_within id record
            exact ⟨hr.sessions, hr.rotations, hr.ttlMs, hr.remote⟩
          obtain ⟨hstill, hseen, hrotations, hreported⟩ := ih { m.dropRotationTo record with
            sessions := m.sessions.erase id, expiryQueue := queue }
          refine ⟨?_, ?_, fun k hk => hrotations k (hw.rotations_none hk), fun k hk => ?_⟩
          · exact forall_mem_cons.mpr ⟨rfl, hstill⟩
          · exact forall_mem_cons.mpr ⟨fun k => hw.rotations_none, fun e he k hk =>
              hseen e he k (hw.rotations_none hk)⟩
          · by_cases hkid : k = id
            · exact .inr ⟨_, mem_cons_self, by simp [Signal.ended, hkid]⟩
            · have hafter : ((m.sessions.erase id).find k).isSome := by simpa [hkid] using hk
              rcases hreported k hafter with hstays | ⟨e, he, hended⟩
              · exact .inl hstays
              · exact .inr ⟨e, mem_cons_of_mem _ he, hended⟩
        · exact ih m
      · exact ih m

theorem purgeExpired_reports (m : SessionManager) (now : Int) :
    m.Reports ⟨(m.purgeExpired now).1, (m.purgeExpired now).2, []⟩ := by
  have hw := m.sweepRotations_within now
  unfold purgeExpired
  simp only
  split
  · exact ⟨by simp, by simp, fun k => hw.rotations_none, fun k hk => .inl hk⟩
  · obtain ⟨hstill, hseen, hrotations, hreported⟩ :=
      drainExpired_reports now (m.sweepRotations now).expiryQueue (m.sweepRotations now)
    exact ⟨hstill, fun e he k hk => hseen e he k (hw.rotations_none hk),
      fun k hk => hrotations k (hw.rotations_none hk), hreported⟩

def Keyed (m : SessionManager) : Prop := ∀ k r, m.sessions.find k = some r → r.id = k

theorem Within.keyed {m' : SessionManager} (h : m'.Within m) (hk : m.Keyed) : m'.Keyed :=
  fun k r hr => hk k r (h.sessions k r hr)

theorem Keyed.insertRecord (h : m.Keyed) (record : SessionRecord) : (m.insertRecord record).Keyed := by
  intro k r hr
  rw [insertRecord_sessions, Hash.find_insert] at hr
  split at hr
  · rename_i hk
    rw [hk, ← Option.some.inj hr]
  · exact h k r hr

theorem Keyed.setScope (h : m.Keyed) (now : Int) (fresh wasId : QByteArray) (scope : QString)
    (identity : QVariantMap) (handoff : Handoff) :
    (m.setScope now fresh wasId scope identity handoff).1.manager.Keyed := by
  intro k r hr
  cases hold : m.sessions.find wasId with
  | none =>
    rw [setScope_of_none hold] at hr
    exact h k r hr
  | some old =>
    rw [(setScope_of_lookup hold now fresh scope identity handoff).2.1] at hr
    split at hr
    · rename_i hk
      rw [hk, ← Option.some.inj hr]
      rfl
    · split at hr
      · cases hr
      · exact h k r hr

theorem Keyed.receive (h : m.Keyed) (now : Int) (message : StoreMessage) : (message.receive m now).manager.Keyed := by
  cases message with
  | sessionUpserted token scope identity createdMs => exact h.insertRecord _
  | sessionRemoved token => exact (applyRemove_within token).keyed h
  | sessionRotated from_ to_ =>
    intro k r hr
    simp only [StoreMessage.receive, applyRotation_sessions] at hr
    split at hr
    · obtain ⟨record, hrecord, rfl⟩ := map_eq_some_iff.mp hr
      exact h k record hrecord
    · exact h k r hr

/-- An eviction names the session it takes: the record it found carries the key it is under. -/
theorem evictOne_reports (hkeyed : m.Keyed) {inUse : QByteArray → Bool} {effect : Effect}
    (h : m.evictOne inUse = some effect) : m.Reports effect := by
  have hw := evictOne_within h
  unfold evictOne at h
  split at h
  · cases h
  · rename_i hint _
    obtain ⟨record, hrecord, rfl⟩ := map_eq_some_iff.mp h
    have hfound : m.sessions.find hint.2 = some record := (filter_eq_some_iff.mp hrecord).1
    refine ⟨by simp [Signal.rotates], fun e he k => ?_, fun k => hw.rotations_none, fun k hk => ?_⟩
    · obtain rfl := mem_singleton.mp he
      exact hw.rotations_none
    · by_cases hkid : k = hint.2
      · exact .inr ⟨_, mem_singleton.mpr rfl, by simp [Signal.ended, hkid, hkeyed _ _ hfound]⟩
      · exact .inl (by simpa [hkid] using hk)

theorem Keyed.createSession (h : m.Keyed) (now : Int) (inUse : QByteArray → Bool) (fresh : QByteArray)
    (scope : QString) (identity : QVariantMap) :
    (m.createSession now inUse fresh scope identity).1.manager.Keyed := by
  rcases m.createSession_cases now inUse fresh scope identity with ⟨-, hw, -⟩ | ⟨-, kept, -, hw, hm, -⟩
  · exact hw.keyed h
  · rw [hm]
    exact (hw.keyed h).insertRecord _

/-- A creation purges, may evict, and stores; each of the three reports what it lets go of. -/
theorem createSession_reports (hkeyed : m.Keyed) (now : Int) (inUse : QByteArray → Bool) (fresh : QByteArray)
    (scope : QString) (identity : QVariantMap) :
    m.Reports (m.createSession now inUse fresh scope identity).1 := by
  have hpurged := m.purgeExpired_reports now
  have hpurgedKeyed := (m.purgeExpired_within now).keyed hkeyed
  unfold createSession
  simp only
  split
  · exact hpurged
  · rename_i evicted h
    have hroom : (m.purgeExpired now).1.Reports evicted := by
      split at h
      · exact evictOne_reports hpurgedKeyed h
      · cases h
        exact Reports.refl _ _
    exact (hpurged.trans hroom []).trans (insertRecord_reports _ []) _

/-- An elevation moves what is bound to the id it replaces, and ends nothing. -/
theorem setScope_survives (now : Int) {fresh : QByteArray} (hf : m.Unused fresh) (wasId : QByteArray)
    (scope : QString) (identity : QVariantMap) (handoff : Handoff) :
    m.Survives now (m.setScope now fresh wasId scope identity handoff).1 := by
  obtain ⟨hne, hsess, hrot⟩ := hf
  intro k ⟨hk, hheld, hnone⟩ hspared
  cases hold : m.sessions.find wasId with
  | none =>
    rw [setScope_of_none hold] at hspared ⊢
    exact ⟨hk, hheld, hnone⟩
  | some old =>
    have hfresh : wasId ≠ fresh := by
      rintro rfl
      rw [hsess] at hold
      cases hold
    have hmoved : relocated (m.setScope now fresh wasId scope identity handoff).1.emitted k =
        if k = wasId then fresh else k := by
      simp only [setScope, hold]
      cases handoff <;> simp [relocated, Signal.relocate, upserted]
    have hsessions := (setScope_of_lookup hold now fresh scope identity handoff).2.1
    have hrotations (k : QByteArray) (hkn : m.rotations.find k = none) (hkw : k ≠ wasId) :
        (m.setScope now fresh wasId scope identity handoff).1.manager.rotations.find k = none := by
      cases handoff with
      | none => rwa [setScope_none_rotations]
      | keep => simp [setScope_keep_rotations hold, hkw, hkn]
    rw [hmoved]
    split
    · exact ⟨hne, by simp [hsessions], hrotations fresh hrot hfresh.symm⟩
    · rename_i hother
      refine ⟨hk, ?_, hrotations k hnone hother⟩
      rw [hsessions]
      split
      · rfl
      · exact hheld

/-- A relayed hand-off that is taken up leads to an id the table names. -/
def RelaySound (m : SessionManager) : StoreMessage → Prop
  | .sessionRotated from_ to_ => m.TakesRotation from_ to_ → m.Names to_
  | _ => True

instance (m : SessionManager) : (message : StoreMessage) → Decidable (m.RelaySound message)
  | .sessionRotated from_ to_ => inferInstanceAs (Decidable (m.TakesRotation from_ to_ → m.Names to_))
  | .sessionUpserted .. | .sessionRemoved _ => .isTrue trivial

theorem receive_survives (now : Int) {message : StoreMessage} (hs : m.RelaySound message) :
    m.Survives now (message.receive m now) := by
  cases message with
  | sessionUpserted token scope identity createdMs => exact (insertRecord_reports _ []).survives now
  | sessionRemoved token => exact (applyRemove_reports token).survives now
  | sessionRotated from_ to_ =>
    intro k ⟨hk, hheld, hnone⟩ hspared
    by_cases ht : m.TakesRotation from_ to_
    · obtain ⟨hto, htoheld, htonone⟩ := hs ht
      have hmoved : relocated (StoreMessage.receive m now (.sessionRotated from_ to_)).emitted k =
          if k = from_ then to_ else k := by
        obtain ⟨h1, h2, h3, h4⟩ := ht
        simp [StoreMessage.receive, applyRotation, h1, h2, h3, h4, relocated, Signal.relocate]
      rw [hmoved]
      simp only [Names, StoreMessage.receive, applyRotation_sessions, applyRotation_rotations]
      split
      · refine ⟨hto, ?_, ?_⟩
        · simpa [ht] using htoheld
        · rw [if_neg fun hback => ht.2.2.1 hback.2.symm]
          exact htonone
      · rename_i hother
        refine ⟨hk, ?_, ?_⟩
        · split
          · simpa using hheld
          · exact hheld
        · rw [if_neg fun hback => hother hback.2]
          exact hnone
    · have hsame : StoreMessage.receive m now (.sessionRotated from_ to_) = ⟨m, [], []⟩ := applyRotation_of_not ht
      rw [hsame]
      exact ⟨hk, hheld, hnone⟩

end SessionManager
end SynQt
