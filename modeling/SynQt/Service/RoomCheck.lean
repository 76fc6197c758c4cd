import SynQt.Service.TableCeiling

namespace SynQt
open Lib

namespace SessionManager
variable {m m' : SessionManager} {now : Int} {inUse : QByteArray → Bool}

private theorem tracked_act (h : Tracked m) (op : TableOp) : Tracked (m.act op) := by
  cases op with
  | createSession now inUse fresh scope identity =>
    have hpurged := h.purgeExpired now
    rcases m.createSession_answer now inUse fresh scope identity with
      ⟨-, -, -, hmanager⟩ | ⟨-, kept, record, hmanager, ⟨-, rfl⟩ | ⟨e, he, rfl⟩⟩
    · rw [act, hmanager]
      exact hpurged
    · rw [act, hmanager]
      exact hpurged.insertRecord record
    · rw [act, hmanager]
      exact (hpurged.evictOne he).1.insertRecord record
  | setScope now fresh id scope identity handoff => exact (setScope_keeps h now fresh.1 id scope identity handoff).1
  | revoke id => exact (revoke_keeps h id).1
  | revokeByKey keyFor key => exact (revokeByKey_keeps h keyFor key).1
  | applyUpsert token scope identity createdMs => exact h.insertRecord _
  | applyRotation now previous next => exact (applyRotation_keeps h now previous next).1
  | applyRemove token => exact (applyRemove_keeps h token).1
  | setMaximumSessions maximum | attachRemote => exact ⟨h.keyed, h.hinted, h.unhinted⟩

private theorem tracked_run (defaultScope : QString) (ttlMinutes : Int) (ops : List TableOp) :
    Tracked (run act (make defaultScope ttlMinutes) ops) :=
  run_invariant Tracked (fun _ op h => tracked_act h op) (tracked_make defaultScope ttlMinutes) ops

def pastTtl (m : SessionManager) (now : Int) (hint : Int × QByteArray) : Bool := decide (m.ttlMs < now - hint.1)

def overdue (m : SessionManager) (now : Int) : List (Int × QByteArray) :=
  if m.ttlMs ≤ 0 then [] else m.expiryQueue.takeWhile (m.pastTtl now)

def behind (m : SessionManager) (now : Int) : List (Int × QByteArray) :=
  if m.ttlMs ≤ 0 then m.expiryQueue else m.expiryQueue.dropWhile (m.pastTtl now)

def staying (m : SessionManager) (now : Int) : Hash QByteArray SessionRecord :=
  m.sessions.filter fun _ record => decide (hintOf record ∉ m.overdue now)

/-- What is left of a table when hints are drained, with the settings it had. -/
structure Drained (m swept : SessionManager) (gone rest : List (Int × QByteArray)) : Prop where
  finds : ∀ id, swept.sessions.find id = (m.sessions.find id).filter fun record => decide (hintOf record ∉ gone)
  queue : swept.expiryQueue = rest
  defaultScope : swept.defaultScope = m.defaultScope
  maximum : swept.maximumSessions = m.maximumSessions

private theorem filter_nil_gone (held : Option SessionRecord) :
    held = held.filter fun record => decide (hintOf record ∉ []) := by
  cases held with
  | none => rfl
  | some record => rfl

private theorem filter_cons_gone {held : Option SessionRecord} {hint : Int × QByteArray} (gone : List (Int × QByteArray))
    (h : ∀ record, held = some record → hintOf record ≠ hint) :
    held.filter (fun record => decide (hintOf record ∉ hint :: gone)) =
      held.filter fun record => decide (hintOf record ∉ gone) := by
  cases held with
  | none => rfl
  | some record =>
    have hne := h record rfl
    simp only [Option.filter_some, List.mem_cons, not_or, hne, not_false_eq_true, true_and]

theorem drainExpired_drained (queue : List (Int × QByteArray)) (m : SessionManager)
    (hkeyed : ∀ id record, m.sessions.find id = some record → record.id = id) :
    Drained m (drainExpired now m queue).1 (queue.takeWhile (m.pastTtl now)) (queue.dropWhile (m.pastTtl now)) := by
  induction queue generalizing m with
  | nil => exact ⟨fun id => filter_nil_gone (m.sessions.find id), rfl, rfl, rfl⟩
  | cons hint queue ih =>
    obtain ⟨createdMs, id⟩ := hint
    rw [drainExpired]
    by_cases hlive : now - createdMs ≤ m.ttlMs
    · have hpast : m.pastTtl now (createdMs, id) = false := decide_eq_false (Int.not_lt.mpr hlive)
      rw [if_pos hlive, List.takeWhile_cons_of_neg (by rw [hpast]; exact Bool.false_ne_true),
        List.dropWhile_cons_of_neg (by rw [hpast]; exact Bool.false_ne_true)]
      exact ⟨fun id => filter_nil_gone (m.sessions.find id), rfl, rfl, rfl⟩
    · have hpast : m.pastTtl now (createdMs, id) = true := decide_eq_true (Int.not_le.mp hlive)
      rw [if_neg hlive, List.takeWhile_cons_of_pos hpast, List.dropWhile_cons_of_pos hpast]
      -- A session the hint names lies under the hint's own id.
      have hid (k : QByteArray) (record : SessionRecord) (hr : m.sessions.find k = some record)
          (hhint : hintOf record = (createdMs, id)) : k = id :=
        (hkeyed k record hr).symm.trans (congrArg Prod.snd hhint)
      cases hfound : m.sessions.find id with
      | none =>
        obtain ⟨hfinds, hqueue, hscope, hmaximum⟩ := ih m hkeyed
        refine ⟨fun k => (hfinds k).trans (filter_cons_gone _ fun record hr hhint => ?_).symm, hqueue, hscope, hmaximum⟩
        rw [hid k record hr hhint, hfound] at hr
        cases hr
      | some record =>
        dsimp only
        by_cases hdate : record.createdMs = createdMs
        · obtain ⟨rotations, hdrop⟩ := m.dropRotationTo_eq record
          have hkeyed' (k : QByteArray) (r : SessionRecord) (hr : (m.sessions.erase id).find k = some r) : r.id = k := by
            rw [Hash.find_erase] at hr
            split at hr
            · cases hr
            · exact hkeyed k r hr
          obtain ⟨hfinds, hqueue, hscope, hmaximum⟩ :=
            ih { m with rotations := rotations, sessions := m.sessions.erase id, expiryQueue := queue } hkeyed'
          rw [if_pos hdate, hdrop]
          refine ⟨fun k => (hfinds k).trans ?_, hqueue, hscope, hmaximum⟩
          dsimp only
          rw [Hash.find_erase]
          split
          · next hk =>
            have hhint : hintOf record = (createdMs, id) := Prod.ext hdate (hkeyed id record hfound)
            rw [hk, hfound, Option.filter_some, hhint]
            simp
          · next hk =>
            exact (filter_cons_gone _ fun r hr hhint => hk (hid k r hr hhint)).symm
        · obtain ⟨hfinds, hqueue, hscope, hmaximum⟩ := ih m hkeyed
          rw [if_neg hdate]
          refine ⟨fun k => (hfinds k).trans (filter_cons_gone _ fun r hr hhint => ?_).symm, hqueue, hscope, hmaximum⟩
          rw [hid k r hr hhint, hfound] at hr
          cases hr
          exact hdate (congrArg Prod.fst hhint)

private theorem purgeExpired_drained (h : Tracked m) (now : Int) :
    Drained m (m.purgeExpired now).1 (m.overdue now) (m.behind now) := by
  rw [purgeExpired, overdue, behind]
  by_cases hnone : m.ttlMs ≤ 0
  · have hswept : (m.sweepRotations now).ttlMs ≤ 0 := hnone
    rw [if_pos hswept, if_pos hnone, if_pos hnone]
    exact ⟨fun id => filter_nil_gone (m.sessions.find id), rfl, rfl, rfl⟩
  · have hswept : ¬ (m.sweepRotations now).ttlMs ≤ 0 := hnone
    rw [if_neg hswept, if_neg hnone, if_neg hnone]
    obtain ⟨hfinds, hqueue, hscope, hmaximum⟩ : Drained (m.sweepRotations now)
        (drainExpired now (m.sweepRotations now) m.expiryQueue).1 _ _ := drainExpired_drained m.expiryQueue _ h.keyed
    exact ⟨hfinds, hqueue, hscope, hmaximum⟩

/-- The table as a sweep leaves it. -/
def after (m : SessionManager) (now : Int) : SessionManager :=
  { m with sessions := m.staying now, expiryQueue := m.behind now }

/-- One that eviction may take is named by the first of the hints. -/
def InReach (m : SessionManager) (inUse : QByteArray → Bool) (hints : List (Int × QByteArray)) : Prop :=
  ∃ hint ∈ hints.take evictionSearchDepth, (m.evictable inUse hint).isSome = true

def Roomy (m : SessionManager) (inUse : QByteArray → Bool) : Prop := ¬ Full m ∨ m.InReach inUse m.expiryQueue

/-- The table is full and eviction may take none of those in reach; but of the sessions so many have expired that a place
is free without them, or that one behind their hints comes into reach. -/
structure Relieved (m : SessionManager) (now : Int) (inUse : QByteArray → Bool) : Prop where
  full : Full m
  unreached : ¬ m.InReach inUse m.expiryQueue
  sweeps : (m.staying now).size < m.maximumSessions ∨
    ∃ hint ∈ (m.behind now).take evictionSearchDepth, (m.evictable inUse hint).isSome = true ∧ hint ∉ m.overdue now

/-- The sessions that have not expired fill the table by themselves; and one of those in reach may be taken, but whichever
may, now or once the expired ones are gone, has expired. -/
structure Overrun (m : SessionManager) (now : Int) (inUse : QByteArray → Bool) : Prop where
  limited : 0 < m.maximumSessions
  full : m.maximumSessions ≤ (m.staying now).size
  reached : m.InReach inUse m.expiryQueue
  expired : ∀ hint, hint ∈ m.expiryQueue.take evictionSearchDepth ∨ hint ∈ (m.behind now).take evictionSearchDepth →
    (m.evictable inUse hint).isSome = true → hint ∈ m.overdue now

private theorem hasRoom_iff (m : SessionManager) (inUse : QByteArray → Bool) : m.hasRoom inUse = true ↔ m.Roomy inUse := by
  rw [hasRoom, Roomy, Full]
  by_cases hfull : 0 < m.maximumSessions ∧ m.maximumSessions ≤ m.sessions.size
  · have hnot : (m.maximumSessions == 0 || decide (m.sessions.size < m.maximumSessions)) = false := by
      rw [Bool.or_eq_false_iff, beq_eq_false_iff_ne, decide_eq_false_iff_not]
      omega
    rw [hnot, if_neg Bool.false_ne_true, List.any_eq_true]
    exact ⟨.inr, fun h => h.resolve_left fun hnone => hnone hfull⟩
  · have hyes : (m.maximumSessions == 0 || decide (m.sessions.size < m.maximumSessions)) = true := by
      rw [Bool.or_eq_true, beq_iff_eq, decide_eq_true_eq]
      omega
    rw [hyes, if_pos rfl]
    exact iff_of_true rfl (.inl hfull)

private theorem evictOne_iff (m : SessionManager) (inUse : QByteArray → Bool) :
    m.evictOne inUse = none ↔
      ¬ m.InReach inUse m.expiryQueue := by
  rcases evictOne_cases inUse m with ⟨hnone, hall⟩ | ⟨hint, record, e, he, hin, hrecord, -⟩
  · refine iff_of_true hnone ?_
    rintro ⟨hint, hin, hsome⟩
    rw [hall hint hin] at hsome
    cases hsome
  · refine iff_of_false (fun hnone => ?_) fun hno => hno ⟨hint, hin, Option.isSome_of_eq_some hrecord⟩
    rw [he] at hnone
    cases hnone

private theorem createSession_iff (h : Tracked m) (now : Int) (inUse : QByteArray → Bool) (fresh : Token)
    (scope : QString) (identity : QVariantMap) :
    (m.createSession now inUse fresh.1 scope identity).2 ≠ [] ↔ (m.after now).Roomy inUse := by
  obtain ⟨hfinds, hqueue, hscope, hmaximum⟩ := purgeExpired_drained h now
  have hsame (id : QByteArray) : (m.purgeExpired now).1.sessions.find id = (m.staying now).find id := by
    rw [hfinds, staying, Hash.find_filter]
  have hfull : Full (m.purgeExpired now).1 ↔ Full (m.after now) := by
    rw [Full, Full, hmaximum, Hash.size_eq_of_find hsame]
    exact Iff.rfl
  have hevictable (hint : Int × QByteArray) :
      (m.purgeExpired now).1.evictable inUse hint = (m.after now).evictable inUse hint := by
    simp only [evictable, isEvictable, hsame, hscope]
    rfl
  have hroomy : (m.purgeExpired now).1.Roomy inUse ↔ (m.after now).Roomy inUse := by
    simp only [Roomy, InReach, hfull, hqueue, hevictable]
    exact Iff.rfl
  rw [← hroomy]
  rcases m.createSession_answer now inUse fresh scope identity with
    ⟨hfilled, hnone, hrefused, -⟩ | ⟨hanswer, -, -, -, ⟨hroom, -⟩ | ⟨e, he, -⟩⟩
  · refine iff_of_false (fun hne => hne hrefused) ?_
    rintro (hroom | hsome)
    · exact hroom hfilled
    · exact (evictOne_iff _ inUse).mp hnone hsome
  · exact iff_of_true hanswer (.inl hroom)
  · refine iff_of_true hanswer (.inr ?_)
    by_contra hno
    rw [(evictOne_iff _ inUse).mpr hno] at he
    cases he

/-- A hint in reach that is not overdue is in reach behind those that are. -/
private theorem mem_reach_behind {hint : Int × QByteArray} (hin : hint ∈ m.expiryQueue.take evictionSearchDepth)
    (hlasting : hint ∉ m.overdue now) : hint ∈ (m.behind now).take evictionSearchDepth := by
  have hqueue : m.expiryQueue = m.overdue now ++ m.behind now := by
    rw [overdue, behind]
    split
    · rfl
    · exact (List.takeWhile_append_dropWhile).symm
  rw [hqueue, List.take_append] at hin
  rcases List.mem_append.mp hin with hgone | hbehind
  · exact absurd (List.mem_of_mem_take hgone) hlasting
  · exact (List.take_subset_take_left _ (Nat.sub_le _ _)) hbehind

private theorem evictable_after (h : Tracked m) (hint : Int × QByteArray) :
    ((m.after now).evictable inUse hint).isSome = true ↔
      (m.evictable inUse hint).isSome = true ∧ hint ∉ m.overdue now := by
  have hfind : (m.after now).sessions.find hint.2 =
      (m.sessions.find hint.2).filter fun record => decide (hintOf record ∉ m.overdue now) := Hash.find_filter _ _ _
  rw [evictable, hfind, evictable]
  cases hfound : m.sessions.find hint.2 with
  | none => simp
  | some record =>
    by_cases hdate : record.createdMs = hint.1
    · have hhint : hintOf record = hint := Prod.ext hdate (h.keyed _ _ hfound)
      by_cases hgone : hint ∈ m.overdue now
      · simp [hhint, hgone]
      · have hfits : (m.after now).isEvictable inUse record = m.isEvictable inUse record := rfl
        simp [hhint, hgone, hfits]
    · have hother : (record.createdMs == hint.1) = false := beq_false_of_ne hdate
      simp [Option.filter_some, hother, apply_ite]

private theorem roomy_agree_iff {full full' reached reached' : Prop} (hfull : full' → full) :
    (¬ full ∨ reached ↔ ¬ full' ∨ reached') ↔
      ¬ (full ∧ ¬ reached ∧ (¬ full' ∨ reached')) ∧ ¬ (full' ∧ reached ∧ ¬ reached') := by
  tauto

/-- There is room before a sweep and none after it, or the other way round, in two ways. -/
theorem roomy_after_iff (h : Tracked m) (now : Int) (inUse : QByteArray → Bool) :
    (m.Roomy inUse ↔ (m.after now).Roomy inUse) ↔ ¬ m.Relieved now inUse ∧ ¬ m.Overrun now inUse := by
  have hfull : Full (m.after now) → Full m := fun hfull => ⟨hfull.1, Nat.le_trans hfull.2 (Hash.size_filter_le _ _)⟩
  have hafter : (m.after now).InReach inUse (m.after now).expiryQueue ↔
      ∃ hint ∈ (m.behind now).take evictionSearchDepth, (m.evictable inUse hint).isSome = true ∧ hint ∉ m.overdue now :=
    exists_congr fun hint => and_congr_right fun _ => evictable_after h hint
  have hrelieved : m.Relieved now inUse ↔ Full m ∧ ¬ m.InReach inUse m.expiryQueue ∧
      (¬ Full (m.after now) ∨ (m.after now).InReach inUse (m.after now).expiryQueue) := by
    rw [hafter]
    constructor
    · rintro ⟨hfull, hnone, hplace | hreach⟩
      · exact ⟨hfull, hnone, .inl fun hstill => absurd hstill.2 (Nat.not_le.mpr hplace)⟩
      · exact ⟨hfull, hnone, .inr hreach⟩
    · rintro ⟨hfull, hnone, hplace | hreach⟩
      · exact ⟨hfull, hnone, .inl (Nat.not_le.mp fun hstill => hplace ⟨hfull.1, hstill⟩)⟩
      · exact ⟨hfull, hnone, .inr hreach⟩
  have hoverrun : m.Overrun now inUse ↔ Full (m.after now) ∧ m.InReach inUse m.expiryQueue ∧
      ¬ (m.after now).InReach inUse (m.after now).expiryQueue := by
    rw [hafter]
    constructor
    · rintro ⟨hlimited, hstill, hreach, hexpired⟩
      exact ⟨⟨hlimited, hstill⟩, hreach, fun ⟨hint, hin, hfits, hlasting⟩ => hlasting (hexpired hint (.inr hin) hfits)⟩
    · rintro ⟨hstill, hreach, hnone⟩
      refine ⟨hstill.1, hstill.2, hreach, fun hint hin hfits => ?_⟩
      by_contra hlasting
      exact hnone ⟨hint, hin.elim (fun hnow => mem_reach_behind hnow hlasting) id, hfits, hlasting⟩
  rw [hrelieved, hoverrun, Roomy, Roomy]
  exact roomy_agree_iff hfull

/-- In every state a run reaches and at every instant, the answer is what a creation would find, but for two kinds of
full tables: one a sweep makes room in, and one it leaves as full with nothing to take. -/
theorem hasRoom_tells_iff (defaultScope : QString) (ttlMinutes : Int) (ops : List TableOp) (now : Int)
    (inUse : QByteArray → Bool) (fresh : Token) (scope : QString) (identity : QVariantMap) :
    let m := run act (make defaultScope ttlMinutes) ops
    (m.hasRoom inUse = true ↔ (m.createSession now inUse fresh.1 scope identity).2 ≠ []) ↔
      ¬ m.Relieved now inUse ∧ ¬ m.Overrun now inUse := by
  intro m
  have htracked : Tracked m := tracked_run defaultScope ttlMinutes ops
  rw [hasRoom_iff, createSession_iff htracked, roomy_after_iff htracked]

/-- One session allowed, and the one there is signed in; it has expired by the time it is asked. -/
def outlived : List TableOp := [
  .setMaximumSessions 1,
  .createSession 0 (fun _ => false) ⟨[3], by decide⟩ "" [("sub", "ada")]]

/-- There is said to be no room, and a creation gives a session. -/
theorem outlived_refused :
    let m := run act (make "anonymous" 1) outlived
    ¬ (m.hasRoom (fun _ => false) = true ↔ (m.createSession 60001 (fun _ => false) [2] "" []).2 ≠ []) := by
  decide

end SessionManager
end SynQt
