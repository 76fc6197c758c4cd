import SynQt.Service.Endings
import SynQt.Service.Fixation

namespace SynQt
open Lib SessionManager Function List

namespace SessionManager
variable {m : SessionManager} {now : Int} {id : QByteArray}

def overdueIds (m : SessionManager) (now : Int) : List QByteArray :=
  (m.sessions.entries.filter fun entry => decide (0 < m.ttlMs ∧ m.ttlMs < now - entry.2.createdMs)).map Prod.fst

private theorem mem_overdueIds : id ∈ m.overdueIds now ↔ m.Overdue now id := by
  rw [overdueIds, mem_map]
  constructor
  · rintro ⟨⟨id, record⟩, hin, rfl⟩
    obtain ⟨hentry, hpast⟩ := mem_filter.mp hin
    exact ⟨record, (Hash.mem_entries _ _ _).mp hentry, of_decide_eq_true hpast⟩
  · rintro ⟨record, hrecord, hpast⟩
    exact ⟨(id, record), mem_filter.mpr ⟨(Hash.mem_entries _ _ _).mpr hrecord, decide_eq_true hpast⟩, rfl⟩

private theorem isLive_iff : m.isLive now id = true ↔
    ∃ record, m.sessions.find id = some record ∧ ¬(0 < m.ttlMs ∧ m.ttlMs < now - record.createdMs) := by
  unfold isLive lookup
  cases h : m.sessions.find id with
  | none => simp
  | some record =>
    simp only [Option.some.injEq, exists_eq_left']
    split
    · next hpast => exact iff_of_false (by simp) (not_not_intro hpast)
    · next hpast => exact iff_of_true rfl hpast

private theorem not_isLive_of_overdue (h : m.Overdue now id) : m.isLive now id ≠ true := by
  obtain ⟨record, hrecord, hpast⟩ := h
  rw [Ne, isLive_iff]
  rintro ⟨record', hrecord', hfresh⟩
  obtain rfl := Option.some.inj (hrecord.symm.trans hrecord')
  exact hfresh hpast

/-- At most one record of the second table is new, of the id and the date given. -/
structure Grows (m m' : SessionManager) (born : Option (QByteArray × Int)) : Prop where
  ttlMs : m'.ttlMs = m.ttlMs
  records : ∀ id record, m'.sessions.find id = some record → born = some (id, record.createdMs) ∨
    ((∀ createdMs, born ≠ some (id, createdMs)) ∧
      ∃ before, m.sessions.find id = some before ∧ before.createdMs = record.createdMs)
  present : ∀ id createdMs, born = some (id, createdMs) →
    ∃ record, m'.sessions.find id = some record ∧ record.createdMs = createdMs

theorem Within.grows {m' : SessionManager} (h : m'.Within m) : m.Grows m' none where
  ttlMs := h.ttlMs
  records id record hrecord := .inr ⟨fun _ hborn => absurd hborn.symm (Option.some_ne_none _), record, h.sessions id record hrecord, rfl⟩
  present _ _ hborn := absurd hborn.symm (Option.some_ne_none _)

private theorem grows_insert {m' : SessionManager} (kept : SessionManager) (record : SessionRecord) (httl : m'.ttlMs = m.ttlMs)
    (hkept : ∀ k r, kept.sessions.find k = some r → m.sessions.find k = some r)
    (hm' : ∀ k, m'.sessions.find k = if k = record.id then some record else kept.sessions.find k) :
    m.Grows m' (some (record.id, record.createdMs)) where
  ttlMs := httl
  records k r hr := by
    rw [hm'] at hr
    by_cases hk : k = record.id
    · rw [if_pos hk] at hr
      obtain rfl := Option.some.inj hr
      exact .inl (hk ▸ rfl)
    · rw [if_neg hk] at hr
      refine .inr ⟨fun createdMs hborn => hk ?_, r, hkept k r hr, rfl⟩
      exact (Prod.mk.inj (Option.some.inj hborn)).1.symm
  present k createdMs hborn := by
    obtain ⟨rfl, rfl⟩ := Prod.mk.inj (Option.some.inj hborn)
    exact ⟨record, by rw [hm', if_pos rfl], rfl⟩

end SessionManager

namespace SessionRun

def answer (s : SessionRun) : SessionOp → QByteArray
  | .createSession inUse fresh scope identity => (s.manager.createSession s.now inUse fresh scope identity).2
  | .setScope fresh id scope identity handoff => (s.manager.setScope s.now fresh id scope identity handoff).2
  | _ => []

/-- The record the operation stores: its id and its date. -/
def born (s : SessionRun) : SessionOp → Option (QByteArray × Int)
  | .createSession inUse fresh scope identity =>
    let id := s.answer (.createSession inUse fresh scope identity)
    if id = [] then none else some (id, s.now)
  | .setScope fresh id scope identity handoff =>
    let next := s.answer (.setScope fresh id scope identity handoff)
    if next = [] then none else some (next, s.now)
  | .applyUpsert token _ _ createdMs => some (token, createdMs)
  | _ => none

variable (s : SessionRun)

theorem grows {op : SessionOp} (h : s.Admitted op) :
    s.manager.Grows (s.step op).manager (s.born op) := by
  cases op with
  | createSession inUse fresh scope identity =>
    rcases s.manager.createSession_cases s.now inUse fresh scope identity with
      ⟨hid, hw, -⟩ | ⟨hid, kept, -, hw, hm, -⟩
    · have hborn : s.born (.createSession inUse fresh scope identity) = none := if_pos hid
      rw [hborn]
      exact hw.grows
    · have hborn : s.born (.createSession inUse fresh scope identity) = some (fresh, s.now) := by
        simp only [born, answer, hid, if_neg h.1]
      rw [hborn]
      refine grows_insert kept (s.manager.minted s.now fresh scope identity) ?_ hw.sessions ?_
      · simp only [step, hm, insertRecord_ttlMs, hw.ttlMs]
      · intro k
        simp only [step, hm, insertRecord_sessions, Hash.find_insert]
  | setScope fresh id scope identity handoff =>
    cases hid : s.manager.sessions.find id with
    | none =>
      have hborn : s.born (.setScope fresh id scope identity handoff) = none := by
        simp only [born, answer, setScope_of_none hid, if_true]
      rw [hborn]
      simp only [step, setScope_of_none hid]
      exact (SessionManager.Within.refl s.manager).grows
    | some old =>
      obtain ⟨hr, hs, -⟩ := setScope_of_lookup hid s.now fresh scope identity handoff
      have hborn : s.born (.setScope fresh id scope identity handoff) = some (fresh, s.now) := by
        simp only [born, answer, hr, if_neg h.1]
      rw [hborn]
      refine grows_insert { s.manager with sessions := s.manager.sessions.erase id }
        (s.manager.elevated s.now fresh id old scope identity handoff) ?_ ?_ ?_
      · exact (setScope_settings id s.now fresh scope identity handoff).1
      · intro k r hk
        rw [Hash.find_erase] at hk
        split at hk
        · cases hk
        · exact hk
      · intro k
        simp only [step, hs, Hash.find_erase]
        rfl
  | revoke id => exact (revoke_within id).grows
  | applyUpsert token scope identity createdMs =>
    refine grows_insert s.manager ⟨token, scope, identity, createdMs, []⟩ ?_
      (fun _ _ => id) fun k => ?_
    · simp only [step, applyUpsert, insertRecord_ttlMs]
    · simp only [step, applyUpsert, insertRecord_sessions, Hash.find_insert]
  | applyRotation previous next =>
    refine ⟨applyRotation_ttlMs previous next, fun k r hr => ?_, fun _ _ hborn => absurd hborn.symm (Option.some_ne_none _)⟩
    refine .inr ⟨fun _ hborn => absurd hborn.symm (Option.some_ne_none _), ?_⟩
    simp only [step, applyRotation_sessions] at hr
    split at hr
    · obtain ⟨before, hbefore, rfl⟩ := Option.map_eq_some_iff.mp hr
      exact ⟨before, hbefore, rfl⟩
    · exact ⟨r, hr, rfl⟩
  | applyRemove token => exact (applyRemove_within token).grows
  | sweep => exact (purgeExpired_within s.manager s.now).grows
  | advance ms => exact (SessionManager.Within.refl s.manager).grows

theorem age_step_of_pos (op : SessionOp) {id : QByteArray} (h : 0 < s.ledger.age id) :
    0 < (s.step op).ledger.age id := by
  have hlearn : ∀ (L : Ledger) (k : QByteArray), 0 < L.age id → 0 < (L.learn k).age id := by
    intro L k hid
    unfold Ledger.learn
    split
    · next hk =>
      have hne : id ≠ k := by
        rintro rfl
        omega
      show 0 < update L.age k (L.count + 1) id
      rw [update_of_ne hne]
      exact hid
    · exact hid
  cases op with
  | createSession inUse fresh scope identity | setScope fresh k scope identity handoff =>
    simp only [step]
    split
    · exact h
    · exact hlearn _ _ h
  | applyUpsert token scope identity createdMs => exact hlearn _ _ h
  | applyRotation previous next =>
    simp only [step]
    split
    · exact h
    · unfold Ledger.relate
      simp only
      split
      · exact hlearn _ _ (hlearn _ _ h)
      · exact hlearn _ _ (hlearn _ _ h)
  | revoke k | applyRemove token | sweep | advance ms => exact h

private theorem age_learn (L : Ledger) (id : QByteArray) : 0 < (L.learn id).age id := by
  unfold Ledger.learn
  split
  · show 0 < update L.age id (L.count + 1) id
    rw [update_self]
    exact Nat.succ_pos _
  · omega

/-- A record a creation or an elevation stores is under the id it answers. -/
theorem ite_eq_some {next id : QByteArray} {now createdMs : Int} (h : (if next = [] then none else some (next, now)) = some (id, createdMs)) :
    next ≠ [] ∧ next = id := by
  by_cases hne : next = []
  · rw [if_pos hne] at h
    cases h
  · rw [if_neg hne] at h
    exact ⟨hne, (Prod.mk.inj (Option.some.inj h)).1⟩

private theorem age_born (op : SessionOp) {id : QByteArray} {createdMs : Int} (h : s.born op = some (id, createdMs)) :
    0 < (s.step op).ledger.age id := by
  cases op with
  | createSession inUse fresh scope identity =>
    obtain ⟨hne, rfl⟩ := ite_eq_some h
    have hne' : (s.manager.createSession s.now inUse fresh scope identity).2 ≠ [] := hne
    simp only [step, List.isEmpty_iff, if_neg hne']
    exact age_learn _ _
  | setScope fresh k scope identity handoff =>
    obtain ⟨hne, rfl⟩ := ite_eq_some h
    have hne' : (s.manager.setScope s.now fresh k scope identity handoff).2 ≠ [] := hne
    simp only [step, List.isEmpty_iff, if_neg hne']
    exact age_learn _ _
  | applyUpsert token scope identity createdMs' =>
    obtain ⟨rfl, rfl⟩ := Prod.mk.inj (Option.some.inj h)
    exact age_learn _ _
  | revoke k | applyRotation previous next | applyRemove token | sweep | advance ms => cases h

private theorem age_relate (L : Ledger) (previous next : QByteArray) : 0 < (L.relate previous next).age next := by
  unfold Ledger.relate
  simp only
  split
  · exact age_learn _ _
  · exact age_learn _ _

private theorem now_le_step (op : SessionOp) : s.now ≤ (s.step op).now := by
  cases op with
  | advance ms => exact Int.le_add_of_nonneg_right (Int.natCast_nonneg ms)
  | _ => exact Int.le_refl _

/-- An id that is answered is that of the record stored, and it is stored now. -/
theorem born_of_answer {op : SessionOp} (h : s.answer op ≠ []) :
    s.born op = some (s.answer op, s.now) ∧ (s.step op).now = s.now := by
  cases op with
  | createSession inUse fresh scope identity | setScope fresh k scope identity handoff => exact ⟨if_neg h, rfl⟩
  | _ => exact absurd rfl h

end SessionRun

/-- A run, and what it has seen of the sessions that outlived their time-to-live: their ids and those made
from them, and which sign-ins' identities they bore. A sign-in is numbered as its identity is first stored. -/
structure Ageing where
  run : SessionRun
  ended : List QByteArray
  bearing : QByteArray → Nat
  spent : List Nat
  signIns : Nat
  answer : QByteArray

namespace Ageing

def start (defaultScope : QString) (ttlMinutes maximum now : Int) : Ageing where
  run := .start defaultScope ttlMinutes maximum now
  ended := []
  bearing := fun _ => 0
  spent := []
  signIns := 0
  answer := []

def heirs (a : Ageing) : SessionOp → List QByteArray
  | .setScope fresh id scope identity handoff =>
    let next := a.run.answer (.setScope fresh id scope identity handoff)
    if id ∈ a.ended ∧ next ≠ [] then [next] else []
  | .applyRotation previous next =>
    if previous ∈ a.ended ∧ a.run.manager.TakesRotation previous next then [next] else []
  | _ => []

/-- Whose identity the record an operation stores bears: an elevation that names none keeps the one it had. -/
def borne (a : Ageing) : SessionOp → Nat
  | .setScope _ id _ identity _ => if identity.isEmpty then a.bearing id else a.signIns
  | _ => a.signIns

def step (a : Ageing) (op : SessionOp) : Ageing :=
  let run := a.run.step op
  let bearing := match a.run.born op with
    | some (id, _) => update a.bearing id (a.borne op)
    | none => a.bearing
  { run := run
    ended := run.manager.overdueIds run.now ++ a.heirs op ++ a.ended
    bearing := bearing
    spent := (run.manager.overdueIds run.now).map bearing ++ a.spent
    signIns := a.signIns + 1
    answer := a.run.answer op }

/-- No ended session, and no session made from one, is live, is what a hand-off leads to, or was just answered;
and no live session bears the identity of one. -/
structure Final (a : Ageing) : Prop where
  looked : ∀ id record, a.run.manager.lookup a.run.now id = some record → id ∉ a.ended ∧ a.bearing id ∉ a.spent
  handed : ∀ id, a.run.manager.rotationOf a.run.now id ≠ [] → a.run.manager.rotationOf a.run.now id ∉ a.ended
  answered : a.answer ≠ [] → a.answer ∉ a.ended

/-- An elevation of a session that has not outlived its time-to-live, and a relay that brings no ended session
back: neither under its own id nor as what it was rotated into. -/
def Respects (a : Ageing) : SessionOp → Prop
  | .setScope _ id _ _ _ => ¬a.run.manager.Overdue a.run.now id
  | .applyUpsert token _ _ createdMs =>
    token ∈ a.ended → 0 < a.run.manager.ttlMs ∧ a.run.manager.ttlMs < a.run.now - createdMs
  | .applyRotation previous next => previous ∈ a.ended → a.run.manager.TakesRotation previous next →
    a.run.manager.isLive a.run.now next ≠ true
  | _ => True

structure Inv (a : Ageing) : Prop where
  final : ∀ id, a.run.manager.isLive a.run.now id = true → id ∉ a.ended ∧ a.bearing id ∉ a.spent
  overdue : ∀ id, a.run.manager.Overdue a.run.now id → id ∈ a.ended
  named : ∀ id record, a.run.manager.sessions.find id = some record → 0 < a.run.ledger.age id
  known : ∀ id ∈ a.ended, 0 < a.run.ledger.age id
  numbered : ∀ id record, a.run.manager.sessions.find id = some record → a.bearing id < a.signIns
  alone : ∀ id id' record record', a.run.manager.sessions.find id = some record →
    a.run.manager.sessions.find id' = some record' → a.bearing id = a.bearing id' → id = id'
  past : ∀ n ∈ a.spent, n < a.signIns

variable {a : Ageing} {op : SessionOp}

variable {id : QByteArray}

private theorem bearing_born {createdMs : Int} (h : a.run.born op = some (id, createdMs)) :
    (a.step op).bearing id = a.borne op := by
  simp only [step, h, update_self]

private theorem bearing_of_not_born (h : ∀ createdMs, a.run.born op ≠ some (id, createdMs)) :
    (a.step op).bearing id = a.bearing id := by
  simp only [step]
  split
  · next id' createdMs hborn =>
    have hne : id ≠ id' := by
      rintro rfl
      exact h createdMs hborn
    rw [update_of_ne hne]
  · rfl

private theorem mem_ended_step : id ∈ (a.step op).ended ↔
    (a.step op).run.manager.Overdue (a.step op).run.now id ∨ id ∈ a.heirs op ∨ id ∈ a.ended := by
  simp only [step, mem_append, mem_overdueIds, or_assoc]

private theorem mem_spent_step {n : Nat} : n ∈ (a.step op).spent ↔
    (∃ id, (a.step op).run.manager.Overdue (a.step op).run.now id ∧ (a.step op).bearing id = n) ∨ n ∈ a.spent := by
  simp only [step, mem_append, mem_map, mem_overdueIds]

/-- A session that is live after a step was live before it, or is the one the step stored. -/
theorem isLive_of_step (hadm : a.run.Admitted op)
    (h : (a.step op).run.manager.isLive (a.step op).run.now id = true) :
    (∃ createdMs, a.run.born op = some (id, createdMs)) ∨
      ((∀ createdMs, a.run.born op ≠ some (id, createdMs)) ∧ a.run.manager.isLive a.run.now id = true) := by
  have hgrows := a.run.grows hadm
  have hnow := a.run.now_le_step op
  obtain ⟨record, hrecord, hfresh⟩ := isLive_iff.mp h
  rcases hgrows.records id record hrecord with hborn | ⟨hnot, before, hbefore, hdate⟩
  · exact .inl ⟨_, hborn⟩
  · refine .inr ⟨hnot, isLive_iff.mpr ⟨before, hbefore, fun hpast => hfresh ?_⟩⟩
    rw [hdate] at hpast
    refine ⟨hgrows.ttlMs.symm ▸ hpast.1, ?_⟩
    have httl : (a.step op).run.manager.ttlMs = a.run.manager.ttlMs := hgrows.ttlMs
    have hnow' : a.run.now ≤ (a.step op).run.now := hnow
    omega

private theorem borne_eq (a : Ageing) (op : SessionOp) : a.borne op = a.signIns ∨
    ∃ fresh id scope identity handoff, op = .setScope fresh id scope identity handoff ∧ a.borne op = a.bearing id := by
  cases op with
  | setScope fresh id scope identity handoff =>
    by_cases hid : identity.isEmpty = true
    · exact .inr ⟨fresh, id, scope, identity, handoff, rfl, if_pos hid⟩
    · exact .inl (if_neg hid)
  | _ => exact .inl rfl

private theorem elevated_gone (h : Inv a) {fresh id : QByteArray} {scope : QString} {identity : QVariantMap} {handoff : Handoff}
    (hadm : a.run.Admitted (.setScope fresh id scope identity handoff)) {next : QByteArray} {createdMs : Int}
    (hborn : a.run.born (.setScope fresh id scope identity handoff) = some (next, createdMs)) :
    next = fresh ∧ (∃ record, a.run.manager.sessions.find id = some record) ∧
      (a.run.step (.setScope fresh id scope identity handoff)).manager.sessions.find id = none := by
  cases hid : a.run.manager.sessions.find id with
  | none =>
    simp only [SessionRun.born, SessionRun.answer, setScope_of_none hid, if_true] at hborn
    cases hborn
  | some record =>
    obtain ⟨hr, hs, -⟩ := setScope_of_lookup hid a.run.now fresh scope identity handoff
    simp only [SessionRun.born, SessionRun.answer, hr, if_neg hadm.1] at hborn
    obtain ⟨rfl, -⟩ := Prod.mk.inj (Option.some.inj hborn)
    have hne : id ≠ fresh := by
      rintro rfl
      exact absurd (h.named id record hid) (by rw [hadm.2]; exact Nat.lt_irrefl 0)
    refine ⟨rfl, ⟨record, rfl⟩, ?_⟩
    simp only [SessionRun.step, hs, if_neg hne, if_true]

namespace Inv

section
variable (h : Inv a)
include h

private theorem numbered_step (hadm : a.run.Admitted op) {id : QByteArray} {record : SessionRecord}
    (hrecord : (a.step op).run.manager.sessions.find id = some record) : (a.step op).bearing id < a.signIns + 1 := by
  rcases (a.run.grows hadm).records id record hrecord with hborn | ⟨hnot, before, hbefore, -⟩
  · rw [bearing_born hborn]
    rcases a.borne_eq op with hnew | ⟨fresh, id', scope, identity, handoff, rfl, hkeeps⟩
    · omega
    · obtain ⟨-, ⟨old, hold⟩, -⟩ := elevated_gone h hadm hborn
      have := h.numbered id' old hold
      omega
  · rw [bearing_of_not_born hnot]
    have := h.numbered id before hbefore
    omega

/-- Only the record stored could share another's number, and the one it took it from is gone. -/
theorem alone_step (hadm : a.run.Admitted op) {id id' : QByteArray} {record record' : SessionRecord}
    (hrecord : (a.step op).run.manager.sessions.find id = some record)
    (hrecord' : (a.step op).run.manager.sessions.find id' = some record')
    (hsame : (a.step op).bearing id = (a.step op).bearing id') : id = id' := by
  have hapart : ∀ {k k' : QByteArray} {r' : SessionRecord} {createdMs : Int}, a.run.born op = some (k, createdMs) →
      (∀ createdMs, a.run.born op ≠ some (k', createdMs)) → (a.step op).run.manager.sessions.find k' = some r' →
      (∃ before, a.run.manager.sessions.find k' = some before ∧ before.createdMs = r'.createdMs) →
      (a.step op).bearing k ≠ (a.step op).bearing k' := by
    intro k k' r' createdMs hborn hnot hthere hbefore heq
    obtain ⟨before, hbefore, -⟩ := hbefore
    rw [bearing_born hborn, bearing_of_not_born hnot] at heq
    rcases a.borne_eq op with hnew | ⟨fresh, id', scope, identity, handoff, rfl, hkeeps⟩
    · have := h.numbered k' before hbefore
      omega
    · obtain ⟨-, ⟨old, hold⟩, hgone⟩ := elevated_gone h hadm hborn
      have hid : id' = k' := h.alone id' k' old before hold hbefore (hkeeps.symm.trans heq)
      have hthere' : (a.run.step (.setScope fresh id' scope identity handoff)).manager.sessions.find k' = some r' := hthere
      rw [← hid, hgone] at hthere'
      cases hthere'
  rcases (a.run.grows hadm).records id record hrecord with hborn | ⟨hnot, hbefore⟩ <;>
    rcases (a.run.grows hadm).records id' record' hrecord' with hborn' | ⟨hnot', hbefore'⟩
  · exact (Prod.mk.inj (Option.some.inj (hborn.symm.trans hborn'))).1
  · exact absurd hsame (hapart hborn hnot' hrecord' hbefore')
  · exact absurd hsame.symm (hapart hborn' hnot hrecord hbefore)
  · obtain ⟨before, hbefore, -⟩ := hbefore
    obtain ⟨before', hbefore', -⟩ := hbefore'
    rw [bearing_of_not_born hnot, bearing_of_not_born hnot'] at hsame
    exact h.alone id id' before before' hbefore hbefore' hsame

/-- Nothing made from an ended session is live, and the record stored is under no ended id and bears no
ended identity. -/
def Spared (a : Ageing) (op : SessionOp) : Prop :=
  ∀ id, (a.step op).run.manager.isLive (a.step op).run.now id = true →
    id ∉ a.heirs op ∧ ∀ createdMs, a.run.born op = some (id, createdMs) → id ∉ a.ended ∧ a.borne op ∉ a.spent

private theorem fresh_not_mem {fresh : QByteArray} (hf : a.run.Fresh fresh) : fresh ∉ a.ended :=
  fun hin => absurd (h.known fresh hin) (by rw [hf.2]; exact Nat.lt_irrefl 0)

private theorem signIns_not_mem : a.signIns ∉ a.spent := fun hin => absurd (h.past _ hin) (Nat.lt_irrefl _)

theorem spared (hadm : a.run.Admitted op) (hrespects : a.Respects op) : Spared a op := by
  intro id hlive
  cases op with
  | createSession inUse fresh scope identity =>
    refine ⟨not_mem_nil, fun createdMs hborn => ⟨?_, h.signIns_not_mem⟩⟩
    obtain ⟨hne, heq⟩ := SessionRun.ite_eq_some hborn
    rcases a.run.manager.createSession_cases a.run.now inUse fresh scope identity with ⟨hid, -⟩ | ⟨hid, -⟩
    · exact absurd hid hne
    · have hfresh : fresh = id := hid.symm.trans heq
      exact hfresh ▸ h.fresh_not_mem hadm
  | setScope fresh k scope identity handoff =>
    cases hk : a.run.manager.sessions.find k with
    | none =>
      have hanswer : a.run.answer (.setScope fresh k scope identity handoff) = [] := by
        simp only [SessionRun.answer, setScope_of_none hk]
      have hheirs : a.heirs (.setScope fresh k scope identity handoff) = [] := by
        simp only [heirs, hanswer, ne_eq, not_true_eq_false, and_false, if_false]
      rw [hheirs]
      exact ⟨not_mem_nil, fun createdMs hborn => absurd hanswer (SessionRun.ite_eq_some hborn).1⟩
    | some old =>
      have hold : a.run.manager.isLive a.run.now k = true :=
        isLive_iff.mpr ⟨old, hk, fun hpast => hrespects ⟨old, hk, hpast⟩⟩
      obtain ⟨hended, hspent⟩ := h.final k hold
      have hheirs : a.heirs (.setScope fresh k scope identity handoff) = [] := by
        simp only [heirs, hended, false_and, if_false]
      rw [hheirs]
      refine ⟨not_mem_nil, fun createdMs hborn => ⟨?_, ?_⟩⟩
      · exact (elevated_gone h hadm hborn).1 ▸ h.fresh_not_mem hadm
      · show (if identity.isEmpty then a.bearing k else a.signIns) ∉ a.spent
        split
        · exact hspent
        · exact h.signIns_not_mem
  | applyUpsert token scope identity createdMs =>
    refine ⟨not_mem_nil, fun createdMs' hborn => ⟨fun hin => ?_, h.signIns_not_mem⟩⟩
    obtain ⟨rfl, rfl⟩ := Prod.mk.inj (Option.some.inj hborn)
    obtain ⟨record, hrecord, hdate⟩ := (a.run.grows hadm).present _ _ hborn
    have httl : (a.step (.applyUpsert token scope identity createdMs)).run.manager.ttlMs = a.run.manager.ttlMs :=
      (a.run.grows hadm).ttlMs
    obtain ⟨hpos, hpast⟩ := hrespects hin
    have hpast' : (a.step (.applyUpsert token scope identity createdMs)).run.manager.ttlMs < a.run.now - record.createdMs := by
      rw [hdate, httl]
      exact hpast
    exact not_isLive_of_overdue ⟨record, hrecord, httl.symm ▸ hpos, hpast'⟩ hlive
  | applyRotation previous next =>
    refine ⟨fun hin => ?_, fun _ hborn => absurd hborn.symm (Option.some_ne_none _)⟩
    rcases isLive_of_step hadm hlive with ⟨_, hborn⟩ | ⟨-, hbefore⟩
    · exact absurd hborn.symm (Option.some_ne_none _)
    · simp only [heirs] at hin
      split at hin
      · next hboth =>
        obtain rfl := mem_singleton.mp hin
        exact hrespects hboth.1 hboth.2 hbefore
      · exact absurd hin not_mem_nil
  | revoke k | applyRemove token | sweep
  | advance ms => exact ⟨not_mem_nil, fun _ hborn => absurd hborn.symm (Option.some_ne_none _)⟩

private theorem final_step (hadm : a.run.Admitted op) (hspared : Spared a op) {id : QByteArray}
    (hlive : (a.step op).run.manager.isLive (a.step op).run.now id = true) :
    id ∉ (a.step op).ended ∧ (a.step op).bearing id ∉ (a.step op).spent := by
  obtain ⟨hheir, hborn⟩ := hspared id hlive
  have hbefore : id ∉ a.ended ∧ (a.step op).bearing id ∉ a.spent := by
    rcases isLive_of_step hadm hlive with ⟨createdMs, hnew⟩ | ⟨hnot, hold⟩
    · rw [bearing_born hnew]
      exact hborn createdMs hnew
    · rw [bearing_of_not_born hnot]
      exact h.final id hold
  obtain ⟨record, hrecord, -⟩ := isLive_iff.mp hlive
  rw [mem_ended_step, mem_spent_step]
  constructor
  · rintro (hoverdue | hin | hin)
    · exact not_isLive_of_overdue hoverdue hlive
    · exact hheir hin
    · exact hbefore.1 hin
  · rintro (⟨id', hoverdue, hsame⟩ | hin)
    · have hthere := hoverdue
      obtain ⟨record', hrecord', -⟩ := hthere
      obtain rfl := h.alone_step hadm hrecord' hrecord hsame
      exact not_isLive_of_overdue hoverdue hlive
    · exact hbefore.2 hin

theorem known_step (hadm : a.run.Admitted op) :
    (∀ id record, (a.step op).run.manager.sessions.find id = some record → 0 < (a.step op).run.ledger.age id) ∧
      ∀ id ∈ (a.step op).ended, 0 < (a.step op).run.ledger.age id := by
  have hnamed : ∀ id record, (a.step op).run.manager.sessions.find id = some record → 0 < (a.step op).run.ledger.age id := by
    intro id record hrecord
    rcases (a.run.grows hadm).records id record hrecord with hborn | ⟨-, before, hbefore, -⟩
    · exact a.run.age_born op hborn
    · exact a.run.age_step_of_pos op (h.named id before hbefore)
  refine ⟨hnamed, fun id hin => ?_⟩
  rcases mem_ended_step.mp hin with ⟨record, hrecord, -⟩ | hheir | hended
  · exact hnamed id record hrecord
  · cases op with
    | setScope fresh k scope identity handoff =>
      simp only [heirs] at hheir
      by_cases hboth : k ∈ a.ended ∧ a.run.answer (.setScope fresh k scope identity handoff) ≠ []
      · rw [if_pos hboth] at hheir
        obtain rfl := mem_singleton.mp hheir
        exact a.run.age_born _ (a.run.born_of_answer hboth.2).1
      · rw [if_neg hboth] at hheir
        exact absurd hheir not_mem_nil
    | applyRotation previous next =>
      simp only [heirs] at hheir
      split at hheir
      · next hboth =>
        obtain rfl := mem_singleton.mp hheir
        obtain ⟨hprevious, hnext, hne, -⟩ := hboth.2
        have hledger : (a.step (.applyRotation previous id)).run.ledger = a.run.ledger.relate previous id :=
          if_neg fun hbad => hbad.elim hprevious fun hbad => hbad.elim hnext hne
        rw [hledger]
        exact SessionRun.age_relate _ _ _
      · exact absurd hheir not_mem_nil
    | _ => exact absurd hheir not_mem_nil
  · exact a.run.age_step_of_pos op (h.known id hended)

theorem step (hadm : a.run.Admitted op) (hspared : Spared a op) : Inv (a.step op) where
  final _ hlive := h.final_step hadm hspared hlive
  overdue _ hoverdue := mem_ended_step.mpr (.inl hoverdue)
  named := (h.known_step hadm).1
  known := (h.known_step hadm).2
  numbered _ _ hrecord := h.numbered_step hadm hrecord
  alone _ _ _ _ hrecord hrecord' hsame := h.alone_step hadm hrecord hrecord' hsame
  past n hin := by
    rcases mem_spent_step.mp hin with ⟨id, ⟨record, hrecord, -⟩, rfl⟩ | hin
    · exact h.numbered_step hadm hrecord
    · exact Nat.lt_succ_of_lt (h.past n hin)

end

private theorem answer_live (hadm : a.run.Admitted op) (h : a.run.answer op ≠ []) :
    (a.step op).run.manager.isLive (a.step op).run.now (a.run.answer op) = true := by
  obtain ⟨hborn, hnow⟩ := a.run.born_of_answer h
  obtain ⟨record, hrecord, hdate⟩ := (a.run.grows hadm).present _ _ hborn
  have hnow' : (a.step op).run.now = a.run.now := hnow
  exact isLive_iff.mpr ⟨record, hrecord, fun hpast => by omega⟩

private theorem isFinal (h : Inv (a.step op)) (hadm : a.run.Admitted op) : Final (a.step op) where
  looked id record hrecord := h.final id (by rw [isLive, hrecord]; rfl)
  handed id hne := by
    obtain ⟨-, -, -, -, hlive⟩ := rotationOf_eq_some hne rfl
    exact (h.final _ hlive).1
  answered hne := (h.final _ (answer_live hadm hne)).1

end Inv

private theorem Final.not_mem (h : Final a) (hlive : a.run.manager.isLive a.run.now id = true) : id ∉ a.ended := by
  obtain ⟨record, hrecord⟩ := Option.isSome_iff_exists.mp hlive
  exact (h.looked id record hrecord).1

theorem Inv.respects (h : Inv a) (hadm : a.run.Admitted op) (hfinal : Final (a.step op)) : a.Respects op := by
  cases op with
  | setScope fresh id scope identity handoff =>
    intro hoverdue
    have hthere := hoverdue
    obtain ⟨record, hrecord, -⟩ := hthere
    obtain ⟨hr, -⟩ := setScope_of_lookup hrecord a.run.now fresh scope identity handoff
    have hanswer : a.run.answer (.setScope fresh id scope identity handoff) ≠ [] := fun heq => hadm.1 (hr.symm.trans heq)
    have hheir : a.run.answer (.setScope fresh id scope identity handoff) ∈ a.heirs (.setScope fresh id scope identity handoff) := by
      simp only [heirs]
      rw [if_pos ⟨h.overdue id hoverdue, hanswer⟩]
      exact mem_singleton_self _
    exact hfinal.answered hanswer (mem_ended_step.mpr (.inr (.inl hheir)))
  | applyUpsert token scope identity createdMs =>
    intro hin
    by_contra hfresh
    obtain ⟨record, hrecord, hdate⟩ := (a.run.grows hadm).present token createdMs rfl
    have httl : (a.step (.applyUpsert token scope identity createdMs)).run.manager.ttlMs = a.run.manager.ttlMs :=
      (a.run.grows hadm).ttlMs
    refine hfinal.not_mem (isLive_iff.mpr ⟨record, hrecord, fun hpast => hfresh ?_⟩)
      (mem_ended_step.mpr (.inr (.inr hin)))
    rw [httl, hdate] at hpast
    exact hpast
  | applyRotation previous next =>
    intro hin htakes hlive
    have hheir : next ∈ a.heirs (.applyRotation previous next) := by
      simp only [heirs]
      rw [if_pos ⟨hin, htakes⟩]
      exact mem_singleton_self _
    obtain ⟨record, hrecord, hfresh⟩ := isLive_iff.mp hlive
    refine hfinal.not_mem (isLive_iff.mpr ⟨{ record with rotatedFrom := previous }, ?_, ?_⟩)
      (mem_ended_step.mpr (.inr (.inl hheir)))
    · simp only [Ageing.step, SessionRun.step, applyRotation_sessions]
      rw [if_pos ⟨htakes, trivial⟩, hrecord]
      rfl
    · simpa only [Ageing.step, SessionRun.step, applyRotation_ttlMs] using hfresh
  | _ => trivial

private theorem Inv.of_start (defaultScope : QString) (ttlMinutes maximum now : Int) :
    Inv (start defaultScope ttlMinutes maximum now) := by
  have hempty : ∀ id, (start defaultScope ttlMinutes maximum now).run.manager.sessions.find id = none :=
    fun id => Hash.find_empty id
  have hno : ∀ {P : Prop} (id : QByteArray) (record : SessionRecord),
      (start defaultScope ttlMinutes maximum now).run.manager.sessions.find id = some record → P := by
    intro P id record hrecord
    rw [hempty] at hrecord
    cases hrecord
  refine ⟨fun id hlive => ?_, fun id hoverdue => ?_, fun id record hrecord => hno id record hrecord,
    fun id hin => absurd hin not_mem_nil, fun id record hrecord => hno id record hrecord,
    fun id id' record record' hrecord => hno id record hrecord, fun n hin => absurd hin not_mem_nil⟩
  · obtain ⟨record, hrecord, -⟩ := isLive_iff.mp hlive
    exact hno id record hrecord
  · obtain ⟨record, hrecord, -⟩ := hoverdue
    exact hno id record hrecord

private theorem Final.of_start (defaultScope : QString) (ttlMinutes maximum now : Int) :
    Final (start defaultScope ttlMinutes maximum now) where
  looked _ _ _ := ⟨not_mem_nil, not_mem_nil⟩
  handed _ _ := not_mem_nil
  answered _ := not_mem_nil

/-- A session that has outlived its time-to-live stays ended throughout a run exactly where no step of it
elevates one that is still in the table, and no relay brings one back. -/
theorem expiry_final_iff (defaultScope : QString) (ttlMinutes maximum now : Int) (ops : List SessionOp)
    (hadm : Each step (fun a op => a.run.Admitted op) (start defaultScope ttlMinutes maximum now) ops) :
    (∀ before after, ops = before ++ after → Final (Lib.run step (start defaultScope ttlMinutes maximum now) before)) ↔
      Each step Respects (start defaultScope ttlMinutes maximum now) ops :=
  forall_prefix_iff (fun _ _ h ha => ⟨h.respects ha, fun hrespects => (h.step ha (h.spared ha hrespects)).isFinal ha⟩)
    (fun _ _ h ha hrespects => h.step ha (h.spared ha hrespects))
    (Inv.of_start defaultScope ttlMinutes maximum now) (Final.of_start defaultScope ttlMinutes maximum now) hadm

instance (m : SessionManager) (now : Int) (id : QByteArray) : Decidable (m.Overdue now id) :=
  decidable_of_iff _ SessionManager.mem_overdueIds

instance (a : Ageing) : (op : SessionOp) → Decidable (a.Respects op)
  | .setScope _ id _ _ _ => inferInstanceAs (Decidable (¬a.run.manager.Overdue a.run.now id))
  | .applyUpsert token _ _ createdMs => inferInstanceAs (Decidable (token ∈ a.ended →
      0 < a.run.manager.ttlMs ∧ a.run.manager.ttlMs < a.run.now - createdMs))
  | .applyRotation previous next => inferInstanceAs (Decidable (previous ∈ a.ended →
      a.run.manager.TakesRotation previous next → a.run.manager.isLive a.run.now next ≠ true))
  | .createSession .. | .revoke _ | .applyRemove _ | .sweep | .advance _ => .isTrue trivial

def agedAndSwept : List SessionOp :=
  [.createSession (fun _ => false) [1] "" [], .setScope [2] [1] "user" [("sub", "u1")] .keep, .advance 60001, .sweep]

theorem agedAndSwept_final : Final (Lib.run step (start "anonymous" 1 100 0) agedAndSwept) :=
  (expiry_final_iff "anonymous" 1 100 0 agedAndSwept (by decide)).mpr (by decide) agedAndSwept [] (append_nil _).symm

/-- A sign-in that has aged past its minute, and is elevated before the sweep takes it. -/
def agedAndElevated : List SessionOp :=
  [.createSession (fun _ => false) [1] "user" [("sub", "u1")], .advance 60001, .setScope [2] [1] "admin" [] .none]

/-- The elevation answers a live session with the identity of the one that was over. -/
theorem agedAndElevated_not_final :
    Each step (fun a op => a.run.Admitted op) (start "anonymous" 1 100 0) agedAndElevated ∧
      (SessionManager.lookup (Lib.run step (start "anonymous" 1 100 0) (agedAndElevated.take 2)).run.manager 60001 [1]) = none ∧
      (SessionManager.lookup (Lib.run step (start "anonymous" 1 100 0) agedAndElevated).run.manager 60001 [2]).map
        SessionRecord.identity = some [("sub", "u1")] ∧
      ¬Final (Lib.run step (start "anonymous" 1 100 0) agedAndElevated) := by
  refine ⟨by decide, by decide, by decide, fun h => ?_⟩
  have hanswer : (Lib.run step (start "anonymous" 1 100 0) agedAndElevated).answer = [2] := by decide
  exact h.answered (by rw [hanswer]; exact cons_ne_nil _ _) (by decide)

end Ageing
end SynQt
