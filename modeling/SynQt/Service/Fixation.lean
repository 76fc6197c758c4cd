import SynQt.Lib.Forest
import SynQt.Lib.Run
import SynQt.Service.SessionTable

/-! Session fixation: whether a credential issued before an elevation that left no
hand-off can still be exchanged for what the elevation issued. -/
namespace SynQt
open Lib SessionManager Function

/-- What a run has heard of: when each id was first named, and which id each elevation
replaced and how. Age `0` is an id nobody has named. -/
structure Ledger where
  age : QByteArray → Nat
  parent : QByteArray → Option (QByteArray × Handoff)
  count : Nat

namespace Ledger

def empty : Ledger := ⟨fun _ => 0, fun _ => none, 0⟩

def learn (L : Ledger) (id : QByteArray) : Ledger :=
  if L.age id = 0 then
    { L with age := update L.age id (L.count + 1), count := L.count + 1 }
  else L

def adopt (L : Ledger) (previous next : QByteArray) (handoff : Handoff) : Ledger :=
  { L with parent := update L.parent next (some (previous, handoff)) }

/-- What a relayed hand-off says about the two ids. -/
def relate (L : Ledger) (previous next : QByteArray) : Ledger :=
  let known := (L.learn previous).learn next
  if known.parent next = none ∧ known.age previous < known.age next then
    known.adopt previous next .keep
  else known

end Ledger

structure SessionRun where
  manager : SessionManager
  now : Int
  ledger : Ledger

inductive SessionOp where
  | createSession (inUse : QByteArray → Bool) (fresh : QByteArray) (scope : QString)
      (identity : QVariantMap)
  | setScope (fresh id : QByteArray) (scope : QString) (identity : QVariantMap) (handoff : Handoff)
  | revoke (id : QByteArray)
  | applyUpsert (token : QByteArray) (scope : QString) (identity : QVariantMap) (createdMs : Int)
  | applyRotation (previous next : QByteArray)
  | applyRemove (token : QByteArray)
  | sweep
  | advance (ms : Nat)

namespace SessionRun

/-- The empty manager of a configuration, at the time it is built. -/
def start (defaultScope : QString) (ttlMinutes maximum now : Int) : SessionRun :=
  ⟨(SessionManager.make defaultScope ttlMinutes).setMaximumSessions maximum, now, .empty⟩

def step (s : SessionRun) : SessionOp → SessionRun
  | .createSession inUse fresh scope identity =>
    let r := s.manager.createSession s.now inUse fresh scope identity
    { s with manager := r.1.manager, ledger := if r.2.isEmpty then s.ledger else s.ledger.learn r.2 }
  | .setScope fresh id scope identity handoff =>
    let r := s.manager.setScope s.now fresh id scope identity handoff
    { s with
      manager := r.1.manager
      ledger := if r.2.isEmpty then s.ledger else (s.ledger.learn r.2).adopt id r.2 handoff }
  | .revoke id => { s with manager := (s.manager.revoke id).manager }
  | .applyUpsert token scope identity createdMs =>
    { s with
      manager := (s.manager.applyUpsert token scope identity createdMs).manager
      ledger := s.ledger.learn token }
  | .applyRotation previous next =>
    { s with
      manager := (s.manager.applyRotation s.now previous next).manager
      ledger := if previous = [] ∨ next = [] ∨ previous = next then s.ledger
        else s.ledger.relate previous next }
  | .applyRemove token => { s with manager := (s.manager.applyRemove token).manager }
  | .sweep => { s with manager := (s.manager.purgeExpired s.now).1 }
  | .advance ms => { s with now := s.now + ms }

/-- The generator answers an id the run has not named. -/
def Fresh (s : SessionRun) (id : QByteArray) : Prop := id ≠ [] ∧ s.ledger.age id = 0
deriving Decidable

def Admitted (s : SessionRun) : SessionOp → Prop
  | .createSession _ fresh _ _ => s.Fresh fresh
  | .setScope fresh _ _ _ _ => s.Fresh fresh
  | _ => True

/-- The hand-off the back-pointer of `id`'s record names, while it is held and in its
grace, leads to `id`. -/
def HeadCurrent (s : SessionRun) (id : QByteArray) : Prop :=
  ∀ record ∈ s.manager.sessions.find id, ∀ head ∈ s.manager.rotations.find record.rotatedFrom,
    s.now - head.atMs ≤ SessionManager.rotationGraceMs → head.to_ = id
deriving Decidable

/-- A relayed hand-off is one some replica made: when both its ids are known, the target
is not known to have come from elsewhere, and is the younger. -/
def Truthful (s : SessionRun) (previous next : QByteArray) : Prop :=
  previous ≠ [] → next ≠ [] → previous ≠ next →
    s.ledger.age previous = 0 ∨ s.ledger.age next = 0 ∨
    (s.ledger.parent next = none ∧ s.ledger.age previous < s.ledger.age next) ∨
    s.ledger.parent next = some (previous, .keep)
deriving Decidable

def Sound (s : SessionRun) : SessionOp → Prop
  | .setScope _ id _ _ .keep => s.HeadCurrent id
  | .applyRotation previous next => s.Truthful previous next
  | _ => True

/-- No credential older than an id issued without a hand-off is answered with that id or
with any session descended from it. -/
def Sealed (s : SessionRun) : Prop :=
  ∀ id issued, s.ledger.parent issued = some (id, .none) →
    ∀ old, 0 < s.ledger.age old → s.ledger.age old < s.ledger.age issued →
      s.manager.rotationOf s.now old ≠ [] →
        ¬ Descends s.ledger.parent issued (s.manager.rotationOf s.now old)

/-- The entry `old ↦ next` keeps every seal, and hangs under no root younger than `old`. -/
structure Keeps (L : Ledger) (old next : QByteArray) : Prop where
  known : 0 < L.age old ∧ 0 < L.age next
  apart : ∀ id issued, L.parent issued = some (id, .none) → L.age old < L.age issued →
    ¬ Descends L.parent issued next
  root : ∀ r, L.parent r = none → Descends L.parent r next → L.age r ≤ L.age old

structure Inv (s : SessionRun) : Prop where
  ordered : Ordered s.ledger.age s.ledger.parent
  bound : ∀ id, s.ledger.age id ≤ s.ledger.count
  records : ∀ id record, s.manager.sessions.find id = some record → 0 < s.ledger.age id
  known : ∀ id entry, s.manager.rotations.find id = some entry →
    0 < s.ledger.age id ∧ 0 < s.ledger.age entry.to_
  handoffs : ∀ id entry, s.manager.rotations.find id = some entry →
    s.now - entry.atMs ≤ SessionManager.rotationGraceMs → Keeps s.ledger id entry.to_

namespace Inv
variable {s : SessionRun}

private theorem parent_of_unborn (h : Inv s) {id : QByteArray} (hid : s.ledger.age id = 0) :
    s.ledger.parent id = none := by
  cases hp : s.ledger.parent id with
  | none => rfl
  | some p =>
    obtain ⟨_, hlt⟩ := h.ordered _ _ _ hp
    omega

theorem within (h : Inv s) {m : SessionManager} (hm : m.Within s.manager) (ms : Nat) :
    Inv { s with manager := m, now := s.now + ms } := by
  refine ⟨h.ordered, h.bound, fun id r hr => h.records id r (hm.sessions _ _ hr),
    fun id e he => h.known id e (hm.rotations _ _ he), fun id e he hg => ?_⟩
  have hg' : s.now + ms - e.atMs ≤ rotationGraceMs := hg
  exact h.handoffs id e (hm.rotations _ _ he) (by omega)

theorem learn (h : Inv s) (id : QByteArray) : Inv { s with ledger := s.ledger.learn id } := by
  by_cases hid : s.ledger.age id = 0
  · have hroot := h.parent_of_unborn hid
    have grow (k : QByteArray) : s.ledger.age k ≤ update s.ledger.age id (s.ledger.count + 1) k := by
      by_cases hk : k = id
      · subst hk; omega
      · simp [hk]
    have same {k : QByteArray} (hk : 0 < s.ledger.age k) :
        update s.ledger.age id (s.ledger.count + 1) k = s.ledger.age k := by
      have : k ≠ id := by rintro rfl; omega
      simp [this]
    simp only [Ledger.learn, hid, if_true]
    refine ⟨?_, ?_, ?_, ?_, ?_⟩
    · intro p c k hc
      obtain ⟨hp, hpc⟩ := h.ordered p c k hc
      simp only [same hp, same (Nat.lt_trans hp hpc)]
      exact ⟨hp, hpc⟩
    · intro k
      by_cases hk : k = id
      · simp [hk]
      · simpa [hk] using Nat.le_succ_of_le (h.bound k)
    · exact fun k r hr => Nat.lt_of_lt_of_le (h.records k r hr) (grow k)
    · intro k e he
      obtain ⟨hk, ht⟩ := h.known k e he
      exact ⟨Nat.lt_of_lt_of_le hk (grow k), Nat.lt_of_lt_of_le ht (grow e.to_)⟩
    · intro k e he hg
      obtain ⟨⟨hk, ht⟩, hseal, hr⟩ := h.handoffs k e he hg
      refine ⟨⟨Nat.lt_of_lt_of_le hk (grow k), Nat.lt_of_lt_of_le ht (grow e.to_)⟩, ?_, ?_⟩
      · intro p n hn hlt
        have hborn := (h.ordered _ _ _ hn)
        simp only [same hk, same (Nat.lt_trans hborn.1 hborn.2)] at hlt
        exact hseal p n hn hlt
      · intro r hrn hd
        have hrid : r ≠ id := by
          rintro rfl
          have := hd.eq_of_childless (fun c l hc => by have := (h.ordered _ _ _ hc).1; omega)
          rw [this] at ht
          omega
        simpa [same hk, hrid] using hr r hrn hd
  · simpa [Ledger.learn, hid] using h

variable {previous next : QByteArray}

/-- Giving a root an older parent keeps the invariant, whatever hand-off it was. -/
theorem adopt (h : Inv s) (handoff : Handoff)
    (hroot : s.ledger.parent next = none) (hp : 0 < s.ledger.age previous)
    (hlt : s.ledger.age previous < s.ledger.age next) :
    Inv { s with ledger := s.ledger.adopt previous next handoff } := by
  refine ⟨?_, h.bound, h.records, h.known, ?_⟩
  · intro p c k hc
    by_cases hcn : c = next
    · subst hcn
      obtain ⟨rfl, rfl⟩ : previous = p ∧ handoff = k := by simpa [Ledger.adopt] using hc
      exact ⟨hp, hlt⟩
    · exact h.ordered p c k (by simpa [Ledger.adopt, hcn] using hc)
  · intro id e he hg
    obtain ⟨hk, hseal, hr⟩ := h.handoffs id e he hg
    refine ⟨hk, ?_, ?_⟩
    · intro p n hn holder hd
      have holder' : s.ledger.age id < s.ledger.age n := holder
      rcases (Descends.update_iff hroot).mp hd with hd' | ⟨hup, hdown⟩
      · by_cases hnn : n = next
        · subst hnn
          have := hr n hroot hd'
          omega
        · exact hseal p n (by simpa [Ledger.adopt, hnn] using hn) holder hd'
      · have hle := h.ordered.le hup
        have := hr next hroot hdown
        omega
    · intro r hrn hd
      have hne : r ≠ next := by rintro rfl; simp [Ledger.adopt] at hrn
      have hrn' : s.ledger.parent r = none := by simpa [Ledger.adopt, hne] using hrn
      rcases (Descends.update_iff hroot).mp hd with hd' | ⟨hup, hdown⟩
      · exact hr r hrn' hd'
      · have hle := h.ordered.le hup
        have hnx := hr next hroot hdown
        change s.ledger.age r ≤ s.ledger.age id
        omega

theorem replace (h : Inv s) {m : SessionManager}
    (hs : ∀ id record, m.sessions.find id = some record → 0 < s.ledger.age id)
    (hk : ∀ id entry, m.rotations.find id = some entry →
      (∃ old, s.manager.rotations.find id = some old ∧ old = entry) ∨
      (0 < s.ledger.age id ∧ 0 < s.ledger.age entry.to_ ∧
        (s.now - entry.atMs ≤ rotationGraceMs → Keeps s.ledger id entry.to_))) :
    Inv { s with manager := m } := by
  refine ⟨h.ordered, h.bound, hs, fun id e he => ?_, fun id e he hg => ?_⟩
  · rcases hk id e he with ⟨_, ho, rfl⟩ | ⟨hi, ht, _⟩
    · exact h.known id _ ho
    · exact ⟨hi, ht⟩
  · rcases hk id e he with ⟨_, ho, rfl⟩ | ⟨_, _, hkeep⟩
    · exact h.handoffs id _ ho hg
    · exact hkeep hg

private theorem keeps_child (h : Inv s)
    (hc : s.ledger.parent next = some (previous, .keep)) : Keeps s.ledger previous next := by
  obtain ⟨hp, hlt⟩ := h.ordered _ _ _ hc
  refine ⟨⟨hp, Nat.lt_trans hp hlt⟩, ?_, ?_⟩
  · intro id n hn holder hd
    rcases (Descends.iff_of_parent hc).mp hd with rfl | hd'
    · rw [hc] at hn
      cases hn
    · have := h.ordered.le hd'
      omega
  · intro r hr hd
    rcases (Descends.iff_of_parent hc).mp hd with rfl | hd'
    · rw [hc] at hr
      cases hr
    · exact h.ordered.le hd'

/-- An entry that is kept stays kept when its target is moved to the target's child. -/
theorem keeps_moved {L : Ledger} {old previous next : QByteArray} (h : Keeps L old previous)
    (hc : L.parent next = some (previous, .keep)) (hn : 0 < L.age next) : Keeps L old next := by
  refine ⟨⟨h.known.1, hn⟩, ?_, ?_⟩
  · intro id n hs holder hd
    rcases (Descends.iff_of_parent hc).mp hd with rfl | hd'
    · rw [hc] at hs
      cases hs
    · exact h.apart id n hs holder hd'
  · intro r hr hd
    rcases (Descends.iff_of_parent hc).mp hd with rfl | hd'
    · rw [hc] at hr
      cases hr
    · exact h.root r hr hd'

theorem create (h : Inv s) (inUse : QByteArray → Bool) {fresh : QByteArray} (hf : s.Fresh fresh)
    (scope : QString) (identity : QVariantMap) :
    Inv (s.step (.createSession inUse fresh scope identity)) := by
  rcases s.manager.createSession_cases s.now inUse fresh scope identity with
    ⟨hid, hw, _⟩ | ⟨hid, kept, _, hw, hm, _⟩
  · simpa [step, hid] using h.within hw 0
  · have hk := (h.within hw 0).learn fresh
    simp only [step, hid, hm, List.isEmpty_iff, hf.1, if_false]
    have hi := hk.replace (m := kept.insertRecord (s.manager.minted s.now fresh scope identity))
      (fun id r hr => ?_) (fun id e he => .inl ⟨e, by simpa using he, rfl⟩)
    · simpa using hi
    by_cases hidf : id = fresh
    · simp [hidf, Ledger.learn, hf.2]
    · exact hk.records id r (by simpa [minted, hidf] using hr)

theorem issue (h : Inv s) {fresh id : QByteArray} (hf : s.Fresh fresh) (hid : 0 < s.ledger.age id)
    (handoff : Handoff) :
    Inv { s with ledger := (s.ledger.learn fresh).adopt id fresh handoff } := by
  have hl := h.learn fresh
  have hne : id ≠ fresh := by rintro rfl; have := hf.2; omega
  have hroot : (s.ledger.learn fresh).parent fresh = none := by
    simpa [Ledger.learn, hf.2] using h.parent_of_unborn hf.2
  have hage : (s.ledger.learn fresh).age id = s.ledger.age id := by simp [Ledger.learn, hf.2, hne]
  have hnew : (s.ledger.learn fresh).age fresh = s.ledger.count + 1 := by simp [Ledger.learn, hf.2]
  have hb := h.bound id
  exact hl.adopt handoff hroot (by rw [hage]; exact hid) (by rw [hage, hnew]; omega)

theorem elevate (h : Inv s) {fresh id : QByteArray} (hf : s.Fresh fresh) (scope : QString)
    (identity : QVariantMap) (handoff : Handoff) (hh : handoff = .keep → s.HeadCurrent id) :
    Inv (s.step (.setScope fresh id scope identity handoff)) := by
  cases hid : s.manager.sessions.find id with
  | none => simpa [step, setScope_of_none hid] using h
  | some old =>
    obtain ⟨hr, hs, _⟩ := setScope_of_lookup hid s.now fresh scope identity handoff
    have hage := h.records id old hid
    have hi := h.issue hf hage handoff
    have hfresh : 0 < ((s.ledger.learn fresh).adopt id fresh handoff).age fresh := by
      simp [Ledger.learn, Ledger.adopt, hf.2]
    have hedge : ((s.ledger.learn fresh).adopt id fresh handoff).parent fresh = some (id, handoff) := by
      simp [Ledger.adopt]
    simp only [step, hr, List.isEmpty_iff, hf.1, if_false]
    refine hi.replace (fun k r hk => ?_) (fun k e he => ?_)
    · rw [hs] at hk
      by_cases hkf : k = fresh
      · subst hkf
        exact hfresh
      · by_cases hkw : k = id
        · rw [if_neg hkf, if_pos hkw] at hk
          cases hk
        · exact hi.records k r (by simpa [hkf, hkw] using hk)
    · cases handoff with
      | none => exact .inl ⟨e, by rwa [setScope_none_rotations] at he, rfl⟩
      | keep =>
        rw [setScope_keep_rotations hid] at he
        by_cases hkw : k = id
        · subst hkw
          obtain rfl : (⟨fresh, s.now⟩ : Rotation) = e := by simpa using he
          have hkc := hi.keeps_child hedge
          exact .inr ⟨hkc.known.1, hkc.known.2, fun _ => hkc⟩
        · by_cases hkr : k = old.rotatedFrom
          · -- the head of the chain: its entry led to `id` and is moved to the child of `id`
            rw [if_neg hkw, if_pos hkr] at he
            obtain ⟨head, hhead, rfl⟩ := Option.map_eq_some_iff.mp he
            have hk := hi.known k head hhead
            refine .inr ⟨hk.1, hfresh, fun hg => ?_⟩
            have hto : head.to_ = id := hh rfl old hid head (hkr ▸ hhead) hg
            exact keeps_moved (hto ▸ hi.handoffs k head hhead hg) hedge hfresh
          · exact .inl ⟨e, by rwa [if_neg hkw, if_neg hkr] at he, rfl⟩

theorem relate (h : Inv s) (hp : previous ≠ []) (hn : next ≠ [])
    (hne : previous ≠ next) (ht : s.Truthful previous next) :
    Inv { s with ledger := s.ledger.relate previous next } ∧
      Keeps (s.ledger.relate previous next) previous next := by
  have hk : Inv { s with ledger := (s.ledger.learn previous).learn next } := (h.learn previous).learn next
  have agep : ((s.ledger.learn previous).learn next).age previous =
      if s.ledger.age previous = 0 then s.ledger.count + 1 else s.ledger.age previous := by
    simp only [Ledger.learn]
    split <;> split <;> simp_all [update]
  have bornp : 0 < ((s.ledger.learn previous).learn next).age previous := by
    rw [agep]; split <;> omega
  have bornn : 0 < ((s.ledger.learn previous).learn next).age next := by
    simp only [Ledger.learn]
    split <;> split <;> simp_all [update] <;> omega
  have par : ((s.ledger.learn previous).learn next).parent = s.ledger.parent := by
    simp only [Ledger.learn]
    split <;> split <;> rfl
  by_cases hc : ((s.ledger.learn previous).learn next).parent next = none ∧
      ((s.ledger.learn previous).learn next).age previous < ((s.ledger.learn previous).learn next).age next
  · have ha := hk.adopt .keep hc.1 bornp hc.2
    simp only [Ledger.relate, hc, and_self, if_true]
    exact ⟨ha, ha.keeps_child (by simp [Ledger.adopt])⟩
  · simp only [Ledger.relate, hc, if_false]
    refine ⟨hk, ?_⟩
    by_cases hpar : s.ledger.parent next = some (previous, .keep)
    · exact hk.keeps_child (by rw [par]; exact hpar)
    · -- `previous` is heard of for the first time, after `next`
      have hfirst : s.ledger.age previous = 0 := by
        by_contra hp0
        have hagep : ((s.ledger.learn previous).learn next).age previous = s.ledger.age previous := by
          rw [agep, if_neg hp0]
        rcases ht hp hn hne with h0 | hn0 | ⟨hroot, hlt⟩ | hedge
        · exact hp0 h0
        · refine hc ⟨by rw [par]; exact h.parent_of_unborn hn0, ?_⟩
          have hb := h.bound previous
          rw [hagep]
          simp [Ledger.learn, hp0, hn0]
          omega
        · refine hc ⟨by rw [par]; exact hroot, ?_⟩
          rw [hagep]
          have hn0 : s.ledger.age next ≠ 0 := by omega
          simpa [Ledger.learn, hp0, hn0] using hlt
        · exact hpar hedge
      have hnp : next ≠ previous := fun he => hne he.symm
      have hsecond : s.ledger.age next ≠ 0 := by
        intro hn0
        refine hc ⟨by rw [par]; exact h.parent_of_unborn hn0, ?_⟩
        simp [Ledger.learn, hfirst, hn0, hne, hnp]
      have hsame : (s.ledger.learn previous).learn next = s.ledger.learn previous := by
        simp [Ledger.learn, hfirst, hsecond, hnp]
      have hlast (k : QByteArray) : (s.ledger.learn previous).age k ≤ (s.ledger.learn previous).age previous := by
        have hb := (h.learn previous).bound k
        simpa [Ledger.learn, hfirst] using hb
      refine ⟨⟨bornp, bornn⟩, fun id n hs holder hd => ?_, fun r hr hd => ?_⟩
      · rw [hsame] at holder
        have := hlast n
        omega
      · rw [hsame]
        exact hlast r

theorem start (defaultScope : QString) (ttlMinutes maximum now : Int) :
    Inv (.start defaultScope ttlMinutes maximum now) := by
  have hs (k : QByteArray) : (SessionRun.start defaultScope ttlMinutes maximum now).manager.sessions.find k = none :=
    Hash.find_empty k
  have hr (k : QByteArray) : (SessionRun.start defaultScope ttlMinutes maximum now).manager.rotations.find k = none :=
    Hash.find_empty k
  refine ⟨fun p c k hc => ?_, fun _ => Nat.le_refl _, fun k r hk => ?_, fun k e he => ?_, fun k e he => ?_⟩
  · cases hc
  · rw [hs] at hk; cases hk
  · rw [hr] at he; cases he
  · rw [hr] at he; cases he

theorem step (h : Inv s) {op : SessionOp} (hop : s.Admitted op ∧ s.Sound op) : Inv (s.step op) := by
  obtain ⟨hadm, hsound⟩ := hop
  cases op with
  | createSession inUse fresh scope identity => exact h.create inUse hadm scope identity
  | setScope fresh id scope identity handoff =>
    exact h.elevate hadm scope identity handoff (by rintro rfl; exact hsound)
  | revoke id => simpa [SessionRun.step] using h.within (revoke_within id) 0
  | applyUpsert token scope identity createdMs =>
    have hl := h.learn token
    refine hl.replace (fun id r hr => ?_) (fun id e he => .inl ⟨e, by simpa [applyUpsert] using he, rfl⟩)
    by_cases hid : id = token
    · subst hid
      change 0 < (s.ledger.learn id).age id
      unfold Ledger.learn
      split
      · simp
      · omega
    · exact hl.records id r (by simpa [applyUpsert, hid] using hr)
  | applyRotation previous next =>
    simp only [SessionRun.step]
    split
    · rename_i hbad
      have hnot : ¬ s.manager.TakesRotation previous next := fun ht => by
        rcases hbad with hb | hb | hb
        · exact ht.1 hb
        · exact ht.2.1 hb
        · exact ht.2.2.1 hb
      rw [applyRotation_of_not hnot]
      exact h
    · rename_i hgood
      simp only [not_or] at hgood
      obtain ⟨hi, hk⟩ := h.relate hgood.1 hgood.2.1 hgood.2.2 hsound
      refine hi.replace (fun id r hr => ?_) (fun id e he => ?_)
      · rw [applyRotation_sessions] at hr
        split at hr
        · rename_i ht
          obtain ⟨r', hr', -⟩ := Option.map_eq_some_iff.mp hr
          exact hi.records id r' (ht.2 ▸ hr')
        · exact hi.records id r hr
      · rw [applyRotation_rotations] at he
        split at he
        · rename_i ht
          obtain rfl : (⟨next, s.now⟩ : Rotation) = e := by simpa using he
          exact .inr ⟨ht.2 ▸ hk.known.1, hk.known.2, fun _ => ht.2 ▸ hk⟩
        · exact .inl ⟨e, he, rfl⟩
  | applyRemove token => simpa [SessionRun.step] using h.within (applyRemove_within token) 0
  | sweep => simpa [SessionRun.step] using h.within (purgeExpired_within s.manager s.now) 0
  | advance ms => exact h.within (.refl _) ms

private theorem isSealed (h : Inv s) : s.Sealed := by
  intro id issued hi old _ hlt hne
  obtain ⟨e, he, hg, hto, _⟩ := rotationOf_eq_some hne rfl
  have hk := h.handoffs old e he (by omega)
  rw [← hto]
  exact hk.apart id issued hi hlt

end Inv

instance (s : SessionRun) : (op : SessionOp) → Decidable (s.Admitted op)
  | .createSession _ fresh _ _ | .setScope fresh _ _ _ _ => inferInstanceAs (Decidable (s.Fresh fresh))
  | .revoke _ | .applyUpsert .. | .applyRotation .. | .applyRemove _ | .sweep | .advance _ => .isTrue trivial
instance (s : SessionRun) : (op : SessionOp) → Decidable (s.Sound op)
  | .setScope _ id _ _ .keep => inferInstanceAs (Decidable (s.HeadCurrent id))
  | .applyRotation previous next => inferInstanceAs (Decidable (s.Truthful previous next))
  | .setScope _ _ _ _ .none | .createSession .. | .revoke _ | .applyUpsert .. | .applyRemove _ | .sweep | .advance _ =>
    .isTrue trivial

/-- No run reopens what an elevation without a hand-off closed, as long as every Keep
elevation finds the head of its chain leading to the session it elevates, and every
relayed hand-off is one some replica made. -/
theorem fixation_sealed (defaultScope : QString) (ttlMinutes maximum now : Int) (ops : List SessionOp)
    (h : Each step (fun s op => s.Admitted op ∧ s.Sound op)
      (start defaultScope ttlMinutes maximum now) ops) :
    Sealed (run step (start defaultScope ttlMinutes maximum now) ops) :=
  (h.invariant Inv (fun _ _ hi hop => hi.step hop) (Inv.start defaultScope ttlMinutes maximum now)).isSealed

/-- A sign-in over a kept hand-off, and two elevations after it from a second session. -/
def keptThenClosed : List SessionOp :=
  [.createSession (fun _ => false) [1] "" [], .setScope [2] [1] "" [] .keep,
    .setScope [3] [2] "user" [("sub", "u1")] .none, .revoke [1],
    .createSession (fun _ => false) [4] "" [], .setScope [5] [4] "user" [] .keep]

theorem fixation_sealed_keptThenClosed :
    Sealed (run step (start "anonymous" 720 100000 0) keptThenClosed) :=
  fixation_sealed "anonymous" 720 100000 0 keptThenClosed (by decide)

/-- Keep, then None, then Keep: the second hand-off copies the first one's back-pointer, and
the credential the first one replaced is answered with the session issued last. -/
def keepNoneKeep : List SessionOp :=
  [.createSession (fun _ => false) [1] "" [], .setScope [2] [1] "" [] .keep,
    .setScope [3] [2] "user" [("sub", "u1")] .none, .setScope [4] [3] "moderator" [] .keep]

theorem keepNoneKeep_not_sealed :
    Each step Admitted (start "anonymous" 720 100000 0) keepNoneKeep ∧
      (run step (start "anonymous" 720 100000 0) keepNoneKeep).manager.rotationOf 0 [1] = [4] ∧
      ¬ Sealed (run step (start "anonymous" 720 100000 0) keepNoneKeep) := by
  refine ⟨by decide, by decide, fun h => ?_⟩
  have hd : Descends (run step (start "anonymous" 720 100000 0) keepNoneKeep).ledger.parent [3] [4] :=
    (Descends.refl _).tail (k := Handoff.keep) (by decide)
  exact h [2] [3] (by decide) [1] (by decide) (by decide) (by decide) hd

end SessionRun
end SynQt
