import SynQt.Identity.DeviceRegistry
import SynQt.Lib.Run

/-! Which of the secrets a registry has handed out are recognized when they come back. The
registry keeps two digests a family; the history of what it issued is kept beside it. -/
namespace SynQt
open Lib DeviceRegistry List

/-- One secret handed out, and when a later one of the family took its place. -/
structure Issue where
  family : QString
  secret : QByteArray
  supersededMs : Option Int
  deriving DecidableEq

def Issue.supersede (family : QString) (now : Int) (i : Issue) : Issue :=
  if i.family = family ∧ i.supersededMs = none then { i with supersededMs := some now } else i

structure RegistryRun where
  store : DeviceStore
  now : Int
  issued : List Issue

inductive RegistryOp where
  | enrol (family : QString) (secret : QByteArray) (sub : QString) (identity : QVariantMap)
      (edgeOrigin : QString) (binding : DeviceBinding)
  | redeem (fresh : QByteArray) (family : QString) (secret : QByteArray) (edgeOrigin : QString)
  | forget (family : QString)
  | health (isHealthy : Bool)
  | advance (ms : Nat)

namespace RegistryRun
variable (hashOf : QByteArray → QString) (c : DeviceConfig)

def start (now : Int) : RegistryRun := ⟨⟨true, ∅, ∅⟩, now, []⟩

def step (s : RegistryRun) : RegistryOp → RegistryRun
  | .enrol family secret sub identity edgeOrigin binding =>
    let r := enrol hashOf c s.store s.now family secret sub identity edgeOrigin binding
    { s with store := r.1, issued := if r.2.isValid then ⟨family, secret, none⟩ :: s.issued else s.issued }
  | .redeem fresh family secret edgeOrigin =>
    let r := redeem hashOf c s.store s.now fresh family secret edgeOrigin
    { s with
      store := r.1
      issued := if r.2.1.ok then ⟨family, fresh, none⟩ :: s.issued.map (Issue.supersede family s.now)
        else s.issued }
  | .forget family => { s with store := DeviceRegistry.forget s.store family }
  | .health isHealthy => { s with store := { s.store with isHealthy := isHealthy } }
  | .advance ms => { s with now := s.now + ms }

/-- The generator answers a secret whose digest is not that of any issued before. -/
def New (s : RegistryRun) (secret : QByteArray) : Prop :=
  secret ≠ [] ∧ hashOf secret ≠ "" ∧ ∀ i ∈ s.issued, hashOf i.secret ≠ hashOf secret
deriving Decidable

def Fresh (s : RegistryRun) : RegistryOp → Prop
  | .enrol family secret _ _ _ _ => family ≠ "" ∧ (∀ i ∈ s.issued, i.family ≠ family) ∧ s.New hashOf secret
  | .redeem fresh _ _ _ => s.New hashOf fresh
  | _ => True

/-- The row of a family answers to the secrets last issued for it. -/
structure Describes (issued : List Issue) (family : QString) (row : DeviceRow) : Prop where
  current : ∃ i ∈ issued, i.family = family ∧ hashOf i.secret = row.currentHash ∧ i.supersededMs = none
  previous : row.prevHash ≠ "" → ∃ i ∈ issued, i.family = family ∧ hashOf i.secret = row.prevHash ∧
    i.supersededMs = some row.prevIssuedMs
  live : row.revoked = false

structure Inv (s : RegistryRun) : Prop where
  given : ∀ i ∈ s.issued, i.family ≠ "" ∧ i.secret ≠ [] ∧ hashOf i.secret ≠ ""
  distinct : ∀ i ∈ s.issued, ∀ j ∈ s.issued, hashOf i.secret = hashOf j.secret → i = j
  rows : ∀ family row, s.store.devices.find family = some row → Describes hashOf s.issued family row
  newest : ∀ i ∈ s.issued, i.supersededMs = none → ∀ row, s.store.devices.find i.family = some row →
    hashOf i.secret = row.currentHash

variable {hashOf c}

namespace Inv
variable {s : RegistryRun}

theorem fewer (h : Inv hashOf s) {store : DeviceStore}
    (hs : ∀ k row, store.devices.find k = some row → s.store.devices.find k = some row) :
    Inv hashOf { s with store := store } :=
  ⟨h.given, h.distinct, fun family row hr => h.rows family row (hs family row hr),
    fun i hi hn row hr => h.newest i hi hn row (hs i.family row hr)⟩

theorem forget (h : Inv hashOf s) (family : QString) :
    Inv hashOf { s with store := DeviceRegistry.forget s.store family } := by
  refine h.fewer fun k row hk => ?_
  rw [forget_find] at hk
  split at hk
  · cases hk
  · exact hk

theorem enrol (h : Inv hashOf s) {family : QString} {secret : QByteArray} (hfam : family ≠ "")
    (hunused : ∀ i ∈ s.issued, i.family ≠ family) (hnew : s.New hashOf secret) (sub : QString)
    (identity : QVariantMap) (edgeOrigin : QString) (binding : DeviceBinding) :
    Inv hashOf (s.step hashOf c (.enrol family secret sub identity edgeOrigin binding)) := by
  rcases enrol_cases hashOf c s.store s.now family secret sub identity edgeOrigin binding with ⟨hinvalid, hrows⟩ | ⟨row, hcred, hcur, hprev, hlive, hrows⟩
  · simp only [step, hinvalid, Bool.false_eq_true, if_false]
    exact h.fewer hrows
  · obtain ⟨hsec, hhash, hother⟩ := hnew
    have hvalid : (DeviceRegistry.enrol hashOf c s.store s.now family secret sub identity edgeOrigin
        binding).2.isValid = true := by
      rw [hcred]
      simp [Credential.isValid, hfam, hsec]
    simp only [step, hvalid, if_true]
    refine ⟨?_, ?_, fun k row' hk => ?_, fun i hi hn row' hk => ?_⟩
    · rintro i (_ | ⟨_, hi⟩)
      · exact ⟨hfam, hsec, hhash⟩
      · exact h.given i hi
    · rintro i (_ | ⟨_, hi⟩) j (_ | ⟨_, hj⟩) heq
      · rfl
      · exact absurd heq.symm (hother j hj)
      · exact absurd heq (hother i hi)
      · exact h.distinct i hi j hj heq
    · have hk' := hrows k row' hk
      split at hk'
      · rename_i hkf
        rw [hk', hkf]
        exact ⟨⟨_, mem_cons_self, rfl, hcur.symm, rfl⟩, fun hp => absurd hprev hp, hlive⟩
      · obtain ⟨⟨i, hi, hcurrent⟩, hp, hl⟩ := h.rows k row' hk'
        refine ⟨⟨i, mem_cons_of_mem _ hi, hcurrent⟩, fun hne => ?_, hl⟩
        obtain ⟨j, hj, hprevious⟩ := hp hne
        exact ⟨j, mem_cons_of_mem _ hj, hprevious⟩
    · have hk' := hrows i.family row' hk
      rcases hi with _ | ⟨_, hi⟩
      · rw [if_pos rfl] at hk'
        rw [hk', hcur]
      · rw [if_neg (hunused i hi)] at hk'
        exact h.newest i hi hn row' hk'

private theorem supersede_keeps (family : QString) (now : Int) (i : Issue) :
    (i.supersede family now).family = i.family ∧ (i.supersede family now).secret = i.secret := by
  unfold Issue.supersede
  split <;> exact ⟨rfl, rfl⟩

/-- The next generation of a family takes the place of the one its row names. -/
theorem rotate (h : Inv hashOf s) {family : QString} {fresh : QByteArray} {row : DeviceRow}
    (hrow : s.store.devices.find family = some row) (hfam : family ≠ "") (hnew : s.New hashOf fresh)
    (retire : Bool) (store : DeviceStore)
    (hstore : ∀ k, store.devices.find k = if k = family then
      some (rotated hashOf fresh row.currentHash row.currentGen s.now retire row) else s.store.devices.find k) :
    Inv hashOf { s with
      store := store
      issued := ⟨family, fresh, none⟩ :: s.issued.map (Issue.supersede family s.now) } := by
  obtain ⟨hsec, hhash, hother⟩ := hnew
  have keep := supersede_keeps family s.now
  refine ⟨?_, ?_, fun k row' hk => ?_, fun i hi hn row' hk => ?_⟩
  · rintro i (_ | ⟨_, hi⟩)
    · exact ⟨hfam, hsec, hhash⟩
    · obtain ⟨j, hj, rfl⟩ := mem_map.mp hi
      rw [(keep j).1, (keep j).2]
      exact h.given j hj
  · rintro i (_ | ⟨_, hi⟩) j (_ | ⟨_, hj⟩) heq
    · rfl
    · obtain ⟨j', hj', rfl⟩ := mem_map.mp hj
      exact absurd (heq.symm.trans rfl) (by rw [(keep j').2]; exact hother j' hj')
    · obtain ⟨i', hi', rfl⟩ := mem_map.mp hi
      exact absurd heq (by rw [(keep i').2]; exact hother i' hi')
    · obtain ⟨i', hi', rfl⟩ := mem_map.mp hi
      obtain ⟨j', hj', rfl⟩ := mem_map.mp hj
      rw [(keep i').2, (keep j').2] at heq
      rw [h.distinct i' hi' j' hj' heq]
  · have hk' := hstore k
    rw [hk] at hk'
    split at hk'
    · rename_i hkf
      subst hkf
      obtain rfl : row' = rotated hashOf fresh row.currentHash row.currentGen s.now retire row :=
        Option.some.inj hk'
      obtain ⟨⟨i, hi, hif, hic, hin⟩, hp, hl⟩ := h.rows k row hrow
      cases retire with
      | true =>
        refine ⟨⟨_, mem_cons_self, rfl, by simp [rotated], rfl⟩, fun _ => ?_, by simpa [rotated] using hl⟩
        refine ⟨i.supersede k s.now, mem_cons_of_mem _ (mem_map_of_mem hi), ?_, ?_, ?_⟩
        · rw [(keep i).1, hif]
        · rw [(keep i).2, hic]
          simp [rotated]
        · simp [Issue.supersede, hif, hin, rotated]
      | false =>
        refine ⟨⟨_, mem_cons_self, rfl, by simp [rotated], rfl⟩, fun hne => ?_, by simpa [rotated] using hl⟩
        obtain ⟨j, hj, hjf, hjp, hjs⟩ := hp (by simpa [rotated] using hne)
        refine ⟨j.supersede k s.now, mem_cons_of_mem _ (mem_map_of_mem hj), ?_, ?_, ?_⟩
        · rw [(keep j).1, hjf]
        · rw [(keep j).2, hjp]
          simp [rotated]
        · simp [Issue.supersede, hjs, rotated]
    · rename_i hkf
      obtain ⟨⟨i, hi, hif, hic, hin⟩, hp, hl⟩ := h.rows k row' hk'.symm
      have untouched (j : Issue) (hj : j.family = k) : j.supersede family s.now = j := by
        simp [Issue.supersede, hj, hkf]
      refine ⟨⟨i, mem_cons_of_mem _ (mem_map.mpr ⟨i, hi, untouched i hif⟩), hif, hic, hin⟩,
        fun hne => ?_, hl⟩
      obtain ⟨j, hj, hjf, hjp, hjs⟩ := hp hne
      exact ⟨j, mem_cons_of_mem _ (mem_map.mpr ⟨j, hj, untouched j hjf⟩), hjf, hjp, hjs⟩
  · have hk' := hstore i.family
    rw [hk] at hk'
    rcases hi with _ | ⟨_, hi⟩
    · rw [if_pos rfl] at hk'
      rw [Option.some.inj hk']
      unfold rotated
      split <;> rfl
    · obtain ⟨j, hj, rfl⟩ := mem_map.mp hi
      have hne : j.family ≠ family := by
        rintro rfl
        cases hs : j.supersededMs <;> simp [Issue.supersede, hs] at hn
      have hsame : j.supersede family s.now = j := by simp [Issue.supersede, hne]
      rw [hsame] at hn hk' ⊢
      rw [if_neg hne] at hk'
      exact h.newest j hj hn row' hk'.symm

theorem redeem (h : Inv hashOf s) {fresh : QByteArray} (hnew : s.New hashOf fresh) (family : QString)
    (secret : QByteArray) (edgeOrigin : QString) :
    Inv hashOf (s.step hashOf c (.redeem fresh family secret edgeOrigin)) := by
  cases hread : read s.store family secret with
  | none => simpa [step, DeviceRegistry.redeem, hread] using h
  | some row =>
    obtain ⟨hhealthy, hfam, -, hrow⟩ := read_eq_some.mp hread
    cases hjudge : judge hashOf c s.now edgeOrigin secret row with
    | refused => simpa [step, DeviceRegistry.redeem, hread, hjudge, settle] using h
    | lapsed => simpa [step, DeviceRegistry.redeem, hread, hjudge, settle] using h.forget family
    | reused => simpa [step, DeviceRegistry.redeem, hread, hjudge, settle] using h.forget family
    | rotate retire =>
      have hvalid : Credential.isValid ⟨family, fresh, row.expiresMs⟩ = true := by
        simp [Credential.isValid, hfam, hnew.1]
      simp only [step, DeviceRegistry.redeem, hread, hjudge, settle, issue_credential, hhealthy, if_true,
        hvalid]
      refine h.rotate hrow hfam hnew retire _ fun k => ?_
      rw [issue_find]
      by_cases hk : k = family
      · subst hk
        simp [hhealthy, hrow]
      · simp [hk]

theorem step (h : Inv hashOf s) {op : RegistryOp} (hop : s.Fresh hashOf op) :
    Inv hashOf (s.step hashOf c op) := by
  cases op with
  | enrol family secret sub identity edgeOrigin binding =>
    exact h.enrol hop.1 hop.2.1 hop.2.2 sub identity edgeOrigin binding
  | redeem fresh family secret edgeOrigin => exact h.redeem hop family secret edgeOrigin
  | forget family => exact h.forget family
  | health isHealthy => exact h.fewer fun _ _ hk => hk
  | advance ms => exact ⟨h.given, h.distinct, h.rows, h.newest⟩

theorem start (now : Int) : Inv hashOf (RegistryRun.start now) := by
  have hnone (k : QString) : (RegistryRun.start now).store.devices.find k = none := Hash.find_empty k
  refine ⟨fun _ hi => absurd hi not_mem_nil, fun _ hi => absurd hi not_mem_nil,
    fun k row hk => ?_, fun _ hi => absurd hi not_mem_nil⟩
  rw [hnone] at hk
  cases hk

/-- A superseded secret, past its window, is recognized exactly when it is the one the row
still keeps the digest of, and the row is looked at that far. -/
theorem reused_iff (h : Inv hashOf s) {i : Issue} (hi : i ∈ s.issued) {t : Int}
    (ht : i.supersededMs = some t) {row : DeviceRow} (hrow : s.store.devices.find i.family = some row)
    (hlate : c.overlapSeconds * 1000 < s.now - t) (fresh : QByteArray) (edgeOrigin : QString) :
    let r := DeviceRegistry.redeem hashOf c s.store s.now fresh i.family i.secret edgeOrigin
    (r.1.devices.find i.family = none ∧ r.2.2 = true) ↔
      s.store.isHealthy = true ∧ row.edgeOrigin = edgeOrigin ∧
        (s.now < row.expiresMs ∧ s.now - row.lastUsedMs ≤ daysToMs c.inactivityDays) ∧
        hashOf i.secret = row.prevHash := by
  intro r
  obtain ⟨hfam, hsec, hhash⟩ := h.given i hi
  obtain ⟨⟨k, hk, -, hkc, hkn⟩, hprev, hlive⟩ := h.rows i.family row hrow
  have hcur : hashOf i.secret ≠ row.currentHash := by
    intro heq
    rw [h.distinct i hi k hk (heq.trans hkc.symm)] at ht
    simp [hkn] at ht
  constructor
  · rintro ⟨-, hreport⟩
    obtain ⟨row', hread, hjudge⟩ := redeem_reports.mp hreport
    obtain ⟨hhealthy, -, -, hrow'⟩ := read_eq_some.mp hread
    obtain rfl : row = row' := Option.some.inj (hrow.symm.trans hrow')
    obtain ⟨-, horigin, hclocks, -, -, heq, -⟩ := judge_eq_reused.mp hjudge
    exact ⟨hhealthy, horigin, hclocks, heq⟩
  · rintro ⟨hhealthy, horigin, hclocks, heq⟩
    have hread : read s.store i.family i.secret = some row :=
      read_eq_some.mpr ⟨hhealthy, hfam, hsec, hrow⟩
    have hprevNe : row.prevHash ≠ "" := heq ▸ hhash
    obtain ⟨j, hj, -, hjp, hjs⟩ := hprev hprevNe
    obtain rfl : i = j := h.distinct i hi j hj (heq.trans hjp.symm)
    obtain rfl : t = row.prevIssuedMs := Option.some.inj (ht.symm.trans hjs)
    have hjudge : judge hashOf c s.now edgeOrigin i.secret row = .reused :=
      judge_eq_reused.mpr ⟨hlive, horigin, hclocks, hcur, hprevNe, heq, hlate⟩
    simp only [r, redeem_of_reused hread hjudge, and_true]
    rw [forget_find, if_pos ⟨hhealthy, hfam, rfl⟩]

private theorem newest_not_reused (h : Inv hashOf s) {i : Issue} (hi : i ∈ s.issued) (hn : i.supersededMs = none)
    (fresh : QByteArray) (edgeOrigin : QString) :
    (DeviceRegistry.redeem hashOf c s.store s.now fresh i.family i.secret edgeOrigin).2.2 = false := by
  by_contra hreport
  obtain ⟨row, hread, hjudge⟩ := redeem_reports.mp (by simpa using hreport)
  obtain ⟨-, -, -, hcur, -⟩ := judge_eq_reused.mp hjudge
  exact hcur (h.newest i hi hn row (read_eq_some.mp hread).2.2.2)

end Inv

instance (s : RegistryRun) : (op : RegistryOp) → Decidable (s.Fresh hashOf op)
  | .enrol family secret _ _ _ _ =>
    inferInstanceAs (Decidable (family ≠ "" ∧ (∀ i ∈ s.issued, i.family ≠ family) ∧ s.New hashOf secret))
  | .redeem fresh _ _ _ => inferInstanceAs (Decidable (s.New hashOf fresh))
  | .forget _ | .health _ | .advance _ => .isTrue trivial

/-- A superseded secret presented past the window takes its family down and is reported
exactly when it is the one generation back that the row still names, in a row that is
looked at that far; and the newest secret never is. -/
structure Detects (hashOf : QByteArray → QString) (c : DeviceConfig) (s : RegistryRun) : Prop where
  superseded : ∀ i ∈ s.issued, ∀ t, i.supersededMs = some t →
    ∀ row, s.store.devices.find i.family = some row → c.overlapSeconds * 1000 < s.now - t →
    ∀ fresh edgeOrigin,
      let r := redeem hashOf c s.store s.now fresh i.family i.secret edgeOrigin
      (r.1.devices.find i.family = none ∧ r.2.2 = true) ↔
        s.store.isHealthy = true ∧ row.edgeOrigin = edgeOrigin ∧
          (s.now < row.expiresMs ∧ s.now - row.lastUsedMs ≤ daysToMs c.inactivityDays) ∧
          hashOf i.secret = row.prevHash
  newest : ∀ i ∈ s.issued, i.supersededMs = none → ∀ fresh edgeOrigin,
    (redeem hashOf c s.store s.now fresh i.family i.secret edgeOrigin).2.2 = false

theorem detects_of_fresh (now : Int) (ops : List RegistryOp)
    (h : Each (step hashOf c) (Fresh hashOf) (RegistryRun.start now) ops) :
    Detects hashOf c (run (step hashOf c) (RegistryRun.start now) ops) := by
  have hinv : Inv hashOf (run (step hashOf c) (RegistryRun.start now) ops) :=
    h.invariant (Inv hashOf) (fun _ _ hi hop => hi.step hop) (Inv.start now)
  exact ⟨fun i hi t ht row hrow hlate fresh edgeOrigin => hinv.reused_iff hi ht hrow hlate fresh edgeOrigin,
    fun i hi hn fresh edgeOrigin => hinv.newest_not_reused hi hn fresh edgeOrigin⟩

/-- A device is enrolled and redeems twice, the window of the second closing after it. -/
def redeemedTwice : List RegistryOp :=
  [.enrol "f" [1] "u1" [("sub", "u1")] "https://app" .user,
    .redeem [2] "f" [1] "https://app", .redeem [3] "f" [2] "https://app", .advance 120001]

theorem detects_redeemedTwice :
    Detects lettersOf standard (run (step lettersOf standard) (RegistryRun.start 0) redeemedTwice) :=
  detects_of_fresh 0 redeemedTwice (by decide)

/-- Two generations back, a secret that was handed out is refused like one that never was. -/
theorem retired_twice_unnoticed :
    let s := run (step lettersOf standard) (RegistryRun.start 0) redeemedTwice
    Each (step lettersOf standard) (Fresh lettersOf) (RegistryRun.start 0) redeemedTwice ∧
      ⟨"f", [1], some 0⟩ ∈ s.issued ∧ (s.store.devices.find "f").isSome ∧
      standard.overlapSeconds * 1000 < s.now - 0 ∧
      (redeem lettersOf standard s.store s.now [4] "f" [1] "https://app").2 = ({}, false) ∧
      ((redeem lettersOf standard s.store s.now [4] "f" [1] "https://app").1.devices.find "f").isSome := by
  decide

end RegistryRun
end SynQt
