import SynQt.Identity.CredentialReuse

namespace SynQt
open Lib DeviceRegistry Function

/-- What is done to a registry: its own operations, a purge, and time. -/
inductive DeviceOp where
  | enrol (family : QString) (secret : QByteArray) (sub : QString) (identity : QVariantMap)
      (edgeOrigin : QString) (binding : DeviceBinding)
  | redeem (fresh : QByteArray) (family : QString) (secret : QByteArray) (edgeOrigin : QString)
  | forget (family : QString)
  | purgeExpired
  | advance (ms : Nat)

structure Tenure where
  enrolledMs : Int
  usedMs : Int
deriving DecidableEq

structure DeviceRun where
  registry : RegistryRun
  tenures : QString → Option Tenure

namespace DeviceRun
variable (hashOf : QByteArray → QString) (c : DeviceConfig)

def start (now : Int) : DeviceRun := ⟨RegistryRun.start now, fun _ => none⟩

def step (s : DeviceRun) : DeviceOp → DeviceRun
  | .enrol family secret sub identity edgeOrigin binding =>
    let r := enrol hashOf c s.registry.store s.registry.now family secret sub identity edgeOrigin binding
    { registry := s.registry.step hashOf c (.enrol family secret sub identity edgeOrigin binding)
      tenures := if r.2.isValid then update s.tenures family (some ⟨s.registry.now, s.registry.now⟩) else s.tenures }
  | .redeem fresh family secret edgeOrigin =>
    let r := redeem hashOf c s.registry.store s.registry.now fresh family secret edgeOrigin
    { registry := s.registry.step hashOf c (.redeem fresh family secret edgeOrigin)
      tenures := if r.2.1.ok then
          update s.tenures family ((s.tenures family).map fun tenure => { tenure with usedMs := s.registry.now })
        else s.tenures }
  | .forget family => { s with registry := s.registry.step hashOf c (.forget family) }
  | .purgeExpired => { s with registry := { s.registry with store := purgeExpired c s.registry.store s.registry.now } }
  | .advance ms => { s with registry := s.registry.step hashOf c (.advance ms) }

/-- What the generator answers is new. -/
def Fresh (s : DeviceRun) : DeviceOp → Prop
  | .enrol family secret sub identity edgeOrigin binding =>
    s.registry.Fresh hashOf (.enrol family secret sub identity edgeOrigin binding)
  | .redeem fresh family secret edgeOrigin => s.registry.Fresh hashOf (.redeem fresh family secret edgeOrigin)
  | _ => True

/-- A row dates from its family's tenure. -/
structure Dated (tenures : QString → Option Tenure) (family : QString) (row : DeviceRow) : Prop where
  tenure : ∃ tenure, tenures family = some tenure ∧ row.expiresMs = tenure.enrolledMs + daysToMs c.lifetimeDays ∧
    row.lastUsedMs = tenure.usedMs

structure Inv (s : DeviceRun) : Prop where
  registry : RegistryRun.Inv hashOf s.registry
  healthy : s.registry.store.isHealthy = true
  dated : ∀ family row, s.registry.store.devices.find family = some row → Dated c s.tenures family row

structure Lifetimes (s : DeviceRun) : Prop where
  /-- A superseded secret is accepted no later than the window after the moment it was. -/
  superseded : ∀ i ∈ s.registry.issued, ∀ t, i.supersededMs = some t → ∀ fresh family edgeOrigin,
    (redeem hashOf c s.registry.store s.registry.now fresh family i.secret edgeOrigin).2.1.ok = true →
      s.registry.now ≤ t + c.overlapSeconds * 1000
  /-- No secret of a family is accepted past its age, nor once it has lain unused too long. -/
  clocks : ∀ fresh family secret edgeOrigin,
    (redeem hashOf c s.registry.store s.registry.now fresh family secret edgeOrigin).2.1.ok = true →
      ∃ tenure, s.tenures family = some tenure ∧ s.registry.now < tenure.enrolledMs + daysToMs c.lifetimeDays ∧
        s.registry.now ≤ tenure.usedMs + daysToMs c.inactivityDays
  /-- A purge takes a row exactly where a redemption refuses everything, and changes none. -/
  purge : ∀ family row, s.registry.store.devices.find family = some row →
    ((purgeExpired c s.registry.store s.registry.now).devices.find family = none ↔ ∀ fresh secret edgeOrigin,
      (redeem hashOf c s.registry.store s.registry.now fresh family secret edgeOrigin).2.1.ok = false) ∧
    ∀ row', (purgeExpired c s.registry.store s.registry.now).devices.find family = some row' → row' = row

variable {hashOf c} {s : DeviceRun}

section
variable {store : DeviceStore} {now : Int} {fresh secret : QByteArray} {family edgeOrigin : QString} {row : DeviceRow}

theorem judge_rotates : (judge hashOf c now edgeOrigin secret row).rotates = true ↔
    row.revoked = false ∧ row.edgeOrigin = edgeOrigin ∧ now < row.expiresMs ∧ now - row.lastUsedMs ≤ daysToMs c.inactivityDays ∧
      (hashOf secret = row.currentHash ∨
        row.prevHash ≠ "" ∧ hashOf secret = row.prevHash ∧ now - row.prevIssuedMs ≤ c.overlapSeconds * 1000) := by
  rw [judge]
  by_cases hrevoked : row.revoked = true
  · rw [if_pos hrevoked]
    exact iff_of_false Bool.false_ne_true fun h => Bool.false_ne_true (h.1.symm.trans hrevoked)
  · rw [if_neg hrevoked]
    by_cases horigin : row.edgeOrigin = edgeOrigin
    · rw [if_neg (not_not_intro horigin)]
      by_cases hclocks : now ≥ row.expiresMs ∨ now - row.lastUsedMs > daysToMs c.inactivityDays
      · rw [if_pos hclocks]
        exact iff_of_false Bool.false_ne_true fun ⟨_, _, hexpiry, hidle, _⟩ => by omega
      · rw [if_neg hclocks]
        have hage : now < row.expiresMs ∧ now - row.lastUsedMs ≤ daysToMs c.inactivityDays := by omega
        have hlive : row.revoked = false := Bool.eq_false_iff.mpr hrevoked
        by_cases hcurrent : hashOf secret = row.currentHash
        · rw [if_pos hcurrent]
          exact iff_of_true rfl ⟨hlive, horigin, hage.1, hage.2, .inl hcurrent⟩
        · rw [if_neg hcurrent]
          by_cases hretired : row.prevHash = "" ∨ hashOf secret ≠ row.prevHash
          · rw [if_pos hretired]
            refine iff_of_false Bool.false_ne_true fun ⟨_, _, _, _, h⟩ => ?_
            obtain hcurrent' | ⟨hsome, hprev, -⟩ := h
            · exact hcurrent hcurrent'
            · exact hretired.elim hsome (absurd hprev)
          · rw [if_neg hretired]
            obtain ⟨hsome, hprev⟩ := not_or.mp hretired
            by_cases hlate : now - row.prevIssuedMs > c.overlapSeconds * 1000
            · rw [if_pos hlate]
              refine iff_of_false Bool.false_ne_true fun ⟨_, _, _, _, h⟩ => ?_
              obtain hcurrent' | ⟨-, -, hwindow⟩ := h
              · exact hcurrent hcurrent'
              · exact absurd hlate (Int.not_lt.mpr hwindow)
            · rw [if_neg hlate]
              exact iff_of_true rfl ⟨hlive, horigin, hage.1, hage.2, .inr ⟨hsome, not_not.mp hprev, Int.not_lt.mp hlate⟩⟩
    · rw [if_pos horigin]
      exact iff_of_false Bool.false_ne_true fun h => horigin h.2.1

private theorem redeem_ok : (redeem hashOf c store now fresh family secret edgeOrigin).2.1.ok = true ↔
    fresh ≠ [] ∧ ∃ row, read store family secret = some row ∧ (judge hashOf c now edgeOrigin secret row).rotates = true := by
  cases hread : read store family secret with
  | none =>
    rw [redeem, hread]
    simp
  | some row =>
    obtain ⟨hhealthy, hfamily, -, -⟩ := read_eq_some.mp hread
    have hsettle : redeem hashOf c store now fresh family secret edgeOrigin =
        settle hashOf store now fresh family row (judge hashOf c now edgeOrigin secret row) := by
      rw [redeem, hread]
    have hrefused (hnot : (judge hashOf c now edgeOrigin secret row).rotates = false) :
        ¬ ∃ row', some row = some row' ∧ (judge hashOf c now edgeOrigin secret row').rotates = true := by
      rintro ⟨row', hrow', hrotates⟩
      obtain rfl := Option.some.inj hrow'
      exact Bool.false_ne_true (hnot.symm.trans hrotates)
    rw [hsettle]
    cases hjudge : judge hashOf c now edgeOrigin secret row with
    | rotate retire =>
      have hvalid : Credential.isValid ⟨family, fresh, row.expiresMs⟩ = true ↔ fresh ≠ [] := by
        simp [Credential.isValid, hfamily]
      simp only [settle, issue_credential, hhealthy, if_true]
      by_cases hfresh : fresh = []
      · rw [if_neg fun h => hvalid.mp h hfresh]
        exact iff_of_false Bool.false_ne_true fun h => h.1 hfresh
      · rw [if_pos (hvalid.mpr hfresh)]
        exact iff_of_true rfl ⟨hfresh, row, rfl, by rw [hjudge]; rfl⟩
    | refused => exact iff_of_false Bool.false_ne_true fun h => hrefused (by rw [hjudge]; rfl) h.2
    | lapsed => exact iff_of_false Bool.false_ne_true fun h => hrefused (by rw [hjudge]; rfl) h.2
    | reused => exact iff_of_false Bool.false_ne_true fun h => hrefused (by rw [hjudge]; rfl) h.2

private theorem purgeExpired_eq (hhealthy : store.isHealthy = true) (hrow : store.devices.find family = some row) :
    (purgeExpired c store now).devices.find family =
      if now < row.expiresMs ∧ now - row.lastUsedMs ≤ daysToMs c.inactivityDays then some row else none := by
  simp only [purgeExpired, DeviceStore.exec, hhealthy, if_true]
  rw [Hash.find_filter, hrow, Option.filter_some]
  by_cases hclocks : now < row.expiresMs ∧ now - row.lastUsedMs ≤ daysToMs c.inactivityDays
  · rw [if_pos hclocks, if_pos]
    rw [decide_eq_false (Int.not_le.mpr hclocks.1), decide_eq_false (by omega)]
    rfl
  · rw [if_neg hclocks, if_neg]
    rw [Bool.not_eq_true', Bool.or_eq_false_iff, decide_eq_false_iff_not, decide_eq_false_iff_not]
    omega

/-- An enrolment that answers stores a row of that moment, over what a purge left. -/
theorem enrol_row {sub : QString} {identity : QVariantMap} {binding : DeviceBinding}
    (hvalid : (enrol hashOf c store now family secret sub identity edgeOrigin binding).2.isValid = true) {k : QString}
    (hrow : (enrol hashOf c store now family secret sub identity edgeOrigin binding).1.devices.find k = some row) :
    if k = family then row.expiresMs = now + daysToMs c.lifetimeDays ∧ row.lastUsedMs = now
    else store.devices.find k = some row := by
  rw [enrol] at hvalid hrow
  split at hvalid
  · cases hvalid
  · next hopen =>
    rw [if_neg hopen] at hrow
    split at hvalid
    · cases hvalid
    · next hfloor =>
      rw [if_neg hfloor] at hrow
      dsimp only at hvalid hrow
      split at hvalid
      · cases hvalid
      · next hkey =>
        rw [if_neg hkey] at hrow
        split at hvalid
        · next hinserted =>
          rw [if_pos hinserted] at hrow
          rw [DeviceStore.exec] at hinserted hrow
          split at hinserted
          · next hhealthy =>
            rw [if_pos hhealthy] at hrow
            dsimp only at hrow
            rw [Hash.find_insert] at hrow
            split at hrow
            · next hsame =>
              obtain rfl := Option.some.inj hrow
              rw [if_pos hsame]
              exact ⟨rfl, rfl⟩
            · next hother =>
              rw [if_neg hother]
              exact purgeExpired_find hrow
          · cases hinserted
        · cases hvalid

private theorem exec_isHealthy {statement : DeviceStore → DeviceStore} (hstatement : ∀ t, (statement t).isHealthy = t.isHealthy)
    (store : DeviceStore) : (store.exec statement).1.isHealthy = store.isHealthy := by
  rw [DeviceStore.exec]
  split
  · exact hstatement store
  · rfl

private theorem enrol_isHealthy (sub : QString) (identity : QVariantMap) (binding : DeviceBinding) :
    (enrol hashOf c store now family secret sub identity edgeOrigin binding).1.isHealthy = store.isHealthy := by
  rw [enrol]
  split
  · rfl
  · split
    · rfl
    · dsimp only
      split
      · exact purgeExpired_isHealthy
      · split
        · refine (exec_isHealthy ?_ _).trans purgeExpired_isHealthy
          exact fun _ => rfl
        · refine (exec_isHealthy ?_ _).trans purgeExpired_isHealthy
          exact fun _ => rfl

private theorem forget_isHealthy (family : QString) : (forget store family).isHealthy = store.isHealthy := by
  rw [forget]
  split
  · rfl
  · apply exec_isHealthy
    exact fun _ => rfl

private theorem issue_isHealthy (currentHash : QString) (generation expiresMs : Int) (retire : Bool) :
    (issue hashOf store fresh family currentHash generation now expiresMs retire).1.isHealthy = store.isHealthy := by
  have hexec : (store.exec (·.update family (rotated hashOf fresh currentHash generation now retire))).1.isHealthy =
      store.isHealthy := by
    apply exec_isHealthy
    intro t
    rw [DeviceStore.update]
    split <;> rfl
  rw [issue]
  split
  · exact hexec
  · exact hexec

private theorem redeem_isHealthy : (redeem hashOf c store now fresh family secret edgeOrigin).1.isHealthy = store.isHealthy := by
  rw [redeem]
  split
  · rfl
  · next row hread =>
    cases judge hashOf c now edgeOrigin secret row with
    | refused => rfl
    | lapsed | reused => exact forget_isHealthy family
    | rotate retire =>
      rw [settle]
      split
      · exact issue_isHealthy _ _ _ _
      · exact issue_isHealthy _ _ _ _

/-- What a redemption leaves: rows that were there, and the one it accepted answered for now. -/
theorem redeem_row {k : QString} (hfresh : fresh ≠ [])
    (hrow : (redeem hashOf c store now fresh family secret edgeOrigin).1.devices.find k = some row) :
    if (redeem hashOf c store now fresh family secret edgeOrigin).2.1.ok = true ∧ k = family then
      ∃ before, store.devices.find k = some before ∧ row.expiresMs = before.expiresMs ∧ row.lastUsedMs = now
    else store.devices.find k = some row := by
  by_cases hok : (redeem hashOf c store now fresh family secret edgeOrigin).2.1.ok = true
  · obtain ⟨-, read_, hread, hrotates⟩ := redeem_ok.mp hok
    obtain ⟨hhealthy, -, -, hthere⟩ := read_eq_some.mp hread
    rw [redeem, hread] at hrow
    dsimp only at hrow
    cases hjudge : judge hashOf c now edgeOrigin secret read_ with
    | rotate retire =>
      have hissued : (issue hashOf store fresh family read_.currentHash read_.currentGen now read_.expiresMs retire).1.devices.find k =
          some row := by
        rw [hjudge, settle] at hrow
        split at hrow
        · exact hrow
        · exact hrow
      rw [issue_find] at hissued
      by_cases hsame : k = family
      · rw [if_pos ⟨hok, hsame⟩]
        rw [if_pos ⟨hhealthy, hsame⟩, hsame, hthere] at hissued
        refine ⟨read_, hsame ▸ hthere, ?_⟩
        rw [← Option.some.inj hissued, rotated]
        cases retire with
        | true => exact ⟨rfl, rfl⟩
        | false => exact ⟨rfl, rfl⟩
      · rw [if_neg fun h => hsame h.2]
        rw [if_neg fun h => hsame h.2] at hissued
        exact hissued
    | refused | lapsed | reused =>
      rw [hjudge] at hrotates
      cases hrotates
  · rw [if_neg fun h => hok h.1]
    have hforget : (forget store family).devices.find k = some row → store.devices.find k = some row := by
      intro h
      rw [forget_find] at h
      split at h
      · cases h
      · exact h
    cases hread : read store family secret with
    | none =>
      rw [redeem, hread] at hrow
      exact hrow
    | some read_ =>
      have hnot : (judge hashOf c now edgeOrigin secret read_).rotates ≠ true := fun h => hok (redeem_ok.mpr ⟨hfresh, read_, hread, h⟩)
      rw [redeem, hread] at hrow
      dsimp only at hrow
      cases hjudge : judge hashOf c now edgeOrigin secret read_ with
      | rotate retire => exact absurd (hjudge ▸ rfl) hnot
      | refused =>
        rw [hjudge] at hrow
        exact hrow
      | lapsed | reused =>
        rw [hjudge] at hrow
        exact hforget hrow

end

namespace Inv

section
variable (h : Inv hashOf c s)
include h

theorem forget (family : QString) : Inv hashOf c (s.step hashOf c (.forget family)) where
  registry := h.registry.forget family
  healthy := (forget_isHealthy family).trans h.healthy
  dated k row hrow := by
    have hrow' : (DeviceRegistry.forget s.registry.store family).devices.find k = some row := hrow
    rw [forget_find] at hrow'
    split at hrow'
    · cases hrow'
    · exact h.dated k row hrow'

theorem enrol {family : QString} {secret : QByteArray} {sub : QString} {identity : QVariantMap}
    {edgeOrigin : QString} {binding : DeviceBinding}
    (hfresh : s.Fresh hashOf (.enrol family secret sub identity edgeOrigin binding)) :
    Inv hashOf c (s.step hashOf c (.enrol family secret sub identity edgeOrigin binding)) where
  registry := h.registry.enrol hfresh.1 hfresh.2.1 hfresh.2.2 sub identity edgeOrigin binding
  healthy := (enrol_isHealthy sub identity binding).trans h.healthy
  dated k row hrow := by
    have hrow' : (DeviceRegistry.enrol hashOf c s.registry.store s.registry.now family secret sub identity edgeOrigin
        binding).1.devices.find k = some row := hrow
    rw [step]
    dsimp only
    by_cases hvalid : (DeviceRegistry.enrol hashOf c s.registry.store s.registry.now family secret sub identity edgeOrigin
        binding).2.isValid = true
    · have hdate := enrol_row hvalid hrow'
      rw [if_pos hvalid]
      by_cases hsame : k = family
      · rw [if_pos hsame] at hdate
        rw [hsame]
        exact ⟨_, update_self _ _ _, hdate.1, hdate.2⟩
      · rw [if_neg hsame] at hdate
        obtain ⟨tenure, htenure, hdates⟩ := h.dated k row hdate
        exact ⟨tenure, (update_of_ne hsame _ _).trans htenure, hdates⟩
    · rw [if_neg hvalid]
      obtain ⟨-, hrows⟩ | ⟨row', hcredential, -⟩ :=
        enrol_cases hashOf c s.registry.store s.registry.now family secret sub identity edgeOrigin binding
      · exact h.dated k row (hrows k row hrow')
      · refine absurd ?_ hvalid
        rw [hcredential]
        simp [Credential.isValid, hfresh.1, hfresh.2.2.1]

theorem redeem {fresh secret : QByteArray} {family edgeOrigin : QString}
    (hfresh : s.Fresh hashOf (.redeem fresh family secret edgeOrigin)) :
    Inv hashOf c (s.step hashOf c (.redeem fresh family secret edgeOrigin)) where
  registry := h.registry.redeem hfresh family secret edgeOrigin
  healthy := redeem_isHealthy.trans h.healthy
  dated k row hrow := by
    have hkept := redeem_row (c := c) hfresh.1 hrow
    rw [step]
    dsimp only
    by_cases hok : (DeviceRegistry.redeem hashOf c s.registry.store s.registry.now fresh family secret edgeOrigin).2.1.ok = true
    · rw [if_pos hok]
      by_cases hsame : k = family
      · rw [if_pos ⟨hok, hsame⟩] at hkept
        obtain ⟨before, hbefore, hexpiry, hused⟩ := hkept
        obtain ⟨tenure, htenure, hage, -⟩ := h.dated k before hbefore
        refine ⟨{ tenure with usedMs := s.registry.now }, ?_, hexpiry.trans hage, hused⟩
        rw [hsame, update_self, ← hsame, htenure, Option.map_some]
      · rw [if_neg fun h => hsame h.2] at hkept
        obtain ⟨tenure, htenure, hdates⟩ := h.dated k row hkept
        exact ⟨tenure, (update_of_ne hsame _ _).trans htenure, hdates⟩
    · rw [if_neg hok]
      rw [if_neg fun h => hok h.1] at hkept
      exact h.dated k row hkept

theorem step {op : DeviceOp} (hop : s.Fresh hashOf op) : Inv hashOf c (s.step hashOf c op) := by
  cases op with
  | enrol family secret sub identity edgeOrigin binding => exact h.enrol hop
  | redeem fresh family secret edgeOrigin => exact h.redeem hop
  | forget family => exact h.forget family
  | purgeExpired =>
    exact ⟨h.registry.fewer fun _ _ hrow => purgeExpired_find hrow, purgeExpired_isHealthy.trans h.healthy,
      fun k row hrow => h.dated k row (purgeExpired_find hrow)⟩
  | advance ms => exact ⟨⟨h.registry.given, h.registry.distinct, h.registry.rows, h.registry.newest⟩, h.healthy, h.dated⟩

/-- An accepted secret is the current one, or one retired within the window. -/
theorem superseded {i : Issue} (hi : i ∈ s.registry.issued) {t : Int} (ht : i.supersededMs = some t)
    {fresh : QByteArray} {family edgeOrigin : QString}
    (hok : (DeviceRegistry.redeem hashOf c s.registry.store s.registry.now fresh family i.secret edgeOrigin).2.1.ok = true) :
    s.registry.now ≤ t + c.overlapSeconds * 1000 := by
  obtain ⟨-, row, hread, hrotates⟩ := redeem_ok.mp hok
  obtain ⟨-, -, -, hrow⟩ := read_eq_some.mp hread
  obtain ⟨⟨j, hj, -, hcurrent, hnone⟩, hprevious, -⟩ := h.registry.rows family row hrow
  obtain ⟨-, -, -, -, hthis | ⟨hsome, hthis, hwindow⟩⟩ := judge_rotates.mp hrotates
  · -- the current secret has not been superseded
    rw [h.registry.distinct i hi j hj (hthis.trans hcurrent.symm), hnone] at ht
    cases ht
  · obtain ⟨k, hk, -, hprev, hsuperseded⟩ := hprevious hsome
    rw [h.registry.distinct i hi k hk (hthis.trans hprev.symm), hsuperseded] at ht
    obtain rfl := Option.some.inj ht
    omega

theorem lifetimes : Lifetimes hashOf c s where
  superseded i hi t ht fresh family edgeOrigin hok := h.superseded hi ht hok
  clocks fresh family secret edgeOrigin hok := by
    obtain ⟨-, row, hread, hrotates⟩ := redeem_ok.mp hok
    obtain ⟨-, -, -, hrow⟩ := read_eq_some.mp hread
    obtain ⟨-, -, hage, hidle, -⟩ := judge_rotates.mp hrotates
    obtain ⟨tenure, htenure, hexpiry, hused⟩ := h.dated family row hrow
    exact ⟨tenure, htenure, hexpiry ▸ hage, by omega⟩
  purge family row hrow := by
    have hpurge := @purgeExpired_eq c _ s.registry.now _ _ h.healthy hrow
    obtain ⟨⟨i, hi, hfamily, hcurrent, -⟩, -, hlive⟩ := h.registry.rows family row hrow
    rw [hpurge]
    by_cases hclocks : s.registry.now < row.expiresMs ∧ s.registry.now - row.lastUsedMs ≤ daysToMs c.inactivityDays
    · rw [if_pos hclocks]
      refine ⟨iff_of_false (Option.some_ne_none row) fun hrefuses => ?_, fun row' h => (Option.some.inj h).symm⟩
      have hread : read s.registry.store family i.secret = some row :=
        read_eq_some.mpr ⟨h.healthy, hfamily ▸ (h.registry.given i hi).1, (h.registry.given i hi).2.1, hrow⟩
      have hok := redeem_ok.mpr ⟨List.cons_ne_nil 0 [], row, hread,
        judge_rotates.mpr ⟨hlive, rfl, hclocks.1, hclocks.2, .inl hcurrent⟩⟩
      exact Bool.false_ne_true ((hrefuses [0] i.secret row.edgeOrigin).symm.trans hok)
    · rw [if_neg hclocks]
      refine ⟨iff_of_true rfl fun fresh secret edgeOrigin => Bool.eq_false_iff.mpr fun hok => ?_, fun row' h => by cases h⟩
      obtain ⟨-, row', hread, hrotates⟩ := redeem_ok.mp hok
      obtain rfl := Option.some.inj (hrow.symm.trans (read_eq_some.mp hread).2.2.2)
      obtain ⟨-, -, hage, hidle, -⟩ := judge_rotates.mp hrotates
      exact hclocks ⟨hage, hidle⟩

end

theorem start (now : Int) : Inv hashOf c (DeviceRun.start now) where
  registry := RegistryRun.Inv.start now
  healthy := rfl
  dated k row hrow := by
    have hnone : (DeviceRun.start now).registry.store.devices.find k = none := Hash.find_empty k
    cases hnone.symm.trans hrow

end Inv

/-- In every history, what the generator answers being new each time. -/
theorem lifetimes_of_fresh (now : Int) (ops : List DeviceOp)
    (h : Each (step hashOf c) (Fresh hashOf) (DeviceRun.start now) ops) :
    Lifetimes hashOf c (run (step hashOf c) (DeviceRun.start now) ops) := by
  have hinv : Inv hashOf c (run (step hashOf c) (DeviceRun.start now) ops) :=
    h.invariant (Inv hashOf c) (fun _ _ hi hop => hi.step hop) (Inv.start now)
  exact hinv.lifetimes

instance (s : DeviceRun) : (op : DeviceOp) → Decidable (s.Fresh hashOf op)
  | .enrol family secret sub identity edgeOrigin binding =>
    inferInstanceAs (Decidable (s.registry.Fresh hashOf (.enrol family secret sub identity edgeOrigin binding)))
  | .redeem fresh family secret edgeOrigin =>
    inferInstanceAs (Decidable (s.registry.Fresh hashOf (.redeem fresh family secret edgeOrigin)))
  | .forget _ | .purgeExpired | .advance _ => .isTrue trivial

/-- A device is enrolled, redeems and tries again with the secret it gave before, and months go by. -/
def enrolledAndIdle : List DeviceOp :=
  [.enrol "f" [1] "u1" [("sub", "u1")] "https://app" .user, .redeem [2] "f" [1] "https://app", .advance 120000,
    .redeem [3] "f" [1] "https://app", .advance 1209600001, .purgeExpired]

theorem lifetimes_enrolledAndIdle :
    Each (step lettersOf standard) (Fresh lettersOf) (DeviceRun.start 0) enrolledAndIdle ∧
      Lifetimes lettersOf standard (run (step lettersOf standard) (DeviceRun.start 0) enrolledAndIdle) :=
  ⟨by decide, lifetimes_of_fresh 0 enrolledAndIdle (by decide)⟩

end DeviceRun
end SynQt
