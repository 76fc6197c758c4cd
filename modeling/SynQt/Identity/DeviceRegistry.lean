import SynQt.Service.SessionManager

/-! The registry of signed-in devices: one row a family, holding digests of the credential
handed out last and of the one before it, and the family each stored session came from.
Every operation is written as the statements it runs against the store. -/
namespace SynQt
open Lib

inductive DeviceBinding where
  | none | user | application | hardware
  deriving DecidableEq

/-- The order the configured floor is compared in. -/
def DeviceBinding.level : DeviceBinding → Nat
  | .none => 0
  | .user => 1
  | .application => 2
  | .hardware => 3

structure DeviceConfig where
  lifetimeDays : Int
  inactivityDays : Int
  overlapSeconds : Int
  minBinding : DeviceBinding

def daysToMs (days : Int) : Int := days * 24 * 60 * 60 * 1000

/-- A row of the device table. `prevHash` is empty where the column is NULL. -/
structure DeviceRow where
  sub : QString
  edgeOrigin : QString
  identity : QVariantMap
  currentHash : QString
  currentGen : Int
  prevHash : QString
  prevIssuedMs : Int
  createdMs : Int
  lastUsedMs : Int
  expiresMs : Int
  revoked : Bool
  deriving DecidableEq

/-- The two tables. A statement against a store that is not healthy fails and changes
nothing. -/
structure DeviceStore where
  isHealthy : Bool
  devices : Hash QString DeviceRow
  sessionFamily : Hash QString (QString × Int)

structure Credential where
  family : QString := ""
  secret : QByteArray := []
  expiresMs : Int := 0
  deriving DecidableEq

def Credential.isValid (c : Credential) : Bool := !c.family.isEmpty && !c.secret.isEmpty

structure Redemption where
  ok : Bool := false
  sub : QString := ""
  identity : QVariantMap := []
  next : Credential := {}
  deriving DecidableEq

namespace DeviceStore

def select (s : DeviceStore) (family : QString) : Option DeviceRow :=
  if s.isHealthy then s.devices.find family else none

def exec (s : DeviceStore) (statement : DeviceStore → DeviceStore) : DeviceStore × Bool :=
  if s.isHealthy then (statement s, true) else (s, false)

def delete (family : QString) (s : DeviceStore) : DeviceStore :=
  { s with devices := s.devices.erase family }

/-- An UPDATE keyed by family: it succeeds also where there is no row to change. -/
def update (family : QString) (f : DeviceRow → DeviceRow) (s : DeviceStore) : DeviceStore :=
  match s.devices.find family with
  | none => s
  | some row => { s with devices := s.devices.insert family (f row) }

end DeviceStore

namespace DeviceRegistry

def isOpen (s : DeviceStore) : Bool := s.isHealthy

def forget (s : DeviceStore) (family : QString) : DeviceStore :=
  if !isOpen s || family.isEmpty then s else (s.exec (·.delete family)).1

/-- Rows past either clock go, and then the sessions of families that are gone. -/
def purgeExpired (c : DeviceConfig) (s : DeviceStore) (now : Int) : DeviceStore :=
  let idleBefore := now - daysToMs c.inactivityDays
  let kept := (s.exec fun t => { t with devices := t.devices.filter fun _ row =>
    !(decide (row.expiresMs ≤ now) || decide (row.lastUsedMs < idleBefore)) }).1
  (kept.exec fun t => { t with sessionFamily := t.sessionFamily.filter fun _ entry =>
    !(decide (entry.2 < now - daysToMs 1) && !t.devices.contains entry.1) }).1

section
variable (hashOf : QByteArray → QString)

/-- `family` and `secret` are what `randomSecret` answers. -/
def enrol (c : DeviceConfig) (s : DeviceStore) (now : Int) (family : QString) (secret : QByteArray)
    (sub : QString) (identity : QVariantMap) (edgeOrigin : QString) (binding : DeviceBinding) :
    DeviceStore × Credential :=
  if !isOpen s || sub.isEmpty then (s, {})
  else if binding.level < c.minBinding.level then (s, {})
  else
    let purged := purgeExpired c s now
    let row : DeviceRow :=
      { sub := sub, edgeOrigin := edgeOrigin, identity := identity
        currentHash := hashOf secret, currentGen := 1, prevHash := "", prevIssuedMs := 0
        createdMs := now, lastUsedMs := now, expiresMs := now + daysToMs c.lifetimeDays, revoked := false }
    -- the family is the primary key
    if purged.devices.contains family then (purged, {})
    else
      let inserted := purged.exec fun t => { t with devices := t.devices.insert family row }
      if inserted.2 then (inserted.1, ⟨family, secret, row.expiresMs⟩) else (inserted.1, {})

/-- What the next generation does to a row: the current one is retired into `prevHash`, or
the retired one already there is left alone. -/
def rotated (secret : QByteArray) (currentHash : QString) (generation now : Int)
    (retireCurrent : Bool) (row : DeviceRow) : DeviceRow :=
  if retireCurrent then
    { row with
      currentHash := hashOf secret
      currentGen := generation + 1
      prevHash := currentHash
      prevIssuedMs := now
      lastUsedMs := now }
  else { row with currentHash := hashOf secret, currentGen := generation + 1, lastUsedMs := now }

def issue (s : DeviceStore) (secret : QByteArray) (family currentHash : QString)
    (generation now expiresMs : Int) (retireCurrent : Bool) : DeviceStore × Credential :=
  let updated := s.exec (·.update family (rotated hashOf secret currentHash generation now retireCurrent))
  if updated.2 then (updated.1, ⟨family, secret, expiresMs⟩) else (updated.1, {})

/-- What a presented secret is, against the row of its family. -/
inductive Verdict where
  /-- Another origin's, or none of this family's. -/
  | refused
  /-- Past one of the clocks. -/
  | lapsed
  /-- The retired one, past its window. -/
  | reused
  | rotate (retireCurrent : Bool)
  deriving DecidableEq

def Verdict.rotates : Verdict → Bool
  | .rotate _ => true
  | _ => false

def judge (c : DeviceConfig) (now : Int) (edgeOrigin : QString) (secret : QByteArray) (row : DeviceRow) :
    Verdict :=
  if row.revoked then .refused
  else if row.edgeOrigin ≠ edgeOrigin then .refused
  else if now ≥ row.expiresMs ∨ now - row.lastUsedMs > daysToMs c.inactivityDays then .lapsed
  else if hashOf secret = row.currentHash then .rotate true
  else if row.prevHash = "" ∨ hashOf secret ≠ row.prevHash then .refused
  else if now - row.prevIssuedMs > c.overlapSeconds * 1000 then .reused
  else .rotate false

def read (s : DeviceStore) (family : QString) (secret : QByteArray) : Option DeviceRow :=
  if !isOpen s || family.isEmpty || secret.isEmpty then none else s.select family

/-- What a redemption does once it has judged the row it read, and whether it reports a
reuse. `fresh` is what `randomSecret` answers. -/
def settle (s : DeviceStore) (now : Int) (fresh : QByteArray) (family : QString) (row : DeviceRow) :
    Verdict → DeviceStore × Redemption × Bool
  | .refused => (s, {}, false)
  | .lapsed => (forget s family, {}, false)
  | .reused => (forget s family, {}, true)
  | .rotate retireCurrent =>
    let issued := issue hashOf s fresh family row.currentHash row.currentGen now row.expiresMs retireCurrent
    if issued.2.isValid then (issued.1, ⟨true, row.sub, row.identity, issued.2⟩, false)
    else (issued.1, {}, false)

def redeem (c : DeviceConfig) (s : DeviceStore) (now : Int) (fresh : QByteArray) (family : QString)
    (secret : QByteArray) (edgeOrigin : QString) : DeviceStore × Redemption × Bool :=
  match read s family secret with
  | none => (s, {}, false)
  | some row => settle hashOf s now fresh family row (judge hashOf c now edgeOrigin secret row)

end

section
variable (keyFor : QByteArray → QString)

def unbindSessionKey (s : DeviceStore) (sessionKey : QString) : DeviceStore :=
  if !isOpen s || sessionKey.isEmpty then s
  else (s.exec fun t => { t with sessionFamily := t.sessionFamily.erase sessionKey }).1

def unbindSession (s : DeviceStore) (sessionId : QByteArray) : DeviceStore :=
  if sessionId.isEmpty then s else unbindSessionKey s (keyFor sessionId)

def bindSession (s : DeviceStore) (now : Int) (sessionId : QByteArray) (family : QString) : DeviceStore :=
  if !isOpen s || sessionId.isEmpty || family.isEmpty then s
  else
    let token := keyFor sessionId
    let deleted := (s.exec fun t => { t with sessionFamily := t.sessionFamily.erase token }).1
    (deleted.exec fun t => { t with sessionFamily := t.sessionFamily.insert token (family, now) }).1

def familyOf (s : DeviceStore) (sessionId : QByteArray) : QString :=
  if !isOpen s || sessionId.isEmpty then ""
  else match (if s.isHealthy then s.sessionFamily.find (keyFor sessionId) else none) with
    | none => ""
    | some entry => entry.1

def sessionsOfFamily (s : DeviceStore) (family : QString) : List QString :=
  if !isOpen s || family.isEmpty then []
  else (s.sessionFamily.entries.filter (fun entry => entry.2.1 == family)).map (·.1)

end

variable {hashOf : QByteArray → QString} {c : DeviceConfig} {s : DeviceStore} {now : Int}

theorem forget_find (family k : QString) :
    (forget s family).devices.find k =
      if s.isHealthy ∧ family ≠ "" ∧ k = family then none else s.devices.find k := by
  unfold forget isOpen DeviceStore.exec DeviceStore.delete
  cases s.isHealthy <;> by_cases hf : family = "" <;> simp [hf]

theorem issue_find (secret : QByteArray) (family currentHash : QString) (generation at_ expiresMs : Int)
    (retire : Bool) (k : QString) :
    (issue hashOf s secret family currentHash generation at_ expiresMs retire).1.devices.find k =
      if s.isHealthy ∧ k = family then
        (s.devices.find k).map (rotated hashOf secret currentHash generation at_ retire)
      else s.devices.find k := by
  unfold issue DeviceStore.exec DeviceStore.update
  cases s.isHealthy with
  | false => simp
  | true =>
    cases hf : s.devices.find family with
    | none => by_cases hk : k = family <;> simp [hf, hk]
    | some row => by_cases hk : k = family <;> simp [hf, hk]

theorem issue_credential (secret : QByteArray) (family currentHash : QString) (generation at_ expiresMs : Int)
    (retire : Bool) :
    (issue hashOf s secret family currentHash generation at_ expiresMs retire).2 =
      if s.isHealthy then ⟨family, secret, expiresMs⟩ else {} := by
  unfold issue DeviceStore.exec
  cases s.isHealthy <;> simp

variable {row : DeviceRow} {secret : QByteArray} {family : QString}

theorem read_eq_some :
    read s family secret = some row ↔
      s.isHealthy = true ∧ family ≠ "" ∧ secret ≠ [] ∧ s.devices.find family = some row := by
  unfold read isOpen DeviceStore.select
  cases s.isHealthy <;> by_cases hf : family = "" <;> by_cases hs : secret = [] <;> simp [hf, hs]

variable {edgeOrigin : QString}

/-- A presented secret is read as a reuse when its row is looked at that far and it is the
retired one past its window. -/
theorem judge_eq_reused :
    judge hashOf c now edgeOrigin secret row = .reused ↔
      row.revoked = false ∧ row.edgeOrigin = edgeOrigin ∧
        (now < row.expiresMs ∧ now - row.lastUsedMs ≤ daysToMs c.inactivityDays) ∧
        hashOf secret ≠ row.currentHash ∧ row.prevHash ≠ "" ∧ hashOf secret = row.prevHash ∧
        c.overlapSeconds * 1000 < now - row.prevIssuedMs := by
  unfold judge
  constructor
  · intro h
    split at h
    · cases h
    rename_i hlive
    split at h
    · cases h
    rename_i horigin
    split at h
    · cases h
    rename_i hclocks
    split at h
    · cases h
    rename_i hcur
    split at h
    · cases h
    rename_i hprev
    split at h
    · rename_i hlate
      simp only [not_or, not_not] at hprev hclocks horigin
      exact ⟨by simpa using hlive, horigin, ⟨by omega, by omega⟩, hcur, hprev.1, hprev.2, by omega⟩
    · cases h
  · rintro ⟨hlive, horigin, ⟨hexp, hidle⟩, hcur, hprev, heq, hlate⟩
    have hclocks : ¬ (now ≥ row.expiresMs ∨ now - row.lastUsedMs > daysToMs c.inactivityDays) := by omega
    have hkept : ¬ (row.prevHash = "" ∨ hashOf secret ≠ row.prevHash) := by simp [hprev, heq]
    rw [if_neg (by simp [hlive]), if_neg (by simp [horigin]), if_neg hclocks, if_neg hcur, if_neg hkept,
      if_pos hlate]

variable {fresh : QByteArray}

private theorem settle_reports {verdict : Verdict} :
    (settle hashOf s now fresh family row verdict).2.2 = true ↔ verdict = .reused := by
  cases verdict with
  | rotate retire =>
    simp only [settle]
    split <;> simp
  | _ => simp [settle]

theorem redeem_reports :
    (redeem hashOf c s now fresh family secret edgeOrigin).2.2 = true ↔
      ∃ row, read s family secret = some row ∧ judge hashOf c now edgeOrigin secret row = .reused := by
  unfold redeem
  cases hread : read s family secret with
  | none => simp
  | some row => simp [settle_reports]

theorem redeem_of_reused (hread : read s family secret = some row)
    (hjudge : judge hashOf c now edgeOrigin secret row = .reused) :
    redeem hashOf c s now fresh family secret edgeOrigin = (forget s family, {}, true) := by
  simp [redeem, hread, hjudge, settle]

theorem purgeExpired_find {k : QString}
    (h : (purgeExpired c s now).devices.find k = some row) : s.devices.find k = some row := by
  unfold purgeExpired DeviceStore.exec at h
  cases hs : s.isHealthy with
  | false => simpa [hs] using h
  | true =>
    simp only [hs, if_true] at h
    exact ((Hash.find_filter_eq_some _ _ _ _).mp h).1

@[simp] theorem purgeExpired_isHealthy : (purgeExpired c s now).isHealthy = s.isHealthy := by
  unfold purgeExpired DeviceStore.exec
  cases hs : s.isHealthy <;> simp [hs]

/-- An enrolment stores the row of the credential it answers over what the purge left, or
answers nothing and stores nothing. -/
theorem enrol_cases (hashOf : QByteArray → QString) (c : DeviceConfig) (s : DeviceStore) (now : Int)
    (family : QString) (secret : QByteArray) (sub : QString) (identity : QVariantMap)
    (edgeOrigin : QString) (binding : DeviceBinding) :
    let r := enrol hashOf c s now family secret sub identity edgeOrigin binding
    (r.2.isValid = false ∧ ∀ k row, r.1.devices.find k = some row → s.devices.find k = some row) ∨
    ∃ row, r.2 = ⟨family, secret, row.expiresMs⟩ ∧ row.currentHash = hashOf secret ∧ row.prevHash = "" ∧
      row.revoked = false ∧
      ∀ k row', r.1.devices.find k = some row' →
        if k = family then row' = row else s.devices.find k = some row' := by
  intro r
  by_cases hopen : !isOpen s || sub.isEmpty
  · refine .inl ?_
    simp [r, enrol, hopen, Credential.isValid]
  by_cases hfloor : binding.level < c.minBinding.level
  · refine .inl ?_
    simp [r, enrol, hopen, hfloor, Credential.isValid]
  by_cases hkey : (purgeExpired c s now).devices.contains family
  · refine .inl ?_
    simp only [r, enrol, hopen, hfloor, hkey, if_true, Bool.false_eq_true, if_false]
    exact ⟨rfl, fun k row h => purgeExpired_find h⟩
  · refine .inr ⟨⟨sub, edgeOrigin, identity, hashOf secret, 1, "", 0, now, now,
      now + daysToMs c.lifetimeDays, false⟩, ?_, rfl, rfl, rfl, ?_⟩
    all_goals
      have hhealthy : s.isHealthy = true := by
        cases hs : s.isHealthy <;> simp [isOpen, hs] at hopen ⊢
      simp only [r, enrol, hopen, hfloor, hkey, Bool.false_eq_true, if_false, DeviceStore.exec,
        purgeExpired_isHealthy, hhealthy, if_true]
    intro k row' h
    rw [Hash.find_insert] at h
    split at h
    · rename_i hk
      rw [if_pos hk]
      exact (Option.some.inj h).symm
    · rename_i hk
      rw [if_neg hk]
      exact purgeExpired_find h

/-- A digest that tells short secrets apart, for runs on given secrets. -/
def lettersOf (secret : QByteArray) : QString := String.ofList (secret.map fun b => Char.ofNat (b.toNat + 97))

/-- The defaults of the project file. -/
def standard : DeviceConfig := ⟨30, 14, 120, .user⟩

end DeviceRegistry
end SynQt
