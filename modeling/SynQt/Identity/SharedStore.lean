import SynQt.Identity.DeviceRegistry
import SynQt.Lib.Run

/-! Several registries on one store, their statements interleaved. A redemption is a SELECT,
a decision, and one write; between the two anybody else's statements may run. -/
namespace SynQt
open Lib DeviceRegistry Function
universe u

/-- A redemption between its SELECT and its write: the row it read, what it decided, and
the secrets other redemptions of the family were handed since. -/
structure Holding where
  family : QString
  row : DeviceRow
  verdict : Verdict
  at_ : Int
  overtaken : List QByteArray

/-- A redemption that reported success, with the row its write left. -/
structure Success where
  family : QString
  secret : QByteArray
  row : Option DeviceRow
  afterForget : Bool
  overtaken : List QByteArray
  deriving DecidableEq

structure SharedRun (κ : Type u) where
  store : DeviceStore
  now : Int
  jobs : κ → Option Holding
  forgotten : List QString
  successes : List Success

inductive SharedOp (κ : Type u) where
  | select (j : κ) (config : DeviceConfig) (family : QString) (secret : QByteArray) (edgeOrigin : QString)
  | write (j : κ) (fresh : QByteArray)
  | forget (family : QString)
  | health (isHealthy : Bool)
  | advance (ms : Nat)

namespace SharedRun
variable {κ : Type u} (hashOf : QByteArray → QString)

def start (store : DeviceStore) (now : Int) : SharedRun κ := ⟨store, now, fun _ => none, [], []⟩

/-- The families whose DELETE has completed, once that of `family` has run. -/
def recordForget (s : SharedRun κ) (family : QString) : List QString :=
  if s.store.isHealthy ∧ family ≠ "" then family :: s.forgotten else s.forgotten

def forget (s : SharedRun κ) (family : QString) : SharedRun κ :=
  { s with store := DeviceRegistry.forget s.store family, forgotten := s.recordForget family }

def overtake (s : SharedRun κ) (family : QString) (secret : QByteArray) : κ → Option Holding := fun k =>
  (s.jobs k).map fun h => if h.family = family then { h with overtaken := secret :: h.overtaken } else h

section
variable [DecidableEq κ]

def select (s : SharedRun κ) (j : κ) (config : DeviceConfig) (family : QString) (secret : QByteArray)
    (edgeOrigin : QString) : SharedRun κ :=
  match s.jobs j, read s.store family secret with
  | none, some row =>
    let holding := ⟨family, row, judge hashOf config s.now edgeOrigin secret row, s.now, []⟩
    { s with jobs := update s.jobs j (some holding) }
  | _, _ => s

/-- The write of a redemption, as `settle` makes it of the row it read. -/
def write (s : SharedRun κ) (j : κ) (fresh : QByteArray) : SharedRun κ :=
  match s.jobs j with
  | none => s
  | some h =>
    let r := settle hashOf s.store h.at_ fresh h.family h.row h.verdict
    { s with
      store := r.1
      jobs := update (if r.2.1.ok then s.overtake h.family fresh else s.jobs) j none
      forgotten := if h.verdict = .lapsed ∨ h.verdict = .reused then s.recordForget h.family else s.forgotten
      successes := if r.2.1.ok then
          ⟨h.family, fresh, r.1.devices.find h.family, decide (h.family ∈ s.forgotten), h.overtaken⟩ ::
            s.successes
        else s.successes }

def step (s : SharedRun κ) : SharedOp κ → SharedRun κ
  | .select j config family secret edgeOrigin => s.select hashOf j config family secret edgeOrigin
  | .write j fresh => s.write hashOf j fresh
  | .forget family => s.forget family
  | .health isHealthy => { s with store := { s.store with isHealthy := isHealthy } }
  | .advance ms => { s with now := s.now + ms }

end

/-- The generator answers a secret whose digest no redemption under way has read. -/
def Fresh (s : SharedRun κ) : SharedOp κ → Prop
  | .write _ fresh => fresh ≠ [] ∧ ∀ k, ∀ h ∈ s.jobs k, hashOf fresh ≠ h.row.currentHash
  | _ => True

/-- A write of the next generation finds the row with the generation that was read. -/
def Unchanged (s : SharedRun κ) : SharedOp κ → Prop
  | .write j _ => ∀ h ∈ s.jobs j, h.verdict.rotates = true → s.store.isHealthy = true →
      ∃ row ∈ s.store.devices.find h.family, row.currentHash = h.row.currentHash
  | _ => True

/-- The write left a row that holds the secret as its current generation, no forget of the
family had completed before it, and the secrets concurrent redemptions were handed are that
generation or the one before it. -/
def Success.Lawful (e : Success) : Prop :=
  ∃ row, e.row = some row ∧ row.currentHash = hashOf e.secret ∧ e.afterForget = false ∧
    ∀ secret ∈ e.overtaken, hashOf secret = row.currentHash ∨ hashOf secret = row.prevHash

structure Inv (s : SharedRun κ) : Prop where
  named : ∀ k, ∀ h ∈ s.jobs k, h.family ≠ ""
  gone : ∀ family ∈ s.forgotten, s.store.devices.find family = none
  moved : ∀ k, ∀ h ∈ s.jobs k, h.overtaken ≠ [] → ∀ row, s.store.devices.find h.family = some row →
    row.currentHash ≠ h.row.currentHash
  lawful : ∀ e ∈ s.successes, Success.Lawful hashOf e

variable {hashOf}

namespace Inv
variable {s : SharedRun κ}

theorem forget (h : Inv hashOf s) (family : QString) : Inv hashOf (s.forget family) := by
  refine ⟨h.named, fun f hf => ?_, fun k job hk hne row hrow => ?_, h.lawful⟩
  · simp only [SharedRun.forget, recordForget] at hf ⊢
    rw [forget_find]
    split at hf
    · rename_i hdone
      rcases List.mem_cons.mp hf with rfl | hf
      · rw [if_pos ⟨hdone.1, hdone.2, rfl⟩]
      · split
        · rfl
        · exact h.gone f hf
    · split
      · rfl
      · exact h.gone f hf
  · simp only [SharedRun.forget, forget_find] at hrow
    split at hrow
    · cases hrow
    · exact h.moved k job hk hne row hrow

variable [DecidableEq κ]

section
variable (h : Inv hashOf s)
include h

theorem finish (j : κ) : Inv hashOf { s with jobs := update s.jobs j none } := by
  have sub {k : κ} {job : Holding} (hk : update s.jobs j none k = some job) : s.jobs k = some job := by
    by_cases hkj : k = j
    · subst hkj
      simp at hk
    · simpa [hkj] using hk
  exact ⟨fun k job hk => h.named k job (sub hk), h.gone, fun k job hk => h.moved k job (sub hk), h.lawful⟩

theorem select (j : κ) (config : DeviceConfig) (family : QString) (secret : QByteArray)
    (edgeOrigin : QString) : Inv hashOf (s.select hashOf j config family secret edgeOrigin) := by
  unfold SharedRun.select
  split
  · rename_i row _ hread
    refine ⟨fun k job hk => ?_, h.gone, fun k job hk hne => ?_, h.lawful⟩
    · by_cases hkj : k = j
      · subst hkj
        obtain rfl := Option.some.inj (by simpa using hk)
        exact (read_eq_some.mp hread).2.1
      · exact h.named k job (by simpa [hkj] using hk)
    · by_cases hkj : k = j
      · subst hkj
        obtain rfl := Option.some.inj (by simpa using hk)
        exact absurd rfl hne
      · exact h.moved k job (by simpa [hkj] using hk) hne
  · exact h

theorem rotate {j : κ} {job : Holding} (hj : s.jobs j = some job) (retire : Bool)
    {fresh : QByteArray} (hfresh : ∀ k, ∀ h ∈ s.jobs k, hashOf fresh ≠ h.row.currentHash)
    {row : DeviceRow} (hrow : s.store.devices.find job.family = some row)
    (hsame : row.currentHash = job.row.currentHash) (store : DeviceStore)
    (hstore : ∀ k, store.devices.find k = if k = job.family then
      some (rotated hashOf fresh job.row.currentHash job.row.currentGen job.at_ retire row)
      else s.store.devices.find k) :
    Inv hashOf { s with
      store := store
      jobs := update (s.overtake job.family fresh) j none
      successes := ⟨job.family, fresh, store.devices.find job.family, decide (job.family ∈ s.forgotten),
        job.overtaken⟩ :: s.successes } := by
  have hcur : (rotated hashOf fresh job.row.currentHash job.row.currentGen job.at_ retire row).currentHash =
      hashOf fresh := by
    cases retire <;> rfl
  refine ⟨fun k held hk => ?_, fun f hf => ?_, fun k held hk hne row' hrow' => ?_, ?_⟩
  · have hkj : k ≠ j := by
      rintro rfl
      simp at hk
    simp only [update_of_ne hkj, overtake] at hk
    obtain ⟨before, hbefore, rfl⟩ := Option.map_eq_some_iff.mp hk
    have hnamed := h.named k before hbefore
    split <;> exact hnamed
  · have hne : f ≠ job.family := by
      rintro rfl
      simp [h.gone _ hf] at hrow
    simp only [hstore, if_neg hne]
    exact h.gone f hf
  · have hkj : k ≠ j := by
      rintro rfl
      simp at hk
    simp only [update_of_ne hkj, overtake] at hk
    obtain ⟨before, hbefore, rfl⟩ := Option.map_eq_some_iff.mp hk
    simp only [hstore] at hrow'
    by_cases hfam : before.family = job.family
    · simp only [hfam, if_true] at hrow' ⊢
      rw [← Option.some.inj hrow', hcur]
      exact hfresh k before hbefore
    · simp only [if_neg hfam] at hne hrow' ⊢
      exact h.moved k before hbefore hne row' hrow'
  · rintro e (_ | ⟨_, he⟩)
    · refine ⟨_, by rw [hstore, if_pos rfl], hcur, ?_, fun secret hs => ?_⟩
      · have hnot : job.family ∉ s.forgotten := fun hf => by simp [h.gone _ hf] at hrow
        simp [hnot]
      · -- nobody was handed a secret of the family since this redemption read its row
        have hnone : job.overtaken = [] := by
          by_contra hne
          exact h.moved j job hj hne row hrow hsame
        have hs' : secret ∈ job.overtaken := hs
        rw [hnone] at hs'
        cases hs'
    · exact h.lawful e he

theorem write {j : κ} {fresh : QByteArray} (hfresh : s.Fresh hashOf (.write j fresh))
    (hun : s.Unchanged (.write j fresh)) : Inv hashOf (s.write hashOf j fresh) := by
  unfold SharedRun.write
  cases hj : s.jobs j with
  | none => exact h
  | some job =>
    cases hv : job.verdict with
    | refused => simpa [hv, settle] using h.finish j
    | lapsed => simpa [hv, settle, SharedRun.forget] using (h.forget job.family).finish j
    | reused => simpa [hv, settle, SharedRun.forget] using (h.forget job.family).finish j
    | rotate retire =>
      have hvalid : Credential.isValid ⟨job.family, fresh, job.row.expiresMs⟩ = true := by
        simp [Credential.isValid, h.named j job hj, hfresh.1]
      cases hhealthy : s.store.isHealthy with
      | false =>
        have hr : settle hashOf s.store job.at_ fresh job.family job.row (.rotate retire) =
            (s.store, {}, false) := by
          simp [settle, issue, DeviceStore.exec, hhealthy, Credential.isValid]
        simpa [hv, hr] using h.finish j
      | true =>
        obtain ⟨row, hrow, hsame⟩ := hun job hj (by rw [hv]; rfl) hhealthy
        simp only [hv, settle, issue_credential, hhealthy, if_true, hvalid, reduceCtorEq, or_self, if_false]
        refine h.rotate hj retire hfresh.2 hrow hsame _ fun k => ?_
        rw [issue_find]
        by_cases hk : k = job.family
        · subst hk
          simp [hhealthy, Option.mem_def.mp hrow]
        · simp [hk]

theorem step {op : SharedOp κ} (hop : s.Fresh hashOf op ∧ s.Unchanged op) :
    Inv hashOf (s.step hashOf op) := by
  cases op with
  | select j config family secret edgeOrigin => exact h.select j config family secret edgeOrigin
  | write j fresh => exact h.write hop.1 hop.2
  | forget family => exact h.forget family
  | health isHealthy | advance ms => exact ⟨h.named, h.gone, h.moved, h.lawful⟩

end

end Inv

/-- Every success is lawful in every run whose writes find the generation they read. -/
theorem successes_lawful [DecidableEq κ] (store : DeviceStore) (now : Int) (ops : List (SharedOp κ))
    (h : Each (step hashOf) (fun s op => s.Fresh hashOf op ∧ s.Unchanged op) (start store now) ops) :
    ∀ e ∈ (run (step hashOf) (start store now) ops).successes, Success.Lawful hashOf e := by
  have hstart : Inv hashOf (start store now : SharedRun κ) :=
    ⟨fun _ _ hk => absurd hk (by simp [start]), fun _ hf => absurd hf List.not_mem_nil,
      fun _ _ hk => absurd hk (by simp [start]), fun _ he => absurd he List.not_mem_nil⟩
  exact (h.invariant (Inv hashOf) (fun _ _ hi hop => hi.step hop) hstart).lawful

instance (s : SharedRun Bool) : (op : SharedOp Bool) → Decidable (s.Fresh hashOf op)
  | .write _ fresh =>
    inferInstanceAs (Decidable (fresh ≠ [] ∧ ∀ k, ∀ h ∈ s.jobs k, hashOf fresh ≠ h.row.currentHash))
  | .select .. | .forget _ | .health _ | .advance _ => .isTrue trivial
instance (s : SharedRun κ) : (op : SharedOp κ) → Decidable (s.Unchanged op)
  | .write j _ => inferInstanceAs (Decidable (∀ h ∈ s.jobs j, h.verdict.rotates = true → s.store.isHealthy = true →
      ∃ row ∈ s.store.devices.find h.family, row.currentHash = h.row.currentHash))
  | .select .. | .forget _ | .health _ | .advance _ => .isTrue trivial

def enrolled : DeviceStore :=
  (enrol lettersOf standard ⟨true, ∅, ∅⟩ 0 "f" [1] "u1" [] "https://app" .user).1

def redeemThenForget : List (SharedOp Bool) :=
  [.select false standard "f" [1] "https://app", .write false [2], .select true standard "f" [2] "https://app",
    .write true [3], .forget "f"]

theorem successes_lawful_redeemThenForget :
    (run (step lettersOf) (start enrolled 0) redeemThenForget).successes.map Success.secret = [[3], [2]] ∧
      Success.Lawful lettersOf
        ((run (step lettersOf) (start enrolled 0) redeemThenForget).successes.get ⟨0, by decide⟩) :=
  ⟨by decide, successes_lawful enrolled 0 redeemThenForget (by decide) _ (List.get_mem ..)⟩

/-- The family is forgotten between the read and the write of a redemption. -/
def forgetBetween : List (SharedOp Bool) :=
  [.select false standard "f" [1] "https://app", .forget "f", .write false [2]]

/-- Two edges read the same generation, and both write the next one. -/
def redeemTogether : List (SharedOp Bool) :=
  [.select false standard "f" [1] "https://app", .select true standard "f" [1] "https://app",
    .write false [2], .write true [3]]

theorem success_lost :
    Each (step lettersOf) (Fresh lettersOf) (start enrolled 0) forgetBetween ∧
    (run (step lettersOf) (start enrolled 0) forgetBetween).successes = [⟨"f", [2], none, true, []⟩] ∧
    Each (step lettersOf) (Fresh lettersOf) (start enrolled 0) redeemTogether ∧
    ((run (step lettersOf) (start enrolled 0) redeemTogether).successes.map
      fun e => (e.secret, e.overtaken, e.row.map fun row => (row.currentHash, row.prevHash))) =
      [([3], [[2]], some (lettersOf [3], lettersOf [1])), ([2], [], some (lettersOf [2], lettersOf [1]))] ∧
    ¬ ∀ e ∈ (run (step lettersOf) (start enrolled 0) redeemTogether).successes, Success.Lawful lettersOf e := by
  refine ⟨by decide, by decide, by decide, by decide, fun h => ?_⟩
  obtain ⟨row, hrow, hcur, -, hover⟩ := h _ List.mem_cons_self
  rcases hover [2] (by decide) with heq | heq
  · exact absurd (heq.trans hcur) (by decide)
  · cases hrow
    exact absurd heq (by decide)

end SharedRun
end SynQt
