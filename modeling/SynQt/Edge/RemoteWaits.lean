import SynQt.Lib.Run
import SynQt.Service.SessionManager

/-! What an edge asks the auth entity while it answers a sign-in. Each request is waited for in an event loop of its
own, which serves other sign-ins meanwhile, so the loops are inside one another; the answers come as signals. -/
namespace SynQt
open Lib List

inductive Delegated where
  | begin_
  | exchange
  | claim
deriving DecidableEq

/-- A request by its kind and its id: each kind has a table of its own. -/
abbrev Delegation := Delegated × QString

inductive WaitOutcome (α : Type) where
  | answered (answer : α)
  | timedOut
  | notConnected
  | tooManyWaits

/-- The loops, the innermost first, each with whether it was told to quit; and for each request the answer that came
last since it was asked. -/
structure RemoteWaits (α : Type) where
  connected : Bool := false
  count : Nat := 0
  awaited : List QString := []
  results : Hash Delegation α := ∅
  waits : List (Delegation × Bool) := []
  outcomes : List (Delegation × WaitOutcome α) := []
  came : Delegation → Option α := fun _ => none

inductive WaitOp (α : Type) where
  | attachRemote
  | ask (asked : Delegation) (deep : Bool)
  | arrive (asked : Delegation) (answer : α)
  | timeout (asked : Delegation)
  | comeBack

def kMaxConcurrentWaits : Nat := 64

namespace RemoteWaits
variable {α : Type} {s : RemoteWaits α}

/-- Why no wait begins. The stack that the loops have spent is looked at from the second on, and an exchange asks for
its place before it asks for the entity. -/
def refusal (s : RemoteWaits α) (kind : Delegated) (deep : Bool) : Option (WaitOutcome α) :=
  let isTaken := s.count < kMaxConcurrentWaits && (s.count == 0 || !deep)
  if kind = .exchange && !isTaken then some .tooManyWaits
  else if !s.connected then some .notConnected
  else if !isTaken then some .tooManyWaits
  else none

def quit (s : RemoteWaits α) (asked : Delegation) : RemoteWaits α :=
  { s with waits := s.waits.map fun w => (w.1, w.2 || w.1 = asked) }

def outcome (s : RemoteWaits α) (asked : Delegation) : WaitOutcome α :=
  match s.results.find asked with
  | some answer => .answered answer
  | none => .timedOut

def step (s : RemoteWaits α) : WaitOp α → RemoteWaits α
  | .attachRemote => { s with connected := true }
  | .ask asked deep =>
    match s.refusal asked.1 deep with
    | some outcome => { s with outcomes := s.outcomes ++ [(asked, outcome)] }
    | none =>
      { s with
        count := s.count + 1
        awaited := s.awaited.insert asked.2
        waits := (asked, false) :: s.waits
        came := Function.update s.came asked none }
  | .arrive asked answer =>
    -- an answer nobody is waiting for is not kept
    if asked.2 ∉ s.awaited then { s with came := Function.update s.came asked (some answer) }
    else
      quit { s with
        results := s.results.insert asked answer
        came := Function.update s.came asked (some answer) } asked
  | .timeout asked => s.quit asked
  | .comeBack =>
    match s.waits with
    | (asked, true) :: waits =>
      { s with
        count := s.count - 1
        awaited := s.awaited.erase asked.2
        results := s.results.erase asked
        waits := waits
        outcomes := s.outcomes ++ [(asked, s.outcome asked)] }
    | _ => s

/-- Nothing is known of a request id that has just been drawn. -/
def Fresh (s : RemoteWaits α) : WaitOp α → Prop
  | .ask asked _ => asked.2 ∉ s.awaited ∧ s.results.find asked = none
  | _ => True

def Apt (s : RemoteWaits α) : WaitOp α → Prop
  | .arrive asked _ => ∀ w ∈ s.waits, w.1.2 = asked.2 → w.1 = asked
  | _ => True

/-- The loops are counted and no more than may be, each waits for a request of its own, and what is held for it is the
last answer that came. -/
structure Kept (s : RemoteWaits α) : Prop where
  counted : s.count = s.waits.length
  bounded : s.count ≤ kMaxConcurrentWaits
  awaited : s.awaited = s.waits.map (·.1.2)
  distinct : s.awaited.Nodup
  held : ∀ w ∈ s.waits, s.results.find w.1 = s.came w.1

def Tidy (s : RemoteWaits α) : Prop := ∀ asked, s.results.find asked ≠ none → ∃ w ∈ s.waits, w.1 = asked

private theorem Kept.quit (h : Kept s) (asked : Delegation) : Kept (s.quit asked) where
  counted := h.counted.trans (length_map _).symm
  bounded := h.bounded
  awaited := by
    rw [RemoteWaits.quit, map_map]
    exact h.awaited
  distinct := h.distinct
  held w hw := by
    obtain ⟨old, hold, rfl⟩ := mem_map.mp hw
    exact h.held old hold

private theorem Tidy.quit (h : Tidy s) (asked : Delegation) : Tidy (s.quit asked) := by
  intro other hheld
  obtain ⟨w, hw, hof⟩ := h other hheld
  exact ⟨_, mem_map_of_mem hw, hof⟩

theorem Kept.step (h : Kept s) {op : WaitOp α} (hfresh : Fresh s op) : Kept (s.step op) := by
  have hawaited (w : Delegation × Bool) (hw : w ∈ s.waits) : w.1.2 ∈ s.awaited := h.awaited ▸ mem_map.mpr ⟨w, hw, rfl⟩
  cases op with
  | attachRemote => exact ⟨h.counted, h.bounded, h.awaited, h.distinct, h.held⟩
  | timeout asked => exact h.quit asked
  | ask asked deep =>
    obtain ⟨hnew, hnone⟩ := hfresh
    rw [RemoteWaits.step]
    split
    · exact ⟨h.counted, h.bounded, h.awaited, h.distinct, h.held⟩
    · next htaken =>
      have hroom : s.count < kMaxConcurrentWaits := by
        by_contra hfull
        simp only [refusal, hfull] at htaken
        grind
      have hinsert := insert_of_not_mem hnew
      refine ⟨by simp [h.counted], hroom, by rw [hinsert, h.awaited, map_cons], ?_, ?_⟩
      · exact hinsert ▸ nodup_cons.mpr ⟨hnew, h.distinct⟩
      · refine forall_mem_cons.mpr ⟨by simp [hnone], fun w hw => ?_⟩
        have hne : w.1 ≠ asked := fun heq => hnew (heq ▸ hawaited w hw)
        simpa [hne] using h.held w hw
  | arrive asked answer =>
    rw [RemoteWaits.step]
    split
    · next hnobody =>
      refine ⟨h.counted, h.bounded, h.awaited, h.distinct, fun w hw => ?_⟩
      have hne : w.1 ≠ asked := fun heq => hnobody (heq ▸ hawaited w hw)
      simpa [hne] using h.held w hw
    · apply Kept.quit
      refine ⟨h.counted, h.bounded, h.awaited, h.distinct, fun w hw => ?_⟩
      by_cases heq : w.1 = asked
      · simp [heq]
      · simpa [heq] using h.held w hw
  | comeBack =>
    rw [RemoteWaits.step]
    split
    · next asked waits hwaits =>
      have hall : s.awaited = asked.2 :: waits.map (·.1.2) := by rw [h.awaited, hwaits, map_cons]
      have hdistinct := nodup_cons.mp (hall ▸ h.distinct)
      have hless : s.awaited.erase asked.2 = waits.map (·.1.2) := by rw [hall, erase_cons_head]
      refine ⟨by simp [h.counted, hwaits], Nat.le_trans (Nat.sub_le _ _) h.bounded, hless, hless ▸ hdistinct.2, ?_⟩
      intro w hw
      have hne : w.1 ≠ asked := fun heq => hdistinct.1 (heq ▸ mem_map.mpr ⟨w, hw, rfl⟩)
      simpa [hne] using h.held w (hwaits ▸ mem_cons_of_mem _ hw)
    · exact h

theorem Tidy.step (ht : Tidy s) (h : Kept s) {op : WaitOp α} (hapt : Apt s op) : Tidy (s.step op) := by
  cases op with
  | attachRemote => exact ht
  | timeout asked => exact ht.quit asked
  | ask asked deep =>
    rw [RemoteWaits.step]
    split
    · exact ht
    · exact fun other hheld => (ht other hheld).imp fun w hw => ⟨mem_cons_of_mem _ hw.1, hw.2⟩
  | arrive asked answer =>
    rw [RemoteWaits.step]
    split
    · exact ht
    · next hawaited =>
      refine Tidy.quit (fun other hheld => ?_) asked
      by_cases heq : other = asked
      · rw [not_not, h.awaited, mem_map] at hawaited
        obtain ⟨w, hw, hid⟩ := hawaited
        exact ⟨w, hw, heq ▸ hapt w hw hid⟩
      · exact ht other (by simpa [heq] using hheld)
  | comeBack =>
    rw [RemoteWaits.step]
    split
    · next asked waits hwaits =>
      intro other hheld
      have hne : other ≠ asked := fun heq => by simp [heq] at hheld
      obtain ⟨w, hw, rfl⟩ := ht other (by simpa [hne] using hheld)
      rw [hwaits, mem_cons] at hw
      exact ⟨w, hw.resolve_left fun heq => hne (by rw [heq]), rfl⟩
    · exact ht

private theorem tidy_run {ops : List (WaitOp α)} (ht : Tidy s) (h : Kept s) (hfresh : Each step Fresh s ops)
    (hapt : Each step Apt s ops) : Tidy (run step s ops) := by
  induction ops generalizing s with
  | nil => exact ht
  | cons op ops ih => exact ih (ht.step h hapt.1) (h.step hfresh.1) hfresh.2 hapt.2

/-- However the loops are inside one another and whatever comes when: no more of them wait than may, a request is
answered with the last answer of its kind that came since it was asked and times out where none came, and as long as
each answer is of the kind asked for, what is held is what somebody waits for. -/
theorem waits_answered (ops : List (WaitOp α)) (hfresh : Each step Fresh ({} : RemoteWaits α) ops) :
    let s := run step ({} : RemoteWaits α) ops
    s.count = s.waits.length ∧ s.count ≤ kMaxConcurrentWaits ∧ s.awaited = s.waits.map (·.1.2) ∧
      (∀ w ∈ s.waits, s.outcome w.1 = (s.came w.1).elim .timedOut .answered) ∧
      (Each step Apt ({} : RemoteWaits α) ops → Tidy s) := by
  intro s
  have hstart : Kept ({} : RemoteWaits α) :=
    ⟨rfl, Nat.zero_le _, rfl, .nil, fun w hw => absurd hw not_mem_nil⟩
  have hkept : Kept s := hfresh.invariant Kept (fun _ _ h hok => h.step hok) hstart
  refine ⟨hkept.counted, hkept.bounded, hkept.awaited, fun w hw => ?_, fun hapt => ?_⟩
  · rw [outcome, hkept.held w hw]
    cases s.came w.1 <;> rfl
  · exact tidy_run (fun _ hheld => absurd (Hash.find_empty _) hheld) hstart hfresh hapt

/-- A claim is asked for while a login that has begun waits, and is answered twice before its loop comes back. -/
def nested : List (WaitOp Nat) :=
  [.attachRemote, .ask (.begin_, "a") true, .ask (.claim, "b") false, .timeout (.begin_, "a"), .arrive (.claim, "b") 7,
    .arrive (.begin_, "a") 5, .comeBack, .arrive (.claim, "b") 8]

theorem waits_answered_nested :
    let s := run step ({} : RemoteWaits Nat) nested
    s.count = s.waits.length ∧ s.count ≤ kMaxConcurrentWaits ∧ s.awaited = s.waits.map (·.1.2) ∧
      (∀ w ∈ s.waits, s.outcome w.1 = (s.came w.1).elim .timedOut .answered) ∧
      (Each step Apt ({} : RemoteWaits Nat) nested → Tidy s) :=
  waits_answered nested (by simp [nested, Each, Fresh, step, refusal, kMaxConcurrentWaits])

end RemoteWaits
end SynQt
