import Mathlib.Data.List.Induction
import SynQt.Lib.Run
import SynQt.Lib.Windows
import SynQt.Service.SessionManager

namespace SynQt
open Lib Option List

/-- The count is an `int` in the source: 2^31 calls in one window are left out. -/
structure RateWindow where
  startedMs : Int := 0
  count : Nat := 0
deriving DecidableEq

/-- Drop the windows that have run out, and say whether the table is still at its cap. -/
def pruneRateWindows (windows : Hash QString RateWindow) (now windowMs : Int) (cap : Nat) :
    Hash QString RateWindow × Bool :=
  if windows.size < cap then (windows, false)
  else
    let windows := windows.filter (fun _ it => !decide (now - it.startedMs > windowMs))
    (windows, decide (windows.size ≥ cap))

def retryAfterSeconds (remainingMs : Int) : Int := max 1 (Int.tdiv (remainingMs + 999) 1000)

/-- The budget of one route: how much of it an address has, and how many addresses it names. -/
structure RateGate where
  maxPerWindow : Nat
  windowMs : Int
  maxRateEntries : Nat
deriving DecidableEq

/-- The window of an address that asks now: the one it holds, begun again once it has run out. -/
def RateGate.windowOf (gate : RateGate) (held : Option RateWindow) (now : Int) : RateWindow :=
  let window := held.getD {}
  if now - window.startedMs > gate.windowMs then { startedMs := now, count := 0 } else window

/-- The gate in front of a route. The answer is the `Retry-After` of a refusal. -/
def RateGate.handle (gate : RateGate) (windows : Hash QString RateWindow) (now : Int) (visitor : QString) :
    Hash QString RateWindow × Option Int :=
  let pruned := pruneRateWindows windows now gate.windowMs gate.maxRateEntries
  if pruned.2 then (pruned.1, some (retryAfterSeconds gate.windowMs))
  else
    let window := gate.windowOf (pruned.1.find visitor) now
    let window := { window with count := window.count + 1 }
    if window.count > gate.maxPerWindow then
      (pruned.1.insert visitor window, some (retryAfterSeconds (window.startedMs + gate.windowMs - now)))
    else (pruned.1.insert visitor window, none)

/-- `WebEdge::handleSignIn`: ten attempts a minute. -/
def WebEdge.signInGate : RateGate where
  maxPerWindow := 10
  windowMs := 60 * 1000
  maxRateEntries := 4096

/-- `IdentityProvider::handleDevice`: thirty attempts a minute. -/
def IdentityProvider.deviceGate : RateGate where
  maxPerWindow := 30
  windowMs := 60 * 1000
  maxRateEntries := 4096

structure RateRequest where
  visitor : QString
  now : Int
deriving DecidableEq

structure GateRun where
  windows : Hash QString RateWindow := ∅
  admitted : List RateRequest := []

namespace RateGate
variable {gate : RateGate}

def step (gate : RateGate) (s : GateRun) (r : RateRequest) : GateRun :=
  let answer := gate.handle s.windows r.now r.visitor
  { windows := answer.1, admitted := if answer.2.isNone then s.admitted ++ [r] else s.admitted }

end RateGate

def GateRun.admittedTimes (s : GateRun) (visitor : QString) : List Int :=
  (s.admitted.filter (·.visitor == visitor)).map (·.now)

private theorem size_prune_le (windows : Hash QString RateWindow) (now windowMs : Int) (cap : Nat) :
    (pruneRateWindows windows now windowMs cap).1.size ≤ windows.size := by
  unfold pruneRateWindows
  split
  · exact le_rfl
  · exact Hash.size_filter_le _ _

private theorem size_lt_of_pruned {windows : Hash QString RateWindow} {now windowMs : Int} {cap : Nat}
    (h : (pruneRateWindows windows now windowMs cap).2 = false) :
    (pruneRateWindows windows now windowMs cap).1.size < cap := by
  unfold pruneRateWindows at h ⊢
  split at h
  · rename_i hsmall
    rw [if_pos hsmall]
    exact hsmall
  · rename_i hlarge
    rw [if_neg hlarge]
    simpa using h

private theorem find_prune (windows : Hash QString RateWindow) (now windowMs : Int) (cap : Nat) (a : QString) :
    (pruneRateWindows windows now windowMs cap).1.find a = windows.find a ∨
    ∃ w, windows.find a = some w ∧ w.startedMs + windowMs < now ∧
      (pruneRateWindows windows now windowMs cap).1.find a = none := by
  unfold pruneRateWindows
  split
  · exact .inl rfl
  · rw [Hash.find_filter]
    cases hheld : windows.find a with
    | none => exact .inl rfl
    | some w =>
      rw [filter_some]
      split
      · exact .inl rfl
      · rename_i hout
        have hpast : now - w.startedMs > windowMs := by simpa only [Bool.not_eq_true', decide_eq_false_iff_not, not_not] using hout
        exact .inr ⟨w, rfl, by omega, rfl⟩

namespace RateGate
variable {gate : RateGate} {clock now : Int} {entry : Option RateWindow} {stamps : List Stamp}

private theorem admit_cases (gate : RateGate) (windows : Hash QString RateWindow) (now : Int) (visitor : QString) :
    let pruned := (pruneRateWindows windows now gate.windowMs gate.maxRateEntries).1
    let window := gate.windowOf (pruned.find visitor) now
    ((gate.handle windows now visitor).1 = pruned ∧ (gate.handle windows now visitor).2.isNone = false) ∨
    (pruned.size < gate.maxRateEntries ∧
      (gate.handle windows now visitor).1 = pruned.insert visitor { window with count := window.count + 1 } ∧
      (gate.handle windows now visitor).2.isNone = decide (window.count < gate.maxPerWindow)) := by
  intro pruned window
  rw [handle]
  split
  · exact .inl ⟨rfl, rfl⟩
  · rename_i hroom
    right
    refine ⟨size_lt_of_pruned (by simpa using hroom), ?_⟩
    simp only
    split
    · rename_i hspent
      refine ⟨rfl, ?_⟩
      simp only [isNone_some, Bool.false_eq, decide_eq_false_iff_not]
      exact fun hlt => absurd hlt (Nat.not_lt.mpr (Nat.le_of_lt_succ hspent))
    · rename_i hleft
      refine ⟨rfl, ?_⟩
      simp only [isNone_none, Bool.true_eq, decide_eq_true_eq]
      exact Nat.not_le.mp fun hle => hleft (Nat.lt_succ_of_le hle)

/-- The admissions of one address beside its entry: every window they were counted in has run
out, but for the one the entry still holds, which knows of all that were counted in it. -/
structure Ledger (gate : RateGate) (clock : Int) (entry : Option RateWindow) (stamps : List Stamp) : Prop where
  windowed : Windowed gate.windowMs gate.maxPerWindow stamps
  past : ∀ e ∈ stamps, 0 ≤ e.start ∧ e.time ≤ clock
  gone : entry = none → ∀ e ∈ stamps, e.start + gate.windowMs < clock
  opened : ∀ w, entry = some w → 0 ≤ w.startedMs
  counted : ∀ w, entry = some w → stamps.countP (·.start == w.startedMs) ≤ w.count
  held : ∀ w, entry = some w → ∀ e ∈ stamps, e.start = w.startedMs ∨
    e.start + gate.windowMs < w.startedMs ∧ e.time ≤ w.startedMs ∧ w.startedMs ≤ clock

namespace Ledger

theorem later (h : Ledger gate clock entry stamps) (hnow : clock ≤ now) : Ledger gate now entry stamps where
  windowed := h.windowed
  past e he := ⟨(h.past e he).1, (h.past e he).2.trans hnow⟩
  gone hnone e he := (h.gone hnone e he).trans_le hnow
  opened := h.opened
  counted := h.counted
  held w hw e he := by
    rcases h.held w hw e he with hsame | ⟨hearlier, htime, hstarted⟩
    · exact .inl hsame
    · exact .inr ⟨hearlier, htime, hstarted.trans hnow⟩

theorem forget {w : RateWindow} (h : Ledger gate clock (some w) stamps) (hnow : clock ≤ now)
    (hlen : 0 ≤ gate.windowMs) (hout : w.startedMs + gate.windowMs < now) : Ledger gate now none stamps where
  windowed := h.windowed
  past := (h.later hnow).past
  gone _ e he := by
    rcases h.held w rfl e he with hsame | ⟨hearlier, -, -⟩
    · rw [hsame]
      exact hout
    · omega
  opened _ hw := by cases hw
  counted _ hw := by cases hw
  held _ hw := by cases hw

theorem idle (hentry : ∀ w, entry = some w → 0 ≤ w.startedMs) : Ledger gate clock entry [] where
  windowed := Windowed.nil
  past _ he := by cases he
  gone _ _ he := by cases he
  opened := hentry
  counted _ _ := Nat.zero_le _
  held _ _ _ he := by cases he

theorem fresh (h : Ledger gate clock none stamps) (hnow : clock ≤ now) (hlen : 0 ≤ gate.windowMs) :
    Ledger gate now (some (gate.windowOf none now)) stamps := by
  have hgone := h.gone rfl
  by_cases hlate : now - 0 > gate.windowMs
  · have hnew : gate.windowOf none now = { startedMs := now, count := 0 } := if_pos hlate
    rw [hnew]
    constructor
    case windowed => exact h.windowed
    case past => exact (h.later hnow).past
    case gone => exact fun hnone => by cases hnone
    case opened =>
      rintro w ⟨⟩
      show 0 ≤ now
      omega
    case counted =>
      rintro w ⟨⟩
      apply Nat.le_of_eq
      apply countP_eq_zero.mpr
      intro e he heq
      have hout := hgone e he
      have hsame : e.start = now := beq_iff_eq.mp heq
      omega
    case held =>
      rintro w ⟨⟩ e he
      have hout := hgone e he
      have htime := (h.past e he).2
      exact .inr ⟨hout.trans_le hnow, htime.trans hnow, le_rfl⟩
  · have hnew : gate.windowOf none now = {} := if_neg hlate
    have hempty : stamps = [] := by
      apply eq_nil_iff_forall_not_mem.mpr
      intro e he
      have hout := hgone e he
      have hstart := (h.past e he).1
      omega
    rw [hnew, hempty]
    apply idle
    rintro w ⟨⟩
    exact le_rfl

private theorem windowOf (h : Ledger gate clock entry stamps) (hnow : clock ≤ now) (hlen : 0 ≤ gate.windowMs) :
    Ledger gate now (some (gate.windowOf entry now)) stamps := by
  cases entry with
  | none => exact h.fresh hnow hlen
  | some w =>
    by_cases hout : now - w.startedMs > gate.windowMs
    · have hstart := h.opened w rfl
      have hforgot := (h.forget hnow hlen (by omega)).fresh le_rfl hlen
      have hsame : gate.windowOf (some w) now = gate.windowOf none now := by
        simp only [RateGate.windowOf, getD_some, getD_none]
        rw [if_pos hout, if_pos (by show now - 0 > _; omega)]
      rw [hsame]
      exact hforgot
    · have hsame : gate.windowOf (some w) now = w := by
        simp only [RateGate.windowOf, getD_some]
        rw [if_neg hout]
      rw [hsame]
      exact h.later hnow

private theorem windowOf_open (hlen : 0 ≤ gate.windowMs) : now ≤ (gate.windowOf entry now).startedMs + gate.windowMs := by
  simp only [RateGate.windowOf]
  split
  · show now ≤ now + _
    omega
  · omega

section
variable {w : RateWindow} (h : Ledger gate now (some w) stamps)
include h

theorem refused :
    Ledger gate now (some { w with count := w.count + 1 }) stamps where
  windowed := h.windowed
  past := h.past
  gone hnone := by cases hnone
  opened w' hw' := by
    cases hw'
    exact h.opened w rfl
  counted w' hw' := by
    cases hw'
    exact (h.counted w rfl).trans (Nat.le_succ _)
  held w' hw' := by
    cases hw'
    exact h.held w rfl

theorem admitted (hopen : now ≤ w.startedMs + gate.windowMs) (hroom : w.count < gate.maxPerWindow) :
    Ledger gate now (some { w with count := w.count + 1 }) (stamps ++ [⟨now, w.startedMs⟩]) where
  windowed := by
    apply h.windowed.snoc ⟨now, w.startedMs⟩ hopen
    · exact h.held w rfl
    · exact (h.counted w rfl).trans_lt hroom
  past e he := by
    rcases mem_append.mp he with hold | hnew
    · exact h.past e hold
    · rw [mem_singleton.mp hnew]
      exact ⟨h.opened w rfl, le_rfl⟩
  gone hnone := by cases hnone
  opened w' hw' := by
    cases hw'
    exact h.opened w rfl
  counted w' hw' := by
    cases hw'
    have hold := h.counted w rfl
    simp only [countP_append, countP_singleton, beq_self_eq_true, if_true]
    omega
  held w' hw' e he := by
    cases hw'
    rcases mem_append.mp he with hold | hnew
    · exact h.held w rfl e hold
    · rw [mem_singleton.mp hnew]
      exact .inl rfl

end

end Ledger

/-- What holds after every request: the table is under its ceiling, and each address has a ledger. -/
structure Guarded (gate : RateGate) (clock : Int) (s : GateRun) : Prop where
  small : s.windows.size ≤ gate.maxRateEntries
  ledger : ∀ a, ∃ stamps : List Stamp, stamps.map (·.time) = s.admittedTimes a ∧
    Ledger gate clock (s.windows.find a) stamps

private theorem guarded_start (gate : RateGate) (clock : Int) : Guarded gate clock {} where
  small := by rw [Hash.size_empty]; exact Nat.zero_le _
  ledger a := by
    refine ⟨[], rfl, Ledger.idle fun w hw => ?_⟩
    rw [Hash.find_empty] at hw
    cases hw

private theorem admittedTimes_append (s : GateRun) (r : RateRequest) (windows : Hash QString RateWindow) (a : QString) :
    GateRun.admittedTimes ⟨windows, s.admitted ++ [r]⟩ a =
      s.admittedTimes a ++ if r.visitor = a then [r.now] else [] := by
  rw [GateRun.admittedTimes, filter_append, map_append, GateRun.admittedTimes]
  congr 1
  split
  · rename_i hown
    rw [filter_singleton, hown, beq_self_eq_true]
    rfl
  · rename_i hother
    rw [filter_singleton, beq_false_of_ne hother]
    rfl

variable {s : GateRun}

private theorem Guarded.prune (h : Guarded gate clock s) (hnow : clock ≤ now) (hlen : 0 ≤ gate.windowMs) :
    Guarded gate now { s with windows := (pruneRateWindows s.windows now gate.windowMs gate.maxRateEntries).1 } where
  small := (size_prune_le _ _ _ _).trans h.small
  ledger a := by
    obtain ⟨stamps, htimes, hledger⟩ := h.ledger a
    refine ⟨stamps, htimes, ?_⟩
    rcases find_prune s.windows now gate.windowMs gate.maxRateEntries a with hkept | ⟨w, hw, hout, hgone⟩
    · simp only [hkept]
      exact hledger.later hnow
    · simp only [hgone]
      rw [hw] at hledger
      exact hledger.forget hnow hlen hout

theorem Guarded.step {r : RateRequest} (h : Guarded gate clock s) (hnow : clock ≤ r.now)
    (hlen : 0 ≤ gate.windowMs) : Guarded gate r.now (gate.step s r) := by
  have hpruned := h.prune hnow hlen
  rcases admit_cases gate s.windows r.now r.visitor with ⟨htable, hanswer⟩ | ⟨hsize, htable, hanswer⟩
  · have heq : gate.step s r = { s with windows := (pruneRateWindows s.windows r.now gate.windowMs gate.maxRateEntries).1 } := by
      rw [RateGate.step, htable, hanswer]
      rfl
    rw [heq]
    exact hpruned
  · set pruned := (pruneRateWindows s.windows r.now gate.windowMs gate.maxRateEntries).1
    set window := gate.windowOf (pruned.find r.visitor) r.now with hwindow
    rw [RateGate.step, htable, hanswer]
    refine ⟨?_, fun a => ?_⟩
    · exact (Hash.size_insert_le _ _ _).trans hsize
    · obtain ⟨stamps, htimes, hledger⟩ := hpruned.ledger a
      simp only [Hash.find_insert, decide_eq_true_eq]
      by_cases hown : a = r.visitor
      · subst hown
        have hopen := hledger.windowOf le_rfl hlen
        rw [if_pos rfl]
        split
        · rename_i hroom
          refine ⟨stamps ++ [⟨r.now, window.startedMs⟩], ?_, ?_⟩
          · rw [admittedTimes_append, if_pos rfl, map_append, htimes]
            rfl
          · exact hopen.admitted (Ledger.windowOf_open hlen) hroom
        · exact ⟨stamps, htimes, hopen.refused⟩
      · rw [if_neg hown]
        refine ⟨stamps, ?_, hledger⟩
        split
        · rw [admittedTimes_append, if_neg (Ne.symm hown), append_nil]
          exact htimes
        · exact htimes

theorem Guarded.run (requests : List RateRequest) (h : Guarded gate clock s)
    (hlater : ∀ r ∈ requests, clock ≤ r.now) (hordered : requests.Pairwise (·.now ≤ ·.now))
    (hlen : 0 ≤ gate.windowMs) : ∃ clock, Guarded gate clock (Lib.run gate.step s requests) := by
  induction requests generalizing s clock with
  | nil => exact ⟨clock, h⟩
  | cons r requests ih =>
    obtain ⟨hfirst, hrest⟩ := pairwise_cons.mp hordered
    have hstep := h.step (hlater r mem_cons_self) hlen
    exact ih hstep hfirst hrest

private theorem Guarded.burst (h : Guarded gate clock s) (a : QString) (burst : List Int)
    (hsub : burst.Sublist (s.admittedTimes a)) (hlong : burst.length = 2 * gate.maxPerWindow + 1) :
    ∃ first between last, burst = first :: (between ++ [last]) ∧ gate.windowMs < last - first := by
  obtain ⟨stamps, htimes, hledger⟩ := h.ledger a
  rw [← htimes, sublist_map_iff] at hsub
  obtain ⟨some, hsome, rfl⟩ := hsub
  have hwindowed := hledger.windowed.sublist hsome
  rw [length_map] at hlong
  cases some with
  | nil => cases hlong
  | cons first rest =>
    cases rest using List.reverseRecOn with
    | nil =>
      have hspent := hwindowed.spent first.start
      rw [countP_singleton, beq_self_eq_true, if_pos rfl] at hspent
      rw [length_singleton] at hlong
      omega
    | append_singleton between last =>
      refine ⟨first.time, between.map (·.time), last.time, ?_, ?_⟩
      · rw [map_cons, map_append, map_singleton]
      · exact hwindowed.apart first last between rfl (by omega)

/-- No flood of other addresses gives an address its allowance back, and the table stays
under its ceiling after every request. -/
theorem flood_resets_nothing (gate : RateGate)
    (hgate : gate = WebEdge.signInGate ∨ gate = IdentityProvider.deviceGate)
    (requests : List RateRequest) (hordered : requests.Pairwise (·.now ≤ ·.now)) :
    (∀ (a : QString) (burst : List Int),
      burst.Sublist ((run gate.step {} requests).admittedTimes a) →
      burst.length = 2 * gate.maxPerWindow + 1 →
      ∃ first between last, burst = first :: (between ++ [last]) ∧ gate.windowMs < last - first) ∧
    ∀ earlier, earlier <+: requests →
      (run gate.step {} earlier).windows.size ≤ gate.maxRateEntries := by
  have hlen : 0 ≤ gate.windowMs := by rcases hgate with rfl | rfl <;> decide
  have hguarded (earlier : List RateRequest) (hearlier : earlier <+: requests) :
      ∃ clock, Guarded gate clock (run gate.step {} earlier) := by
    have hsorted := hordered.sublist hearlier.sublist
    cases earlier with
    | nil => exact ⟨0, guarded_start gate 0⟩
    | cons r earlier =>
      refine (guarded_start gate r.now).run (r :: earlier) (fun r' hr' => ?_) hsorted hlen
      rcases mem_cons.mp hr' with rfl | hrest
      · exact le_rfl
      · exact (pairwise_cons.mp hsorted).1 r' hrest
  constructor
  · intro a burst hsub hlong
    obtain ⟨clock, h⟩ := hguarded requests prefix_rfl
    exact h.burst a burst hsub hlong
  · intro earlier hearlier
    obtain ⟨clock, h⟩ := hguarded earlier hearlier
    exact h.small

/-- Ten attempts, a stranger's, ten more as soon as the minute is over, and one after that. -/
def threeMinutes : List RateRequest :=
  List.replicate 10 ⟨"203.0.113.7", 100000⟩ ++ [⟨"198.51.100.2", 130000⟩] ++
  List.replicate 10 ⟨"203.0.113.7", 160001⟩ ++ [⟨"203.0.113.7", 220002⟩]

theorem flood_resets_nothing_threeMinutes :
    ∃ first between last,
      List.replicate 10 100000 ++ List.replicate 10 160001 ++ [220002] = first :: (between ++ [last]) ∧
      WebEdge.signInGate.windowMs < last - first :=
  (flood_resets_nothing WebEdge.signInGate (.inl rfl) threeMinutes (by decide)).1 "203.0.113.7"
    (List.replicate 10 100000 ++ List.replicate 10 160001 ++ [220002]) (by decide +kernel) (by decide)

end RateGate

end SynQt
