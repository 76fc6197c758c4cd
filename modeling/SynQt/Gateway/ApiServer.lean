import SynQt.Lib.Run
import SynQt.Service.SessionManager

/-! The rate table of an API surface: one window for every caller, dropped when the
minute turns. A caller's count is an `int` in the source: 2^31 calls in one minute are left out. -/
namespace SynQt
open Lib List

structure ApiServer where
  ratePerMinutePerIp : Int := 600
  rateWindow : Hash QString Nat := ∅
  rateWindowStartMs : Int := 0

structure ApiCall where
  caller : QString
  now : Int
deriving DecidableEq

/-- A call let through, and the window it was counted in. -/
structure ApiAdmission where
  caller : QString
  windowStartMs : Int
deriving DecidableEq

structure ApiRun where
  server : ApiServer
  admitted : List ApiAdmission := []

/-- The minute the calls are in, and who has called in it: read off the calls alone. -/
structure Minute where
  startMs : Int := 0
  callers : List QString := []
deriving DecidableEq

namespace ApiServer

def kMaxRateEntries : Nat := 4096

/-- The window is everybody's: it is cleared when the minute turns, whoever asks then. -/
def turned (s : ApiServer) (now : Int) : ApiServer :=
  if now - s.rateWindowStartMs ≥ 60000 then { s with rateWindow := ∅, rateWindowStartMs := now } else s

def withinRate (s : ApiServer) (now : Int) (caller : QString) : ApiServer × Bool :=
  if s.ratePerMinutePerIp ≤ 0 then (s, true)
  else
    let s := s.turned now
    let spent := (s.rateWindow.find caller).getD 0 + 1
    let s := { s with rateWindow := s.rateWindow.insert caller spent }
    let within := decide ((spent : Int) ≤ s.ratePerMinutePerIp)
    if s.rateWindow.size > kMaxRateEntries then (s, false) else (s, within)

end ApiServer

def ApiRun.step (s : ApiRun) (call : ApiCall) : ApiRun :=
  let answer := s.server.withinRate call.now call.caller
  { server := answer.1
    admitted :=
      if answer.2 then s.admitted ++ [⟨call.caller, answer.1.rateWindowStartMs⟩] else s.admitted }

def Minute.step (m : Minute) (call : ApiCall) : Minute :=
  let m : Minute := if call.now - m.startMs ≥ 60000 then { startMs := call.now, callers := [] } else m
  { m with callers := m.callers.insert call.caller }

namespace ApiRun
variable {s s' : ApiRun} {m : Minute} {call : ApiCall}

def start (rate : Int) : ApiRun := { server := { ratePerMinutePerIp := rate } }

/-- The table names no more than its ceiling and the caller being decided. -/
def Bounded (s : ApiRun) : Prop := s.server.rateWindow.size ≤ ApiServer.kMaxRateEntries + 1

/-- No caller was let through more often in one window than the rate. -/
def Fair (s : ApiRun) : Prop :=
  0 < s.server.ratePerMinutePerIp → ∀ caller windowStartMs,
    (s.admitted.count ⟨caller, windowStartMs⟩ : Int) ≤ s.server.ratePerMinutePerIp

/-- A call leaves the counts of the others alone for as long as their minute lasts. -/
def Undisturbed (s : ApiRun) (call : ApiCall) : Prop :=
  call.now - s.server.rateWindowStartMs < 60000 →
    (s.step call).server.rateWindowStartMs = s.server.rateWindowStartMs ∧
    ∀ other, other ≠ call.caller →
      (s.step call).server.rateWindow.find other = s.server.rateWindow.find other

/-- What the rate table promises of a sequence of calls, in every state of it. -/
structure Keeps (rate : Int) (calls : List ApiCall) : Prop where
  bounded : ∀ earlier, earlier <+: calls → (run step (start rate) earlier).Bounded
  fair : ∀ earlier, earlier <+: calls → (run step (start rate) earlier).Fair
  undisturbed : ∀ earlier call, earlier ++ [call] <+: calls → (run step (start rate) earlier).Undisturbed call

/-- Every minute of the calls has no more callers than the table may name. -/
def Uncrowded (calls : List ApiCall) : Prop :=
  ∀ earlier, earlier <+: calls → (run Minute.step {} earlier).callers.length ≤ ApiServer.kMaxRateEntries + 1

private theorem step_unlimited (s : ApiRun) (call : ApiCall) (h : s.server.ratePerMinutePerIp ≤ 0) :
    (s.step call).server = s.server := by
  simp only [step, ApiServer.withinRate]
  rw [if_pos h]

/-- The entry is made before the ceiling is looked at, and stays whatever the answer. -/
theorem step_limited (s : ApiRun) (call : ApiCall) (h : 0 < s.server.ratePerMinutePerIp) :
    let turned := s.server.turned call.now
    let spent := (turned.rateWindow.find call.caller).getD 0 + 1
    (s.step call).server = { turned with rateWindow := turned.rateWindow.insert call.caller spent } ∧
    ((s.step call).admitted = s.admitted ∨
      (spent : Int) ≤ s.server.ratePerMinutePerIp ∧
      (s.step call).admitted = s.admitted ++ [⟨call.caller, turned.rateWindowStartMs⟩]) := by
  intro turned spent
  have hrate : turned.ratePerMinutePerIp = s.server.ratePerMinutePerIp := by
    simp only [turned, ApiServer.turned]
    split <;> rfl
  simp only [step, ApiServer.withinRate]
  rw [if_neg (Int.not_le.mpr h)]
  split
  · exact ⟨rfl, .inl rfl⟩
  · refine ⟨rfl, ?_⟩
    split
    · rename_i hwithin
      refine .inr ⟨?_, rfl⟩
      rw [← hrate]
      exact of_decide_eq_true hwithin
    · exact .inl rfl

@[simp] theorem turned_rate (server : ApiServer) (now : Int) :
    (server.turned now).ratePerMinutePerIp = server.ratePerMinutePerIp := by
  rw [ApiServer.turned]
  split <;> rfl

@[simp] theorem step_rate (s : ApiRun) (call : ApiCall) :
    (s.step call).server.ratePerMinutePerIp = s.server.ratePerMinutePerIp := by
  rcases Int.lt_or_le 0 s.server.ratePerMinutePerIp with hrate | hrate
  · rw [(step_limited s call hrate).1]
    exact turned_rate _ _
  · rw [step_unlimited s call hrate]

variable (rate : Int)

private theorem run_rate (calls : List ApiCall) :
    (run step (start rate) calls).server.ratePerMinutePerIp = rate := by
  apply run_invariant (fun s : ApiRun => s.server.ratePerMinutePerIp = rate)
  · intro s call h
    rw [step_rate]
    exact h
  · rfl

private theorem undisturbed (s : ApiRun) (call : ApiCall) : s.Undisturbed call := by
  intro hsame
  rcases Int.lt_or_le 0 s.server.ratePerMinutePerIp with hrate | hrate
  · have hturned : s.server.turned call.now = s.server := if_neg (Int.not_le.mpr hsame)
    rw [(step_limited s call hrate).1, hturned]
    refine ⟨rfl, fun other hother => ?_⟩
    rw [Hash.find_insert, if_neg hother]
  · rw [step_unlimited s call hrate]
    exact ⟨rfl, fun _ _ => rfl⟩

structure Tallied (s : ApiRun) : Prop where
  past : ∀ e ∈ s.admitted, e.windowStartMs ≤ s.server.rateWindowStartMs
  counted : ∀ caller, s.admitted.count ⟨caller, s.server.rateWindowStartMs⟩ ≤
    (s.server.rateWindow.find caller).getD 0
  fair : ∀ caller windowStartMs,
    (s.admitted.count ⟨caller, windowStartMs⟩ : Int) ≤ s.server.ratePerMinutePerIp

theorem Tallied.turned (h : Tallied s) (now : Int) : Tallied { s with server := s.server.turned now } := by
  rw [ApiServer.turned]
  split
  · rename_i hturn
    refine ⟨fun e he => ?_, fun caller => ?_, h.fair⟩
    · have hpast := h.past e he
      show _ ≤ now
      omega
    · apply Nat.le_of_eq
      apply count_eq_zero.mpr
      intro hmem
      have hpast : now ≤ s.server.rateWindowStartMs := h.past _ hmem
      omega
  · exact h

theorem Tallied.step (h : Tallied s) (hrate : 0 < s.server.ratePerMinutePerIp) (call : ApiCall) :
    Tallied (s.step call) := by
  have hturned := h.turned call.now
  obtain ⟨hserver, hadmitted⟩ := step_limited s call hrate
  set turned := s.server.turned call.now with hdef
  have hkept (caller : QString) : (turned.rateWindow.find caller).getD 0 ≤
      ((turned.rateWindow.insert call.caller ((turned.rateWindow.find call.caller).getD 0 + 1)).find caller).getD 0 := by
    rw [Hash.find_insert]
    split
    · rename_i heq
      rw [heq, Option.getD_some]
      exact Nat.le_succ _
    · exact le_rfl
  rcases hadmitted with hsame | ⟨hwithin, hmore⟩
  · refine ⟨?_, fun caller => ?_, fun caller w => ?_⟩
    · rw [hserver, hsame]
      exact hturned.past
    · rw [hserver, hsame]
      exact Nat.le_trans (hturned.counted caller) (hkept caller)
    · rw [hsame, step_rate]
      exact h.fair caller w
  · have hcount (caller : QString) (w : Int) : (s.step call).admitted.count ⟨caller, w⟩ =
        s.admitted.count ⟨caller, w⟩ + if call.caller = caller ∧ turned.rateWindowStartMs = w then 1 else 0 := by
      rw [hmore, count_append, count_singleton]
      simp only [beq_iff_eq, ApiAdmission.mk.injEq]
    refine ⟨fun e he => ?_, fun caller => ?_, fun caller w => ?_⟩
    · rw [hserver]
      rw [hmore] at he
      rcases mem_append.mp he with hold | hnew
      · exact hturned.past e hold
      · obtain rfl := mem_singleton.mp hnew
        exact Int.le_refl _
    · rw [hserver, hcount]
      have hold := hturned.counted caller
      split
      · rename_i hown
        rw [← hown.1] at hold ⊢
        rw [Hash.find_insert, if_pos rfl, Option.getD_some]
        exact Nat.succ_le_succ hold
      · exact Nat.le_trans hold (hkept caller)
    · rw [hcount, step_rate]
      split
      · rename_i hown
        obtain ⟨rfl, rfl⟩ := hown
        have hold := hturned.counted call.caller
        simp only at hold
        omega
      · exact h.fair caller w

private theorem fair_run (calls : List ApiCall) : (run step (start rate) calls).Fair := by
  intro hrate
  rw [run_rate] at hrate
  have h : Tallied (run step (start rate) calls) ∧ 0 < (run step (start rate) calls).server.ratePerMinutePerIp := by
    apply run_invariant (fun s : ApiRun => Tallied s ∧ 0 < s.server.ratePerMinutePerIp)
    · intro s call hs
      exact ⟨hs.1.step hs.2 call, by rw [step_rate]; exact hs.2⟩
    · refine ⟨⟨fun e he => ?_, fun _ => Nat.zero_le _, fun _ _ => ?_⟩, hrate⟩
      · cases he
      · exact Int.le_of_lt hrate
  exact h.1.fair

structure Names (s : ApiRun) (m : Minute) : Prop where
  start : s.server.rateWindowStartMs = m.startMs
  named : ∀ caller, s.server.rateWindow.contains caller = true ↔ caller ∈ m.callers
  size : s.server.rateWindow.size = m.callers.length

theorem Names.step (h : Names s m) (hrate : 0 < s.server.ratePerMinutePerIp) (call : ApiCall) :
    Names (s.step call) (m.step call) := by
  -- the same turn of the minute, then the same name put in
  have hturn : Names { s with server := s.server.turned call.now }
      (if call.now - m.startMs ≥ 60000 then { startMs := call.now, callers := [] } else m) := by
    rw [ApiServer.turned, h.start]
    split
    · exact ⟨rfl, fun caller => by simp [Hash.contains], rfl⟩
    · exact h
  rw [Minute.step]
  generalize (if call.now - m.startMs ≥ 60000 then ({ startMs := call.now, callers := [] } : Minute) else m) = m' at hturn
  obtain ⟨hstart, hnamed, hsize⟩ := hturn
  have hserver := (step_limited s call hrate).1
  refine ⟨?_, fun caller => ?_, ?_⟩
  · rw [hserver]
    exact hstart
  · rw [hserver, mem_insert_iff, ← hnamed]
    simp only [Hash.contains, Hash.find_insert]
    split
    · rename_i hown
      simp [hown]
    · rename_i hother
      simp [hother]
  · rw [hserver, Hash.size_insert]
    simp only at hsize
    by_cases hold : call.caller ∈ m'.callers
    · rw [if_pos ((hnamed _).mpr hold), insert_of_mem hold, hsize]
    · rw [if_neg fun hc => hold ((hnamed _).mp hc), insert_of_not_mem hold, hsize, length_cons]

private theorem names_run (hrate : 0 < rate) (calls : List ApiCall) :
    Names (run step (start rate) calls) (run Minute.step {} calls) := by
  have hgo (s : ApiRun) (m : Minute) (h : Names s m) (hs : 0 < s.server.ratePerMinutePerIp) :
      Names (run step s calls) (run Minute.step m calls) := by
    induction calls generalizing s m with
    | nil => exact h
    | cons call calls ih => exact ih _ _ (h.step hs call) (by rw [step_rate]; exact hs)
  exact hgo _ _ ⟨rfl, fun caller => by simp [start, Hash.contains], rfl⟩ hrate

private theorem unlimited_run (hrate : rate ≤ 0) (calls : List ApiCall) :
    (run step (start rate) calls).server = { ratePerMinutePerIp := rate } := by
  apply run_invariant (fun s : ApiRun => s.server = { ratePerMinutePerIp := rate })
  · intro s call h
    rw [step_unlimited s call (by rw [h]; exact hrate), h]
  · rfl

private theorem bounded_iff (calls : List ApiCall) :
    (∀ earlier, earlier <+: calls → (run step (start rate) earlier).Bounded) ↔ rate ≤ 0 ∨ Uncrowded calls := by
  rcases Int.lt_or_le 0 rate with hrate | hrate
  · rw [or_iff_right (Int.not_le.mpr hrate)]
    apply forall_congr'
    intro earlier
    rw [Bounded, (names_run rate hrate earlier).size]
  · rw [iff_true_right (.inl hrate)]
    intro earlier _
    rw [Bounded, unlimited_run rate hrate earlier]
    exact Nat.zero_le _

/-- Between fairness and the shared window nothing is asked of the calls; the ceiling is
kept when no minute has more callers than it names, or when there is no rate. -/
theorem keeps_iff (rate : Int) (calls : List ApiCall) : Keeps rate calls ↔ rate ≤ 0 ∨ Uncrowded calls := by
  rw [← bounded_iff]
  constructor
  · exact fun h => h.bounded
  · intro h
    exact ⟨h, fun earlier _ => fair_run rate earlier, fun earlier call _ => undisturbed _ call⟩

def flood (callers now : Nat) : List ApiCall :=
  (List.range callers).map fun n => ⟨"2001:db8::" ++ n.repr, now⟩

private theorem address_injective {n n' : Nat} (h : "2001:db8::" ++ n.repr = "2001:db8::" ++ n'.repr) : n = n' := by
  have hdigits : Nat.toDigits 10 n = Nat.toDigits 10 n' := by
    rw [← Nat.toList_repr, ← Nat.toList_repr, (String.append_right_inj _).mp h]
  rw [← @Nat.ofDigitChars_ten_toDigits n, hdigits, Nat.ofDigitChars_ten_toDigits]

theorem flood_callers (callers now : Nat) (hnow : 60000 ≤ now) (hsome : 0 < callers) :
    (run Minute.step {} (flood callers now)).startMs = now ∧
    (run Minute.step {} (flood callers now)).callers.length = callers ∧
    ∀ caller ∈ (run Minute.step {} (flood callers now)).callers, ∃ n < callers, caller = "2001:db8::" ++ n.repr := by
  induction callers with
  | zero => exact absurd hsome (Nat.lt_irrefl 0)
  | succ callers ih =>
    have hsnoc : flood (callers + 1) now = flood callers now ++ [⟨"2001:db8::" ++ callers.repr, now⟩] := by
      rw [flood, range_succ, map_append]
      rfl
    rw [hsnoc, run_append, run_cons, run_nil]
    cases callers with
    | zero =>
      have hfirst : Minute.step {} ⟨"2001:db8::" ++ Nat.repr 0, now⟩ = ⟨now, ["2001:db8::" ++ Nat.repr 0]⟩ := by
        rw [Minute.step, if_pos (by show (now : Int) - 0 ≥ 60000; omega)]
        rfl
      have hrun : run Minute.step {} (flood 0 now) = {} := rfl
      rw [hrun, hfirst]
      exact ⟨rfl, rfl, fun caller hc => ⟨0, Nat.zero_lt_one, mem_singleton.mp hc⟩⟩
    | succ k =>
      obtain ⟨hstart, hlength, hnames⟩ := ih (Nat.succ_pos k)
      generalize run Minute.step {} (flood (k + 1) now) = m at hstart hlength hnames
      have hnew : "2001:db8::" ++ (k + 1).repr ∉ m.callers := by
        intro hmem
        obtain ⟨n, hn, heq⟩ := hnames _ hmem
        have hsame := address_injective heq
        omega
      have hstep : m.step ⟨"2001:db8::" ++ (k + 1).repr, now⟩ = ⟨now, ("2001:db8::" ++ (k + 1).repr) :: m.callers⟩ := by
        rw [Minute.step, if_neg (by rw [hstart]; show ¬ (now : Int) - now ≥ 60000; omega)]
        simp only [insert_of_not_mem hnew, hstart]
      rw [hstep]
      refine ⟨rfl, by rw [length_cons, hlength], fun caller hc => ?_⟩
      rcases mem_cons.mp hc with rfl | hold
      · exact ⟨k + 1, Nat.lt_succ_self _, rfl⟩
      · obtain ⟨n, hn, heq⟩ := hnames caller hold
        exact ⟨n, Nat.lt_succ_of_lt hn, heq⟩

/-- One address more than the table may name, at one instant. -/
theorem flood_overflows : ¬ Keeps 600 (flood 4098 1700000000000) := by
  intro h
  have hsmall := h.bounded _ prefix_rfl
  have hnames := names_run 600 (by decide) (flood 4098 1700000000000)
  have hflood := (flood_callers 4098 1700000000000 (by decide) (by decide)).2.1
  rw [Bounded, hnames.size, hflood] at hsmall
  exact absurd hsmall (by decide)

end ApiRun
end SynQt
