import SynQt.Lib.Run
import SynQt.Service.SessionManager

/-! What a desktop sign-in ends with: a code that stands for a session for about a minute, and is exchanged once, by
whoever holds the verifier of its challenge. -/
namespace SynQt
open Lib

def toUtf8 (text : QString) : QByteArray := text.toUTF8.data.toList

/-- Compared without stopping where they first differ. -/
def constantTimeEquals (lhs rhs : QByteArray) : Bool :=
  if lhs.isEmpty || lhs.length != rhs.length then false
  else (List.zipWith (· ^^^ ·) lhs rhs).foldl (· ||| ·) 0 == 0

private theorem foldl_or_eq_zero (bytes : QByteArray) (difference : UInt8) :
    bytes.foldl (· ||| ·) difference = 0 ↔ difference = 0 ∧ ∀ byte ∈ bytes, byte = 0 := by
  induction bytes generalizing difference with
  | nil => simp
  | cons byte bytes ih => rw [List.foldl_cons, ih, UInt8.or_eq_zero_iff, List.forall_mem_cons, and_assoc]

private theorem constantTimeEquals_iff {lhs rhs : QByteArray} : constantTimeEquals lhs rhs = true ↔ lhs ≠ [] ∧ lhs = rhs := by
  have hzip (hlength : lhs.length = rhs.length) : (∀ byte ∈ List.zipWith (· ^^^ ·) lhs rhs, byte = 0) ↔ lhs = rhs := by
    induction lhs generalizing rhs with
    | nil => simp [List.eq_nil_of_length_eq_zero hlength.symm]
    | cons a lhs ih =>
      cases rhs with
      | nil => cases hlength
      | cons b rhs => simp [ih (Nat.succ.inj hlength)]
  have hlength (heq : lhs = rhs) : lhs.length = rhs.length := heq ▸ rfl
  rw [constantTimeEquals]
  grind [foldl_or_eq_zero]

structure Claim where
  sessionId : QByteArray
  challenge : QString
  createdMs : Int

structure ClaimStore where
  claims : Hash QString Claim := ∅

/-- From one second to five minutes, whatever is configured. -/
def claimTtlMsFrom (configuredSeconds : Int) : Int := 1000 * max 1 (min configuredSeconds 300)

namespace ClaimStore
variable (challengeFor : QByteArray → QByteArray)

/-- A code that is in use is not given to another session. -/
def hold (s : ClaimStore) (code : QString) (sessionId : QByteArray) (challenge : QString) (nowMs : Int) :
    ClaimStore × Bool :=
  if code.isEmpty || sessionId.isEmpty || s.claims.contains code then (s, false)
  else (⟨s.claims.insert code ⟨sessionId, challenge, nowMs⟩⟩, true)

/-- The claim is taken out before it is checked, so that a wrong verifier spends the code. -/
def take (s : ClaimStore) (code verifier : QString) (nowMs ttlMs : Int) : ClaimStore × QByteArray :=
  if code.isEmpty then (s, [])
  else match s.claims.find code with
    | none => (s, [])
    | some claim =>
      (⟨s.claims.erase code⟩,
        if nowMs - claim.createdMs > ttlMs then []
        else if !constantTimeEquals (challengeFor (toUtf8 verifier)) (toUtf8 claim.challenge) then []
        else claim.sessionId)

def expire (s : ClaimStore) (nowMs ttlMs : Int) : ClaimStore :=
  ⟨s.claims.filter fun _ claim => !decide (nowMs - claim.createdMs > ttlMs)⟩

end ClaimStore

inductive ClaimOp where
  | hold (code : QString) (sessionId : QByteArray) (challenge : QString)
  | take (code verifier : QString)
  | expire
  | advance (ms : Nat)

/-- A store on a clock, and the claim each code was last held for, if nobody has tried the code since. -/
structure ClaimRun where
  store : ClaimStore := {}
  now : Int
  standing : QString → Option Claim := fun _ => none

namespace ClaimRun
variable (challengeFor : QByteArray → QByteArray) (ttlMs : Int) {s : ClaimRun}

def step (s : ClaimRun) : ClaimOp → ClaimRun
  | .hold code sessionId challenge =>
    let held := s.store.hold code sessionId challenge s.now
    { s with
      store := held.1
      standing := if held.2 then Function.update s.standing code (some ⟨sessionId, challenge, s.now⟩) else s.standing }
  | .take code verifier =>
    { s with
      store := (s.store.take challengeFor code verifier s.now ttlMs).1
      standing := Function.update s.standing code none }
  | .expire => { s with store := s.store.expire s.now ttlMs }
  | .advance ms => { s with now := s.now + ms }

/-- A standing claim is in the store, until it is too old. -/
structure Inv (s : ClaimRun) : Prop where
  sound : ∀ code claim, s.standing code = some claim → code ≠ "" ∧ claim.sessionId ≠ [] ∧ claim.createdMs ≤ s.now
  held : ∀ code, s.store.claims.find code = s.standing code ∨
    s.store.claims.find code = none ∧ ∀ claim ∈ s.standing code, ttlMs < s.now - claim.createdMs

theorem Inv.hold (h : Inv ttlMs s) (code : QString) (sessionId : QByteArray) (challenge : QString) :
    Inv ttlMs (s.step challengeFor ttlMs (.hold code sessionId challenge)) := by
  rw [step, ClaimStore.hold]
  split
  · exact h
  · next hfree =>
    simp only [Bool.or_eq_true, not_or, String.isEmpty_iff, List.isEmpty_iff] at hfree
    refine ⟨fun other claim hother => ?_, fun other => ?_⟩
    · by_cases heq : other = code
      · subst heq
        obtain rfl : _ = claim := by simpa using hother
        exact ⟨hfree.1.1, hfree.1.2, Int.le_refl _⟩
      · exact h.sound other claim (by simpa [heq] using hother)
    · by_cases heq : other = code
      · simp [heq]
      · simpa [heq] using h.held other

theorem Inv.take (h : Inv ttlMs s) (code verifier : QString) :
    Inv ttlMs (s.step challengeFor ttlMs (.take code verifier)) := by
  have hfind (other : QString) : (s.store.take challengeFor code verifier s.now ttlMs).1.claims.find other =
      if other = code then none else s.store.claims.find other := by
    rw [ClaimStore.take]
    split
    · next hempty =>
      have hnone : s.standing code = none :=
        Option.eq_none_iff_forall_ne_some.mpr fun claim hclaim => (h.sound code claim hclaim).1 (String.isEmpty_iff.mp hempty)
      have hheld := h.held code
      grind
    · grind
  refine ⟨fun other claim hother => ?_, fun other => ?_⟩
  · by_cases heq : other = code
    · simp [step, heq] at hother
    · exact h.sound other claim (by simpa [step, heq] using hother)
  · by_cases heq : other = code
    · simp [step, hfind, heq]
    · simpa [step, hfind, heq] using h.held other

theorem Inv.step (h : Inv ttlMs s) (op : ClaimOp) : Inv ttlMs (s.step challengeFor ttlMs op) := by
  cases op with
  | hold code sessionId challenge => exact h.hold challengeFor ttlMs code sessionId challenge
  | take code verifier => exact h.take challengeFor ttlMs code verifier
  | expire =>
    refine ⟨h.sound, fun code => ?_⟩
    have hheld := h.held code
    rw [ClaimRun.step, ClaimStore.expire, Hash.find_filter]
    cases hfind : s.store.claims.find code with
    | none => simpa [hfind] using hheld
    | some claim =>
      have hstanding : some claim = s.standing code := by simpa [hfind] using hheld
      grind
  | advance ms =>
    refine ⟨fun code claim hclaim => ?_, fun code => ?_⟩
    · obtain ⟨hcode, hsession, hpast⟩ := h.sound code claim hclaim
      exact ⟨hcode, hsession, Int.le_trans hpast (Int.le_add_of_nonneg_right (Int.natCast_nonneg ms))⟩
    · refine (h.held code).imp_right (And.imp_right fun hold claim hclaim => ?_)
      have hpast := hold claim hclaim
      dsimp only [ClaimRun.step]
      omega

/-- A code is answered with a session exactly while it stands for it, within its lifetime, to the verifier of its
challenge. So no sweep is ever noticed, and no code answers twice. -/
theorem taken_iff (configuredSeconds now : Int) (ops : List ClaimOp) (code verifier : QString) (session : QByteArray) :
    let ttlMs := claimTtlMsFrom configuredSeconds
    let s := run (step challengeFor ttlMs) { now := now } ops
    (s.store.take challengeFor code verifier s.now ttlMs).2 = session ∧ session ≠ [] ↔
      ∃ claim, s.standing code = some claim ∧ claim.sessionId = session ∧ s.now - claim.createdMs ≤ ttlMs ∧
        challengeFor (toUtf8 verifier) ≠ [] ∧ challengeFor (toUtf8 verifier) = toUtf8 claim.challenge := by
  intro ttlMs s
  have hinv : Inv ttlMs s := run_invariant (Inv ttlMs) (fun _ op h => h.step challengeFor ttlMs op)
    ⟨fun _ _ hstanding => (by cases hstanding), fun _ => .inl (Hash.find_empty _)⟩ ops
  rw [ClaimStore.take]
  constructor
  · rintro ⟨hanswer, hne⟩
    split at hanswer
    · exact absurd hanswer.symm hne
    · split at hanswer
      · exact absurd hanswer.symm hne
      · next claim hclaim =>
        have hstanding : s.standing code = some claim := by simpa [hclaim, eq_comm] using hinv.held code
        refine ⟨claim, hstanding, ?_⟩
        rw [← constantTimeEquals_iff]
        grind
  · rintro ⟨claim, hstanding, rfl, hyoung, hmatch⟩
    obtain ⟨hcode, hsession, -⟩ := hinv.sound code claim hstanding
    have hfind : s.store.claims.find code = some claim := by
      refine ((hinv.held code).resolve_right fun ⟨_, hold⟩ => ?_).trans hstanding
      exact Int.not_lt.mpr hyoung (hold claim hstanding)
    rw [if_neg (mt String.isEmpty_iff.mp hcode), hfind]
    simp [Int.not_lt.mpr hyoung, constantTimeEquals_iff.mpr hmatch, hsession]

end ClaimRun
end SynQt
