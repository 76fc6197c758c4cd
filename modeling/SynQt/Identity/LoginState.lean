import SynQt.Identity.OAuthBackend

/-! The states of logins in flight: how long one is accepted after it was issued. Expiry is
swept when a login begins, and acceptance is decided when one comes back. -/
namespace SynQt
open Lib List

/-- The engine on a clock, and what it did: the states it issued and when, when logins were
begun, and the states it accepted and when. -/
structure LoginRun where
  backend : OAuthBackend
  now : Int
  issued : List (QString × Int) := []
  begins : List Int := []
  accepted : List (QString × Int) := []

inductive LoginCall where
  | begin_ (providerName binding context : QString) (draw : OAuthBackend.Draw)
  | exchange (state presentedBinding : QString)
  | advance (ms : Nat)
deriving DecidableEq

namespace LoginRun
open OAuthBackend
variable {s : LoginRun} {call : LoginCall}

def passed : ExchangeStart → Bool
  | .answered result => result.error != "invalid or expired state"
  | .started _ _ _ => true

def start (config : IdentityConfig) (now : Int) : LoginRun := { backend := { config := config }, now := now }

def step (s : LoginRun) : LoginCall → LoginRun
  | .begin_ providerName binding context draw =>
    let answer := s.backend.begin_ s.now providerName binding context draw
    { s with
      backend := answer.1
      issued := if answer.2.error.isEmpty then s.issued ++ [(draw.state, s.now)] else s.issued
      begins := s.begins ++ [s.now] }
  | .exchange state presentedBinding =>
    let answer := s.backend.exchangeAsync state presentedBinding
    { s with
      backend := answer.1
      accepted := if passed answer.2 then s.accepted ++ [(state, s.now)] else s.accepted }
  | .advance ms => { s with now := s.now + ms }

/-- Every accepted state was issued at most a lifetime earlier, and none was accepted twice. -/
structure Lawful (s : LoginRun) : Prop where
  inTime : ∀ state at_, (state, at_) ∈ s.accepted →
    ∃ issuedAt, (state, issuedAt) ∈ s.issued ∧ at_ - issuedAt ≤ pendingLifetimeMs
  once : (s.accepted.map Prod.fst).Nodup

def Fresh (s : LoginRun) : LoginCall → Prop
  | .begin_ _ _ _ draw => draw.state ≠ "" ∧ draw.state ∉ s.issued.map Prod.fst
  | _ => True

/-- A state past its lifetime comes back only after some login began past it too, or after
it was used. -/
def Swept (s : LoginRun) : LoginCall → Prop
  | .exchange state _ => ∀ e ∈ s.issued, e.1 = state →
      s.now - e.2 ≤ pendingLifetimeMs ∨ state ∈ s.accepted.map Prod.fst ∨
      ∃ begun ∈ s.begins, begun - e.2 > pendingLifetimeMs
  | _ => True

instance Fresh.decidable (s : LoginRun) : ∀ call, Decidable (s.Fresh call)
  | .begin_ _ _ _ _ => inferInstanceAs (Decidable (_ ∧ _))
  | .exchange _ _ | .advance _ => inferInstanceAs (Decidable True)

instance Swept.decidable (s : LoginRun) : ∀ call, Decidable (s.Swept call)
  | .exchange _ _ => inferInstanceAs (Decidable (∀ e ∈ s.issued, _))
  | .begin_ _ _ _ _ | .advance _ => inferInstanceAs (Decidable True)

/-- The logins held are the states issued that no exchange took and no sweep found too old. -/
structure Held (s : LoginRun) : Prop where
  distinct : (s.issued.map Prod.fst).Nodup
  named : ∀ e ∈ s.issued, e.1 ≠ ""
  past : (∀ e ∈ s.issued, e.2 ≤ s.now) ∧ ∀ begun ∈ s.begins, begun ≤ s.now
  known : ∀ state p, s.backend.pending.find state = some p → (state, p.createdMs) ∈ s.issued
  held : ∀ e ∈ s.issued, (s.backend.pending.find e.1).isSome = true ↔
    e.1 ∉ s.accepted.map Prod.fst ∧ ∀ begun ∈ s.begins, begun - e.2 ≤ pendingLifetimeMs
  used : ∀ state ∈ s.accepted.map Prod.fst, state ∈ s.issued.map Prod.fst

variable (b : OAuthBackend)

private theorem find_expirePending (now : Int) (state : QString) (p : Pending) :
    (b.expirePending now).pending.find state = some p ↔
      b.pending.find state = some p ∧ now - p.createdMs ≤ pendingLifetimeMs := by
  rw [expirePending, Hash.find_filter_eq_some]
  simp

private theorem begin_cases (now : Int) (providerName binding context : QString) (draw : Draw) :
    ((b.begin_ now providerName binding context draw).2.error.isEmpty = false ∧
      (b.begin_ now providerName binding context draw).1 = b.expirePending now) ∨
    ((b.begin_ now providerName binding context draw).2.error.isEmpty = true ∧
      ∃ p : Pending, p.createdMs = now ∧
        (b.begin_ now providerName binding context draw).1 =
          { b.expirePending now with pending := (b.expirePending now).pending.insert draw.state p }) := by
  rw [begin_]
  simp only
  split
  · rename_i hrefused
    exact .inl ⟨by simpa using hrefused, rfl⟩
  · split
    · exact .inl ⟨rfl, rfl⟩
    · exact .inr ⟨rfl, _, rfl, rfl⟩

/-- An exchange takes the login it was accepted for, whatever comes of it. -/
theorem exchange_cases (state presentedBinding : QString) (hstate : state ≠ "") :
    (b.pending.find state = none ∧ (b.exchangeAsync state presentedBinding).1 = b ∧
      passed (b.exchangeAsync state presentedBinding).2 = false) ∨
    (∃ p, b.pending.find state = some p ∧
      (b.exchangeAsync state presentedBinding).1 = { b with pending := b.pending.erase state } ∧
      passed (b.exchangeAsync state presentedBinding).2 = true) := by
  rw [exchangeAsync]
  cases hheld : b.pending.find state with
  | none => exact .inl ⟨rfl, rfl, rfl⟩
  | some p =>
    right
    refine ⟨p, rfl, ?_⟩
    have hnamed : state.isEmpty = false := by simpa using hstate
    have hmismatch : ("login session mismatch" != "invalid or expired state") = true := by decide
    have hunknown : ("unknown provider" != "invalid or expired state") = true := by decide
    simp only [hnamed, Bool.false_eq_true, if_false]
    split
    · exact ⟨rfl, hmismatch⟩
    · cases b.config.provider p.providerName with
      | none => exact ⟨rfl, hunknown⟩
      | some provider => exact ⟨rfl, rfl⟩

private theorem exchange_unnamed (presentedBinding : QString) :
    (b.exchangeAsync "" presentedBinding).1 = b ∧ passed (b.exchangeAsync "" presentedBinding).2 = false := by
  rw [exchangeAsync]
  cases b.pending.find "" with
  | none | some p => exact ⟨rfl, rfl⟩

private theorem nodup_snoc (l : List (QString × Int)) (state : QString) (at_ : Int) :
    ((l ++ [(state, at_)]).map Prod.fst).Nodup ↔ (l.map Prod.fst).Nodup ∧ state ∉ l.map Prod.fst := by
  rw [map_append, map_singleton, ← concat_eq_append, nodup_concat, and_comm]

section
variable (h : Held s)
include h

theorem Held.created {e : QString × Int} (he : e ∈ s.issued) {p : Pending}
    (hp : s.backend.pending.find e.1 = some p) : p.createdMs = e.2 := by
  have hknown := h.known e.1 p hp
  have hsame : (e.1, p.createdMs) = e := inj_on_of_nodup_map h.distinct hknown he rfl
  rw [← hsame]

theorem Held.expire :
    Held { s with backend := s.backend.expirePending s.now, begins := s.begins ++ [s.now] } where
  distinct := h.distinct
  named := h.named
  past := by
    refine ⟨h.past.1, fun begun hbegun => ?_⟩
    rcases mem_append.mp hbegun with hold | hnew
    · exact h.past.2 begun hold
    · exact Int.le_of_eq (mem_singleton.mp hnew)
  known state p hp := h.known state p ((find_expirePending _ _ _ _).mp hp).1
  held e he := by
    have hbegun : (∀ begun ∈ s.begins ++ [s.now], begun - e.2 ≤ pendingLifetimeMs) ↔
        (∀ begun ∈ s.begins, begun - e.2 ≤ pendingLifetimeMs) ∧ s.now - e.2 ≤ pendingLifetimeMs := by
      simp only [mem_append, mem_singleton, or_imp, forall_and, forall_eq]
    rw [hbegun, ← and_assoc, ← h.held e he, Option.isSome_iff_exists, Option.isSome_iff_exists]
    constructor
    · rintro ⟨p, hp⟩
      obtain ⟨hold, htime⟩ := (find_expirePending _ _ _ _).mp hp
      rw [h.created he hold] at htime
      exact ⟨⟨p, hold⟩, htime⟩
    · rintro ⟨⟨p, hold⟩, htime⟩
      refine ⟨p, (find_expirePending _ _ _ _).mpr ⟨hold, ?_⟩⟩
      rw [h.created he hold]
      exact htime
  used := h.used

/-- A state that was never drawn before is issued, and a login held for it. -/
theorem Held.issue {state : QString} (hnamed : state ≠ "") (hnew : state ∉ s.issued.map Prod.fst)
    {p : Pending} (hp : p.createdMs = s.now) :
    Held { s with
      backend := { s.backend with pending := s.backend.pending.insert state p }
      issued := s.issued ++ [(state, s.now)] } where
  distinct := (nodup_snoc _ _ _).mpr ⟨h.distinct, hnew⟩
  named e he := by
    rcases mem_append.mp he with hold | hlast
    · exact h.named e hold
    · rw [mem_singleton.mp hlast]
      exact hnamed
  past := by
    refine ⟨fun e he => ?_, h.past.2⟩
    rcases mem_append.mp he with hold | hlast
    · exact h.past.1 e hold
    · obtain rfl := mem_singleton.mp hlast
      exact Int.le_refl _
  known state' p' hp' := by
    rw [Hash.find_insert] at hp'
    split at hp'
    · rename_i heq
      cases hp'
      rw [heq, hp]
      exact mem_append_right _ (mem_singleton_self _)
    · exact mem_append_left _ (h.known state' p' hp')
  held e he := by
    rw [Hash.find_insert]
    rcases mem_append.mp he with hold | hlast
    · have hother : e.1 ≠ state := fun heq => hnew (heq ▸ mem_map_of_mem hold)
      rw [if_neg hother]
      exact h.held e hold
    · rw [mem_singleton.mp hlast, if_pos rfl]
      refine iff_of_true rfl ⟨fun hused => hnew (h.used _ hused), fun begun hbegun => ?_⟩
      have htime := h.past.2 begun hbegun
      have hlife : (0 : Int) ≤ pendingLifetimeMs := by decide
      show begun - s.now ≤ _
      omega
  used state' hstate' := by
    rw [map_append]
    exact mem_append_left _ (h.used state' hstate')

theorem Held.begin_ (providerName binding context : QString) (draw : Draw)
    (hfresh : s.Fresh (.begin_ providerName binding context draw)) :
    Held (s.step (.begin_ providerName binding context draw)) := by
  rw [step]
  rcases begin_cases s.backend s.now providerName binding context draw with ⟨hanswer, hbackend⟩ | ⟨hanswer, p, hp, hbackend⟩
  · simp only [hanswer, hbackend, Bool.false_eq_true, if_false]
    exact h.expire
  · simp only [hanswer, hbackend, if_true]
    exact h.expire.issue hfresh.1 hfresh.2 hp

theorem Held.exchange (state presentedBinding : QString) :
    Held (s.step (.exchange state presentedBinding)) := by
  rw [step]
  rcases eq_or_ne state "" with rfl | hstate
  · obtain ⟨hbackend, hpassed⟩ := exchange_unnamed s.backend presentedBinding
    simp only [hbackend, hpassed, Bool.false_eq_true, if_false]
    exact h
  · rcases exchange_cases s.backend state presentedBinding hstate with ⟨-, hbackend, hpassed⟩ | ⟨p, hp, hbackend, hpassed⟩
    · simp only [hbackend, hpassed, Bool.false_eq_true, if_false]
      exact h
    · simp only [hbackend, hpassed, if_true]
      constructor
      case distinct => exact h.distinct
      case named => exact h.named
      case past => exact h.past
      case known =>
        intro other p' hp'
        rw [Hash.find_erase] at hp'
        split at hp'
        · cases hp'
        · exact h.known other p' hp'
      case held =>
        intro e he
        rw [Hash.find_erase, map_append, mem_append, map_singleton, mem_singleton, not_or]
        split
        · rename_i heq
          exact iff_of_false (fun hsome => by cases hsome) fun hnot => hnot.1.2 heq
        · rename_i hne
          rw [h.held e he]
          exact ⟨fun hold => ⟨⟨hold.1, hne⟩, hold.2⟩, fun hnew => ⟨hnew.1.1, hnew.2⟩⟩
      case used =>
        intro other hother
        rw [map_append, mem_append, map_singleton, mem_singleton] at hother
        rcases hother with hold | rfl
        · exact h.used other hold
        · exact mem_map_of_mem (h.known other p hp)

theorem Held.advance (ms : Nat) : Held (s.step (.advance ms)) := by
  refine ⟨h.distinct, h.named, ⟨fun e he => ?_, fun begun hbegun => ?_⟩, h.known, h.held, h.used⟩
  · exact Int.le_add_of_nonneg_right (Int.natCast_nonneg ms) |> Int.le_trans (h.past.1 e he)
  · exact Int.le_add_of_nonneg_right (Int.natCast_nonneg ms) |> Int.le_trans (h.past.2 begun hbegun)

theorem Held.step (hfresh : s.Fresh call) : Held (s.step call) := by
  cases call with
  | begin_ providerName binding context draw => exact h.begin_ providerName binding context draw hfresh
  | exchange state presentedBinding => exact h.exchange state presentedBinding
  | advance ms => exact h.advance ms

/-- A login that begins accepts nothing, and what was accepted stays as it was issued. -/
theorem lawful_begin (providerName binding context : QString) (draw : Draw)
    (hfresh : s.Fresh (.begin_ providerName binding context draw)) :
    Lawful (s.step (.begin_ providerName binding context draw)) ↔ Lawful s := by
  have hmore (e : QString × Int) (he : e ∈ (s.step (.begin_ providerName binding context draw)).issued) :
      e ∈ s.issued ∨ e.1 = draw.state := by
    rw [step] at he
    simp only at he
    split at he
    · rcases mem_append.mp he with hold | hlast
      · exact .inl hold
      · rw [mem_singleton.mp hlast]
        exact .inr rfl
    · exact .inl he
  have hkept (e : QString × Int) (he : e ∈ s.issued) :
      e ∈ (s.step (.begin_ providerName binding context draw)).issued := by
    rw [step]
    simp only
    split
    · exact mem_append_left _ he
    · exact he
  constructor
  · intro hlawful
    refine ⟨fun state at_ hat => ?_, hlawful.once⟩
    obtain ⟨issuedAt, hissued, htime⟩ := hlawful.inTime state at_ hat
    rcases hmore _ hissued with hold | hlast
    · exact ⟨issuedAt, hold, htime⟩
    · have hused := h.used state (mem_map_of_mem hat)
      rw [show state = draw.state from hlast] at hused
      exact absurd hused hfresh.2
  · intro hlawful
    refine ⟨fun state at_ hat => ?_, hlawful.once⟩
    obtain ⟨issuedAt, hissued, htime⟩ := hlawful.inTime state at_ hat
    exact ⟨issuedAt, hkept _ hissued, htime⟩

theorem lawful_exchange (state presentedBinding : QString) :
    Lawful (s.step (.exchange state presentedBinding)) ↔
      Lawful s ∧ s.Swept (.exchange state presentedBinding) := by
  have hrefused (hnone : ∀ e ∈ s.issued, e.1 = state → s.backend.pending.find e.1 = none) :
      s.Swept (.exchange state presentedBinding) := by
    intro e he heq
    by_contra hnot
    rw [not_or, not_or] at hnot
    have hsome : (s.backend.pending.find e.1).isSome = true := by
      rw [h.held e he, heq]
      refine ⟨hnot.2.1, fun begun hbegun => ?_⟩
      by_contra hlate
      exact hnot.2.2 ⟨begun, hbegun, Int.not_le.mp hlate⟩
    rw [hnone e he heq] at hsome
    cases hsome
  rw [step]
  rcases eq_or_ne state "" with rfl | hstate
  · obtain ⟨hbackend, hpassed⟩ := exchange_unnamed s.backend presentedBinding
    simp only [hbackend, hpassed, Bool.false_eq_true, if_false]
    exact (and_iff_left (hrefused fun e he heq => absurd heq (h.named e he))).symm
  · rcases exchange_cases s.backend state presentedBinding hstate with ⟨hnone, hbackend, hpassed⟩ | ⟨p, hp, hbackend, hpassed⟩
    · simp only [hbackend, hpassed, Bool.false_eq_true, if_false]
      exact (and_iff_left (hrefused fun e _ heq => heq ▸ hnone)).symm
    · have hissued := h.known state p hp
      obtain ⟨hunused, hbegins⟩ := (h.held _ hissued).mp (by rw [hp]; rfl)
      simp only [hbackend, hpassed, if_true]
      constructor
      · rintro ⟨htime, honce⟩
        refine ⟨⟨fun other at_ hat => htime other at_ (mem_append_left _ hat), ?_⟩, fun e he heq => ?_⟩
        · exact ((nodup_snoc _ _ _).mp honce).1
        · left
          obtain ⟨issuedAt, hsame, hlife⟩ :=
            htime state s.now (mem_append_right _ (mem_singleton_self _))
          have heq' : (state, issuedAt) = e := inj_on_of_nodup_map h.distinct hsame he heq.symm
          rw [← heq']
          exact hlife
      · rintro ⟨⟨htime, honce⟩, hswept⟩
        refine ⟨fun other at_ hat => ?_, ?_⟩
        · rcases mem_append.mp hat with hold | hlast
          · exact htime other at_ hold
          · cases mem_singleton.mp hlast
            refine ⟨p.createdMs, hissued, ?_⟩
            rcases hswept _ hissued rfl with hlife | hused | ⟨begun, hbegun, hlate⟩
            · exact hlife
            · exact absurd hused hunused
            · have hnot := hbegins begun hbegun
              exact absurd hlate (Int.not_lt.mpr hnot)
        · exact (nodup_snoc _ _ _).mpr ⟨honce, hunused⟩

theorem lawful_step (hfresh : s.Fresh call) : Lawful (s.step call) ↔ Lawful s ∧ s.Swept call := by
  cases call with
  | begin_ providerName binding context draw =>
    rw [lawful_begin h providerName binding context draw hfresh]
    exact (and_iff_left trivial).symm
  | exchange state presentedBinding => exact lawful_exchange h state presentedBinding
  | advance ms =>
    refine ⟨fun hlawful => ⟨⟨hlawful.inTime, hlawful.once⟩, trivial⟩, fun hlawful => ?_⟩
    exact ⟨hlawful.1.inTime, hlawful.1.once⟩

end

private theorem held_start (config : IdentityConfig) (now : Int) : Held (start config now) := by
  refine ⟨.nil, fun e he => ?_, ⟨fun e he => ?_, fun begun hb => ?_⟩, fun state p hp => ?_, fun e he => ?_, fun state hs => ?_⟩
  · cases he
  · cases he
  · cases hb
  · have hnone : (start config now).backend.pending.find state = none := Hash.find_empty state
    rw [hnone] at hp
    cases hp
  · cases he
  · cases hs

private theorem lawful_run (calls : List LoginCall) (h : Held s) (hfresh : Each step Fresh s calls) :
    Lawful (run step s calls) ↔ Lawful s ∧ Each step Swept s calls := by
  induction calls generalizing s with
  | nil => exact (and_iff_left trivial).symm
  | cons call calls ih =>
    rw [run_cons, ih (h.step hfresh.1) hfresh.2, lawful_step h hfresh.1, and_assoc]
    rfl

/-- The law over a run: kept exactly when every state past its lifetime that comes back finds
that a login began past it too, or that it was used. -/
theorem lawful_iff_swept (config : IdentityConfig) (now : Int) (calls : List LoginCall)
    (hfresh : Each step Fresh (start config now) calls) :
    Lawful (run step (start config now) calls) ↔ Each step Swept (start config now) calls := by
  rw [lawful_run calls (held_start config now) hfresh]
  refine and_iff_right ⟨fun state at_ hat => ?_, .nil⟩
  cases hat

/-- One provider, and a login with it that comes back after `ms`. -/
def github : IdentityConfig where
  providers := [
    { name := "github"
      authorizeUrl := ⟨"https", "github.com", "/login/oauth/authorize"⟩
      tokenUrl := ⟨"https", "github.com", "/login/oauth/access_token"⟩
      userinfoUrl := ⟨"https", "api.github.com", "/user"⟩
      clientId := "synqt" }]

def loginBackAfter (ms : Nat) : List LoginCall := [
  .begin_ "github" "csrf" "" { state := "a1", authorizeUrl := ⟨"https", "github.com", "/login/oauth/authorize?state=a1"⟩ },
  .advance ms,
  .exchange "a1" "csrf"]

theorem lawful_iff_swept_inTime :
    Lawful (run step (start github 0) (loginBackAfter 300000)) ↔
      Each step Swept (start github 0) (loginBackAfter 300000) :=
  lawful_iff_swept github 0 (loginBackAfter 300000) (by decide)

/-- A millisecond past its five minutes, with no login begun since. -/
theorem late_state_accepted : ¬ Lawful (run step (start github 0) (loginBackAfter 300001)) := by
  intro h
  obtain ⟨issuedAt, hissued, htime⟩ := h.inTime "a1" 300001 (by decide)
  have hlog : (run step (start github 0) (loginBackAfter 300001)).issued = [("a1", 0)] := by decide
  rw [hlog, mem_singleton] at hissued
  cases hissued
  exact absurd htime (by decide)

end LoginRun
end SynQt
