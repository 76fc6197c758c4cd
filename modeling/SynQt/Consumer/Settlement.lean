import SynQt.Consumer.Promise

/-! How the calls of a facade settle: each promise once, each handler at most once and for its own outcome, and
each rejection at the first handler down its chain that is for one. -/
namespace SynQt.Consumer
open Lib Function Option List
universe u
variable {V : Type u}

def Frame.owed : Frame → List Nat
  | .flush _ handlers => handlers.map Handler.next
  | .body _ handler => [handler.next]
  | .abandon _ _ => []
  | .app => []

def Frame.replacing : Frame → Option (Option Nat)
  | .abandon _ replica => some replica
  | _ => none

namespace Facade
variable {f : Facade V}

def owed (f : Facade V) : List Nat := f.stack.flatMap Frame.owed

def ranIds (f : Facade V) : List Nat := f.ran.map Prod.fst

def fires (outcome : Outcome V) (handler : Handler) : Prop := (runs outcome handler && handler.callable) = true

/-- Where a handler attached to a settled promise is: still to be dispatched, run, or passed by. -/
inductive Stage (f : Facade V) (p : Nat) (handler : Handler) (outcome : Outcome V) : Prop where
  | queued (handlers : List Handler) (hframe : .flush p handlers ∈ f.stack) (hin : handler ∈ handlers)
  | ran (hfires : fires outcome handler) (hran : (handler.next, p, outcome) ∈ f.ran)
      (hdone : .body p handler ∈ f.stack ∨ (f.promises handler.next).state ≠ none)
  | passed (hfires : ¬fires outcome handler) (hnext : (f.promises handler.next).state = some outcome)

/-- What every step keeps. `away` is the promise of a handler that has left its frame and is about to be settled. -/
structure Inv (f : Facade V) (away : Option Nat) : Prop where
  born : ∀ p h, (p, h) ∈ f.attached → p < h.next ∧ h.next < f.count
  distinct : (f.attached.map fun a => a.2.next).Nodup
  chained : ∀ p h, (p, h) ∈ f.attached → (f.promises h.next).sentOn = none ∧ (f.promises h.next).held = false
  unborn : ∀ p, f.count ≤ p → f.promises p = ⟨none, [], none, false, false, false⟩
  waiting : ∀ p h, h ∈ (f.promises p).handlers → (p, h) ∈ f.attached ∧ (f.promises p).state = none ∧
    (f.promises h.next).state = none ∧ h.next ∉ f.ranIds
  apart : ∀ p, ((f.promises p).handlers.map Handler.next).Nodup
  queued : ∀ p hs, .flush p hs ∈ f.stack → (f.promises p).state ≠ none ∧
    ∀ h ∈ hs, (p, h) ∈ f.attached ∧ (f.promises h.next).state = none ∧ h.next ∉ f.ranIds
  running : ∀ p h, .body p h ∈ f.stack → (p, h) ∈ f.attached ∧ (f.promises p).state ≠ none ∧
    (f.promises h.next).state = none
  owedOnce : f.owed.Nodup
  once : f.ranIds.Nodup
  fitting : ∀ n p o, (n, p, o) ∈ f.ran → ∃ h, (p, h) ∈ f.attached ∧ h.next = n ∧ fires o h ∧ (f.promises p).state = some o
  pending : ∀ p h, (p, h) ∈ f.attached → (f.promises p).state = none → h ∈ (f.promises p).handlers
  staged : ∀ p h o, (p, h) ∈ f.attached → (f.promises p).state = some o → f.Stage p h o ∨ away = some h.next
  leaving : ∀ n, away = some n → (f.promises n).state = none ∧ n ∉ f.owed ∧
    ∃ p h, (p, h) ∈ f.attached ∧ h.next = n ∧ (f.promises p).state ≠ none
  calls : ∀ p, (f.promises p).sentOn ≠ none → (f.promises p).held = true ∧ p < f.count
  disposal : ∀ p, (f.promises p).disposed = true ∨ (f.promises p).disposalScheduled = true → (f.promises p).state ≠ none
  abandons : ∀ held r, .abandon held r ∈ f.stack → ∀ p ∈ held, p < f.count ∧ (f.promises p).held = true
  answers : ∀ p o, (f.promises p).sentOn ≠ none → (f.promises p).state = some o →
    (p, o) ∈ f.answered ∨ o = .rejected f.dropped

namespace Inv
variable {away : Option Nat}

/-- A promise is chained from one place only. -/
theorem place (h : Inv f away) {p p' : Nat} {k k' : Handler} (hk : (p, k) ∈ f.attached) (hk' : (p', k') ∈ f.attached)
    (hnext : k.next = k'.next) : p = p' ∧ k = k' :=
  Prod.mk.inj (inj_on_of_nodup_map h.distinct hk hk' hnext)

private theorem mem_owed {n : Nat} (hn : n ∈ f.owed) : (∃ p hs k, .flush p hs ∈ f.stack ∧ k ∈ hs ∧ k.next = n) ∨
    ∃ p k, .body p k ∈ f.stack ∧ k.next = n := by
  obtain ⟨frame, hframe, hn⟩ := mem_flatMap.mp hn
  cases frame with
  | flush p hs =>
    obtain ⟨k, hk, hnext⟩ := mem_map.mp hn
    exact .inl ⟨p, hs, k, hframe, hk, hnext⟩
  | body p k => exact .inr ⟨p, k, hframe, (mem_singleton.mp hn).symm⟩
  | abandon held r | app => exact absurd hn not_mem_nil

/-- What is owed is chained from a promise that has settled, and has not settled itself. -/
theorem of_owed (h : Inv f away) {n : Nat} (hn : n ∈ f.owed) : (f.promises n).state = none ∧
    ∃ p k, (p, k) ∈ f.attached ∧ k.next = n ∧ (f.promises p).state ≠ none := by
  rcases mem_owed hn with ⟨p, hs, k, hframe, hk, rfl⟩ | ⟨p, k, hframe, rfl⟩
  · obtain ⟨hp, hall⟩ := h.queued p hs hframe
    obtain ⟨hin, hnone, -⟩ := hall k hk
    exact ⟨hnone, p, k, hin, rfl, hp⟩
  · obtain ⟨hin, hp, hnone⟩ := h.running p k hframe
    exact ⟨hnone, p, k, hin, rfl, hp⟩

/-- A handler that waits is for a promise nothing else is about to settle. -/
theorem waiting_apart (h : Inv f away) {p : Nat} {k : Handler} (hk : k ∈ (f.promises p).handlers) :
    k.next ∉ f.owed ∧ away ≠ some k.next := by
  obtain ⟨hin, hnone, -, -⟩ := h.waiting p k hk
  constructor
  · intro hn
    obtain ⟨-, p', k', hin', hnext, hp'⟩ := h.of_owed hn
    obtain ⟨rfl, -⟩ := h.place hin' hin hnext
    exact hp' hnone
  · intro haway
    obtain ⟨-, -, p', k', hin', hnext, hp'⟩ := h.leaving k.next haway
    obtain ⟨rfl, -⟩ := h.place hin' hin hnext
    exact hp' hnone

end Inv

@[simp] theorem add_promises (sentOn : Option Nat) (held : Bool) :
    (f.add sentOn held).promises = update f.promises f.count ⟨none, [], sentOn, held, false, false⟩ := rfl

/-- What settling a pending promise does: its handlers leave it for a frame of their own. -/
structure Settles (f f' : Facade V) (p : Nat) (outcome : Outcome V) : Prop where
  state : (f'.promises p).state = some outcome
  handlers : (f'.promises p).handlers = []
  sentOn : (f'.promises p).sentOn = (f.promises p).sentOn
  held : (f'.promises p).held = (f.promises p).held
  others : ∀ q, q ≠ p → f'.promises q = f.promises q
  stack : f'.stack = .flush p (f.promises p).handlers :: f.stack
  attached : f'.attached = f.attached
  ran : f'.ran = f.ran
  answered : f'.answered = f.answered
  count : f'.count = f.count
  dropped : f'.dropped = f.dropped
  replica : f'.replica = f.replica

theorem settle_settles {p : Nat} (hnone : (f.promises p).state = none) (outcome : Outcome V) :
    Settles f (f.settle p outcome) p outcome := by
  unfold settle flush setPromise
  rw [if_neg (by rw [hnone]; exact Bool.false_ne_true)]
  simp only [update_self, update_idem]
  refine ⟨?_, ?_, ?_, ?_, fun q hq => update_of_ne hq .., rfl, rfl, rfl, rfl, rfl, rfl, rfl⟩ <;>
    simp only [update_self]

theorem settle_of_settled {p : Nat} (hsome : (f.promises p).state ≠ none) (outcome : Outcome V) : f.settle p outcome = f :=
  if_pos (isSome_iff_ne_none.mpr hsome)

namespace Inv
variable {away : Option Nat}

theorem settle (h : Inv f away) {p : Nat} {outcome : Outcome V} (hnone : (f.promises p).state = none)
    (hplace : away = some p ∨ (away = none ∧ (f.promises p).held = true))
    (hout : ∀ q k o, (q, k) ∈ f.attached → k.next = p → (f.promises q).state = some o →
      (fires o k ∧ (p, q, o) ∈ f.ran) ∨ (¬fires o k ∧ outcome = o))
    (hanswer : (f.promises p).sentOn ≠ none → (p, outcome) ∈ f.answered ∨ outcome = .rejected f.dropped) :
    Inv (f.settle p outcome) none := by
  have hs := settle_settles hnone outcome
  -- A promise about to be settled is not owed by any frame, nor waited for.
  have hfree : p ∉ f.owed := by
    rcases hplace with rfl | ⟨-, hheld⟩
    · exact (h.leaving p rfl).2.1
    · intro hn
      obtain ⟨-, q, k, hin, rfl, -⟩ := h.of_owed hn
      rw [(h.chained q k hin).2] at hheld
      cases hheld
  have hunwaited : ∀ q k, k ∈ (f.promises q).handlers → k.next ≠ p := by
    rintro q k hk rfl
    rcases hplace with haway | ⟨-, hheld⟩
    · exact (h.waiting_apart hk).2 haway
    · rw [(h.chained q k (h.waiting q k hk).1).2] at hheld
      cases hheld
  have hkept : ∀ n, n ∈ f.owed → n ≠ p := fun n hn hp => hfree (hp ▸ hn)
  have hids : (f.settle p outcome).ranIds = f.ranIds := congrArg (List.map Prod.fst) hs.ran
  generalize f.settle p outcome = f' at hs hids
  constructor
  case born =>
    rw [hs.attached, hs.count]
    exact h.born
  case distinct =>
    rw [hs.attached]
    exact h.distinct
  case chained =>
    intro q k hin
    obtain ⟨hsent, hheld⟩ := h.chained q k (hs.attached ▸ hin)
    by_cases hk : k.next = p
    · rw [hk, hs.sentOn, hs.held]
      exact ⟨hk ▸ hsent, hk ▸ hheld⟩
    · rw [hs.others _ hk]
      exact ⟨hsent, hheld⟩
  case unborn =>
    intro q hq
    rw [hs.count] at hq
    have hne : q ≠ p := by
      rintro rfl
      rcases hplace with haway | ⟨-, hheld⟩
      · obtain ⟨-, -, q', k, hin, hnext, -⟩ := h.leaving q haway
        have hlt := (h.born q' k hin).2
        omega
      · rw [h.unborn q hq] at hheld
        cases hheld
    rw [hs.others q hne]
    exact h.unborn q hq
  case waiting =>
    intro q k hk
    by_cases hqp : q = p
    · rw [hqp, hs.handlers] at hk
      exact absurd hk not_mem_nil
    · rw [hs.others q hqp] at hk ⊢
      obtain ⟨hin, hq, hnext, hran⟩ := h.waiting q k hk
      rw [hs.others _ (hunwaited q k hk), hs.attached, hids]
      exact ⟨hin, hq, hnext, hran⟩
  case apart =>
    intro q
    by_cases hqp : q = p
    · rw [hqp, hs.handlers]
      exact nodup_nil
    · rw [hs.others q hqp]
      exact h.apart q
  case queued =>
    intro q handlers hframe
    rw [hs.stack] at hframe
    rcases mem_cons.mp hframe with he | hframe
    · obtain ⟨rfl, rfl⟩ := Frame.flush.inj he
      rw [hs.state, hs.attached, hids]
      refine ⟨some_ne_none _, fun k hk => ?_⟩
      obtain ⟨hin, -, hnext, hran⟩ := h.waiting q k hk
      rw [hs.others _ (hunwaited q k hk)]
      exact ⟨hin, hnext, hran⟩
    · obtain ⟨hq, hall⟩ := h.queued q handlers hframe
      have hqp : q ≠ p := fun he => hq (he ▸ hnone)
      rw [hs.others q hqp, hs.attached, hids]
      refine ⟨hq, fun k hk => ?_⟩
      obtain ⟨hin, hnext, hran⟩ := hall k hk
      rw [hs.others _ (hkept _ (mem_flatMap.mpr ⟨_, hframe, mem_map_of_mem hk⟩))]
      exact ⟨hin, hnext, hran⟩
  case running =>
    intro q k hframe
    rw [hs.stack] at hframe
    rcases mem_cons.mp hframe with he | hframe
    · cases he
    · obtain ⟨hin, hq, hnext⟩ := h.running q k hframe
      have hqp : q ≠ p := fun he => hq (he ▸ hnone)
      rw [hs.others q hqp, hs.others _ (hkept _ (mem_flatMap.mpr ⟨_, hframe, mem_singleton_self _⟩)), hs.attached]
      exact ⟨hin, hq, hnext⟩
  case owedOnce =>
    rw [owed, hs.stack]
    refine nodup_append'.mpr ⟨h.apart p, h.owedOnce, fun n hn hn' => ?_⟩
    obtain ⟨k, hk, rfl⟩ := mem_map.mp hn
    exact (h.waiting_apart hk).1 hn'
  case once =>
    rw [hids]
    exact h.once
  case fitting =>
    intro n q o hran
    obtain ⟨k, hin, hnext, hfires, hq⟩ := h.fitting n q o (hs.ran ▸ hran)
    have hqp : q ≠ p := by
      rintro rfl
      rw [hnone] at hq
      cases hq
    rw [hs.attached, hs.others q hqp]
    exact ⟨k, hin, hnext, hfires, hq⟩
  case pending =>
    intro q k hin hq
    have hqp : q ≠ p := by
      rintro rfl
      rw [hs.state] at hq
      cases hq
    rw [hs.others q hqp] at hq ⊢
    exact h.pending q k (hs.attached ▸ hin) hq
  case staged =>
    intro q k o hin hq
    rw [hs.attached] at hin
    left
    by_cases hqp : q = p
    · subst hqp
      exact .queued _ (hs.stack ▸ mem_cons_self) (h.pending q k hin hnone)
    · rw [hs.others q hqp] at hq
      by_cases hk : k.next = p
      · have hnext : (f'.promises k.next).state = some outcome := by rw [hk, hs.state]
        rcases hout q k o hin hk hq with ⟨hfires, hran⟩ | ⟨hfires, rfl⟩
        · refine .ran hfires (hs.ran ▸ hk ▸ hran) (.inr ?_)
          rw [hnext]
          exact some_ne_none _
        · exact .passed hfires hnext
      · rcases h.staged q k o hin hq with hstage | haway
        · cases hstage with
          | queued handlers hframe hin' => exact .queued handlers (hs.stack ▸ mem_cons_of_mem _ hframe) hin'
          | ran hfires hran hdone =>
            rw [← hs.others _ hk] at hdone
            exact .ran hfires (hs.ran ▸ hran) (hdone.imp_left fun hframe => hs.stack ▸ mem_cons_of_mem _ hframe)
          | passed hfires hnext =>
            rw [← hs.others _ hk] at hnext
            exact .passed hfires hnext
        · rcases hplace with haway' | ⟨haway', -⟩
          · exact absurd (Option.some.inj (haway.symm.trans haway')) hk
          · rw [haway'] at haway
            cases haway
  case leaving => exact fun n hn => absurd hn.symm (some_ne_none n)
  case calls =>
    intro q hq
    rw [hs.count]
    by_cases hqp : q = p
    · rw [hqp, hs.sentOn] at hq
      rw [hqp, hs.held]
      exact h.calls p hq
    · rw [hs.others q hqp] at hq ⊢
      exact h.calls q hq
  case disposal =>
    intro q hq
    by_cases hqp : q = p
    · rw [hqp, hs.state]
      exact some_ne_none _
    · rw [hs.others q hqp] at hq ⊢
      exact h.disposal q hq
  case abandons =>
    intro held r hframe q hq
    rw [hs.stack] at hframe
    rcases mem_cons.mp hframe with he | hframe
    · cases he
    · obtain ⟨hlt, hheld⟩ := h.abandons held r hframe q hq
      rw [hs.count]
      refine ⟨hlt, ?_⟩
      by_cases hqp : q = p
      · rw [hqp, hs.held]
        exact hqp ▸ hheld
      · rw [hs.others q hqp]
        exact hheld
  case answers =>
    intro q o hq ho
    rw [hs.answered, hs.dropped]
    by_cases hqp : q = p
    · rw [hqp, hs.sentOn] at hq
      rw [hqp, hs.state] at ho
      rw [hqp]
      obtain rfl := Option.some.inj ho
      exact hanswer hq
    · rw [hs.others q hqp] at hq ho
      exact h.answers q o hq ho

/-- Frames that owe nothing come and go, disposal is scheduled for what has settled, and a call makes its promise. -/
theorem transfer (h : Inv f away) {f' : Facade V} (hstate : ∀ p, (f'.promises p).state = (f.promises p).state)
    (hhandlers : ∀ p, (f'.promises p).handlers = (f.promises p).handlers)
    (hsent : ∀ p < f.count, (f'.promises p).sentOn = (f.promises p).sentOn)
    (hheld : ∀ p < f.count, (f'.promises p).held = (f.promises p).held)
    (hunborn : ∀ p, f'.count ≤ p → f'.promises p = f.promises p)
    (hnew : ∀ p, f.count ≤ p → (f'.promises p).sentOn ≠ none → (f'.promises p).held = true ∧ p < f'.count)
    (hdisposal : ∀ p, (f'.promises p).disposed = true ∨ (f'.promises p).disposalScheduled = true → (f.promises p).state ≠ none)
    (hattached : f'.attached = f.attached) (hran : f'.ran = f.ran) (hcount : f.count ≤ f'.count)
    (hanswered : f.answered ⊆ f'.answered) (hdropped : f'.dropped = f.dropped)
    (hback : ∀ frame ∈ f'.stack, frame ∈ f.stack ∨ frame = .app ∨
      ∃ held r, frame = .abandon held r ∧ ∀ p ∈ held, p < f.count ∧ (f.promises p).held = true)
    (hforth : ∀ frame ∈ f.stack, frame ∈ f'.stack ∨ frame.owed = []) (howed : f'.owed = f.owed) : Inv f' away := by
  have hids : f'.ranIds = f.ranIds := congrArg (List.map Prod.fst) hran
  constructor
  case born =>
    rw [hattached]
    intro p k hin
    obtain ⟨hp, hnext⟩ := h.born p k hin
    exact ⟨hp, Nat.lt_of_lt_of_le hnext hcount⟩
  case distinct =>
    rw [hattached]
    exact h.distinct
  case chained =>
    rw [hattached]
    intro p k hin
    obtain ⟨-, hnext⟩ := h.born p k hin
    rw [hsent _ hnext, hheld _ hnext]
    exact h.chained p k hin
  case unborn => exact fun p hp => (hunborn p hp).trans (h.unborn p (Nat.le_trans hcount hp))
  case waiting =>
    intro p k hk
    rw [hhandlers] at hk
    rw [hattached, hstate, hstate, hids]
    exact h.waiting p k hk
  case apart =>
    intro p
    rw [hhandlers]
    exact h.apart p
  case queued =>
    intro p hs hframe
    rcases hback _ hframe with hin | he | ⟨held, r, he, -⟩
    · obtain ⟨hp, hall⟩ := h.queued p hs hin
      rw [hstate]
      refine ⟨hp, fun k hk => ?_⟩
      rw [hattached, hstate, hids]
      exact hall k hk
    · cases he
    · cases he
  case running =>
    intro p k hframe
    rcases hback _ hframe with hin | he | ⟨held, r, he, -⟩
    · rw [hattached, hstate, hstate]
      exact h.running p k hin
    · cases he
    · cases he
  case owedOnce =>
    rw [howed]
    exact h.owedOnce
  case once =>
    rw [hids]
    exact h.once
  case fitting =>
    intro n p o hin
    rw [hran] at hin
    rw [hattached, hstate]
    exact h.fitting n p o hin
  case pending =>
    intro p k hin hp
    rw [hstate] at hp
    rw [hhandlers]
    exact h.pending p k (hattached ▸ hin) hp
  case staged =>
    intro p k o hin hp
    rw [hstate] at hp
    refine (h.staged p k o (hattached ▸ hin) hp).imp_left fun hstage => ?_
    cases hstage with
    | queued hs hframe hin' =>
      refine .queued hs ((hforth _ hframe).resolve_right fun hnil => ?_) hin'
      exact ne_nil_of_mem hin' (map_eq_nil_iff.mp hnil)
    | ran hfires hran' hdone =>
      refine .ran hfires (hran ▸ hran') (hdone.imp (fun hframe => ?_) fun hset => hstate k.next ▸ hset)
      exact (hforth _ hframe).resolve_right (cons_ne_nil _ _)
    | passed hfires hnext => exact .passed hfires ((hstate k.next).trans hnext)
  case leaving =>
    intro n hn
    rw [hstate, howed]
    obtain ⟨hnone, hfree, p, k, hin, hnext, hp⟩ := h.leaving n hn
    exact ⟨hnone, hfree, p, k, hattached ▸ hin, hnext, hstate p ▸ hp⟩
  case calls =>
    intro p hp
    rcases Nat.lt_or_ge p f.count with hlt | hge
    · rw [hsent p hlt] at hp
      rw [hheld p hlt]
      exact (h.calls p hp).imp_right fun hlt => Nat.lt_of_lt_of_le hlt hcount
    · exact hnew p hge hp
  case disposal =>
    intro p hp
    rw [hstate]
    exact hdisposal p hp
  case abandons =>
    intro held r hframe p hp
    have hold : p < f.count ∧ (f.promises p).held = true := by
      rcases hback _ hframe with hin | he | ⟨held', r', he, hall⟩
      · exact h.abandons held r hin p hp
      · cases he
      · obtain ⟨rfl, rfl⟩ := Frame.abandon.inj he
        exact hall p hp
    exact ⟨Nat.lt_of_lt_of_le hold.1 hcount, (hheld p hold.1).trans hold.2⟩
  case answers =>
    intro p o hp ho
    rw [hstate] at ho
    rw [hdropped]
    rcases Nat.lt_or_ge p f.count with hlt | hge
    · rw [hsent p hlt] at hp
      exact (h.answers p o hp ho).imp_left fun hin => hanswered hin
    · rw [h.unborn p hge] at ho
      cases ho

theorem restack (h : Inv f away) {stack : List Frame} (replica : Option Nat)
    (hback : ∀ frame ∈ stack, frame ∈ f.stack ∨ frame = .app ∨
      ∃ held r, frame = .abandon held r ∧ ∀ p ∈ held, p < f.count ∧ (f.promises p).held = true)
    (hforth : ∀ frame ∈ f.stack, frame ∈ stack ∨ frame.owed = []) (howed : stack.flatMap Frame.owed = f.owed) :
    Inv { f with stack := stack, replica := replica } away :=
  h.transfer (fun _ => rfl) (fun _ => rfl) (fun _ _ => rfl) (fun _ _ => rfl) (fun _ _ => rfl)
    (fun p hp hsent => absurd (h.calls p hsent).2 (Nat.not_lt.mpr hp)) h.disposal rfl rfl (Nat.le_refl _)
    (List.Subset.refl _) rfl hback hforth howed

theorem leave (h : Inv f none) {frame : Frame} {rest stack : List Frame} {n : Nat} (hstack : f.stack = frame :: rest)
    (hback : ∀ frame' ∈ stack, frame' ∈ rest ∨ ∃ p k hs, frame = .flush p (k :: hs) ∧ frame' = .flush p hs)
    (hforth : ∀ frame' ∈ rest, frame' ∈ stack) (howed : f.owed = n :: stack.flatMap Frame.owed)
    (hqueued : ∀ p hs k, frame = .flush p hs → k ∈ hs → k.next = n ∨ ∃ hs', .flush p hs' ∈ stack ∧ k ∈ hs')
    (hrunning : ∀ p k, frame = .body p k → k.next = n) : Inv { f with stack := stack } (some n) := by
  have hold : ∀ frame' ∈ rest, frame' ∈ f.stack := fun frame' hin => hstack ▸ mem_cons_of_mem _ hin
  have hmem : frame ∈ f.stack := hstack ▸ mem_cons_self
  have hnodup : (n :: stack.flatMap Frame.owed).Nodup := howed ▸ h.owedOnce
  refine { h with queued := ?_, running := ?_, owedOnce := (nodup_cons.mp hnodup).2, staged := ?_, leaving := ?_, abandons := ?_ }
  · intro p hs hframe
    rcases hback _ hframe with hin | ⟨p', k, hs', rfl, he⟩
    · exact h.queued p hs (hold _ hin)
    · obtain ⟨rfl, rfl⟩ := Frame.flush.inj he
      obtain ⟨hp, hall⟩ := h.queued p (k :: hs) hmem
      exact ⟨hp, fun k' hk' => hall k' (mem_cons_of_mem _ hk')⟩
  · intro p k hframe
    rcases hback _ hframe with hin | ⟨p', k', hs', -, he⟩
    · exact h.running p k (hold _ hin)
    · cases he
  · intro p k o hin hp
    rcases h.staged p k o hin hp with hstage | haway
    · cases hstage with
      | queued hs hframe hin' =>
        rw [hstack] at hframe
        rcases mem_cons.mp hframe with he | hframe
        · rcases hqueued p hs k he.symm hin' with hn | ⟨hs', hframe', hin''⟩
          · exact .inr (congrArg some hn.symm)
          · exact .inl (.queued hs' hframe' hin'')
        · exact .inl (.queued hs (hforth _ hframe) hin')
      | ran hfires hran hdone =>
        rcases hdone with hframe | hset
        · rw [hstack] at hframe
          rcases mem_cons.mp hframe with he | hframe
          · exact .inr (congrArg some (hrunning p k he.symm).symm)
          · exact .inl (.ran hfires hran (.inl (hforth _ hframe)))
        · exact .inl (.ran hfires hran (.inr hset))
      | passed hfires hnext => exact .inl (.passed hfires hnext)
    · cases haway
  · intro n' hn'
    obtain rfl := Option.some.inj hn'
    have hin : n ∈ f.owed := howed ▸ mem_cons_self
    obtain ⟨hnone, hplace⟩ := h.of_owed hin
    exact ⟨hnone, (nodup_cons.mp hnodup).1, hplace⟩
  · intro held r hframe p hp
    rcases hback _ hframe with hin | ⟨p', k', hs', -, he⟩
    · exact h.abandons held r (hold _ hin) p hp
    · cases he

theorem enter {n : Nat} (h : Inv f (some n)) {p : Nat} {k : Handler} {o : Outcome V} (hin : (p, k) ∈ f.attached)
    (hnext : k.next = n) (hp : (f.promises p).state = some o) (hfires : fires o k) (hfresh : n ∉ f.ranIds)
    (hqueued : ∀ q hs k', .flush q hs ∈ f.stack → k' ∈ hs → k'.next ≠ n) :
    Inv { f with ran := f.ran ++ [(k.next, p, o)], stack := .body p k :: f.stack } none := by
  obtain ⟨hnone, hfree, -⟩ := h.leaving n rfl
  have hids : ({ f with ran := f.ran ++ [(k.next, p, o)], stack := .body p k :: f.stack } : Facade V).ranIds = f.ranIds ++ [n] := by
    rw [ranIds, map_append, ← hnext]
    rfl
  have hapart : ∀ n', n' ∉ f.ranIds → n' ≠ n → n' ∉ f.ranIds ++ [n] := by
    intro n' hn hne hin
    rcases mem_append.mp hin with hin | hin
    · exact hn hin
    · exact hne (mem_singleton.mp hin)
  refine { h with waiting := ?_, queued := ?_, running := ?_, owedOnce := ?_, once := ?_, fitting := ?_, staged := ?_, leaving := ?_, abandons := ?_ }
  · intro q k' hk'
    obtain ⟨hin', hq, hnext', hran⟩ := h.waiting q k' hk'
    rw [hids]
    exact ⟨hin', hq, hnext', hapart _ hran fun he => (h.waiting_apart hk').2 (congrArg some he.symm)⟩
  · intro q hs hframe
    rcases mem_cons.mp hframe with he | hframe
    · cases he
    · obtain ⟨hq, hall⟩ := h.queued q hs hframe
      rw [hids]
      refine ⟨hq, fun k' hk' => ?_⟩
      obtain ⟨hin', hnext', hran⟩ := hall k' hk'
      exact ⟨hin', hnext', hapart _ hran (hqueued q hs k' hframe hk')⟩
  · intro q k' hframe
    rcases mem_cons.mp hframe with he | hframe
    · obtain ⟨rfl, rfl⟩ := Frame.body.inj he
      exact ⟨hin, hp ▸ some_ne_none _, hnext ▸ hnone⟩
    · exact h.running q k' hframe
  · show ([k.next] ++ f.owed).Nodup
    rw [hnext]
    exact nodup_cons.mpr ⟨hfree, h.owedOnce⟩
  · rw [hids]
    exact nodup_append'.mpr ⟨h.once, nodup_singleton _, disjoint_singleton.mpr hfresh⟩
  · intro n' q o' hran
    rcases mem_append.mp hran with hran | hran
    · exact h.fitting n' q o' hran
    · obtain ⟨rfl, hrest⟩ := Prod.mk.inj (mem_singleton.mp hran)
      obtain ⟨rfl, rfl⟩ := Prod.mk.inj hrest
      exact ⟨k, hin, rfl, hfires, hp⟩
  · intro q k' o' hin' hq
    left
    rcases h.staged q k' o' hin' hq with hstage | haway
    · cases hstage with
      | queued hs hframe hmem => exact .queued hs (mem_cons_of_mem _ hframe) hmem
      | ran hfires' hran hdone =>
        exact .ran hfires' (mem_append_left _ hran) (hdone.imp_left (mem_cons_of_mem _))
      | passed hfires' hnext' => exact .passed hfires' hnext'
    · obtain ⟨rfl, rfl⟩ := h.place hin' hin ((Option.some.inj haway).symm.trans hnext.symm)
      obtain rfl := Option.some.inj (hq.symm.trans hp)
      exact .ran hfires (mem_append_right _ (mem_singleton_self _)) (.inl mem_cons_self)
  · exact fun n' hn' => absurd hn'.symm (some_ne_none n')
  · intro held r hframe q hq
    rcases mem_cons.mp hframe with he | hframe
    · cases he
    · exact h.abandons held r hframe q hq

section
variable (h : Inv f none)
include h

theorem settle_held {p : Nat} {outcome : Outcome V} (hheld : (f.promises p).held = true)
    (hanswer : (f.promises p).sentOn ≠ none → (p, outcome) ∈ f.answered ∨ outcome = .rejected f.dropped) :
    Inv (f.settle p outcome) none := by
  by_cases hnone : (f.promises p).state = none
  · refine h.settle hnone (.inr ⟨rfl, hheld⟩) (fun q k o hin hk _ => ?_) hanswer
    rw [← hk, (h.chained q k hin).2] at hheld
    cases hheld
  · rw [settle_of_settled hnone]
    exact h

theorem settleFromCall {p : Nat} (hheld : (f.promises p).held = true) (answer : Reply V) :
    Inv (f.settleFromCall p answer) none := by
  have hanswered : Inv { f with answered := f.answered ++ [(p, answer.outcome)] } none :=
    h.transfer (fun _ => rfl) (fun _ => rfl) (fun _ _ => rfl) (fun _ _ => rfl) (fun _ _ => rfl)
      (fun p hp hsent => absurd (h.calls p hsent).2 (Nat.not_lt.mpr hp)) h.disposal rfl rfl (Nat.le_refl _)
      (subset_append_left _ _) rfl (fun _ hframe => .inl hframe) (fun _ hframe => .inl hframe) rfl
  exact hanswered.settle_held hheld fun _ => .inl (mem_append_right _ (mem_singleton_self _))

theorem add (sentOn : Option Nat) : Inv (f.add sentOn true) none := by
  have hfresh := h.unborn f.count (Nat.le_refl _)
  have hold : ∀ p, p < f.count → (f.add sentOn true).promises p = f.promises p :=
    fun p hp => update_of_ne (Nat.ne_of_lt hp) ..
  have hself : (f.add sentOn true).promises f.count = ⟨none, [], sentOn, true, false, false⟩ := update_self ..
  have hlate : ∀ p, f.count + 1 ≤ p → (f.add sentOn true).promises p = f.promises p :=
    fun p hp => update_of_ne (Nat.ne_of_gt hp) ..
  have hall : ∀ p, (f.add sentOn true).promises p = f.promises p ∨ p = f.count := by
    intro p
    rcases Nat.lt_trichotomy p f.count with hlt | heq | hgt
    · exact .inl (hold p hlt)
    · exact .inr heq
    · exact .inl (hlate p hgt)
  refine h.transfer ?_ ?_ (fun p hp => congrArg Promise.sentOn (hold p hp)) (fun p hp => congrArg Promise.held (hold p hp))
    hlate ?_ ?_ rfl rfl (Nat.le_succ _) (List.Subset.refl _) rfl (fun _ hframe => .inl hframe) (fun _ hframe => .inl hframe) rfl
  · intro p
    rcases hall p with he | rfl
    · rw [he]
    · rw [hself, hfresh]
  · intro p
    rcases hall p with he | rfl
    · rw [he]
    · rw [hself, hfresh]
  · intro p hp hsent
    rcases hall p with he | rfl
    · rw [he] at hsent
      exact absurd (h.calls p hsent).2 (Nat.not_lt.mpr hp)
    · rw [hself]
      exact ⟨rfl, Nat.lt_succ_self _⟩
  · intro p hp
    rcases hall p with he | rfl
    · rw [he] at hp
      exact h.disposal p hp
    · rw [hself] at hp
      rcases hp with hp | hp <;> cases hp

theorem callSlot (answer : Option (Reply V)) : Inv (f.callSlot answer) none := by
  have hheld : ∀ sentOn, ((f.add sentOn true).promises f.count).held = true :=
    fun sentOn => by rw [add_promises, update_self]
  unfold Facade.callSlot
  split
  · refine (h.add none).settle_held (hheld none) fun hsent => absurd ?_ hsent
    rw [add_promises, update_self]
  · next replica _ =>
    cases answer with
    | none => exact h.add (some replica)
    | some answer => exact (h.add (some replica)).settleFromCall (hheld _) answer

end

end Inv

/-- What attaching a handler does: it waits with its promise, or has a frame of its own if the promise has settled. -/
structure Attaches (f f' : Facade V) (p : Nat) (handler : Handler) : Prop where
  fresh : handler.next = f.count
  state : ∀ q, (f'.promises q).state = (f.promises q).state
  sentOn : ∀ q, (f'.promises q).sentOn = (f.promises q).sentOn
  held : ∀ q, (f'.promises q).held = (f.promises q).held
  disposal : ∀ q, (f'.promises q).disposed = (f.promises q).disposed ∧
    (f'.promises q).disposalScheduled = (f.promises q).disposalScheduled
  others : ∀ q, q ≠ p → f'.promises q = f.promises q
  attached : f'.attached = f.attached ++ [(p, handler)]
  ran : f'.ran = f.ran
  answered : f'.answered = f.answered
  count : f'.count = f.count + 1
  dropped : f'.dropped = f.dropped
  replica : f'.replica = f.replica
  waits : (f.promises p).state = none →
    (f'.promises p).handlers = (f.promises p).handlers ++ [handler] ∧ f'.stack = f.stack
  goes : (f.promises p).state ≠ none → (f'.promises p).handlers = [] ∧ f'.stack = .flush p [handler] :: f.stack

private theorem Inv.handlers_of_settled (h : Inv f none) {p : Nat} (hp : (f.promises p).state ≠ none) : (f.promises p).handlers = [] :=
  eq_nil_iff_forall_not_mem.mpr fun k hk => hp (h.waiting p k hk).2.1

def attachedAt (f : Facade V) (p : Nat) (handler : Handler) (handlers : List Handler) (stack : List Frame) : Facade V :=
  { f with
    promises := update f.promises p { f.promises p with handlers := handlers }
    count := f.count + 1
    stack := stack
    attached := f.attached ++ [(p, handler)] }

private theorem attachedAt_attaches {p : Nat} {handler : Handler} {handlers : List Handler} {stack : List Frame}
    (hfresh : handler.next = f.count)
    (hwaits : (f.promises p).state = none → handlers = (f.promises p).handlers ++ [handler] ∧ stack = f.stack)
    (hgoes : (f.promises p).state ≠ none → handlers = [] ∧ stack = .flush p [handler] :: f.stack) :
    Attaches f (f.attachedAt p handler handlers stack) p handler := by
  have hself : (f.attachedAt p handler handlers stack).promises p = { f.promises p with handlers := handlers } :=
    update_self ..
  have hothers : ∀ q, q ≠ p → (f.attachedAt p handler handlers stack).promises q = f.promises q :=
    fun q hq => update_of_ne hq ..
  refine ⟨hfresh, fun q => ?_, fun q => ?_, fun q => ?_, fun q => ?_, hothers, rfl, rfl, rfl, rfl, rfl, rfl, fun hp => ?_, fun hp => ?_⟩
  rotate_right 2
  · rw [hself]
    exact hwaits hp
  · rw [hself]
    exact hgoes hp
  all_goals
    by_cases hq : q = p
    · rw [hq, hself]
      try exact ⟨rfl, rfl⟩
    · rw [hothers q hq]
      try exact ⟨rfl, rfl⟩

theorem addHandler_attaches (h : Inv f none) (p : Nat) (callable onRejected : Bool) :
    Attaches f (f.addHandler p callable onRejected) p ⟨callable, f.count, onRejected⟩ := by
  have hadd : (f.add none false).promises = f.promises := by
    rw [add_promises, ← h.unborn f.count (Nat.le_refl _), update_eq_self]
  by_cases hset : (f.promises p).state = none
  · have hafter : f.addHandler p callable onRejected =
        f.attachedAt p ⟨callable, f.count, onRejected⟩ ((f.promises p).handlers ++ [⟨callable, f.count, onRejected⟩]) f.stack := by
      have hpending : (f.promises p).state.isSome = false := by rw [hset, isSome_none]
      unfold addHandler
      simp only [hadd, setPromise, hpending, Bool.false_eq_true, if_false]
      rfl
    rw [hafter]
    exact attachedAt_attaches rfl (fun _ => ⟨rfl, rfl⟩) fun hne => absurd hset hne
  · have hnil := h.handlers_of_settled hset
    have hafter : f.addHandler p callable onRejected =
        f.attachedAt p ⟨callable, f.count, onRejected⟩ [] (.flush p [⟨callable, f.count, onRejected⟩] :: f.stack) := by
      unfold addHandler
      simp only [hadd, setPromise, flush, isSome_iff_ne_none.mpr hset, if_true, update_self,
        update_idem, hnil]
      rfl
    rw [hafter]
    exact attachedAt_attaches rfl (fun hnone => absurd hnone hset) fun _ => ⟨rfl, rfl⟩

theorem Inv.attach (h : Inv f none) {f' : Facade V} {p : Nat} {k : Handler} (hp : p < f.count) (ha : Attaches f f' p k) :
    Inv f' none := by
  have hids : f'.ranIds = f.ranIds := congrArg (List.map Prod.fst) ha.ran
  have hmono : ∀ a ∈ f.attached, a ∈ f'.attached := fun a hin => ha.attached ▸ mem_append_left _ hin
  have hnew : (p, k) ∈ f'.attached := ha.attached ▸ mem_append_right _ (mem_singleton_self _)
  have hbefore : ∀ a ∈ f'.attached, a ∈ f.attached ∨ a = (p, k) := by
    intro a hin
    rw [ha.attached] at hin
    exact (mem_append.mp hin).imp_right fun hin => mem_singleton.mp hin
  have hnone : (f.promises k.next).state = none := by rw [ha.fresh, h.unborn _ (Nat.le_refl _)]
  have hunrun : k.next ∉ f.ranIds := by
    intro hin
    obtain ⟨⟨n, q, o⟩, hran, hn⟩ := mem_map.mp hin
    obtain ⟨k', hin', hnext, -⟩ := h.fitting n q o hran
    have hlt := (h.born q k' hin').2
    rw [hnext, show n = k.next from hn, ha.fresh] at hlt
    exact Nat.lt_irrefl _ hlt
  have hunowed : k.next ∉ f.owed := by
    intro hin
    obtain ⟨-, q, k', hin', hnext, -⟩ := h.of_owed hin
    have hlt := (h.born q k' hin').2
    rw [hnext, ha.fresh] at hlt
    exact Nat.lt_irrefl _ hlt
  -- The frames there were stay; a settled promise has one more, for the handler alone.
  have hold : ∀ frame ∈ f.stack, frame ∈ f'.stack := by
    intro frame hframe
    by_cases hset : (f.promises p).state = none
    · rw [(ha.waits hset).2]
      exact hframe
    · rw [(ha.goes hset).2]
      exact mem_cons_of_mem _ hframe
  have hback : ∀ frame ∈ f'.stack, frame ∈ f.stack ∨ ((f.promises p).state ≠ none ∧ frame = .flush p [k]) := by
    intro frame hframe
    by_cases hset : (f.promises p).state = none
    · rw [(ha.waits hset).2] at hframe
      exact .inl hframe
    · rw [(ha.goes hset).2] at hframe
      rcases mem_cons.mp hframe with rfl | hframe
      · exact .inr ⟨hset, rfl⟩
      · exact .inl hframe
  constructor
  case born =>
    intro q k' hin
    rw [ha.count]
    rcases hbefore _ hin with hin | he
    · exact (h.born q k' hin).imp_right Nat.lt_succ_of_lt
    · obtain ⟨rfl, rfl⟩ := Prod.mk.inj he
      rw [ha.fresh]
      exact ⟨hp, Nat.lt_succ_self _⟩
  case distinct =>
    rw [ha.attached, map_append]
    refine nodup_append'.mpr ⟨h.distinct, nodup_singleton _, disjoint_singleton.mpr fun hin => ?_⟩
    obtain ⟨⟨q, k'⟩, hin', hnext⟩ := mem_map.mp hin
    have hlt := (h.born q k' hin').2
    rw [show k'.next = k.next from hnext, ha.fresh] at hlt
    exact Nat.lt_irrefl _ hlt
  case chained =>
    intro q k' hin
    rw [ha.sentOn, ha.held]
    rcases hbefore _ hin with hin | he
    · exact h.chained q k' hin
    · obtain ⟨rfl, rfl⟩ := Prod.mk.inj he
      rw [ha.fresh, h.unborn _ (Nat.le_refl _)]
      exact ⟨rfl, rfl⟩
  case unborn =>
    intro q hq
    rw [ha.count] at hq
    rw [ha.others q (by omega)]
    exact h.unborn q (by omega)
  case waiting =>
    intro q k' hk
    rw [ha.state, ha.state, hids]
    by_cases hq : q = p
    · subst hq
      by_cases hset : (f.promises q).state = none
      · rw [(ha.waits hset).1] at hk
        rcases mem_append.mp hk with hk | hk
        · exact (h.waiting q k' hk).imp_left (hmono _)
        · obtain rfl := mem_singleton.mp hk
          exact ⟨hnew, hset, hnone, hunrun⟩
      · rw [(ha.goes hset).1] at hk
        exact absurd hk not_mem_nil
    · rw [ha.others q hq] at hk
      exact (h.waiting q k' hk).imp_left (hmono _)
  case apart =>
    intro q
    by_cases hq : q = p
    · subst hq
      by_cases hset : (f.promises q).state = none
      · rw [(ha.waits hset).1, map_append]
        refine nodup_append'.mpr ⟨h.apart q, nodup_singleton _, disjoint_singleton.mpr fun hin => ?_⟩
        obtain ⟨k', hk', hnext⟩ := mem_map.mp hin
        have hlt := (h.born q k' (h.waiting q k' hk').1).2
        rw [hnext, ha.fresh] at hlt
        exact Nat.lt_irrefl _ hlt
      · rw [(ha.goes hset).1]
        exact nodup_nil
    · rw [ha.others q hq]
      exact h.apart q
  case queued =>
    intro q hs hframe
    rw [ha.state]
    rcases hback _ hframe with hframe | ⟨hset, he⟩
    · obtain ⟨hq, hall⟩ := h.queued q hs hframe
      refine ⟨hq, fun k' hk' => ?_⟩
      rw [ha.state, hids]
      exact (hall k' hk').imp_left (hmono _)
    · obtain ⟨rfl, rfl⟩ := Frame.flush.inj he
      refine ⟨hset, fun k' hk' => ?_⟩
      obtain rfl := mem_singleton.mp hk'
      rw [ha.state, hids]
      exact ⟨hnew, hnone, hunrun⟩
  case running =>
    intro q k' hframe
    rw [ha.state, ha.state]
    rcases hback _ hframe with hframe | ⟨-, he⟩
    · exact (h.running q k' hframe).imp_left (hmono _)
    · cases he
  case owedOnce =>
    rw [Facade.owed]
    by_cases hset : (f.promises p).state = none
    · rw [(ha.waits hset).2]
      exact h.owedOnce
    · rw [(ha.goes hset).2]
      exact nodup_cons.mpr ⟨hunowed, h.owedOnce⟩
  case once =>
    rw [hids]
    exact h.once
  case fitting =>
    intro n q o hran
    rw [ha.state]
    obtain ⟨k', hin, hrest⟩ := h.fitting n q o (ha.ran ▸ hran)
    exact ⟨k', hmono _ hin, hrest⟩
  case pending =>
    intro q k' hin hq
    rw [ha.state] at hq
    rcases hbefore _ hin with hin | he
    · have hk := h.pending q k' hin hq
      by_cases hqp : q = p
      · subst hqp
        rw [(ha.waits hq).1]
        exact mem_append_left _ hk
      · rw [ha.others q hqp]
        exact hk
    · obtain ⟨rfl, rfl⟩ := Prod.mk.inj he
      rw [(ha.waits hq).1]
      exact mem_append_right _ (mem_singleton_self _)
  case staged =>
    intro q k' o hin hq
    left
    rw [ha.state] at hq
    rcases hbefore _ hin with hin | he
    · rcases h.staged q k' o hin hq with hstage | haway
      · cases hstage with
        | queued hs hframe hin' => exact .queued hs (hold _ hframe) hin'
        | ran hfires hran hdone =>
          exact .ran hfires (ha.ran ▸ hran) (hdone.imp (hold _) fun hset => ha.state k'.next ▸ hset)
        | passed hfires hnext => exact .passed hfires ((ha.state k'.next).trans hnext)
      · cases haway
    · obtain ⟨rfl, rfl⟩ := Prod.mk.inj he
      refine .queued [k'] ?_ (mem_singleton_self _)
      rw [(ha.goes (hq ▸ some_ne_none o)).2]
      exact mem_cons_self
  case leaving => exact fun n hn => absurd hn.symm (some_ne_none n)
  case calls =>
    intro q hq
    rw [ha.sentOn] at hq
    rw [ha.held, ha.count]
    exact (h.calls q hq).imp_right Nat.lt_succ_of_lt
  case disposal =>
    intro q hq
    rw [(ha.disposal q).1, (ha.disposal q).2] at hq
    rw [ha.state]
    exact h.disposal q hq
  case abandons =>
    intro held r hframe q hq
    rw [ha.count, ha.held]
    rcases hback _ hframe with hframe | ⟨-, he⟩
    · exact (h.abandons held r hframe q hq).imp_left Nat.lt_succ_of_lt
    · cases he
  case answers =>
    intro q o hq ho
    rw [ha.sentOn] at hq
    rw [ha.state] at ho
    rw [ha.answered, ha.dropped]
    exact h.answers q o hq ho

end Facade
end SynQt.Consumer
