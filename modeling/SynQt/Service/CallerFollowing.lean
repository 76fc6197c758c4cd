import SynQt.Service.Caller

namespace SynQt
open Lib SessionManager Function List

namespace SessionManager
variable {m : SessionManager} {now : Int}

/-- Whether a session is held, and so live until its time is up. -/
def Has (m : SessionManager) (id : QByteArray) : Prop := (m.sessions.find id).isSome = true
deriving Decidable

private theorem has_setScope {id : QByteArray} (hhas : m.Has id) (fresh : QByteArray) (scope : QString) (identity : QVariantMap)
    (handoff : Handoff) (k : QByteArray) :
    (m.setScope now fresh id scope identity handoff).1.manager.Has k ↔ k = fresh ∨ (k ≠ id ∧ m.Has k) := by
  obtain ⟨old, hold⟩ := Option.isSome_iff_exists.mp hhas
  rw [Has, (setScope_of_lookup hold now fresh scope identity handoff).2.1 k, Has]
  split
  · next hk => simp [hk]
  · next hk =>
    split
    · next hid =>
      subst hid
      simp [hk]
    · next hid => simp [hk, hid]

private theorem has_revoke (id k : QByteArray) : (m.revoke id).manager.Has k ↔ k ≠ id ∧ m.Has k := by
  rw [Has, revoke_lookup, Has]
  split
  · next hk => simp [hk]
  · next hk => simp [hk]

private theorem has_applyRemove (id k : QByteArray) : (m.applyRemove id).manager.Has k ↔ k ≠ id ∧ m.Has k := by
  rw [Has, applyRemove_lookup, Has]
  split
  · next hk => simp [hk]
  · next hk => simp [hk]

private theorem has_applyUpsert (id : QByteArray) (scope : QString) (identity : QVariantMap) (createdMs : Int) (k : QByteArray) :
    (m.applyUpsert id scope identity createdMs).manager.Has k ↔ k = id ∨ m.Has k := by
  unfold Has applyUpsert
  simp only [insertRecord_sessions, Hash.find_insert]
  split
  · next hk => simp [hk]
  · next hk => simp [hk]

private theorem has_applyRotation (previous next k : QByteArray) : (m.applyRotation now previous next).manager.Has k ↔ m.Has k := by
  rw [Has, applyRotation_sessions, Has]
  split
  · rw [Option.isSome_map]
  · rfl

private theorem revoke_calls (id : QByteArray) : (m.revoke id).calls = m.storeCalls [.removeSession id] := by
  unfold revoke
  split
  · rfl
  · next record _ =>
    have hremote : (m.removeRecord id record).remote = m.remote := (removeRecord_within id record).remote
    simp only [storeCalls, hremote]

def deliver (m : SessionManager) (now : Int) (calls : List StoreCall) : SessionManager :=
  calls.foldl (fun m call => (call.receive m now).manager) m

end SessionManager

def StoreCall.told (held : QByteArray → Prop) : StoreCall → QByteArray → Prop
  | .putSession token _ _ _ => fun k => k = token ∨ held k
  | .rotateSession _ _ => held
  | .removeSession token => fun k => k ≠ token ∧ held k

private theorem StoreCall.has_receive (m : SessionManager) (now : Int) (call : StoreCall) (k : QByteArray) :
    (call.receive m now).manager.Has k ↔ told m.Has call k := by
  cases call with
  | putSession token scope identity createdMs => exact m.has_applyUpsert token scope identity createdMs k
  | rotateSession from_ to_ => exact m.has_applyRotation from_ to_ k
  | removeSession token => exact m.has_applyRemove token k

def told (held : QByteArray → Prop) (calls : List StoreCall) : QByteArray → Prop := calls.foldl StoreCall.told held

private theorem told_append (held : QByteArray → Prop) (calls calls' : List StoreCall) :
    told held (calls ++ calls') = told (told held calls) calls' := foldl_append

private theorem SessionManager.has_deliver (now : Int) (calls : List StoreCall) (k : QByteArray) :
    ∀ {m : SessionManager} {held : QByteArray → Prop}, (∀ k, m.Has k ↔ held k) → ((m.deliver now calls).Has k ↔ told held calls k) := by
  induction calls with
  | nil => exact fun h => h k
  | cons call calls ih =>
    intro m held h
    have hfirst : ∀ k, (call.receive m now).manager.Has k ↔ call.told held k := by
      intro k
      rw [call.has_receive m now k, show m.Has = held from funext fun k => propext (h k)]
    exact ih hfirst

def follow (moved : List (QByteArray × QByteArray)) (id : QByteArray) : QByteArray :=
  moved.foldl (fun id rotation => if id = rotation.1 then rotation.2 else id) id

private theorem follow_snoc (moved : List (QByteArray × QByteArray)) (a b id : QByteArray) :
    follow (moved ++ [(a, b)]) id = if follow moved id = a then b else follow moved id := by
  rw [follow, foldl_append]
  rfl

def Turn.ids : Turn → List QByteArray
  | .rotating from_ to_ _ _ => [from_, to_]
  | .app => []

def Turn.target : Turn → Option QByteArray
  | .rotating _ to_ _ _ => some to_
  | .app => none

def Closing.asked : Closing → Option Nat
  | .setScope caller _ => caller
  | .applied => none

namespace CallerRun
variable {s : CallerRun} {held : QByteArray → Prop}

def stackIds (s : CallerRun) : List QByteArray := s.stack.flatMap Turn.ids

def froms (s : CallerRun) : List QByteArray := s.moved.map Prod.fst

/-- Of the ids a session has had only the last is held, unless the session was revoked. -/
def Alone (s : CallerRun) (held : QByteArray → Prop) : Prop :=
  ∀ a b, (a, b) ∈ s.moved → ¬held a ∧ (b ∈ s.revoked → ¬held b) ∧ (held b ∨ b ∈ s.froms ∨ b ∈ s.revoked)

/-- What holds once the outermost call has returned: of the Callers, of the table, and of the store's and every replica's
that started with the same sessions and has received what the store was told. -/
structure Followed (start : SessionManager) (s : CallerRun) : Prop where
  callers : ∀ caller < s.count, (s.callers caller).sessionId = follow s.moved (s.named caller)
  alone : s.Alone s.manager.Has
  replicas : s.manager.remote = true → ∀ (m : SessionManager) now, (∀ k, m.Has k ↔ start.Has k) →
    s.Alone (m.deliver now s.log).Has

def New (s : CallerRun) (id : QByteArray) : Prop :=
  id ≠ [] ∧ ¬s.manager.Has id ∧ id ∉ s.froms ∧ id ∉ s.moved.map Prod.snd ∧ id ∉ s.revoked
deriving Decidable

/-- Where one Caller adopts another while a rotation is announced: one that still names the old id is adopted only by
one that will be told, and the Caller that asked adopts only one that names the session. -/
def Adopts (s : CallerRun) (caller other : Nat) : Turn → Prop
  | .rotating from_ to_ left close => ((s.callers other).sessionId = from_ → caller ∈ left) ∧
      (close.asked = some caller → (s.callers other).sessionId = from_ ∨ (s.callers other).sessionId = to_)
  | .app => True

instance Adopts.decidable (s : CallerRun) (caller other : Nat) : DecidablePred (s.Adopts caller other)
  | .rotating from_ to_ left close =>
    inferInstanceAs (Decidable (((s.callers other).sessionId = from_ → caller ∈ left) ∧
      (close.asked = some caller → (s.callers other).sessionId = from_ ∨ (s.callers other).sessionId = to_)))
  | .app => isTrue trivial

/-- The condition on a step. Ids are drawn new; while a rotation is announced, its session is neither rotated again nor
revoked, and Callers adopt one another as `Adopts` says; and a rotation made elsewhere is of an id that has not been
rotated here. -/
def Kept (s : CallerRun) : CallerInput → Prop
  | .setScope caller _ fresh _ _ => s.inApp = true → s.manager.Has (s.callers caller).sessionId →
      s.New fresh ∧ (s.callers caller).sessionId ∉ s.stackIds
  | .elevate id _ fresh _ _ _ => s.inApp = true → s.manager.Has id → s.New fresh ∧ id ∉ s.stackIds
  | .adopt caller other => s.inApp = true → ∀ turn ∈ s.stack, s.Adopts caller other turn
  | .revoke id => s.inApp = true → ∀ turn ∈ s.stack, turn.target ≠ some id
  | .elsewhere _ from_ to_ _ _ _ => s.stack = [] → s.New to_ ∧ from_ ≠ [] ∧ from_ ≠ to_ ∧
      s.manager.rotations.find from_ = none ∧ from_ ∉ s.froms
  | _ => True

instance Kept.decidable (s : CallerRun) : DecidablePred s.Kept
  | .setScope caller _ fresh _ _ =>
    inferInstanceAs (Decidable (s.inApp = true → s.manager.Has (s.callers caller).sessionId →
      s.New fresh ∧ (s.callers caller).sessionId ∉ s.stackIds))
  | .elevate id _ fresh _ _ _ =>
    inferInstanceAs (Decidable (s.inApp = true → s.manager.Has id → s.New fresh ∧ id ∉ s.stackIds))
  | .adopt caller other => inferInstanceAs (Decidable (s.inApp = true → ∀ turn ∈ s.stack, s.Adopts caller other turn))
  | .revoke id => inferInstanceAs (Decidable (s.inApp = true → ∀ turn ∈ s.stack, turn.target ≠ some id))
  | .elsewhere _ from_ to_ _ _ _ =>
    inferInstanceAs (Decidable (s.stack = [] → s.New to_ ∧ from_ ≠ [] ∧ from_ ≠ to_ ∧
      s.manager.rotations.find from_ = none ∧ from_ ∉ s.froms))
  | .tick => isTrue trivial
  | .turn => isTrue trivial
  | .leave => isTrue trivial
  | .assumeSession _ _ => isTrue trivial

/-- What every step that keeps the condition keeps. `held` is what the store held at the start. -/
structure Inv (held : QByteArray → Prop) (s : CallerRun) : Prop where
  user : ∀ caller, (s.callers caller).isUser = true
  froms : s.froms.Nodup
  ends : ∀ caller, follow s.moved (s.named caller) ∉ s.froms
  frames : ∀ a b left close, .rotating a b left close ∈ s.stack → (a, b) ∈ s.moved ∧ b ∉ s.froms ∧ s.manager.Has b
  closes : ∀ a b left caller calls, .rotating a b left (.setScope caller calls) ∈ s.stack → ¬s.manager.Has a ∧
    (s.manager.remote = true → ∀ held k, told held calls k ↔ k = b ∨ (k ≠ a ∧ held k)) ∧
    ∀ c, caller = some c → follow s.moved (s.named c) = b
  applied : ∀ a b left, .rotating a b left .applied ∈ s.stack → s.manager.remote = true → told held s.log b ∧ ¬told held s.log a
  apart : s.stackIds.Nodup
  named : ∀ c < s.count, (s.callers c).sessionId = follow s.moved (s.named c) ∨
    ∃ a b left close, .rotating a b left close ∈ s.stack ∧ c ∈ left ∧ (s.callers c).sessionId = a ∧ b = follow s.moved (s.named c)
  gone : ∀ a ∈ s.froms, s.manager.Has a → ∃ b left, .rotating a b left .applied ∈ s.stack
  last : ∀ a b, (a, b) ∈ s.moved → s.manager.Has b ∨ b ∈ s.froms ∨ b ∈ s.revoked
  revoked : ∀ b ∈ s.revoked, ¬s.manager.Has b
  sync : s.manager.remote = true → ∀ k ∉ s.stackIds, told held s.log k ↔ s.manager.Has k

private theorem mem_stackIds {a b : QByteArray} {left : List Nat} {close : Closing} (h : .rotating a b left close ∈ s.stack) :
    a ∈ s.stackIds ∧ b ∈ s.stackIds :=
  ⟨mem_flatMap.mpr ⟨_, h, mem_cons_self⟩, mem_flatMap.mpr ⟨_, h, mem_cons_of_mem _ mem_cons_self⟩⟩

theorem Inv.followed {start : SessionManager} (h : Inv start.Has s) (hrest : s.stack = []) : Followed start s := by
  have hempty : ∀ turn, turn ∉ s.stack := fun turn hin => absurd (hrest ▸ hin) not_mem_nil
  have hids : s.stackIds = [] := by rw [stackIds, hrest]; rfl
  have halone : s.Alone s.manager.Has := by
    intro a b hab
    refine ⟨fun hhas => ?_, h.revoked b, h.last a b hab⟩
    obtain ⟨b', left, hframe⟩ := h.gone a (mem_map_of_mem hab) hhas
    exact hempty _ hframe
  refine ⟨fun c hc => (h.named c hc).resolve_right fun hpending => ?_, halone, fun hremote m now hsame => ?_⟩
  · obtain ⟨a, b, left, close, hframe, -⟩ := hpending
    exact hempty _ hframe
  · have hhas : (m.deliver now s.log).Has = s.manager.Has := by
      funext k
      refine propext ((has_deliver now s.log k hsame).trans (h.sync hremote k ?_))
      rw [hids]
      exact not_mem_nil
    rw [hhas]
    exact halone

private theorem setCaller_user (h : ∀ c, (s.callers c).isUser = true) (caller : Nat) {changed : Caller}
    (hchanged : changed.isUser = (s.callers caller).isUser) (c : Nat) : ((s.setCaller caller changed).callers c).isUser = true := by
  show (update s.callers caller changed c).isUser = true
  by_cases hc : c = caller
  · rw [hc, update_self, hchanged]
    exact h caller
  · rw [update_of_ne hc]
    exact h c

private theorem step_assume (h : ∀ caller, (s.callers caller).isUser = true) (caller : Nat) (assertion : Assertion) :
    s.step (.assumeSession caller assertion) = s := by
  have hsame : (s.callers caller).assumeSession assertion = s.callers caller := if_pos (h caller)
  show s.setCaller caller ((s.callers caller).assumeSession assertion) = s
  rw [hsame, setCaller, update_eq_self]

private theorem rotate_callers (s : CallerRun) (caller : Option Nat) (id : QByteArray) (now : Int) (fresh : QByteArray) (scope : QString)
    (identity : QVariantMap) (handoff : Handoff) : (s.rotate caller id now fresh scope identity handoff).callers = s.callers := by
  unfold CallerRun.rotate
  split <;> rfl

theorem step_user (h : ∀ c, (s.callers c).isUser = true) (input : CallerInput) (c : Nat) :
    ((s.step input).callers c).isUser = true := by
  cases input with
  | tick =>
    simp only [CallerRun.step]
    unfold CallerRun.tick
    split
    · next a b c' left close rest hstack =>
      split
      · exact setCaller_user h c' (c := c) (rfl : { s.callers c' with sessionId := b }.isUser = (s.callers c').isUser)
      · exact h c
    · next a b c' calls rest hstack =>
      split
      · exact h c
      · exact setCaller_user h c' (c := c) (rfl : { s.callers c' with sessionId := b }.isUser = (s.callers c').isUser)
    · exact h c
    · exact h c
    · exact h c
  | turn | leave =>
    simp only [CallerRun.step]
    split <;> exact h c
  | setScope caller now fresh scope identity | elevate id now fresh scope identity handoff =>
    simp only [CallerRun.step]
    split
    · rw [rotate_callers]
      exact h c
    · exact h c
  | adopt caller other =>
    simp only [CallerRun.step]
    split
    · exact setCaller_user h caller ((h other).trans (h caller).symm) c
    · exact h c
  | revoke id =>
    simp only [CallerRun.step]
    split <;> exact h c
  | assumeSession caller assertion =>
    rw [step_assume h]
    exact h c
  | elsewhere now from_ to_ scope identity createdMs =>
    simp only [CallerRun.step]
    split
    · unfold CallerRun.elsewhere
      dsimp only
      split <;> exact h c
    · exact h c

theorem start_inv (manager : SessionManager) (count : Nat) (ids : Nat → QByteArray) :
    Inv manager.Has (start manager count ids) where
  user := fun _ => rfl
  froms := nodup_nil
  ends := fun _ => not_mem_nil
  frames := fun _ _ _ _ hin => absurd hin not_mem_nil
  closes := fun _ _ _ _ _ hin => absurd hin not_mem_nil
  applied := fun _ _ _ hin => absurd hin not_mem_nil
  apart := nodup_nil
  named := fun _ _ => .inl rfl
  gone := fun _ hin => absurd hin not_mem_nil
  last := fun _ _ hin => absurd hin not_mem_nil
  revoked := fun _ hin => absurd hin not_mem_nil
  sync := fun _ _ _ => Iff.rfl

namespace Inv

theorem restack (h : Inv held s) {stack : List Turn}
    (hframes : ∀ a b left close, .rotating a b left close ∈ stack ↔ .rotating a b left close ∈ s.stack)
    (hids : stack.flatMap Turn.ids = s.stackIds) : Inv held { s with stack := stack } where
  user := h.user
  froms := h.froms
  ends := h.ends
  frames := fun a b left close hin => h.frames a b left close ((hframes ..).mp hin)
  closes := fun a b left caller calls hin => h.closes a b left caller calls ((hframes ..).mp hin)
  applied := fun a b left hin => h.applied a b left ((hframes ..).mp hin)
  apart := by
    rw [stackIds, hids]
    exact h.apart
  named := by
    intro c hc
    refine (h.named c hc).imp_right fun hpending => ?_
    obtain ⟨a, b, left, close, hin, hrest⟩ := hpending
    exact ⟨a, b, left, close, (hframes ..).mpr hin, hrest⟩
  gone := by
    intro a ha hhas
    obtain ⟨b, left, hin⟩ := h.gone a ha hhas
    exact ⟨b, left, (hframes ..).mpr hin⟩
  last := h.last
  revoked := h.revoked
  sync := by
    intro hremote k hk
    rw [stackIds, hids] at hk
    exact h.sync hremote k hk

theorem push (h : Inv held s) : Inv held { s with stack := .app :: s.stack } := by
  refine h.restack (fun a b left close => ?_) rfl
  rw [mem_cons]
  exact or_iff_right fun he => by cases he

theorem pop (h : Inv held s) {rest : List Turn} (hstack : s.stack = .app :: rest) : Inv held { s with stack := rest } := by
  refine h.restack (fun a b left close => ?_) ?_
  · rw [hstack, mem_cons]
    exact (or_iff_right fun he => by cases he).symm
  · rw [stackIds, hstack]
    rfl

variable {a b : QByteArray} {close : Closing}

section
variable (h : Inv held s)
include h

/-- The next Caller of a rotation is told, or names another session. -/
theorem advance {c : Nat} {left : List Nat} {rest : List Turn}
    (hstack : s.stack = .rotating a b (c :: left) close :: rest) {callers : Nat → Caller}
    (huser : ∀ c', (callers c').isUser = true) (hothers : ∀ c', c' ≠ c → callers c' = s.callers c')
    (hself : c < s.count → (callers c).sessionId = follow s.moved (s.named c) ∨
      (callers c = s.callers c ∧ (s.callers c).sessionId ≠ a)) :
    Inv held { s with callers := callers, stack := .rotating a b left close :: rest } := by
  have htop : .rotating a b (c :: left) close ∈ s.stack := hstack ▸ mem_cons_self
  have hback : ∀ a' b' left' close', Turn.rotating a' b' left' close' ∈ Turn.rotating a b left close :: rest →
      ∃ left'', .rotating a' b' left'' close' ∈ s.stack := by
    intro a' b' left' close' hin
    rcases mem_cons.mp hin with he | hin
    · obtain ⟨rfl, rfl, -, rfl⟩ := Turn.rotating.inj he
      exact ⟨_, htop⟩
    · exact ⟨left', hstack ▸ mem_cons_of_mem _ hin⟩
  have hids : (Turn.rotating a b left close :: rest).flatMap Turn.ids = s.stackIds := by
    rw [stackIds, hstack]
    rfl
  constructor
  case user => exact huser
  case froms => exact h.froms
  case ends => exact h.ends
  case frames =>
    intro a' b' left' close' hin
    obtain ⟨left'', hold⟩ := hback a' b' left' close' hin
    exact h.frames a' b' left'' close' hold
  case closes =>
    intro a' b' left' caller calls hin
    obtain ⟨left'', hold⟩ := hback a' b' left' _ hin
    exact h.closes a' b' left'' caller calls hold
  case applied =>
    intro a' b' left' hin
    obtain ⟨left'', hold⟩ := hback a' b' left' _ hin
    exact h.applied a' b' left'' hold
  case apart =>
    rw [stackIds, hids]
    exact h.apart
  case named =>
    intro c' hc'
    dsimp only at hc' ⊢
    by_cases hc : c' = c
    · subst hc
      rcases hself hc' with hfollows | ⟨hsame, hother⟩
      · exact .inl hfollows
      · rw [hsame]
        refine (h.named c' hc').imp_right fun hpending => ?_
        obtain ⟨a', b', left', close', hin, hmem, hid, hto⟩ := hpending
        rw [hstack] at hin
        rcases mem_cons.mp hin with he | hin
        · obtain ⟨rfl, -⟩ := Turn.rotating.inj he
          exact absurd hid hother
        · exact ⟨a', b', left', close', mem_cons_of_mem _ hin, hmem, hid, hto⟩
    · rw [hothers c' hc]
      refine (h.named c' hc').imp_right fun hpending => ?_
      obtain ⟨a', b', left', close', hin, hmem, hid, hto⟩ := hpending
      rw [hstack] at hin
      rcases mem_cons.mp hin with he | hin
      · obtain ⟨rfl, rfl, rfl, rfl⟩ := Turn.rotating.inj he
        exact ⟨a', b', left, close', mem_cons_self, (mem_cons.mp hmem).resolve_left hc, hid, hto⟩
      · exact ⟨a', b', left', close', mem_cons_of_mem _ hin, hmem, hid, hto⟩
  case gone =>
    intro a' ha' hhas
    obtain ⟨b', left', hin⟩ := h.gone a' ha' hhas
    rw [hstack] at hin
    rcases mem_cons.mp hin with he | hin
    · obtain ⟨rfl, rfl, -, rfl⟩ := Turn.rotating.inj he
      exact ⟨b', left, mem_cons_self⟩
    · exact ⟨b', left', mem_cons_of_mem _ hin⟩
  case last => exact h.last
  case revoked => exact h.revoked
  case sync =>
    intro hremote k hk
    rw [stackIds, hids] at hk
    exact h.sync hremote k hk

/-- A Caller that still names the old id of a rotation is one of those it has yet to tell. -/
theorem told_follows {left : List Nat}
    (hin : .rotating a b left close ∈ s.stack) {c : Nat} (hc : c < s.count) (hid : (s.callers c).sessionId = a) :
    follow s.moved (s.named c) = b := by
  have hmoved := (h.frames a b left close hin).1
  rcases h.named c hc with hfollows | ⟨a', b', left', close', hin', -, hid', hto⟩
  · rw [hfollows] at hid
    exact absurd (mem_map_of_mem hmoved) (hid ▸ h.ends c)
  · have hmoved' := (h.frames a' b' left' close' hin').1
    have heq : (a', b') = (a, b) := inj_on_of_nodup_map h.froms hmoved' hmoved (hid'.symm.trans hid)
    rw [← hto, (Prod.mk.inj heq).2]

/-- A rotation ends; what it told and what it removed are of its own two ids. -/
theorem finish {rest : List Turn}
    (hstack : s.stack = .rotating a b [] close :: rest) {s' : CallerRun} (huser : ∀ c, (s'.callers c).isUser = true)
    (hcallers : ∀ c, s'.callers c = s.callers c ∨ (close.asked = some c ∧ (s'.callers c).sessionId = b)) (hrest : s'.stack = rest)
    (hcount : s'.count = s.count) (hmoved : s'.moved = s.moved) (hrevoked : s'.revoked = s.revoked) (hnamed : s'.named = s.named)
    (hremote : s'.manager.remote = s.manager.remote) (hhas : ∀ k, s'.manager.Has k ↔ s.manager.Has k ∧ (close = .applied → k ≠ a))
    (hlog : s.manager.remote = true → ∀ k, SynQt.told held s'.log k ↔
      if close = .applied then SynQt.told held s.log k else k = b ∨ (k ≠ a ∧ SynQt.told held s.log k)) : Inv held s' := by
  have htop : .rotating a b [] close ∈ s.stack := hstack ▸ mem_cons_self
  have hold : ∀ turn ∈ s'.stack, turn ∈ s.stack := fun turn hin => hstack ▸ mem_cons_of_mem _ (hrest ▸ hin)
  have hnodup : ([a, b] ++ s'.stackIds).Nodup := by
    have hap := h.apart
    rw [stackIds, hstack] at hap
    rw [stackIds, hrest]
    exact hap
  have hab : a ≠ b := by
    have hpair := (nodup_append'.mp hnodup).1
    intro he
    exact (nodup_cons.mp hpair).1 (he ▸ mem_singleton_self _)
  have hapart : ∀ k ∈ s'.stackIds, k ≠ a ∧ k ≠ b := by
    intro k hk
    have hdisjoint := (nodup_append'.mp hnodup).2.2
    constructor
    · rintro rfl
      exact hdisjoint mem_cons_self hk
    · rintro rfl
      exact hdisjoint (mem_cons_of_mem _ mem_cons_self) hk
  have hids : ∀ k, k ∉ s'.stackIds → k ≠ a → k ≠ b → k ∉ s.stackIds := by
    intro k hk hka hkb hin
    rw [stackIds, hstack] at hin
    rcases mem_append.mp hin with hin | hin
    · rcases mem_cons.mp hin with rfl | hin
      · exact hka rfl
      · exact hkb (mem_singleton.mp hin)
    · rw [stackIds, hrest] at hk
      exact hk hin
  obtain ⟨htopMoved, -, htopHas⟩ := h.frames a b [] close htop
  constructor
  case user => exact huser
  case froms =>
    rw [CallerRun.froms, hmoved]
    exact h.froms
  case ends =>
    rw [CallerRun.froms, hmoved, hnamed]
    exact h.ends
  case frames =>
    intro a' b' left close' hin
    obtain ⟨hin', hend, hhas'⟩ := h.frames a' b' left close' (hold _ hin)
    rw [CallerRun.froms, hmoved, hhas]
    exact ⟨hin', hend, hhas', fun _ => (hapart b' (mem_stackIds hin).2).1⟩
  case closes =>
    intro a' b' left caller calls hin
    obtain ⟨hgone, htells, hasked⟩ := h.closes a' b' left caller calls (hold _ hin)
    rw [hhas, hremote, hmoved, hnamed]
    exact ⟨fun hh => hgone hh.1, htells, hasked⟩
  case applied =>
    intro a' b' left hin hrem
    rw [hremote] at hrem
    obtain ⟨hb, ha⟩ := h.applied a' b' left (hold _ hin) hrem
    obtain ⟨hida, hidb⟩ := mem_stackIds hin
    rw [hlog hrem, hlog hrem]
    split
    · exact ⟨hb, ha⟩
    · exact ⟨.inr ⟨(hapart b' hidb).1, hb⟩, fun hor => hor.elim (hapart a' hida).2 fun hh => ha hh.2⟩
  case apart => exact (nodup_append'.mp hnodup).2.1
  case named =>
    intro c hc
    rw [hcount] at hc
    rw [hmoved, hnamed]
    rcases hcallers c with hsame | ⟨hasked, hid⟩
    · rw [hsame]
      refine (h.named c hc).imp_right fun hpending => ?_
      obtain ⟨a', b', left, close', hin, hmem, hrest'⟩ := hpending
      rw [hstack] at hin
      rcases mem_cons.mp hin with he | hin
      · obtain ⟨rfl, rfl, rfl, rfl⟩ := Turn.rotating.inj he
        exact absurd hmem not_mem_nil
      · exact ⟨a', b', left, close', hrest ▸ hin, hmem, hrest'⟩
    · left
      cases close with
      | setScope caller calls => exact hid.trans ((h.closes a b [] caller calls htop).2.2 c hasked).symm
      | applied => cases hasked
  case gone =>
    intro a' ha' hh
    rw [CallerRun.froms, hmoved] at ha'
    rw [hhas] at hh
    obtain ⟨b', left, hin⟩ := h.gone a' ha' hh.1
    rw [hstack] at hin
    rcases mem_cons.mp hin with he | hin
    · obtain ⟨rfl, rfl, -, rfl⟩ := Turn.rotating.inj he
      exact absurd rfl (hh.2 rfl)
    · exact ⟨b', left, hrest ▸ hin⟩
  case last =>
    intro a' b' hin
    rw [hmoved] at hin
    rw [CallerRun.froms, hmoved, hrevoked, hhas]
    rcases h.last a' b' hin with hh | hrest'
    · by_cases hb : b' = a
      · exact .inr (.inl (hb ▸ mem_map_of_mem htopMoved))
      · exact .inl ⟨hh, fun _ => hb⟩
    · exact .inr hrest'
  case revoked =>
    intro b' hin
    rw [hrevoked] at hin
    rw [hhas]
    exact fun hh => h.revoked b' hin hh.1
  case sync =>
    intro hrem k hk
    rw [hremote] at hrem
    rw [hlog hrem, hhas]
    by_cases happlied : close = .applied
    · subst happlied
      rw [if_pos rfl]
      obtain ⟨hb, ha⟩ := h.applied a b [] htop hrem
      by_cases hka : k = a
      · subst hka
        exact ⟨fun hh => absurd hh ha, fun hh => absurd rfl (hh.2 rfl)⟩
      · by_cases hkb : k = b
        · subst hkb
          exact ⟨fun _ => ⟨htopHas, fun _ => hka⟩, fun _ => hb⟩
        · rw [h.sync hrem k (hids k hk hka hkb)]
          exact ⟨fun hh => ⟨hh, fun _ => hka⟩, fun hh => hh.1⟩
    · rw [if_neg happlied]
      have hgone : ¬s.manager.Has a := by
        cases close with
        | setScope caller calls => exact (h.closes a b [] caller calls htop).1
        | applied => exact absurd rfl happlied
      by_cases hkb : k = b
      · subst hkb
        exact ⟨fun _ => ⟨htopHas, fun he => absurd he happlied⟩, fun _ => .inl rfl⟩
      · by_cases hka : k = a
        · subst hka
          exact ⟨fun hh => hh.elim (fun he => absurd he hkb) fun hh => absurd rfl hh.1, fun hh => absurd hh.1 hgone⟩
        · rw [h.sync hrem k (hids k hk hka hkb)]
          exact ⟨fun hh => ⟨(hh.resolve_left hkb).2, fun he => absurd he happlied⟩, fun hh => .inr ⟨hka, hh.1⟩⟩

/-- A rotation begins, of an id no other on the stack is of and to one that is new. -/
theorem announce (hnew : s.New b) (hfrom : a ∉ s.froms)
    (hab : a ≠ b) (hapart : a ∉ s.stackIds) {s' : CallerRun} (hcallers : s'.callers = s.callers) (hcount : s'.count = s.count)
    (hnamed : s'.named = s.named) (hrevoked : s'.revoked = s.revoked)
    (hstack : s'.stack = .rotating a b (List.range s.count) close :: s.stack) (hmoved : s'.moved = s.moved ++ [(a, b)])
    (hremote : s'.manager.remote = s.manager.remote)
    (hhas : ∀ k, s'.manager.Has k ↔ k = b ∨ (s.manager.Has k ∧ (close ≠ .applied → k ≠ a)))
    (hclose : ∀ caller calls, close = .setScope caller calls →
      (s.manager.remote = true → ∀ held k, SynQt.told held calls k ↔ k = b ∨ (k ≠ a ∧ held k)) ∧
        ∀ c, caller = some c → c < s.count ∧ (s.callers c).sessionId = a)
    (hlog : s.manager.remote = true → ∀ k, SynQt.told held s'.log k ↔
      if close = .applied then k = b ∨ (k ≠ a ∧ SynQt.told held s.log k) else SynQt.told held s.log k) : Inv held s' := by
  obtain ⟨-, hfresh, hbfrom, hbto, hbrevoked⟩ := hnew
  have hfroms : s'.froms = s.froms ++ [a] := by
    rw [CallerRun.froms, hmoved, map_append]
    rfl
  have hmem : ∀ k, k ∈ s'.froms ↔ k ∈ s.froms ∨ k = a := by
    intro k
    rw [hfroms, mem_append, mem_singleton]
  have hids : s'.stackIds = [a, b] ++ s.stackIds := by
    rw [stackIds, hstack]
    rfl
  -- What is on the stack has been moved to or from, and so is not new.
  have hbstack : b ∉ s.stackIds := by
    intro hin
    obtain ⟨turn, hturn, hin⟩ := mem_flatMap.mp hin
    cases turn with
    | app => exact absurd hin not_mem_nil
    | rotating a' b' left close' =>
      have hin' := (h.frames a' b' left close' hturn).1
      rcases mem_cons.mp hin with rfl | hin
      · exact hbfrom (mem_map_of_mem hin')
      · exact hbto (mem_singleton.mp hin ▸ mem_map_of_mem hin')
  have hold : ∀ turn ∈ s.stack, turn ∈ s'.stack := fun turn hin => hstack ▸ mem_cons_of_mem _ hin
  have hfollow : ∀ id, follow s.moved id ≠ a → follow s'.moved id = follow s.moved id := by
    intro id hid
    rw [hmoved, follow_snoc, if_neg hid]
  have hfollowed : ∀ id, follow s.moved id = a → follow s'.moved id = b := by
    intro id hid
    rw [hmoved, follow_snoc, if_pos hid]
  constructor
  case user =>
    rw [hcallers]
    exact h.user
  case froms =>
    rw [hfroms]
    exact nodup_append'.mpr ⟨h.froms, nodup_singleton _, disjoint_singleton.mpr hfrom⟩
  case ends =>
    intro c
    rw [hnamed, hmem]
    by_cases hc : follow s.moved (s.named c) = a
    · rw [hfollowed _ hc]
      exact fun hor => hor.elim hbfrom fun he => hab he.symm
    · rw [hfollow _ hc]
      exact fun hor => hor.elim (h.ends c) hc
  case frames =>
    intro a' b' left close' hin
    rw [hstack] at hin
    rw [hmoved, hmem, hhas]
    rcases mem_cons.mp hin with he | hin
    · obtain ⟨rfl, rfl, -, -⟩ := Turn.rotating.inj he
      exact ⟨mem_append_right _ (mem_singleton_self _), fun hor => hor.elim hbfrom fun he => hab he.symm, .inl rfl⟩
    · obtain ⟨hin', hend, hh⟩ := h.frames a' b' left close' hin
      have hne : b' ≠ a := fun he => hapart (he ▸ (mem_stackIds hin).2)
      exact ⟨mem_append_left _ hin', fun hor => hor.elim hend hne, .inr ⟨hh, fun _ => hne⟩⟩
  case closes =>
    intro a' b' left caller calls hin
    rw [hstack] at hin
    rw [hhas, hremote, hnamed]
    rcases mem_cons.mp hin with he | hin
    · obtain ⟨rfl, rfl, -, rfl⟩ := Turn.rotating.inj he
      obtain ⟨htells, hasked⟩ := hclose caller calls rfl
      refine ⟨fun hor => hor.elim hab fun hh => hh.2 (fun he => by cases he) rfl, htells, fun c hc => hfollowed _ ?_⟩
      obtain ⟨hlt, hid⟩ := hasked c hc
      rcases h.named c hlt with hfollows | ⟨a'', b'', left', close', hin', -, hid', -⟩
      · exact hfollows.symm.trans hid
      · exact absurd (hid' ▸ (mem_stackIds hin').1) (hid ▸ hapart)
    · obtain ⟨hgone, htells, hasked⟩ := h.closes a' b' left caller calls hin
      obtain ⟨hida, hidb⟩ := mem_stackIds hin
      refine ⟨fun hor => hor.elim (fun he => hbstack (he ▸ hida)) fun hh => hgone hh.1, htells, fun c hc => ?_⟩
      rw [hfollow _ fun he => hapart (he ▸ (hasked c hc).symm ▸ hidb)]
      exact hasked c hc
  case applied =>
    intro a' b' left hin hrem
    rw [hremote] at hrem
    rw [hstack] at hin
    rw [hlog hrem, hlog hrem]
    rcases mem_cons.mp hin with he | hin
    · obtain ⟨rfl, rfl, -, rfl⟩ := Turn.rotating.inj he
      rw [if_pos rfl, if_pos rfl]
      exact ⟨.inl rfl, fun hor => hor.elim hab fun hh => hh.1 rfl⟩
    · obtain ⟨hb, ha⟩ := h.applied a' b' left hin hrem
      obtain ⟨hida, hidb⟩ := mem_stackIds hin
      split
      · exact ⟨.inr ⟨fun he => hapart (he ▸ hidb), hb⟩, fun hor => hor.elim (fun he => hbstack (he ▸ hida)) fun hh => ha hh.2⟩
      · exact ⟨hb, ha⟩
  case apart =>
    rw [hids]
    refine nodup_append'.mpr ⟨by simpa using hab, h.apart, fun k hk hk' => ?_⟩
    rcases mem_cons.mp hk with rfl | hk
    · exact hapart hk'
    · exact hbstack (mem_singleton.mp hk ▸ hk')
  case named =>
    intro c hc
    rw [hcount] at hc
    rw [hcallers, hnamed]
    rcases h.named c hc with hfollows | ⟨a', b', left, close', hin, hmem', hid, hto⟩
    · by_cases hca : follow s.moved (s.named c) = a
      · refine .inr ⟨a, b, List.range s.count, close, hstack ▸ mem_cons_self, mem_range.mpr hc, ?_, ?_⟩
        · exact hfollows.trans hca
        · exact (hfollowed _ hca).symm
      · rw [hfollow _ hca]
        exact .inl hfollows
    · refine .inr ⟨a', b', left, close', hold _ hin, hmem', hid, ?_⟩
      rw [hfollow _ fun he => hapart (he ▸ hto ▸ (mem_stackIds hin).2)]
      exact hto
  case gone =>
    intro a' ha' hh
    rw [hmem] at ha'
    rw [hhas] at hh
    rcases hh with rfl | ⟨hh, hne⟩
    · exact absurd ha' fun hor => hor.elim hbfrom fun he => hab he.symm
    · rcases ha' with ha' | rfl
      · obtain ⟨b', left, hin⟩ := h.gone a' ha' hh
        exact ⟨b', left, hold _ hin⟩
      · by_cases happlied : close = .applied
        · subst happlied
          exact ⟨b, List.range s.count, hstack ▸ mem_cons_self⟩
        · exact absurd rfl (hne happlied)
  case last =>
    intro a' b' hin
    rw [hmoved] at hin
    rw [hhas, hmem, hrevoked]
    rcases mem_append.mp hin with hin | hin
    · rcases h.last a' b' hin with hh | hf | hr
      · by_cases hb : b' = a
        · exact .inr (.inl (.inr hb))
        · exact .inl (.inr ⟨hh, fun _ => hb⟩)
      · exact .inr (.inl (.inl hf))
      · exact .inr (.inr hr)
    · obtain ⟨-, rfl⟩ := Prod.mk.inj (mem_singleton.mp hin)
      exact .inl (.inl rfl)
  case revoked =>
    intro b' hin
    rw [hrevoked] at hin
    rw [hhas]
    exact fun hor => hor.elim (fun he => hbrevoked (he ▸ hin)) fun hh => h.revoked b' hin hh.1
  case sync =>
    intro hrem k hk
    rw [hremote] at hrem
    rw [hids, mem_append, not_or, mem_cons, not_or, mem_singleton] at hk
    obtain ⟨⟨hka, hkb⟩, hk⟩ := hk
    rw [hlog hrem, hhas]
    have hsync := h.sync hrem k hk
    have hright : (k = b ∨ (s.manager.Has k ∧ (close ≠ .applied → k ≠ a))) ↔ s.manager.Has k :=
      ⟨fun hor => (hor.resolve_left hkb).1, fun hh => .inr ⟨hh, fun _ => hka⟩⟩
    rw [hright]
    split
    · rw [← hsync]
      exact ⟨fun hor => (hor.resolve_left hkb).2, fun hh => .inr ⟨hka, hh⟩⟩
    · exact hsync

/-- One Caller becomes another. -/
theorem adopted {caller other : Nat} (hother : other < s.count)
    (hadopts : ∀ turn ∈ s.stack, s.Adopts caller other turn) :
    Inv held { s.setCaller caller (s.callers other) with named := update s.named caller (s.named other) } := by
  have hcases : ∀ c, (update s.callers caller (s.callers other) c = s.callers other ∧
      update s.named caller (s.named other) c = s.named other ∧ c = caller) ∨
      (update s.callers caller (s.callers other) c = s.callers c ∧
        update s.named caller (s.named other) c = s.named c ∧ c ≠ caller) := by
    intro c
    by_cases hc : c = caller
    · subst hc
      exact .inl ⟨update_self .., update_self .., rfl⟩
    · exact .inr ⟨update_of_ne hc .., update_of_ne hc .., hc⟩
  refine { h with user := ?_, ends := ?_, closes := ?_, named := ?_ }
  · intro c
    show (update s.callers caller (s.callers other) c).isUser = true
    rcases hcases c with ⟨hcaller, -, -⟩ | ⟨hcaller, -, -⟩ <;> rw [hcaller]
    · exact h.user other
    · exact h.user c
  · intro c
    show follow s.moved (update s.named caller (s.named other) c) ∉ s.froms
    rcases hcases c with ⟨-, hnamed, -⟩ | ⟨-, hnamed, -⟩ <;> rw [hnamed]
    · exact h.ends other
    · exact h.ends c
  · intro a b left asked calls hin
    obtain ⟨hgone, htells, hasked⟩ := h.closes a b left asked calls hin
    refine ⟨hgone, htells, fun c hc => ?_⟩
    show follow s.moved (update s.named caller (s.named other) c) = b
    rcases hcases c with ⟨-, hnamed, rfl⟩ | ⟨-, hnamed, -⟩ <;> rw [hnamed]
    · rcases (hadopts _ hin).2 hc with hid | hid
      · exact h.told_follows hin hother hid
      · rcases h.named other hother with hfollows | ⟨a', b', left', close', hin', -, hid', -⟩
        · exact hfollows.symm.trans hid
        · have hfrom : a' ∈ s.froms := mem_map_of_mem (h.frames a' b' left' close' hin').1
          exact absurd (hid'.symm.trans hid ▸ hfrom) (h.frames a b left _ hin).2.1
    · exact hasked c hc
  · intro c hc
    show (update s.callers caller (s.callers other) c).sessionId =
        follow s.moved (update s.named caller (s.named other) c) ∨
      ∃ a b left close, .rotating a b left close ∈ s.stack ∧ c ∈ left ∧
        (update s.callers caller (s.callers other) c).sessionId = a ∧
          b = follow s.moved (update s.named caller (s.named other) c)
    rcases hcases c with ⟨hcaller, hnamed, rfl⟩ | ⟨hcaller, hnamed, -⟩ <;> rw [hcaller, hnamed]
    · refine (h.named other hother).imp_right fun hpending => ?_
      obtain ⟨a, b, left, close, hin, -, hid, hto⟩ := hpending
      exact ⟨a, b, left, close, hin, (hadopts _ hin).1 hid, hid, hto⟩
    · exact h.named c hc

/-- A session is revoked that no rotation on the stack leads to. -/
theorem revoke {id : QByteArray} (htarget : ∀ turn ∈ s.stack, turn.target ≠ some id) : Inv held (s.revoke id) := by
  have hhas : ∀ k, (s.revoke id).manager.Has k ↔ k ≠ id ∧ s.manager.Has k := has_revoke id
  have hremote : (s.revoke id).manager.remote = s.manager.remote := (revoke_within id).remote
  have hlog : s.manager.remote = true → ∀ k, SynQt.told held (s.revoke id).log k ↔ k ≠ id ∧ SynQt.told held s.log k := by
    intro hrem k
    show SynQt.told held (s.log ++ (s.manager.revoke id).calls) k ↔ _
    rw [told_append, revoke_calls, storeCalls, if_pos hrem]
    exact Iff.rfl
  constructor
  case user => exact h.user
  case froms => exact h.froms
  case ends => exact h.ends
  case frames =>
    intro a b left close hin
    obtain ⟨hmoved, hend, hb⟩ := h.frames a b left close hin
    rw [hhas]
    exact ⟨hmoved, hend, fun he => htarget _ hin (congrArg some he), hb⟩
  case closes =>
    intro a b left caller calls hin
    obtain ⟨hgone, htells, hasked⟩ := h.closes a b left caller calls hin
    rw [hhas, hremote]
    exact ⟨fun hh => hgone hh.2, htells, hasked⟩
  case applied =>
    intro a b left hin hrem
    rw [hremote] at hrem
    obtain ⟨hb, ha⟩ := h.applied a b left hin hrem
    rw [hlog hrem, hlog hrem]
    exact ⟨⟨fun he => htarget _ hin (congrArg some he), hb⟩, fun hh => ha hh.2⟩
  case apart => exact h.apart
  case named => exact h.named
  case gone =>
    intro a ha hh
    rw [hhas] at hh
    exact h.gone a ha hh.2
  case last =>
    intro a b hin
    rw [hhas]
    rcases h.last a b hin with hb | hfrom | hrevoked
    · by_cases hid : b = id
      · exact .inr (.inr (mem_append_right _ (mem_singleton.mpr hid)))
      · exact .inl ⟨hid, hb⟩
    · exact .inr (.inl hfrom)
    · exact .inr (.inr (mem_append_left _ hrevoked))
  case revoked =>
    intro b hin
    rw [hhas]
    rcases mem_append.mp hin with hin | hin
    · exact fun hh => h.revoked b hin hh.2
    · exact fun hh => hh.1 (mem_singleton.mp hin)
  case sync =>
    intro hrem k hk
    rw [hremote] at hrem
    rw [hlog hrem, hhas, h.sync hrem k hk]

end

private theorem told_rotation {fresh id : QByteArray} (hne : id ≠ fresh) {scope : QString} {identity : QVariantMap} {createdMs : Int}
    {handoff : List StoreCall} (hhandoff : handoff = [] ∨ handoff = [ .rotateSession id fresh]) (held : QByteArray → Prop)
    (k : QByteArray) :
    SynQt.told held ([ .putSession fresh scope identity createdMs] ++ handoff ++ [ .removeSession id]) k ↔
      k = fresh ∨ (k ≠ id ∧ held k) := by
  have hright : (k ≠ id ∧ (k = fresh ∨ held k)) ↔ k = fresh ∨ (k ≠ id ∧ held k) := by
    constructor
    · rintro ⟨hid, rfl | hk⟩
      · exact .inl rfl
      · exact .inr ⟨hid, hk⟩
    · rintro (rfl | ⟨hid, hk⟩)
      · exact ⟨fun he => hne he.symm, .inl rfl⟩
      · exact ⟨hid, .inr hk⟩
  rw [← hright]
  rcases hhandoff with rfl | rfl <;> exact Iff.rfl

section
variable (h : Inv held s)
include h

theorem rotate {caller : Option Nat} {id fresh : QByteArray} (now : Int) (scope : QString)
    (identity : QVariantMap) (handoff : Handoff) (hok : s.manager.Has id → s.New fresh ∧ id ∉ s.stackIds)
    (hcaller : ∀ c, caller = some c → c < s.count ∧ (s.callers c).sessionId = id) :
    Inv held (s.rotate caller id now fresh scope identity handoff) := by
  unfold CallerRun.rotate
  split
  · exact h
  · next old hold =>
    have hhas : s.manager.Has id := by rw [SessionManager.Has, hold, Option.isSome_some]
    obtain ⟨hnew, hapart⟩ := hok hhas
    have hne : id ≠ fresh := fun he => hnew.2.1 (he ▸ hhas)
    have hfrom : id ∉ s.froms := by
      intro hin
      obtain ⟨b, left, hframe⟩ := h.gone id hin hhas
      exact hapart (mem_stackIds hframe).1
    have hremote := (setScope_settings id now fresh scope identity handoff (m := s.manager)).2
    refine h.announce hnew hfrom hne hapart rfl rfl rfl rfl rfl rfl hremote (fun k => ?_) (fun asked calls he => ?_) fun _ k => ?_
    · rw [has_setScope hhas]
      exact or_congr_right ⟨fun hh => ⟨hh.2, fun _ => hh.1⟩, fun hh => ⟨hh.2 (by simp), hh.1⟩⟩
    · obtain ⟨rfl, rfl⟩ := Closing.setScope.inj he
      refine ⟨fun hrem held' k => ?_, hcaller⟩
      rw [(setScope_of_lookup hold now fresh scope identity handoff).2.2, storeCalls, if_pos hrem]
      refine told_rotation hne ?_ held' k
      split
      · exact .inr rfl
      · exact .inl rfl
    · rw [if_neg (by simp)]

theorem elsewhere (hrest : s.stack = []) (now : Int) {from_ to_ : QByteArray} (scope : QString)
    (identity : QVariantMap) (createdMs : Int) (hnew : s.New to_) (hnil : from_ ≠ []) (hne : from_ ≠ to_)
    (hrotations : s.manager.rotations.find from_ = none) (hfrom : from_ ∉ s.froms) :
    Inv held (s.elsewhere now from_ to_ scope identity createdMs) := by
  have htakes : (s.manager.applyUpsert to_ scope identity createdMs).manager.TakesRotation from_ to_ := by
    refine ⟨hnil, hnew.1, hne, ?_⟩
    unfold applyUpsert
    simp only [insertRecord_rotations]
    exact hrotations
  have hremote : (s.manager.applyUpsert to_ scope identity createdMs).manager.remote = s.manager.remote := by
    unfold applyUpsert
    simp only [insertRecord_remote]
  have hapart : from_ ∉ s.stackIds := by
    rw [stackIds, hrest]
    exact not_mem_nil
  unfold CallerRun.elsewhere
  dsimp only
  rw [if_pos htakes]
  refine h.announce hnew hfrom hne hapart rfl rfl rfl rfl rfl rfl ?_ (fun k => ?_) (fun caller calls he => by cases he) fun _ k => ?_
  · exact (applyRotation_remote from_ to_).trans hremote
  · rw [has_applyRotation, has_applyUpsert]
    exact or_congr_right ⟨fun hh => ⟨hh, fun hne => absurd rfl hne⟩, fun hh => hh.1⟩
  · have hhandoff : [StoreCall.rotateSession from_ to_] = [] ∨ [StoreCall.rotateSession from_ to_] = [ .rotateSession from_ to_] :=
      .inr rfl
    rw [if_pos rfl, told_append]
    exact told_rotation hne hhandoff _ k

theorem tick : Inv held s.tick := by
  unfold CallerRun.tick
  split
  · next a b c left close rest hstack =>
    split
    · next hid =>
      have htop : .rotating a b (c :: left) close ∈ s.stack := hstack ▸ mem_cons_self
      have hself : (update s.callers c { s.callers c with sessionId := b } c).sessionId = b := by
        rw [update_self]
      have htold : Inv held { s.setCaller c { s.callers c with sessionId := b } with stack := .rotating a b left close :: rest } :=
        h.advance hstack (setCaller_user h.user c rfl) (fun c' hc => update_of_ne hc ..) fun hc =>
          .inl (hself.trans (h.told_follows htop hc hid).symm)
      exact htold.push.push
    · next hid => exact h.advance hstack h.user (fun _ _ => rfl) fun _ => .inr ⟨rfl, hid⟩
  · next a b c calls rest hstack =>
    have hcloses := h.closes a b [] (some c) calls (hstack ▸ mem_cons_self)
    have hlog : s.manager.remote = true → ∀ k, SynQt.told held (s.log ++ calls) k ↔
        if Closing.setScope (some c) calls = .applied then SynQt.told held s.log k
        else k = b ∨ (k ≠ a ∧ SynQt.told held s.log k) := by
      intro hrem k
      rw [if_neg (by simp), told_append]
      exact hcloses.2.1 hrem _ k
    have hhas : ∀ k, s.manager.Has k ↔ s.manager.Has k ∧ (Closing.setScope (some c) calls = .applied → k ≠ a) :=
      fun k => ⟨fun hh => ⟨hh, fun he => by cases he⟩, fun hh => hh.1⟩
    have hupdate : ∀ c', update s.callers c { s.callers c with sessionId := b } c' = s.callers c' ∨
        ((Closing.setScope (some c) calls).asked = some c' ∧
          (update s.callers c { s.callers c with sessionId := b } c').sessionId = b) := by
      intro c'
      by_cases hc : c' = c
      · exact .inr ⟨congrArg some hc.symm, by rw [hc, update_self]⟩
      · exact .inl (update_of_ne hc ..)
    split
    · exact h.finish hstack h.user (fun _ => .inl rfl) rfl rfl rfl rfl rfl rfl hhas hlog
    · exact h.finish hstack (setCaller_user h.user c rfl) hupdate rfl rfl rfl rfl rfl rfl hhas hlog
  · next a b calls rest hstack =>
    have hcloses := h.closes a b [] none calls (hstack ▸ mem_cons_self)
    refine h.finish hstack h.user (fun _ => .inl rfl) rfl rfl rfl rfl rfl rfl
      (fun k => ⟨fun hh => ⟨hh, fun he => by cases he⟩, fun hh => hh.1⟩) fun hrem k => ?_
    rw [if_neg (by simp), told_append]
    exact hcloses.2.1 hrem _ k
  · next a b rest hstack =>
    refine h.finish hstack h.user (fun _ => .inl rfl) rfl rfl rfl rfl rfl (applyRemove_within a).remote
      (fun k => ?_) fun _ k => by rw [if_pos rfl]
    rw [has_applyRemove]
    exact ⟨fun hh => ⟨hh.2, fun _ => hh.1⟩, fun hh => ⟨hh.2 rfl, hh.1⟩⟩
  · exact h

theorem step {input : CallerInput} (hok : s.Kept input) : Inv held (s.step input) := by
  cases input with
  | tick => exact h.tick
  | turn =>
    simp only [CallerRun.step]
    split
    · next hrest =>
      have hpushed := h.push
      rw [hrest] at hpushed
      exact hpushed
    · exact h
  | leave =>
    simp only [CallerRun.step]
    split
    · next rest hstack => exact h.pop hstack
    · exact h
  | setScope caller now fresh scope identity =>
    simp only [CallerRun.step]
    split
    · next hcond =>
      refine h.rotate now scope identity .keep (hok hcond.1) fun c hc => ?_
      rw [← Option.some.inj hc]
      exact ⟨hcond.2.1, rfl⟩
    · exact h
  | elevate id now fresh scope identity handoff =>
    simp only [CallerRun.step]
    split
    · next hcond => exact h.rotate now scope identity handoff (hok hcond) fun c hc => absurd hc.symm (Option.some_ne_none c)
    · exact h
  | adopt caller other =>
    simp only [CallerRun.step]
    split
    · next hcond =>
      have hadopted := h.adopted hcond.2.2.1 (hok hcond.1)
      unfold CallerRun.adopt
      dsimp only
      split
      · exact hadopted.push
      · exact hadopted
    · exact h
  | revoke id =>
    simp only [CallerRun.step]
    split
    · next hcond => exact h.revoke (hok hcond)
    · exact h
  | assumeSession caller assertion =>
    rw [step_assume h.user]
    exact h
  | elsewhere now from_ to_ scope identity createdMs =>
    simp only [CallerRun.step]
    split
    · next hrest =>
      obtain ⟨hnew, hnil, hne, hrotations, hfrom⟩ := hok hrest
      exact h.elsewhere hrest now scope identity createdMs hnew hnil hne hrotations hfrom
    · exact h

end

end Inv

/-- In every run whose steps keep the condition, each Caller names the id its session's rotations ended at, and of that
session's ids exactly this one is held, here and wherever the store's word reaches; and in every run nothing a call
asserts changes a user's Caller. -/
theorem callers_follow (manager : SessionManager) (count : Nat) (ids : Nat → QByteArray) (inputs : List CallerInput) :
    (∀ before after, inputs = before ++ after → ∀ caller assertion,
      (run step (start manager count ids) before).step (.assumeSession caller assertion) =
        run step (start manager count ids) before) ∧
    (Each step Kept (start manager count ids) inputs → ∀ before after, inputs = before ++ after →
      (run step (start manager count ids) before).stack = [] → Followed manager (run step (start manager count ids) before)) := by
  constructor
  · intro before _ _ caller assertion
    have huser := run_invariant (fun s : CallerRun => ∀ c, (s.callers c).isUser = true) (fun _ input h c => step_user h input c)
      (fun _ => rfl : ∀ c, ((start manager count ids).callers c).isUser = true) before
    exact step_assume huser caller assertion
  · rintro heach before after rfl hrest
    have hbefore := ((each_append _ before after).mp heach).1
    exact (hbefore.invariant (Inv manager.Has) (fun _ _ h hok => h.step hok) (start_inv manager count ids)).followed hrest

/-- An edge with one anonymous session, and two Callers on it. -/
def visited : SessionManager := (SessionManager.make "anonymous" 720).attachRemote.insertRecord ⟨[1], "anonymous", [], 0, []⟩

/-- A scope change of which both Callers hear, and then another. -/
def elevatedInTurn : List CallerInput :=
  [ .turn, .setScope 0 0 [2] "player" [], .tick, .leave, .leave, .tick, .leave, .leave, .tick, .setScope 1 1 [3] "admin" [],
    .tick, .leave, .leave, .tick, .leave, .leave, .tick, .leave]

theorem elevatedInTurn_followed : Followed visited (run step (start visited 2 fun _ => [1]) elevatedInTurn) :=
  (callers_follow visited 2 (fun _ => [1]) elevatedInTurn).2 (by decide) elevatedInTurn [] (append_nil _).symm (by decide)

/-- A scope change whose handler changes the scope again. -/
def elevatedWithin : List CallerInput :=
  [ .turn, .setScope 0 0 [2] "player" [], .tick, .setScope 0 1 [3] "admin" [], .tick, .leave, .leave, .tick, .tick, .leave,
    .leave, .tick, .leave, .leave, .tick, .leave]

/-- Both Callers are left with the id in between, which is gone from the table. -/
theorem elevatedWithin_not_followed : ¬∀ inputs : List CallerInput, (run step (start visited 2 fun _ => [1]) inputs).stack = [] →
    Followed visited (run step (start visited 2 fun _ => [1]) inputs) := by
  intro h
  have hfirst := (h elevatedWithin (by decide)).callers 0 (by decide)
  exact absurd hfirst (by decide)

end CallerRun
end SynQt
