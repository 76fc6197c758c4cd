import SynQt.Generated.Mirrors

/-! A front: a Source that relays to a Replica of the entity behind it. Its props, its models and
its signals are followed over three kinds of connection, and it is pointed elsewhere any number
of times. -/
namespace SynQt.Generated
open Synqtc Lib Function

universe u
variable {V : Type u} [DecidableEq V]

/-- The Replicas a front may be pointed at, each named by a number: the props they hold, the object
each of their models is, and the rows an object holds. Each is initialized, as the runtime announces
none before it is, so `synqtFollowProperty` finds every prop and every model of the contract. -/
structure Behind (V : Type u) where
  props : Nat → Property → V
  model : Nat → Model → Option Nat := fun _ _ => none
  rows : Nat → List (Row V) := fun _ => []

namespace Behind
variable (values : Values V) (b : Behind V)

/-- `qvariant_cast` of a Replica's property to the type of the front's. -/
def value (replica : Nat) (prop : Property) : V :=
  (values.convert prop.type (b.props replica prop)).getD (values.initial prop.type)

def rowsOf (replica : Nat) (model : Model) : List (Row V) :=
  match b.model replica model with
  | none => []
  | some object => b.rows object

end Behind

/-- A front's Source, the Replica it relays to, and what calls its pull slots: the Replicas it
follows, and the model objects. -/
structure Front (V : Type u) where
  source : Source V
  relay : Option Nat := none
  follows : Nat → Bool := fun _ => false
  followsModel : Nat → Model → Bool := fun _ _ => false

namespace Front
variable (values : Values V) (contract : Contract) (b : Behind V) (f : Front V)

/-- `synqtPull<Prop>`, for each prop of a list. -/
def pullProps (props : List Property) : Front V :=
  match f.relay with
  | none => f
  | some replica =>
    { f with source := (Source.each (fun s prop => s.setProp values prop (b.value values replica prop)) props f.source).1 }

/-- `synqtPull<Model>`, for each model of a list: the model's object is followed from here on. -/
def pullModels (models : List Model) : Front V :=
  match f.relay with
  | none => f
  | some replica =>
    { f with
      source := (Source.each (fun s model => s.setModel values model (b.rowsOf replica model)) models f.source).1,
      followsModel := fun object model =>
        f.followsModel object model || decide (model ∈ models ∧ b.model replica model = some object) }

/-- The Replica it was relaying to is let go of, with the objects its models are at the time. -/
def letGo (replica : Nat) : Front V :=
  { f with
    follows := update f.follows replica false,
    followsModel := fun object model =>
      f.followsModel object model && !contract.models.any fun other => b.model replica other == some object }

def synqtRelay (replica : Option Nat) : Front V :=
  let f :=
    match f.relay with
    | some old => if replica = some old then f else f.letGo contract b old
    | none => f
  let f := { f with relay := replica }
  match replica with
  | none => f
  | some replica =>
    let f := { f with follows := update f.follows replica true }
    (f.pullProps values b contract.props).pullModels values b contract.models

def forwards (slot : Slot) (arguments : List V) : Option Nat :=
  if f.source.callSlot values slot arguments = .onward then f.relay else none

end Front

/-- What happens to a front and to the Replicas: the relay is pointed, a Replica's prop changes or
its model becomes another object, an object's rows change, a Replica raises a signal or is
deleted, and the front's own caller moves. -/
inductive FrontEvent (V : Type u) where
  | relay (replica : Option Nat)
  | propChanged (replica : Nat) (prop : Property) (value : V)
  | modelReplaced (replica : Nat) (model : Model) (object : Option Nat)
  | rowsChanged (object : Nat) (rows : List (Row V))
  | raised (replica : Nat) (signal : Synqtc.Signal) (arguments : List V)
  | deleted (replica : Nat)
  | call (slot : Slot) (arguments : List V)
  | setCaller (caller : Option (String → Bool))
  | scopeChanged (hasScope : String → Bool)

structure Fronting (V : Type u) where
  front : Front V
  behind : Behind V

namespace Fronting
variable (values : Values V) (contract : Contract)

def step (r : Fronting V) : FrontEvent V → Fronting V
  | .relay replica => { r with front := r.front.synqtRelay values contract r.behind replica }
  | .propChanged replica prop value =>
    let behind := { r.behind with
      props := update r.behind.props replica (update (r.behind.props replica) prop value) }
    { behind := behind,
      front := if r.front.follows replica ∧ prop ∈ contract.props then r.front.pullProps values behind [prop] else r.front }
  | .modelReplaced replica model object =>
    let behind := { r.behind with
      model := update r.behind.model replica (update (r.behind.model replica) model object) }
    { behind := behind,
      front := if r.front.follows replica ∧ model ∈ contract.models then r.front.pullModels values behind [model]
        else r.front }
  | .rowsChanged object rows =>
    let behind := { r.behind with rows := update r.behind.rows object rows }
    { behind := behind,
      front := r.front.pullModels values behind (contract.models.filter (r.front.followsModel object)) }
  | .raised _ _ _ => r
  | .deleted replica =>
    { r with front := { r.front with
      relay := if r.front.relay = some replica then none else r.front.relay,
      follows := update r.front.follows replica false } }
  | .call _ _ => r
  | .setCaller caller =>
    { r with front := { r.front with source := (r.front.source.synqtSetCaller values contract caller).1 } }
  | .scopeChanged hasScope =>
    { r with front := { r.front with source := (r.front.source.scopeChanged values contract hasScope).1 } }

def sent (r : Fronting V) : FrontEvent V → List (Effect V)
  | .raised replica signal arguments =>
    if r.front.follows replica then r.front.source.emitSignal values signal arguments else []
  | _ => []

def start (behind : Behind V) : Fronting V := { front := { source := values.fresh }, behind := behind }

/-- The front at one event. Relaying to a Replica, each ungated prop is the one the Replica holds
unless that is over its bound, and each ungated model has the Replica's rows unless they do not
convert; what is refused leaves the member as it was. Relaying to none, nothing of it moves. What
leaves it, and whoever it forwards to, is of the Replica it relays to. -/
structure Shows (r : Fronting V) (event : FrontEvent V) : Prop where
  props : ∀ replica, (r.step values contract event).front.relay = some replica →
    ∀ prop ∈ contract.props, prop.scope = [] → (r.step values contract event).front.source.props prop =
      if values.overBound prop.type ((r.step values contract event).behind.value values replica prop) then
        r.front.source.props prop else (r.step values contract event).behind.value values replica prop
  models : ∀ replica, (r.step values contract event).front.relay = some replica →
    ∀ model ∈ contract.models, model.scope = [] → (r.step values contract event).front.source.models model =
      (values.items model ((r.step values contract event).behind.rowsOf replica model)).getD (r.front.source.models model)
  still : (r.step values contract event).front.relay = none →
    (∀ prop ∈ contract.props, prop.scope = [] →
      (r.step values contract event).front.source.props prop = r.front.source.props prop) ∧
    ∀ model ∈ contract.models, model.scope = [] →
      (r.step values contract event).front.source.models model = r.front.source.models model
  signals : ∀ effect ∈ r.sent values event, ∃ replica signal arguments,
    r.front.relay = some replica ∧ event = .raised replica signal arguments ∧ effect = .raised signal arguments
  slots : ∀ slot arguments replica, event = .call slot arguments →
    r.front.forwards values slot arguments = some replica → r.front.relay = some replica

/-- A front follows the Replica it relays to and no other, with the objects its models are, and
shows what that Replica holds. -/
structure Linked (r : Fronting V) : Prop where
  follows : ∀ replica, r.front.follows replica = true ↔ r.front.relay = some replica
  objects : ∀ replica, r.front.relay = some replica → ∀ model ∈ contract.models, ∀ object,
    r.behind.model replica model = some object → r.front.followsModel object model = true
  props : ∀ replica, r.front.relay = some replica → ∀ prop ∈ contract.props, prop.scope = [] →
    values.overBound prop.type (r.behind.value values replica prop) = true ∨
      r.front.source.props prop = r.behind.value values replica prop
  models : ∀ replica, r.front.relay = some replica → ∀ model ∈ contract.models, model.scope = [] →
    ∀ items, values.items model (r.behind.rowsOf replica model) = some items → r.front.source.models model = items

end Fronting

variable {values : Values V} {contract : Contract}

private theorem update_update_of_ne {α β γ : Type*} [DecidableEq α] [DecidableEq β] (f : α → β → γ) {a a' : α} {b b' : β} (c : γ)
    (hne : ¬ (a' = a ∧ b' = b)) : update f a (update (f a) b c) a' b' = f a' b' := by
  rw [update_apply]
  split
  · rename_i heq
    rw [heq, update_of_ne fun hb => hne ⟨heq, hb⟩]
  · rfl

namespace Source

private theorem regate_ungated (values : Values V) (contract : Contract) (s : Source V) :
    (∀ prop, prop.scope = [] → (s.synqtRegate values contract).1.props prop = s.props prop) ∧
    ∀ model, model.scope = [] → (s.synqtRegate values contract).1.models model = s.models model := by
  rw [synqtRegate_fst]
  constructor
  · intro prop hopen
    simp [mem_gatedProps, hopen]
  · intro model hopen
    simp [mem_gatedModels, hopen]

end Source

namespace Front
variable {f : Front V} {b : Behind V} {replica : Nat}

private theorem pullProps_idle (hnone : f.relay = none) (props : List Property) : f.pullProps values b props = f := by
  rw [pullProps, hnone]

private theorem pullModels_idle (hnone : f.relay = none) (models : List Model) : f.pullModels values b models = f := by
  rw [pullModels, hnone]

private theorem pullProps_nil (f : Front V) (b : Behind V) : f.pullProps values b [] = f := by
  rw [pullProps]
  split <;> rfl

private theorem pullModels_nil (f : Front V) (b : Behind V) : f.pullModels values b [] = f := by
  rw [pullModels]
  split
  · rfl
  · simp [Source.each]

private theorem pullProps_props (hrelay : f.relay = some replica) (props : List Property) {prop : Property} (hopen : prop.scope = []) :
    (f.pullProps values b props).source.props prop =
      if prop ∈ props ∧ values.overBound prop.type (b.value values replica prop) = false then b.value values replica prop
      else f.source.props prop := by
  rw [pullProps, hrelay]
  simp only [Source.each_setProp]
  rw [hopen, Source.allows_nil]
  simp only [if_true]

private theorem pullModels_models (hrelay : f.relay = some replica) (models : List Model) {model : Model} (hopen : model.scope = []) :
    (f.pullModels values b models).source.models model =
      if model ∈ models then (values.items model (b.rowsOf replica model)).getD (f.source.models model)
      else f.source.models model := by
  rw [pullModels, hrelay]
  simp only [Source.each_setModel]
  rw [hopen, Source.allows_nil]
  simp only [if_true]

section
variable (f : Front V)

section
variable (b : Behind V)

private theorem pullProps_models (props : List Property) :
    (f.pullProps values b props).source.models = f.source.models := by
  rw [pullProps]
  split
  · rfl
  · simp only [Source.each_setProp]

private theorem pullModels_props (models : List Model) :
    (f.pullModels values b models).source.props = f.source.props := by
  rw [pullModels]
  split
  · rfl
  · simp only [Source.each_setModel]

@[simp] theorem pullProps_relay (props : List Property) :
    (f.pullProps values b props).relay = f.relay := by
  rw [pullProps]
  split <;> rfl

@[simp] theorem pullProps_follows (props : List Property) :
    (f.pullProps values b props).follows = f.follows := by
  rw [pullProps]
  split <;> rfl

@[simp] theorem pullProps_followsModel (props : List Property) :
    (f.pullProps values b props).followsModel = f.followsModel := by
  rw [pullProps]
  split <;> rfl

@[simp] theorem pullModels_relay (models : List Model) :
    (f.pullModels values b models).relay = f.relay := by
  rw [pullModels]
  split <;> rfl

@[simp] theorem pullModels_follows (models : List Model) :
    (f.pullModels values b models).follows = f.follows := by
  rw [pullModels]
  split <;> rfl

end

end

private theorem pullModels_followsModel (hrelay : f.relay = some replica) (models : List Model) (object : Nat) (model : Model) :
    (f.pullModels values b models).followsModel object model = true ↔
      f.followsModel object model = true ∨ model ∈ models ∧ b.model replica model = some object := by
  rw [pullModels, hrelay]
  simp only [Bool.or_eq_true, decide_eq_true_eq]

theorem synqtRelay_some (f : Front V) (b : Behind V) (replica : Nat) :
    ∃ pointed : Front V, pointed.source = f.source ∧ pointed.relay = some replica ∧
      (∀ other, pointed.follows other = true ↔ other = replica ∨ (f.follows other = true ∧ f.relay ≠ some other)) ∧
      f.synqtRelay values contract b (some replica) =
        (pointed.pullProps values b contract.props).pullModels values b contract.models := by
  cases hrelay : f.relay with
  | none =>
    refine ⟨{ f with relay := some replica, follows := update f.follows replica true }, rfl, rfl, ?_, ?_⟩
    · intro other
      by_cases heq : other = replica <;> simp [heq]
    · rw [synqtRelay, hrelay]
  | some old =>
    by_cases hsame : replica = old
    · subst hsame
      refine ⟨{ f with relay := some replica, follows := update f.follows replica true }, rfl, rfl, ?_, ?_⟩
      · intro other
        by_cases heq : other = replica
        · simp [heq]
        · simp [heq, Ne.symm heq]
      · rw [synqtRelay, hrelay]
        simp only [if_true]
    · refine ⟨{ f.letGo contract b old with
          relay := some replica, follows := update (f.letGo contract b old).follows replica true },
        rfl, rfl, ?_, ?_⟩
      · intro other
        by_cases heq : other = replica
        · simp [heq]
        · by_cases hold : other = old
          · simp [letGo, hold, Ne.symm hsame]
          · simp [letGo, heq, hold, Ne.symm hold]
      · have hne : ¬ some replica = some old := fun h => hsame (Option.some.inj h)
        rw [synqtRelay, hrelay]
        simp only [hne, if_false]

private theorem synqtRelay_none (f : Front V) (b : Behind V) :
    (f.synqtRelay values contract b none).source = f.source ∧ (f.synqtRelay values contract b none).relay = none ∧
    ∀ other, (f.synqtRelay values contract b none).follows other = true → f.follows other = true ∧ f.relay ≠ some other := by
  cases hrelay : f.relay with
  | none =>
    rw [synqtRelay, hrelay]
    exact ⟨rfl, rfl, fun other hother => ⟨hother, fun h => nomatch h⟩⟩
  | some old =>
    rw [synqtRelay, hrelay]
    refine ⟨rfl, rfl, fun other hother => ?_⟩
    have hother : update f.follows old false other = true := hother
    rw [update_apply] at hother
    split at hother
    · cases hother
    · rename_i hne
      exact ⟨hother, fun h => hne (Option.some.inj h).symm⟩

end Front

namespace Fronting
variable {r : Fronting V}

variable {event : FrontEvent V}

/-- An event is shown when every ungated member it does not pull is of the same Replica, which
holds what it held. -/
theorem Linked.shows (h : r.Linked values contract)
    (hprops : ∀ replica, (r.step values contract event).front.relay = some replica →
      ∀ prop ∈ contract.props, prop.scope = [] →
        ((r.step values contract event).front.source.props prop =
          if values.overBound prop.type ((r.step values contract event).behind.value values replica prop) then
            r.front.source.props prop else (r.step values contract event).behind.value values replica prop) ∨
        ((r.step values contract event).front.source.props prop = r.front.source.props prop ∧
          r.front.relay = some replica ∧
          (r.step values contract event).behind.value values replica prop = r.behind.value values replica prop))
    (hmodels : ∀ replica, (r.step values contract event).front.relay = some replica →
      ∀ model ∈ contract.models, model.scope = [] →
        ((r.step values contract event).front.source.models model =
          (values.items model ((r.step values contract event).behind.rowsOf replica model)).getD
            (r.front.source.models model)) ∨
        ((r.step values contract event).front.source.models model = r.front.source.models model ∧
          r.front.relay = some replica ∧
          (r.step values contract event).behind.rowsOf replica model = r.behind.rowsOf replica model))
    (hstill : (r.step values contract event).front.relay = none →
      (∀ prop ∈ contract.props, prop.scope = [] →
        (r.step values contract event).front.source.props prop = r.front.source.props prop) ∧
      ∀ model ∈ contract.models, model.scope = [] →
        (r.step values contract event).front.source.models model = r.front.source.models model)
    (hsignals : ∀ effect ∈ r.sent values event, ∃ replica signal arguments,
      r.front.relay = some replica ∧ event = .raised replica signal arguments ∧ effect = .raised signal arguments) :
    r.Shows values contract event where
  props replica hrelay prop hprop hopen := by
    rcases hprops replica hrelay prop hprop hopen with hpulled | ⟨hsame, hbefore, hheld⟩
    · exact hpulled
    · rw [hsame, hheld]
      rcases h.props replica hbefore prop hprop hopen with hover | hcurrent
      · rw [if_pos hover]
      · rw [hcurrent, ite_self]
  models replica hrelay model hmodel hopen := by
    rcases hmodels replica hrelay model hmodel hopen with hpulled | ⟨hsame, hbefore, hheld⟩
    · exact hpulled
    · rw [hsame, hheld]
      cases hitems : values.items model (r.behind.rowsOf replica model) with
      | none => rfl
      | some items => exact h.models replica hbefore model hmodel hopen items hitems
  still := hstill
  signals := hsignals
  slots slot arguments replica _ hforwards := by
    rw [Front.forwards] at hforwards
    split at hforwards
    · exact hforwards
    · cases hforwards

private theorem Linked.of_shows (hshows : r.Shows values contract event)
    (hfollows : ∀ replica, (r.step values contract event).front.follows replica = true ↔
      (r.step values contract event).front.relay = some replica)
    (hobjects : ∀ replica, (r.step values contract event).front.relay = some replica → ∀ model ∈ contract.models,
      ∀ object, (r.step values contract event).behind.model replica model = some object →
        (r.step values contract event).front.followsModel object model = true) :
    (r.step values contract event).Linked values contract where
  follows := hfollows
  objects := hobjects
  props replica hrelay prop hprop hopen := by
    rw [hshows.props replica hrelay prop hprop hopen]
    cases values.overBound prop.type ((r.step values contract event).behind.value values replica prop) with
    | true => exact .inl rfl
    | false => exact .inr rfl
  models replica hrelay model hmodel hopen items hitems := by
    rw [hshows.models replica hrelay model hmodel hopen, hitems, Option.getD_some]

section
variable (h : r.Linked values contract)
include h

theorem Linked.relay_some (replica : Nat) :
    r.Shows values contract (.relay (some replica)) ∧ (r.step values contract (.relay (some replica))).Linked values contract := by
  obtain ⟨pointed, hsource, hrelay, hfollows, hfront⟩ :=
    @Front.synqtRelay_some V _ values contract r.front r.behind replica
  have hstep : (r.step values contract (.relay (some replica))).front =
      (pointed.pullProps values r.behind contract.props).pullModels values r.behind contract.models := hfront
  have hpulled : (pointed.pullProps values r.behind contract.props).relay = some replica := by
    rw [Front.pullProps_relay, hrelay]
  have hshows : r.Shows values contract (.relay (some replica)) := by
    refine h.shows (fun other hother prop hprop hopen => .inl ?_) (fun other hother model hmodel hopen => .inl ?_) ?_ ?_
    · rw [hstep, Front.pullModels_relay, hpulled] at hother
      cases hother
      rw [hstep, Front.pullModels_props, Front.pullProps_props hrelay contract.props hopen, hsource]
      simp only [hprop, true_and, ← Bool.not_eq_true, ite_not]
      rfl
    · rw [hstep, Front.pullModels_relay, hpulled] at hother
      cases hother
      rw [hstep, Front.pullModels_models hpulled contract.models hopen, if_pos hmodel, Front.pullProps_models, hsource]
      rfl
    · intro hnone
      rw [hstep, Front.pullModels_relay, hpulled] at hnone
      cases hnone
    · intro effect heffect
      cases heffect
  refine ⟨hshows, Linked.of_shows hshows (fun other => ?_) fun other hother model hmodel object hobject => ?_⟩
  · rw [hstep, Front.pullModels_follows, Front.pullProps_follows, hfollows, Front.pullModels_relay, hpulled, h.follows]
    constructor
    · rintro (rfl | ⟨hold, hnot⟩)
      · rfl
      · exact absurd hold hnot
    · intro hsame
      exact .inl (Option.some.inj hsame).symm
  · rw [hstep, Front.pullModels_relay, hpulled] at hother
    cases hother
    rw [hstep, Front.pullModels_followsModel hpulled]
    exact .inr ⟨hmodel, hobject⟩

private theorem Linked.relay_none :
    r.Shows values contract (.relay none) ∧ (r.step values contract (.relay none)).Linked values contract := by
  obtain ⟨hsource, hrelay, hfollows⟩ := @Front.synqtRelay_none V _ values contract r.front r.behind
  have hfront : (r.step values contract (.relay none)).front = r.front.synqtRelay values contract r.behind none := rfl
  have hnone {other : Nat} (hother : (r.step values contract (.relay none)).front.relay = some other) : False := by
    rw [hfront, hrelay] at hother
    cases hother
  have hshows : r.Shows values contract (.relay none) := by
    refine h.shows (fun other hother => (hnone hother).elim) (fun other hother => (hnone hother).elim) (fun _ => ?_) ?_
    · rw [hfront, hsource]
      exact ⟨fun _ _ _ => rfl, fun _ _ _ => rfl⟩
    · intro effect heffect
      cases heffect
  refine ⟨hshows, Linked.of_shows hshows (fun other => ?_) fun other hother => (hnone hother).elim⟩
  rw [hfront, hrelay]
  constructor
  · intro hother
    obtain ⟨hold, hnot⟩ := hfollows other hother
    exact absurd ((h.follows other).mp hold) hnot
  · intro hother
    cases hother

/-- The values of the Replica that is relayed to may have moved for some props, and those are pulled. -/
theorem Linked.pulledProps (props : List Property)
    (hfront : (r.step values contract event).front = r.front.pullProps values (r.step values contract event).behind props)
    (hvalue : ∀ other, r.front.relay = some other → ∀ prop ∈ contract.props, prop ∉ props →
      (r.step values contract event).behind.value values other prop = r.behind.value values other prop)
    (hrows : ∀ other model, (r.step values contract event).behind.rowsOf other model = r.behind.rowsOf other model)
    (hmodel : ∀ other model, (r.step values contract event).behind.model other model = r.behind.model other model)
    (hsent : r.sent values event = []) :
    r.Shows values contract event ∧ (r.step values contract event).Linked values contract := by
  have hrelay : (r.step values contract event).front.relay = r.front.relay := by
    rw [hfront, Front.pullProps_relay]
  have hmodels : (r.step values contract event).front.source.models = r.front.source.models := by
    rw [hfront, Front.pullProps_models]
  have hshows : r.Shows values contract event := by
    refine h.shows (fun other hother prop hprop hopen => ?_) (fun other hother model _ _ => .inr ?_) (fun hnone => ?_) ?_
    · rw [hrelay] at hother
      rw [hfront, Front.pullProps_props hother props hopen]
      by_cases hpulled : prop ∈ props
      · simp only [hpulled, true_and, ← Bool.not_eq_true, ite_not]
        exact .inl trivial
      · simp only [hpulled, false_and, if_false]
        exact .inr ⟨trivial, hother, hvalue other hother prop hprop hpulled⟩
    · rw [hrelay] at hother
      exact ⟨congrFun hmodels model, hother, hrows other model⟩
    · rw [hrelay] at hnone
      rw [hfront, Front.pullProps_idle hnone]
      exact ⟨fun _ _ _ => rfl, fun _ _ _ => rfl⟩
    · rw [hsent]
      exact List.forall_mem_nil _
  refine ⟨hshows, Linked.of_shows hshows (fun other => ?_) fun other hother model hmem object hobject => ?_⟩
  · rw [hrelay, ← h.follows, hfront, Front.pullProps_follows]
  · rw [hrelay] at hother
    rw [hmodel] at hobject
    rw [hfront, Front.pullProps_followsModel]
    exact h.objects other hother model hmem object hobject

private theorem Linked.propChanged (replica : Nat) (prop : Property) (value : V) :
    r.Shows values contract (.propChanged replica prop value) ∧
    (r.step values contract (.propChanged replica prop value)).Linked values contract := by
  have hvalue (other : Nat) (q : Property) (hne : ¬ (other = replica ∧ q = prop)) :
      (r.step values contract (.propChanged replica prop value)).behind.value values other q = r.behind.value values other q := by
    have hprops : (r.step values contract (.propChanged replica prop value)).behind.props other q = r.behind.props other q :=
      update_update_of_ne r.behind.props value hne
    rw [Behind.value, Behind.value, hprops]
  by_cases hpulls : r.front.follows replica = true ∧ prop ∈ contract.props
  · refine h.pulledProps [prop] (if_pos hpulls) (fun other _ q _ hnot => ?_) (fun _ _ => rfl) (fun _ _ => rfl) rfl
    exact hvalue other q fun hboth => hnot (List.mem_singleton.mpr hboth.2)
  · refine h.pulledProps [] ((if_neg hpulls).trans (Front.pullProps_nil _ _).symm) (fun other hother q hq _ => ?_)
      (fun _ _ => rfl) (fun _ _ => rfl) rfl
    apply hvalue
    rintro ⟨rfl, rfl⟩
    exact hpulls ⟨(h.follows other).mpr hother, hq⟩

theorem Linked.pulled (models : List Model)
    (hfront : (r.step values contract event).front =
      r.front.pullModels values (r.step values contract event).behind models)
    (hvalue : ∀ other prop, (r.step values contract event).behind.value values other prop = r.behind.value values other prop)
    (hrows : ∀ other, r.front.relay = some other → ∀ model ∈ contract.models, model ∉ models →
      (r.step values contract event).behind.rowsOf other model = r.behind.rowsOf other model ∧
      (r.step values contract event).behind.model other model = r.behind.model other model)
    (hsent : r.sent values event = []) :
    r.Shows values contract event ∧ (r.step values contract event).Linked values contract := by
  have hrelay : (r.step values contract event).front.relay = r.front.relay := by
    rw [hfront, Front.pullModels_relay]
  have hprops : (r.step values contract event).front.source.props = r.front.source.props := by
    rw [hfront, Front.pullModels_props]
  have hshows : r.Shows values contract event := by
    refine h.shows (fun other hother prop _ _ => .inr ?_) (fun other hother model hmem hopen => ?_) (fun hnone => ?_) ?_
    · rw [hrelay] at hother
      exact ⟨congrFun hprops prop, hother, hvalue other prop⟩
    · rw [hrelay] at hother
      rw [hfront, Front.pullModels_models hother models hopen]
      by_cases hpulled : model ∈ models
      · rw [if_pos hpulled]
        exact .inl rfl
      · rw [if_neg hpulled]
        exact .inr ⟨rfl, hother, (hrows other hother model hmem hpulled).1⟩
    · rw [hrelay] at hnone
      rw [hfront, Front.pullModels_idle hnone]
      exact ⟨fun _ _ _ => rfl, fun _ _ _ => rfl⟩
    · rw [hsent]
      exact List.forall_mem_nil _
  refine ⟨hshows, Linked.of_shows hshows (fun other => ?_) fun other hother model hmem object hobject => ?_⟩
  · rw [hrelay, ← h.follows, hfront, Front.pullModels_follows]
  · rw [hrelay] at hother
    rw [hfront, Front.pullModels_followsModel hother]
    by_cases hpulled : model ∈ models
    · exact .inr ⟨hpulled, hobject⟩
    · rw [(hrows other hother model hmem hpulled).2] at hobject
      exact .inl (h.objects other hother model hmem object hobject)

private theorem Linked.modelReplaced (replica : Nat) (model : Model) (object : Option Nat) :
    r.Shows values contract (.modelReplaced replica model object) ∧
    (r.step values contract (.modelReplaced replica model object)).Linked values contract := by
  have hrows (other : Nat) (q : Model) (hne : ¬ (other = replica ∧ q = model)) :
      (r.step values contract (.modelReplaced replica model object)).behind.rowsOf other q = r.behind.rowsOf other q ∧
      (r.step values contract (.modelReplaced replica model object)).behind.model other q = r.behind.model other q := by
    have hsame : (r.step values contract (.modelReplaced replica model object)).behind.model other q =
        r.behind.model other q := update_update_of_ne r.behind.model object hne
    refine ⟨?_, hsame⟩
    rw [Behind.rowsOf, Behind.rowsOf, hsame]
    rfl
  by_cases hpulls : r.front.follows replica = true ∧ model ∈ contract.models
  · refine h.pulled [model] (if_pos hpulls) (fun _ _ => rfl) (fun other _ q _ hnot => ?_) rfl
    exact hrows other q fun hboth => hnot (List.mem_singleton.mpr hboth.2)
  · refine h.pulled [] ((if_neg hpulls).trans (Front.pullModels_nil _ _).symm) (fun _ _ => rfl)
      (fun other hother q hq _ => ?_) rfl
    apply hrows
    rintro ⟨rfl, rfl⟩
    exact hpulls ⟨(h.follows other).mpr hother, hq⟩

theorem Linked.rowsChanged (object : Nat) (rows : List (Row V)) :
    r.Shows values contract (.rowsChanged object rows) ∧
    (r.step values contract (.rowsChanged object rows)).Linked values contract := by
  refine h.pulled (contract.models.filter (r.front.followsModel object)) rfl (fun _ _ => rfl)
    (fun other hother model hmodel hnot => ⟨?_, rfl⟩) rfl
  rw [Behind.rowsOf, Behind.rowsOf]
  show (match r.behind.model other model with | none => [] | some o => update r.behind.rows object rows o) = _
  cases hobject : r.behind.model other model with
  | none => rfl
  | some o =>
    have hne : o ≠ object := by
      rintro rfl
      exact hnot (List.mem_filter.mpr ⟨hmodel, h.objects other hother model hmodel o hobject⟩)
    exact update_of_ne hne rows r.behind.rows

private theorem Linked.recalled {event : FrontEvent V} {source : Source V}
    (hstep : r.step values contract event = { r with front := { r.front with source := source } })
    (hprops : ∀ prop, prop.scope = [] → source.props prop = r.front.source.props prop)
    (hmodels : ∀ model, model.scope = [] → source.models model = r.front.source.models model)
    (hsignals : ∀ effect ∈ r.sent values event, ∃ replica signal arguments,
      r.front.relay = some replica ∧ event = .raised replica signal arguments ∧ effect = .raised signal arguments) :
    r.Shows values contract event ∧ (r.step values contract event).Linked values contract := by
  have hshows : r.Shows values contract event := by
    refine h.shows ?_ ?_ ?_ hsignals
    · rw [hstep]
      exact fun other hother prop _ hopen => .inr ⟨hprops prop hopen, hother, rfl⟩
    · rw [hstep]
      exact fun other hother model _ hopen => .inr ⟨hmodels model hopen, hother, rfl⟩
    · rw [hstep]
      exact fun _ => ⟨fun prop _ hopen => hprops prop hopen, fun model _ hopen => hmodels model hopen⟩
  refine ⟨hshows, Linked.of_shows hshows ?_ ?_⟩
  · rw [hstep]
    exact h.follows
  · rw [hstep]
    exact h.objects

theorem Linked.deleted (replica : Nat) :
    r.Shows values contract (.deleted replica) ∧ (r.step values contract (.deleted replica)).Linked values contract := by
  have hrelay {other : Nat} (hother : (r.step values contract (.deleted replica)).front.relay = some other) :
      r.front.relay = some other ∧ other ≠ replica := by
    have hkept : (if r.front.relay = some replica then none else r.front.relay) = some other := hother
    split at hkept
    · cases hkept
    · rename_i hne
      refine ⟨hkept, fun heq => hne ?_⟩
      rw [← heq]
      exact hkept
  have hshows : r.Shows values contract (.deleted replica) := by
    refine h.shows (fun other hother prop _ _ => .inr ⟨rfl, (hrelay hother).1, rfl⟩)
      (fun other hother model _ _ => .inr ⟨rfl, (hrelay hother).1, rfl⟩) (fun _ => ⟨fun _ _ _ => rfl, fun _ _ _ => rfl⟩) ?_
    intro effect heffect
    cases heffect
  refine ⟨hshows, Linked.of_shows hshows (fun other => ?_) fun other hother => h.objects other (hrelay hother).1⟩
  show update r.front.follows replica false other = true ↔ _
  rw [update_apply]
  constructor
  · intro hother
    split at hother
    · cases hother
    · rename_i hne
      have hpointed := (h.follows other).mp hother
      show (if r.front.relay = some replica then none else r.front.relay) = some other
      rw [hpointed, if_neg fun hsame => hne (Option.some.inj hsame)]
  · intro hother
    obtain ⟨hpointed, hne⟩ := hrelay hother
    rw [if_neg hne]
    exact (h.follows other).mpr hpointed

theorem Linked.step (event : FrontEvent V) :
    r.Shows values contract event ∧ (r.step values contract event).Linked values contract := by
  have hquiet {event : FrontEvent V} (hsent : r.sent values event = []) : ∀ effect ∈ r.sent values event,
      ∃ replica signal arguments, r.front.relay = some replica ∧ event = .raised replica signal arguments ∧
        effect = .raised signal arguments := by
    rw [hsent]
    exact fun effect heffect => nomatch heffect
  cases event with
  | relay replica =>
    cases replica with
    | none => exact h.relay_none
    | some replica => exact h.relay_some replica
  | propChanged replica prop value => exact h.propChanged replica prop value
  | modelReplaced replica model object => exact h.modelReplaced replica model object
  | rowsChanged object rows => exact h.rowsChanged object rows
  | deleted replica => exact h.deleted replica
  | raised replica signal arguments =>
    refine @Linked.recalled V _ values contract r h _ r.front.source rfl (fun _ _ => rfl) (fun _ _ => rfl) fun effect heffect => ?_
    rw [sent] at heffect
    split at heffect
    · rename_i hfollows
      rw [Source.emitSignal] at heffect
      split at heffect
      · cases heffect
      · split at heffect
        · cases heffect
        · exact ⟨replica, signal, arguments, (h.follows replica).mp hfollows, rfl, List.mem_singleton.mp heffect⟩
    · cases heffect
  | call slot arguments => exact @Linked.recalled V _ values contract r h _ r.front.source rfl (fun _ _ => rfl) (fun _ _ => rfl) (hquiet rfl)
  | setCaller caller =>
    obtain ⟨hprops, hmodels⟩ := Source.regate_ungated values contract { r.front.source with caller := caller }
    exact h.recalled rfl hprops hmodels (hquiet rfl)
  | scopeChanged hasScope =>
    refine h.recalled rfl (fun prop hopen => ?_) (fun model hopen => ?_) (hquiet rfl)
    · rw [Source.scopeChanged]
      split
      · exact (Source.regate_ungated values contract { r.front.source with caller := some hasScope }).1 prop hopen
      · rfl
    · rw [Source.scopeChanged]
      split
      · exact (Source.regate_ungated values contract { r.front.source with caller := some hasScope }).2 model hopen
      · rfl

end

/-- Over every run a front shows the Replica it relays to, hears no other, and keeps what it
showed when it relays to none. -/
theorem each_shows (values : Values V) (contract : Contract) (behind : Behind V) (events : List (FrontEvent V)) :
    Each (step values contract) (Shows values contract) (start values behind) events := by
  have hgo (r : Fronting V) (h : r.Linked values contract) : Each (step values contract) (Shows values contract) r events := by
    induction events generalizing r with
    | nil => trivial
    | cons event events ih => exact ⟨(h.step event).1, ih _ (h.step event).2⟩
  refine hgo _ ⟨fun replica => iff_of_false Bool.false_ne_true (by simp [start]), ?_, ?_, ?_⟩
  · exact fun replica h => nomatch h
  · exact fun replica h => nomatch h
  · exact fun replica h => nomatch h

def headline : Property := { type := "string[4]", name := "headline" }

/-- One entity with a headline that fits, and one with a headline that does not. -/
def tiers : Behind String := { props := fun replica _ => if replica = 0 then "open" else "closed" }

/-- What a front showed of a Replica it has left stays where it is pointed at nothing, and where the
next one's value is over the bound. -/
theorem kept_from_replica_left :
    (let r := run (step texts { name := "Gate", members := [.prop headline] }) (start texts tiers)
      [.relay (some 0), .relay none];
      r.front.relay = none ∧ r.front.source.props headline = "open") ∧
    (let r := run (step texts { name := "Gate", members := [.prop headline] }) (start texts tiers)
      [.relay (some 0), .relay (some 1)];
      r.front.relay = some 1 ∧ r.front.source.props headline = "open") := by
  decide

end Fronting
end SynQt.Generated
