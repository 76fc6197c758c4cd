import SynQt.Generated.Gating

/-! A shared Source and the mirrors of it, one for each caller: what the shared Source publishes
and raises is followed outward, and a mirror's gate is its own. -/
namespace SynQt.Generated
open Synqtc Lib List

universe u
variable {V : Type u} [DecidableEq V]

namespace Source
variable (values : Values V) (contract : Contract)

def follow (s : Source V) : Effect V → Source V × List (Effect V)
  | .changed prop value => s.setProp values prop value
  | .rowsChanged model rows => s.setModel values model rows
  | .raised signal arguments => (s, s.emitSignal values signal arguments)

/-- `synqtMirror`: the shared Source's state as it stands, before it is followed. -/
def synqtMirror (s shared : Source V) : Source V :=
  let props := each (fun s prop => s.setProp values prop (shared.props prop)) contract.props s
  (each (fun s model => s.setModel values model (shared.rows model)) contract.models props.1).1

end Source

/-- What happens to a shared Source, to the mirrors of it, and to one mirror's caller. -/
inductive SharedEvent (V : Type u) where
  | assign (prop : Property) (value : V)
  | publish (model : Model) (rows : List (Row V))
  | emitSignal (signal : Synqtc.Signal) (arguments : List V)
  | raise (signal : Synqtc.Signal) (arguments : List V)
  | holdsSharedState
  | mirror (hasScope : String → Bool)
  | setCaller (mirror : Nat) (caller : Option (String → Bool))
  | scopeChanged (mirror : Nat) (hasScope : String → Bool)
  | emitTo (mirror : Nat) (signal : Synqtc.Signal) (arguments : List V)
  | call (mirror : Nat) (slot : Slot) (arguments : List V)

/-- A shared Source and its mirrors, beside what its owner last assigned. -/
structure Sharing (V : Type u) where
  shared : Source V
  mirrors : List (Source V) := []
  owned : Owned V

namespace Sharing
variable (values : Values V) (contract : Contract)

def start : Sharing V := { shared := values.fresh, owned := .none values }

/-- What an event leaves of the shared Source, and what leaves it. The runtime tells it once that
it holds the shared state, before the first mirror of it is made. -/
def reactShared (r : Sharing V) : SharedEvent V → Source V × List (Effect V)
  | .assign prop value => r.shared.setProp values prop value
  | .publish model rows => r.shared.setModel values model rows
  | .emitSignal signal arguments => (r.shared, r.shared.emitSignal values signal arguments)
  | .raise signal arguments => (r.shared, Source.raise signal arguments)
  | .holdsSharedState =>
    if r.shared.ungated then (r.shared, []) else r.shared.synqtHoldsSharedState values contract
  | _ => (r.shared, [])

def reactMirror (r : Sharing V) (i : Nat) (mirror : Source V) : SharedEvent V → Source V × List (Effect V)
  | .setCaller j caller => if i = j then mirror.synqtSetCaller values contract caller else (mirror, [])
  | .scopeChanged j hasScope => if i = j then mirror.scopeChanged values contract hasScope else (mirror, [])
  | .emitTo j signal arguments => if i = j then (mirror, mirror.emitSignal values signal arguments) else (mirror, [])
  | event => Source.each (Source.follow values) (reactShared values contract r event).2 mirror

/-- A mirror made for a caller: it is bound first, and takes what the shared Source publishes. -/
def made (r : Sharing V) (hasScope : String → Bool) : Source V :=
  (values.fresh.synqtSetCaller values contract (some hasScope)).1.synqtMirror values contract r.shared

def step (r : Sharing V) (event : SharedEvent V) : Sharing V where
  shared := (reactShared values contract r event).1
  mirrors := r.mirrors.mapIdx (fun i mirror => (r.reactMirror values contract i mirror event).1) ++
    match event with
    | .mirror hasScope => if r.shared.ungated then [r.made values contract hasScope] else []
    | _ => []
  owned :=
    match event with
    | .assign prop value => r.owned.assign values prop value
    | .publish model rows => r.owned.publish values model rows
    | _ => r.owned

/-- A slot called on a mirror is answered by the shared Source's owner. -/
def answers (r : Sharing V) (mirror : Source V) (slot : Slot) (arguments : List V) : Bool :=
  mirror.callSlot values slot arguments == .onward && r.shared.callSlot values slot arguments == .onward

/-- The gates at one event, at every mirror and every caller. -/
structure Gated (r : Sharing V) (event : SharedEvent V) : Prop where
  shared : (r.step values contract event).shared.Publishes values contract (r.step values contract event).owned
  published : ∀ mirror ∈ (r.step values contract event).mirrors,
    mirror.Publishes values contract (r.step values contract event).owned
  signals : ∀ (i : Nat) mirror, r.mirrors[i]? = some mirror → ∀ signal arguments,
    .raised signal arguments ∈ (r.reactMirror values contract i mirror event).2 → mirror.allows signal.scope = true
  slots : ∀ i slot arguments mirror, event = .call i slot arguments → r.mirrors[i]? = some mirror →
    r.answers values mirror slot arguments = true → mirror.allows slot.scope = true

/-- A mirror made for a caller shows them what the owner last assigned. -/
def OpensNew (r : Sharing V) (hasScope : String → Bool) : Prop :=
  ∀ model ∈ Source.gatedModels contract, model.scope.any hasScope = true →
    (values.items model (r.shared.rows model)).isSome = true ∨ r.owned.shows values model = []

/-- Wherever a gated model opens, the rows that are remembered of it convert. -/
def Respects (r : Sharing V) : SharedEvent V → Prop
  | .holdsSharedState =>
    r.shared.ungated = false → r.shared.Opens values contract r.owned r.shared.caller true
  | .mirror hasScope => r.shared.ungated = true → r.OpensNew values contract hasScope
  | .setCaller i caller => ∀ mirror, r.mirrors[i]? = some mirror → mirror.Opens values contract r.owned caller mirror.ungated
  | .scopeChanged i hasScope => ∀ mirror, r.mirrors[i]? = some mirror → mirror.caller.isSome = true →
      mirror.Opens values contract r.owned (some hasScope) mirror.ungated
  | _ => True

structure Kept (r : Sharing V) : Prop where
  shared : r.shared.Faithful values contract r.owned
  mirrors : ∀ mirror ∈ r.mirrors, mirror.Faithful values contract r.owned
  ready : r.mirrors ≠ [] → r.shared.ungated = true
  accepted : r.owned.Accepted values

end Sharing

variable {values : Values V} {contract : Contract}

namespace Source
variable {s : Source V} {o : Owned V}

omit [DecidableEq V] in
theorem allows_ungated (h : s.ungated = true) (scopes : List String) : s.allows scopes = true := by
  rw [allows, h, Bool.true_or, Bool.true_or]

theorem setProp_snd (h : s.ungated = true) (prop : Property) (value : V) :
    (s.setProp values prop value).2 =
      if values.overBound prop.type value ∨ s.props prop = value then [] else [.changed prop value] := by
  rw [setProp]
  split
  · rename_i hover
    rw [if_pos (.inl hover)]
  · rename_i hfits
    have hallowed (held : Property → V) : Source.allows { s with held := held } prop.scope = true :=
      allows_ungated h prop.scope
    simp only [hallowed, hfits, false_or, Bool.not_true, Bool.false_eq_true, if_false]
    split <;> (rw [simpleSet]; split <;> rfl)

theorem setModel_snd (h : s.ungated = true) (model : Model) (rows : List (Row V)) :
    (s.setModel values model rows).2 = if (values.items model rows).isSome then [.rowsChanged model rows] else [] := by
  have hallowed : Source.allows (if model.scope.isEmpty then s else { s with rows := Function.update s.rows model rows })
      model.scope = true := by
    split <;> exact allows_ungated h model.scope
  rw [setModel]
  simp only [hallowed, Bool.not_true, Bool.false_eq_true, if_false]
  cases values.items model rows <;> rfl

private theorem Faithful.assign_same (h : s.Faithful values contract o) {prop : Property} {value : V}
    (hsame : prop ∈ contract.props → o.assigned prop = value) :
    s.Faithful values contract (o.assign values prop value) := by
  rw [Owned.assign]
  split
  · exact h
  · have hassigned (other : Property) (hother : other ∈ contract.props) :
        Function.update o.assigned prop value other = o.assigned other := by
      rw [Function.update_apply]
      split
      · rename_i heq
        rw [heq] at hother ⊢
        exact (hsame hother).symm
      · rfl
    refine ⟨⟨fun other hother hgated => ?_, h.remembers.rows, h.remembers.openRows⟩,
      ⟨fun other hother => ?_, h.publishes.models⟩⟩
    · rw [h.remembers.held other hother hgated]
      exact (hassigned other hother).symm
    · simp only [hassigned other hother]
      exact h.publishes.props other hother

theorem fresh_setCaller (values : Values V) (contract : Contract) (caller : Option (String → Bool)) :
    (values.fresh.synqtSetCaller values contract caller).1 = { values.fresh with caller := caller } := by
  rw [synqtSetCaller, synqtRegate_fst]
  congr 1
  · funext prop
    split
    · split <;> rfl
    · rfl
  · funext model
    split
    · split <;> rfl
    · rfl

theorem mirror_fst (values : Values V) (contract : Contract) (shared : Source V) (caller : Option (String → Bool)) :
    (Source.synqtMirror values contract { values.fresh with caller := caller } shared) =
      { props := fun prop => if prop ∈ contract.props ∧ values.overBound prop.type (shared.props prop) = false then
          (if Source.allows { values.fresh with caller := caller } prop.scope then shared.props prop
            else values.initial prop.type) else values.initial prop.type,
        held := fun prop => if prop ∈ contract.props ∧ values.overBound prop.type (shared.props prop) = false ∧
          prop.scope.isEmpty = false then shared.props prop else values.initial prop.type,
        models := fun model => if model ∈ contract.models then
          (if Source.allows { values.fresh with caller := caller } model.scope then
            (values.items model (shared.rows model)).getD [] else []) else [],
        rows := fun model => if model ∈ contract.models ∧
          (model.scope.isEmpty && (values.items model (shared.rows model)).isNone) = false then shared.rows model else [],
        caller := caller } := by
  rw [synqtMirror, each_setModel, each_setProp]
  rfl

theorem Faithful.assigned {shared mirror : Source V} (hshared : shared.Faithful values contract o)
    (hungated : shared.ungated = true) (h : mirror.Faithful values contract o) (prop : Property) (value : V) :
    (each (follow values) (shared.setProp values prop value).2 mirror).1.Faithful values contract
      (o.assign values prop value) := by
  rw [setProp_snd hungated]
  split
  · rename_i hquiet
    rcases hquiet with hover | hsame
    · rw [Owned.assign, if_pos hover]
      exact h
    · refine h.assign_same fun hprop => ?_
      have hpublished := hshared.publishes.props prop hprop
      rw [allows_ungated hungated, if_pos rfl] at hpublished
      rw [← hpublished]
      exact hsame
  · exact h.setProp prop value

theorem Faithful.published {shared mirror : Source V} (h : mirror.Faithful values contract o)
    (hungated : shared.ungated = true) (model : Model) (rows : List (Row V)) :
    (each (follow values) (shared.setModel values model rows).2 mirror).1.Faithful values contract
      (o.publish values model rows) := by
  rw [setModel_snd hungated]
  split
  · exact h.setModel model rows
  · rename_i hrefused
    rw [Owned.publish, if_neg hrefused]
    exact h

end Source

namespace Sharing
variable {r : Sharing V}

private theorem Kept.openItems (h : r.Kept values contract) {model : Model} (hmodel : model ∈ contract.models)
    (hopen : model.scope.isEmpty = true) : (values.items model (r.shared.rows model)).isNone = false := by
  have hitems := h.accepted.converts model
  rw [← h.shared.remembers.openRows model hmodel hopen] at hitems
  rw [← Bool.not_eq_true, Option.isNone_iff_eq_none]
  exact Option.isSome_iff_ne_none.mp hitems

theorem Kept.made (h : r.Kept values contract) (hready : r.shared.ungated = true) (hasScope : String → Bool) :
    ((r.made values contract hasScope).Publishes values contract r.owned ↔ r.OpensNew values contract hasScope) ∧
    (r.OpensNew values contract hasScope → (r.made values contract hasScope).Faithful values contract r.owned) := by
  have hassigned (prop : Property) (hprop : prop ∈ contract.props) : r.shared.props prop = r.owned.assigned prop := by
    rw [h.shared.publishes.props prop hprop, Source.allows_ungated hready, if_pos rfl]
  have hmade : r.made values contract hasScope = _ :=
    (congrArg (Source.synqtMirror values contract · r.shared)
      (Source.fresh_setCaller values contract (some hasScope))).trans
      (Source.mirror_fst values contract r.shared (some hasScope))
  have hallows (scopes : List String) : (r.made values contract hasScope).allows scopes =
      Source.allows { values.fresh with caller := some hasScope } scopes := by
    rw [hmade]
    exact Source.allows_congr rfl rfl scopes
  have hremembers : (r.made values contract hasScope).Remembers values contract r.owned := by
    rw [hmade]
    refine ⟨fun prop hprop hgated => ?_, fun model hmodel hconverts => ?_, fun model hmodel hopen => ?_⟩
    · simp only [hprop, hgated, hassigned prop hprop, true_and, and_true]
      rcases h.accepted.fits prop with hinitial | hfits
      · rw [hinitial, ite_self]
      · rw [if_pos hfits]
    · have hrows := h.shared.remembers.rows model hmodel
      cases hgate : model.scope.isEmpty with
      | false => simpa [hmodel, hgate] using hrows (by simpa [hmodel, hgate] using hconverts)
      | true => simpa [hmodel, hgate, h.openItems hmodel hgate] using h.shared.remembers.openRows model hmodel hgate
    · simpa [hmodel, hopen, h.openItems hmodel hopen] using h.shared.remembers.openRows model hmodel hopen
  have hprops : ∀ prop ∈ contract.props, (r.made values contract hasScope).props prop =
      if (r.made values contract hasScope).allows prop.scope then r.owned.assigned prop else values.initial prop.type := by
    intro prop hprop
    rw [hallows, hmade]
    simp only [hprop, hassigned prop hprop, true_and]
    rcases h.accepted.fits prop with hinitial | hfits
    · simp only [hinitial, ite_self]
    · rw [if_pos hfits]
  have hmodel : ∀ model ∈ contract.models, ((r.made values contract hasScope).models model =
      (if (r.made values contract hasScope).allows model.scope then r.owned.shows values model else []) ↔
      (model.scope.isEmpty = false → model.scope.any hasScope = true →
        (values.items model (r.shared.rows model)).isSome = true ∨ r.owned.shows values model = [])) := by
    intro model hmodel
    rw [hallows, hmade]
    simp only [hmodel, if_true]
    have hrows := h.shared.remembers.rows model hmodel
    cases hgate : model.scope.isEmpty with
    | true =>
      have hopened := h.shared.remembers.openRows model hmodel hgate
      have hnil : model.scope = [] := isEmpty_iff.mp hgate
      rw [hnil, Source.allows_nil, hopened]
      simp [Owned.shows]
    | false =>
      have hgated : Source.allows { values.fresh with caller := some hasScope } model.scope = model.scope.any hasScope := by
        rw [Source.allows, hgate]
        rfl
      rw [hgated]
      cases model.scope.any hasScope with
      | false => simp
      | true =>
        simp only [if_true, forall_const]
        rw [Owned.getD_items_eq [] hrows]
        exact or_congr_right eq_comm
  exact hremembers.faithful_iff hprops ((forall₂_congr hmodel).trans Source.forall_gatedModels.symm)

private theorem raised_follow {signal : Synqtc.Signal} {arguments : List V} (effects : List (Effect V)) (mirror : Source V)
    (h : .raised signal arguments ∈ (Source.each (Source.follow values) effects mirror).2) :
    mirror.allows signal.scope = true := by
  induction effects generalizing mirror with
  | nil => cases h
  | cons effect rest ih =>
    rw [Source.each, mem_append] at h
    have hallows : (Source.follow values mirror effect).1.allows signal.scope = mirror.allows signal.scope := by
      cases effect with
      | changed prop value => exact Source.setProp_allows values mirror prop value signal.scope
      | rowsChanged model rows => exact Source.setModel_allows values mirror model rows signal.scope
      | raised _ _ => rfl
    rcases h with hfirst | hlater
    · cases effect with
      | changed prop value => exact absurd hfirst (Source.setProp_quiet values mirror prop value signal arguments)
      | rowsChanged model rows => exact absurd hfirst (Source.setModel_quiet values mirror model rows signal arguments)
      | raised _ _ =>
        obtain ⟨rfl, -, hallowed, -⟩ := Source.raised_emitSignal hfirst
        exact hallowed
    · rw [← hallows]
      exact ih _ hlater

private theorem raised_reactMirror (r : Sharing V) (i : Nat) (mirror : Source V) (event : SharedEvent V) {signal : Synqtc.Signal}
    {arguments : List V} (h : .raised signal arguments ∈ (r.reactMirror values contract i mirror event).2) :
    mirror.allows signal.scope = true := by
  cases event with
  | setCaller j caller =>
    rw [reactMirror] at h
    split at h
    · exact absurd h (Source.synqtRegate_quiet values contract _ signal arguments)
    · cases h
  | scopeChanged j hasScope =>
    rw [reactMirror, Source.scopeChanged] at h
    split at h
    · split at h
      · exact absurd h (Source.synqtRegate_quiet values contract _ signal arguments)
      · cases h
    · cases h
  | emitTo j _ _ =>
    rw [reactMirror] at h
    split at h
    · obtain ⟨rfl, -, hallowed, -⟩ := Source.raised_emitSignal h
      exact hallowed
    · cases h
  | assign _ _ | publish _ _ | emitSignal _ _ | raise _ _ | holdsSharedState | mirror _
  | call _ _ _ => exact raised_follow _ mirror h

theorem reactMirror_cases (values : Values V) (contract : Contract) {r : Sharing V} (hungated : r.shared.ungated = true)
    (i : Nat) (mirror : Source V) (event : SharedEvent V) :
    (r.reactMirror values contract i mirror event).1 = mirror ∧ (r.step values contract event).owned = r.owned ∨
    (∃ prop value, event = .assign prop value) ∨ (∃ model rows, event = .publish model rows) ∨
    (∃ caller, event = .setCaller i caller ∧
      (r.reactMirror values contract i mirror event).1 = (mirror.synqtSetCaller values contract caller).1) ∨
    ∃ hasScope, event = .scopeChanged i hasScope ∧ mirror.caller.isSome = true ∧
      (r.reactMirror values contract i mirror event).1 = (mirror.synqtSetCaller values contract (some hasScope)).1 := by
  cases event with
  | assign prop value => exact .inr (.inl ⟨prop, value, rfl⟩)
  | publish model rows => exact .inr (.inr (.inl ⟨model, rows, rfl⟩))
  | emitSignal signal arguments =>
    refine .inl ⟨?_, rfl⟩
    show (Source.each (Source.follow values) (r.shared.emitSignal values signal arguments) mirror).1 = mirror
    rw [Source.emitSignal]
    split
    · rfl
    · split <;> rfl
  | raise signal arguments => exact .inl ⟨rfl, rfl⟩
  | holdsSharedState =>
    refine .inl ⟨?_, rfl⟩
    show (Source.each (Source.follow values) (r.reactShared values contract .holdsSharedState).2 mirror).1 = mirror
    rw [reactShared, if_pos hungated]
    rfl
  | mirror hasScope | call j slot arguments => exact .inl ⟨rfl, rfl⟩
  | emitTo j signal arguments =>
    refine .inl ⟨?_, rfl⟩
    rw [reactMirror]
    split <;> rfl
  | setCaller j caller =>
    rw [reactMirror]
    split
    · rename_i heq
      exact .inr (.inr (.inr (.inl ⟨caller, by rw [heq], rfl⟩)))
    · exact .inl ⟨rfl, rfl⟩
  | scopeChanged j hasScope =>
    rw [reactMirror, Source.scopeChanged]
    split
    · rename_i heq
      split
      · rename_i hsome
        exact .inr (.inr (.inr (.inr ⟨hasScope, by rw [heq], hsome, rfl⟩)))
      · exact .inl ⟨rfl, rfl⟩
    · exact .inl ⟨rfl, rfl⟩

theorem Kept.reactMirror (h : r.Kept values contract) (event : SharedEvent V) {i : Nat} {mirror : Source V}
    (hmirror : r.mirrors[i]? = some mirror) :
    (r.Respects values contract event →
      (r.reactMirror values contract i mirror event).1.Faithful values contract (r.step values contract event).owned) ∧
    ((∀ caller, event = .setCaller i caller →
        (r.reactMirror values contract i mirror event).1.Publishes values contract r.owned →
        mirror.Opens values contract r.owned caller mirror.ungated) ∧
      ∀ hasScope, event = .scopeChanged i hasScope →
        (r.reactMirror values contract i mirror event).1.Publishes values contract r.owned →
        mirror.caller.isSome = true → mirror.Opens values contract r.owned (some hasScope) mirror.ungated) := by
  have hmem : mirror ∈ r.mirrors := mem_of_getElem? hmirror
  have hfaithful := h.mirrors mirror hmem
  have hungated := h.ready (ne_nil_of_mem hmem)
  have hregate (caller : Option (String → Bool)) :=
    Served.Kept.regate (r := ⟨mirror, r.owned⟩) ⟨hfaithful, h.accepted⟩ caller
  refine ⟨fun hok => ?_, fun caller hevent hpublishes => ?_, fun hasScope hevent hpublishes hsome => ?_⟩
  · obtain ⟨hsame, howned⟩ | ⟨prop, value, rfl⟩ | ⟨model, rows, rfl⟩ | ⟨caller, rfl, hcaller⟩ |
      ⟨hasScope, rfl, hsome, hcaller⟩ := reactMirror_cases values contract hungated i mirror event
    · rw [hsame, howned]
      exact hfaithful
    · exact h.shared.assigned hungated hfaithful prop value
    · exact hfaithful.published hungated model rows
    · rw [hcaller]
      exact (hregate caller).2 (hok mirror hmirror)
    · rw [hcaller]
      exact (hregate (some hasScope)).2 (hok mirror hmirror hsome)
  · subst hevent
    rw [Sharing.reactMirror, if_pos rfl] at hpublishes
    exact (hregate caller).1.mp hpublishes
  · subst hevent
    rw [Sharing.reactMirror, if_pos rfl, Source.scopeChanged, if_pos hsome] at hpublishes
    exact (hregate (some hasScope)).1.mp hpublishes

theorem Kept.reactShared (h : r.Kept values contract) (event : SharedEvent V) :
    (r.Respects values contract event →
      (r.reactShared values contract event).1.Faithful values contract (r.step values contract event).owned) ∧
    (event = .holdsSharedState → (r.reactShared values contract event).1.Publishes values contract r.owned →
      r.shared.ungated = false → r.shared.Opens values contract r.owned r.shared.caller true) := by
  obtain ⟨hremembers, hprops, hmodels⟩ := h.shared.regate h.accepted r.shared.caller true
  constructor
  · intro hok
    cases event with
    | assign prop value => exact h.shared.setProp prop value
    | publish model rows => exact h.shared.setModel model rows
    | holdsSharedState =>
      rw [Sharing.reactShared]
      split
      · exact h.shared
      · rename_i hgated
        exact ⟨hremembers, ⟨hprops, hmodels.mpr (hok (by simpa using hgated))⟩⟩
    | emitSignal _ _ | raise _ _ | mirror _ | setCaller _ _ | scopeChanged _ _ | emitTo _ _ _
    | call _ _ _ => exact h.shared
  · rintro rfl hpublishes hgated
    rw [Sharing.reactShared, if_neg (by simp [hgated])] at hpublishes
    exact hmodels.mp hpublishes.models

theorem mem_step {event : SharedEvent V} {mirror : Source V} :
    mirror ∈ (r.step values contract event).mirrors ↔
      (∃ (i : Nat) (old : Source V), r.mirrors[i]? = some old ∧ mirror = (r.reactMirror values contract i old event).1) ∨
      ∃ hasScope, event = .mirror hasScope ∧ r.shared.ungated = true ∧ mirror = r.made values contract hasScope := by
  show mirror ∈ r.mirrors.mapIdx (fun i mirror => (r.reactMirror values contract i mirror event).1) ++ _ ↔ _
  rw [mem_append, mem_mapIdx]
  refine or_congr ?_ ?_
  · constructor
    · rintro ⟨i, hi, rfl⟩
      exact ⟨i, r.mirrors[i], List.getElem?_eq_getElem hi, rfl⟩
    · rintro ⟨i, old, hold, rfl⟩
      obtain ⟨hi, rfl⟩ := List.getElem?_eq_some_iff.mp hold
      exact ⟨i, hi, rfl⟩
  · cases event with
    | mirror hasScope =>
      simp only [SharedEvent.mirror.injEq]
      constructor
      · intro hmem
        split at hmem
        · rename_i hready
          exact ⟨hasScope, rfl, hready, mem_singleton.mp hmem⟩
        · cases hmem
      · rintro ⟨hasScope, rfl, hready, rfl⟩
        rw [if_pos hready]
        exact mem_singleton_self _
    | assign _ _ | publish _ _ | holdsSharedState | emitSignal _ _ | raise _ _ | setCaller _ _ | scopeChanged _ _
    | emitTo _ _ _ | call _ _ _ => simp

private theorem ungated_step (r : Sharing V) (event : SharedEvent V) (h : r.shared.ungated = true) :
    (r.step values contract event).shared.ungated = true := by
  cases event with
  | assign prop value =>
    show (r.shared.setProp values prop value).1.ungated = true
    rw [Source.setProp_fst]
    split <;> exact h
  | publish model rows =>
    show (r.shared.setModel values model rows).1.ungated = true
    rw [Source.setModel_fst]
    exact h
  | holdsSharedState =>
    show (r.reactShared values contract .holdsSharedState).1.ungated = true
    rw [reactShared, if_pos h]
    exact h
  | emitSignal _ _ | raise _ _ | mirror _ | setCaller _ _ | scopeChanged _ _ | emitTo _ _ _ | call _ _ _ => exact h

theorem Kept.step (h : r.Kept values contract) (event : SharedEvent V) (hok : r.Respects values contract event) :
    (r.step values contract event).Kept values contract where
  shared := (h.reactShared event).1 hok
  mirrors mirror hmirror := by
    rcases mem_step.mp hmirror with ⟨i, old, hold, rfl⟩ | ⟨hasScope, rfl, hready, rfl⟩
    · exact (h.reactMirror event hold).1 hok
    · exact (h.made hready hasScope).2 (hok hready)
  ready hne := by
    obtain ⟨mirror, hmirror⟩ := exists_mem_of_ne_nil _ hne
    rcases mem_step.mp hmirror with ⟨i, old, hold, -⟩ | ⟨hasScope, -, hready, -⟩
    · exact ungated_step r event (h.ready (ne_nil_of_mem (mem_of_getElem? hold)))
    · exact ungated_step r event hready
  accepted := by
    cases event with
    | assign prop value => exact h.accepted.assign prop value
    | publish model rows => exact h.accepted.publish model rows
    | holdsSharedState | emitSignal _ _ | raise _ _ | mirror _ | setCaller _ _ | scopeChanged _ _ | emitTo _ _ _
    | call _ _ _ => exact h.accepted

theorem Kept.gated_iff (h : r.Kept values contract) (event : SharedEvent V) :
    r.Gated values contract event ↔ r.Respects values contract event := by
  constructor
  · intro hgated
    cases event with
    | holdsSharedState => exact (h.reactShared .holdsSharedState).2 rfl hgated.shared
    | mirror hasScope =>
      intro hready
      exact (h.made hready hasScope).1.mp (hgated.published _ (mem_step.mpr (.inr ⟨hasScope, rfl, hready, rfl⟩)))
    | setCaller i caller =>
      intro mirror hmirror
      exact (h.reactMirror _ hmirror).2.1 caller rfl (hgated.published _ (mem_step.mpr (.inl ⟨i, mirror, hmirror, rfl⟩)))
    | scopeChanged i hasScope =>
      intro mirror hmirror
      exact (h.reactMirror _ hmirror).2.2 hasScope rfl
        (hgated.published _ (mem_step.mpr (.inl ⟨i, mirror, hmirror, rfl⟩)))
    | assign _ _ | publish _ _ | emitSignal _ _ | raise _ _ | emitTo _ _ _ | call _ _ _ => trivial
  · intro hok
    have hstep := h.step event hok
    refine ⟨hstep.shared.publishes, fun mirror hmirror => (hstep.mirrors mirror hmirror).publishes,
      fun i mirror _ signal arguments hraised => raised_reactMirror r i mirror event hraised,
      fun i slot arguments mirror _ _ hanswers => ?_⟩
    rw [answers, Bool.and_eq_true, beq_iff_eq] at hanswers
    exact Source.allows_of_onward hanswers.1

theorem kept_start (values : Values V) (contract : Contract) : (start values).Kept values contract where
  shared := Source.faithful_fresh values contract
  mirrors _ hmirror := by cases hmirror
  ready hne := absurd rfl hne
  accepted := Owned.accepted_none values

end Sharing

/-- The gates of a contract over every run, of a Source that answers one caller and of a shared
Source with its mirrors: they hold at every event exactly where no signal is raised past its gate on
the Source a caller acquired, and the rows remembered of a gated model convert when it opens. -/
theorem gated_iff_respects (values : Values V) (contract : Contract) (events : List (SourceEvent V))
    (sharedEvents : List (SharedEvent V)) :
    (Each (Served.step values contract) (Served.Gated values contract) (Served.start values) events ↔
      Each (Served.step values contract) (Served.Respects values contract) (Served.start values) events) ∧
    (Each (Sharing.step values contract) (Sharing.Gated values contract) (Sharing.start values) sharedEvents ↔
      Each (Sharing.step values contract) (Sharing.Respects values contract) (Sharing.start values) sharedEvents) :=
  ⟨Served.each_gated_iff values contract events,
    each_congr (Sharing.Kept values contract) (fun _ event h => h.gated_iff event) (fun _ event h hok => h.step event hok)
      (Sharing.kept_start values contract) sharedEvents⟩

def texts : Values String where
  initial _ := ""
  convert _ value := some value
  measure _ value := value.length
  field value _ := value
  invalid := "undefined"

def restocked : Synqtc.Signal := { name := "restocked", params := [{ type := "string[64]", name := "sku" }], scope := ["admin"] }

/-- A signal raised on the Source of a caller without its scope leaves all the same. -/
theorem raised_past_gate :
    ¬ Each (Served.step texts { name := "Gate", members := [.signal restocked] })
      (Served.Gated texts { name := "Gate", members := [.signal restocked] }) (Served.start texts)
      [.setCaller (some fun scope => scope == "user"), .raise restocked ["SKU-1"]] := by
  rintro ⟨-, hraise, -⟩
  have hallowed := hraise.signals restocked ["SKU-1"] (by decide)
  exact absurd hallowed (by decide)

end SynQt.Generated
