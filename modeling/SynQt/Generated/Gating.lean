import SynQt.Generated.SourceHelper
import SynQt.Lib.Run

/-! A Source that answers one caller: what it publishes of what its owner last assigned, over
every order of assignments, publishes, signals, calls, bindings and scope changes. -/
namespace SynQt.Generated
open Synqtc Lib Function List

universe u v
variable {V : Type u}

namespace Source

@[simp] theorem allows_nil (s : Source V) : s.allows [] = true := by
  rw [allows, isEmpty_nil, Bool.or_true, Bool.true_or]

/-- Whether a gate opens depends on the caller and on nothing the Source publishes. -/
theorem allows_congr {s s' : Source V} (hcaller : s'.caller = s.caller) (hungated : s'.ungated = s.ungated)
    (scopes : List String) : s'.allows scopes = s.allows scopes := by
  rw [allows, allows, hcaller, hungated]

private theorem each_quiet {α : Type v} {f : Source V → α → Source V × List (Effect V)} {signal : Synqtc.Signal} {arguments : List V}
    (hquiet : ∀ s a, .raised signal arguments ∉ (f s a).2) (l : List α) (s : Source V) :
    .raised signal arguments ∉ (each f l s).2 := by
  induction l generalizing s with
  | nil => exact not_mem_nil
  | cons a rest ih =>
    rw [each, mem_append]
    rintro (hfirst | hlater)
    · exact hquiet s a hfirst
    · exact ih _ hlater

/-- A signal that leaves through `emit<Signal>` is one this caller may receive, within its bounds. -/
theorem raised_emitSignal {values : Values V} {s : Source V} {signal raised : Synqtc.Signal} {arguments sent : List V}
    (h : .raised raised sent ∈ s.emitSignal values signal arguments) :
    raised = signal ∧ sent = arguments ∧ s.allows signal.scope = true ∧ values.anyOver signal.params arguments = false := by
  rw [emitSignal] at h
  split at h
  · cases h
  · rename_i hopen
    split at h
    · cases h
    · rename_i hfits
      rw [mem_singleton] at h
      cases h
      rw [Bool.not_eq_true, Bool.not_eq_false'] at hopen
      rw [Bool.not_eq_true] at hfits
      exact ⟨rfl, rfl, hopen, hfits⟩

theorem allows_of_onward {values : Values V} {s : Source V} {slot : Slot} {arguments : List V}
    (h : s.callSlot values slot arguments = .onward) : s.allows slot.scope = true := by
  rw [Source.callSlot] at h
  split at h
  · cases h
  · rename_i hopen
    rwa [Bool.not_eq_true, Bool.not_eq_false'] at hopen

end Source

variable [DecidableEq V] {values : Values V} {contract : Contract}

/-- What an owner last assigned, of the assignments and publishes that were not refused. -/
structure Owned (V : Type u) where
  assigned : Property → V
  published : Model → List (Row V) := fun _ => []

namespace Owned

def none (values : Values V) : Owned V := { assigned := fun prop => values.initial prop.type }

def assign (values : Values V) (o : Owned V) (prop : Property) (value : V) : Owned V :=
  if values.overBound prop.type value then o else { o with assigned := update o.assigned prop value }

def publish (values : Values V) (o : Owned V) (model : Model) (rows : List (Row V)) : Owned V :=
  if (values.items model rows).isSome then { o with published := update o.published model rows } else o

def shows (values : Values V) (o : Owned V) (model : Model) : List (List V) :=
  (values.items model (o.published model)).getD []

/-- Rows that convert, where they are the ones last published, show them; rows that do not leave
what was shown before. -/
theorem getD_items_eq {o : Owned V} {model : Model} {rows : List (Row V)} (before : List (List V))
    (hlast : (values.items model rows).isSome = true → rows = o.published model) :
    (values.items model rows).getD before = o.shows values model ↔
      (values.items model rows).isSome = true ∨ before = o.shows values model := by
  cases hitems : values.items model rows with
  | none => simp
  | some items =>
    have hsame : rows = o.published model := hlast (by rw [hitems]; rfl)
    rw [hsame] at hitems
    simp [shows, hitems]

structure Accepted (values : Values V) (o : Owned V) : Prop where
  fits : ∀ prop, o.assigned prop = values.initial prop.type ∨ values.overBound prop.type (o.assigned prop) = false
  converts : ∀ model, (values.items model (o.published model)).isSome = true

theorem accepted_none (values : Values V) : Accepted values (none values) where
  fits _ := .inl rfl
  converts _ := rfl

variable {o : Owned V}

theorem Accepted.assign (h : Accepted values o) (prop : Property) (value : V) :
    Accepted values (o.assign values prop value) := by
  rw [Owned.assign]
  split
  · exact h
  · rename_i hfits
    refine ⟨fun other => ?_, h.converts⟩
    rw [Bool.not_eq_true] at hfits
    simp only [update_apply]
    split
    · rename_i heq
      rw [heq]
      exact .inr hfits
    · exact h.fits other

theorem Accepted.publish (h : Accepted values o) (model : Model) (rows : List (Row V)) :
    Accepted values (o.publish values model rows) := by
  rw [Owned.publish]
  split
  · rename_i hconverts
    refine ⟨h.fits, fun other => ?_⟩
    simp only [update_apply]
    split
    · rename_i heq
      rw [heq]
      exact hconverts
    · exact h.converts other
  · exact h

end Owned

namespace Source
variable {s : Source V} {o : Owned V}

private theorem simpleSet_fst (s : Source V) (prop : Property) (value : V) :
    (s.simpleSet prop value).1 = { s with props := update s.props prop value } := by
  rw [simpleSet]
  split
  · rename_i heq
    rw [← heq, update_eq_self]
  · rfl

section
variable (values : Values V)

section
variable (s : Source V)

theorem setProp_fst (prop : Property) (value : V) :
    (s.setProp values prop value).1 =
      if values.overBound prop.type value then s
      else
        { s with
          props := update s.props prop (if s.allows prop.scope then value else values.initial prop.type),
          held := if prop.scope.isEmpty then s.held else update s.held prop value } := by
  rw [setProp]
  split
  · rfl
  · split
    · rename_i hopen
      have hnil : prop.scope = [] := isEmpty_iff.mp hopen
      rw [simpleSet_fst, hnil, allows_nil]
      rfl
    · have hsame : Source.allows { s with held := update s.held prop value } prop.scope = s.allows prop.scope :=
        allows_congr rfl rfl prop.scope
      simp only [hsame]
      cases s.allows prop.scope with
      | true | false => simp [simpleSet_fst]

/-- What a publish leaves: a gated model remembers the rows whatever becomes of them. -/
theorem setModel_fst (model : Model) (rows : List (Row V)) :
    (s.setModel values model rows).1 =
      { s with
        models := update s.models model
          (if s.allows model.scope then (values.items model rows).getD (s.models model) else []),
        rows := if model.scope.isEmpty && (values.items model rows).isNone then s.rows
          else update s.rows model rows } := by
  rw [setModel]
  cases hopen : model.scope.isEmpty with
  | true =>
    have hnil : model.scope = [] := isEmpty_iff.mp hopen
    rw [hnil]
    cases values.items model rows <;> simp
  | false =>
    have hsame : Source.allows { s with rows := update s.rows model rows } model.scope = s.allows model.scope :=
      allows_congr rfl rfl model.scope
    simp only [Bool.false_eq_true, if_false, hsame]
    cases s.allows model.scope with
    | false => simp
    | true => cases values.items model rows <;> simp

theorem setProp_allows (prop : Property) (value : V) (scopes : List String) :
    (s.setProp values prop value).1.allows scopes = s.allows scopes := by
  rw [setProp_fst]
  split <;> rfl

theorem setModel_allows (model : Model) (rows : List (Row V)) (scopes : List String) :
    (s.setModel values model rows).1.allows scopes = s.allows scopes := by
  rw [setModel_fst]
  rfl

end

theorem each_setProp (f : Property → V) (props : List Property) (s : Source V) :
    (each (fun s prop => s.setProp values prop (f prop)) props s).1 =
      { s with
        props := fun prop => if prop ∈ props ∧ values.overBound prop.type (f prop) = false then
          (if s.allows prop.scope then f prop else values.initial prop.type) else s.props prop,
        held := fun prop => if prop ∈ props ∧ values.overBound prop.type (f prop) = false ∧ prop.scope.isEmpty = false then
          f prop else s.held prop } := by
  induction props generalizing s with
  | nil => simp [each]
  | cons first rest ih =>
    rw [each]
    simp only [ih, setProp_fst]
    split
    · rename_i hover
      congr 1 <;> funext prop
      · by_cases heq : prop = first
        · simp [heq, hover]
        · simp [heq]
      · by_cases heq : prop = first
        · simp [heq, hover]
        · simp [heq]
    · rename_i hfits
      rw [Bool.not_eq_true] at hfits
      have hsame (scopes : List String) : Source.allows { s with
          props := update s.props first (if s.allows first.scope then f first else values.initial first.type),
          held := if first.scope.isEmpty then s.held else update s.held first (f first) } scopes =
          s.allows scopes := allows_congr rfl rfl scopes
      simp only [hsame]
      congr 1 <;> funext prop
      · by_cases heq : prop = first
        · simp [heq, hfits]
        · simp [heq]
      · by_cases heq : prop = first
        · cases hopen : first.scope.isEmpty <;> simp [heq, hfits, hopen]
        · cases hopen : first.scope.isEmpty <;> simp [heq]

theorem each_setModel (f : Model → List (Row V)) (models : List Model) (s : Source V) :
    (each (fun s model => s.setModel values model (f model)) models s).1 =
      { s with
        models := fun model => if model ∈ models then
          (if s.allows model.scope then (values.items model (f model)).getD (s.models model) else [])
          else s.models model,
        rows := fun model => if model ∈ models ∧ (model.scope.isEmpty && (values.items model (f model)).isNone) = false then
          f model else s.rows model } := by
  induction models generalizing s with
  | nil => simp [each]
  | cons first rest ih =>
    rw [each]
    simp only [ih, setModel_fst]
    have hsame (scopes : List String) : Source.allows { s with
        models := update s.models first
          (if s.allows first.scope then (values.items first (f first)).getD (s.models first) else []),
        rows := if first.scope.isEmpty && (values.items first (f first)).isNone then s.rows
          else update s.rows first (f first) } scopes = s.allows scopes := allows_congr rfl rfl scopes
    simp only [hsame]
    congr 1 <;> funext model
    · by_cases heq : model = first
      · subst heq
        cases s.allows model.scope <;> cases values.items model (f model) <;> simp
      · simp [heq]
    · by_cases heq : model = first
      · subst heq
        cases hopen : (model.scope.isEmpty && (values.items model (f model)).isNone) <;> simp
      · cases hopen : (first.scope.isEmpty && (values.items first (f first)).isNone) <;> simp [heq]

private theorem setProps_held (props : List Property) (s t : Source V) (hheld : t.held = s.held) :
    each (fun t prop => t.setProp values prop (t.held prop)) props t =
      each (fun t prop => t.setProp values prop (s.held prop)) props t := by
  induction props generalizing t with
  | nil => rfl
  | cons first rest ih =>
    have hnext : (t.setProp values first (t.held first)).1.held = s.held := by
      rw [setProp_fst]
      split
      · exact hheld
      · simp only [update_eq_self, ite_self, hheld]
    rw [each, each, ih _ hnext, hheld]

private theorem setModels_rows (models : List Model) (s t : Source V) (hrows : t.rows = s.rows) :
    each (fun t model => t.setModel values model (t.rows model)) models t =
      each (fun t model => t.setModel values model (s.rows model)) models t := by
  induction models generalizing t with
  | nil => rfl
  | cons first rest ih =>
    have hnext : (t.setModel values first (t.rows first)).1.rows = s.rows := by
      rw [setModel_fst]
      simp only [update_eq_self, ite_self, hrows]
    rw [each, each, ih _ hnext, hrows]

/-- What publishing the gated members again leaves. -/
theorem synqtRegate_fst (contract : Contract) (s : Source V) :
    (s.synqtRegate values contract).1 =
      { s with
        props := fun prop => if prop ∈ gatedProps contract ∧ values.overBound prop.type (s.held prop) = false then
          (if s.allows prop.scope then s.held prop else values.initial prop.type) else s.props prop,
        models := fun model => if model ∈ gatedModels contract then
          (if s.allows model.scope then (values.items model (s.rows model)).getD (s.models model) else [])
          else s.models model } := by
  have hprops := each_setProp values s.held (gatedProps contract) s
  rw [← setProps_held values (gatedProps contract) s s rfl] at hprops
  have hheld : (each (fun t prop => t.setProp values prop (t.held prop)) (gatedProps contract) s).1.held = s.held := by
    rw [hprops]
    funext prop
    simp only [ite_self]
  have hrows : (each (fun t prop => t.setProp values prop (t.held prop)) (gatedProps contract) s).1.rows = s.rows := by
    rw [hprops]
  rw [synqtRegate]
  simp only [setModels_rows values (gatedModels contract) s _ hrows, each_setModel]
  generalize hfirst : (each (fun t prop => t.setProp values prop (t.held prop)) (gatedProps contract) s).1 = first
    at hprops hheld hrows ⊢
  have hallows (scopes : List String) : first.allows scopes = s.allows scopes := by
    rw [hprops]
    exact allows_congr rfl rfl scopes
  have hmodels : first.models = s.models := by rw [hprops]
  have hpublished : first.props = fun prop => if prop ∈ gatedProps contract ∧ values.overBound prop.type (s.held prop) = false then
      (if s.allows prop.scope then s.held prop else values.initial prop.type) else s.props prop := by rw [hprops]
  have hcaller : first.caller = s.caller := by rw [hprops]
  have hungated : first.ungated = s.ungated := by rw [hprops]
  simp only [hallows, hmodels, hrows, ite_self]
  rw [hpublished, hheld, hcaller, hungated]

end

private theorem simpleSet_quiet (s : Source V) (prop : Property) (value : V) (signal : Synqtc.Signal) (arguments : List V) :
    .raised signal arguments ∉ (s.simpleSet prop value).2 := by
  rw [simpleSet]
  split <;> simp

section
variable (values : Values V)

theorem setProp_quiet (s : Source V) (prop : Property) (value : V) (signal : Synqtc.Signal)
    (arguments : List V) : .raised signal arguments ∉ (s.setProp values prop value).2 := by
  rw [setProp]
  split
  · exact not_mem_nil
  · split
    · exact simpleSet_quiet s prop value signal arguments
    · dsimp only
      split
      · exact simpleSet_quiet _ prop _ signal arguments
      · exact simpleSet_quiet _ prop value signal arguments

theorem setModel_quiet (s : Source V) (model : Model) (rows : List (Row V)) (signal : Synqtc.Signal)
    (arguments : List V) : .raised signal arguments ∉ (s.setModel values model rows).2 := by
  rw [setModel]
  generalize (if model.scope.isEmpty then s else { s with rows := update s.rows model rows }) = remembering
  split
  · simp
  · split <;> simp

theorem synqtRegate_quiet (contract : Contract) (s : Source V) (signal : Synqtc.Signal)
    (arguments : List V) : .raised signal arguments ∉ (s.synqtRegate values contract).2 := by
  rw [synqtRegate]
  simp only [mem_append]
  rintro (hprop | hmodel)
  · exact each_quiet (fun s prop => setProp_quiet values s prop _ signal arguments) _ s hprop
  · exact each_quiet (fun s model => setModel_quiet values s model _ signal arguments) _ _ hmodel

end

structure Remembers (values : Values V) (contract : Contract) (o : Owned V) (s : Source V) : Prop where
  held : ∀ prop ∈ contract.props, prop.scope.isEmpty = false → s.held prop = o.assigned prop
  rows : ∀ model ∈ contract.models, (values.items model (s.rows model)).isSome = true → s.rows model = o.published model
  openRows : ∀ model ∈ contract.models, model.scope.isEmpty = true → s.rows model = o.published model

structure Publishes (values : Values V) (contract : Contract) (o : Owned V) (s : Source V) : Prop where
  props : ∀ prop ∈ contract.props,
    s.props prop = if s.allows prop.scope then o.assigned prop else values.initial prop.type
  models : ∀ model ∈ contract.models, s.models model = if s.allows model.scope then o.shows values model else []

structure Faithful (values : Values V) (contract : Contract) (o : Owned V) (s : Source V) : Prop where
  remembers : s.Remembers values contract o
  publishes : s.Publishes values contract o

theorem faithful_fresh (values : Values V) (contract : Contract) : values.fresh.Faithful values contract (.none values) where
  remembers := ⟨fun _ _ _ => rfl, fun _ _ _ => rfl, fun _ _ _ => rfl⟩
  publishes := by
    refine ⟨fun prop _ => ?_, fun model _ => ?_⟩
    · exact (ite_self _).symm
    · exact (ite_self _).symm

theorem Faithful.setProp (h : s.Faithful values contract o) (prop : Property) (value : V) :
    (s.setProp values prop value).1.Faithful values contract (o.assign values prop value) := by
  rw [setProp_fst, Owned.assign]
  split
  · exact h
  · refine ⟨⟨fun other hother hgated => ?_, h.remembers.rows, h.remembers.openRows⟩, ⟨fun other hother => ?_, h.publishes.models⟩⟩
    · by_cases heq : other = prop
      · subst heq
        simp [hgated]
      · have hheld := h.remembers.held other hother hgated
        cases hopen : prop.scope.isEmpty <;> simp [heq, hheld]
    · have hprop := h.publishes.props other hother
      simp only [update_apply]
      split
      · rename_i heq
        rw [heq]
        rfl
      · exact hprop

theorem Faithful.setModel (h : s.Faithful values contract o) (model : Model) (rows : List (Row V)) :
    (s.setModel values model rows).1.Faithful values contract (o.publish values model rows) := by
  rw [setModel_fst, Owned.publish]
  cases hitems : values.items model rows with
  | none =>
    refine ⟨⟨h.remembers.held, fun other hother hconverts => ?_, fun other hother hopen => ?_⟩,
      ⟨h.publishes.props, fun other hother => ?_⟩⟩
    · have hrows := h.remembers.rows other hother
      by_cases heq : other = model
      · subst heq
        cases hopen : other.scope.isEmpty with
        | true => simpa [hopen] using hrows (by simpa [hopen] using hconverts)
        | false => simp [hopen, hitems] at hconverts
      · cases hopen : model.scope.isEmpty with
        | true => simpa [hopen] using hrows (by simpa [hopen] using hconverts)
        | false => simpa [hopen, heq] using hrows (by simpa [hopen, heq] using hconverts)
    · have hrows := h.remembers.openRows other hother hopen
      by_cases heq : other = model
      · subst heq
        simpa [hopen] using hrows
      · cases hgate : model.scope.isEmpty <;> simpa [hgate, heq] using hrows
    · have hmodel := h.publishes.models other hother
      simp only [update_apply, Option.getD_none]
      split
      · rename_i heq
        subst heq
        rw [hmodel]
        show (if s.allows other.scope then (if s.allows other.scope then o.shows values other else []) else []) =
          if s.allows other.scope then o.shows values other else []
        split <;> rfl
      · exact hmodel
  | some items =>
    refine ⟨⟨h.remembers.held, fun other hother hconverts => ?_, fun other hother hopen => ?_⟩,
      ⟨h.publishes.props, fun other hother => ?_⟩⟩
    · have hrows := h.remembers.rows other hother
      by_cases heq : other = model
      · simp [heq]
      · simpa [heq] using hrows (by simpa [heq] using hconverts)
    · have hrows := h.remembers.openRows other hother hopen
      by_cases heq : other = model
      · simp [heq]
      · simpa [heq] using hrows
    · have hmodel := h.publishes.models other hother
      simp only [update_apply, Option.getD_some, Option.isSome_some, if_true]
      split
      · rename_i heq
        subst heq
        simp only [Owned.shows, update_self, hitems, Option.getD_some]
        rfl
      · rename_i heq
        simp only [Owned.shows, update_of_ne heq]
        exact hmodel

/-- Opening the gates of a Source for a caller shows what its owner last assigned: what is
remembered of a gated model that opens converts, or was shown already, or there is nothing to show. -/
def Opens (values : Values V) (contract : Contract) (o : Owned V) (s : Source V) (caller : Option (String → Bool))
    (ungated : Bool) : Prop :=
  ∀ model ∈ gatedModels contract, Source.allows { s with caller := caller, ungated := ungated } model.scope = true →
    (values.items model (s.rows model)).isSome = true ∨ s.allows model.scope = true ∨ o.shows values model = []

theorem mem_gatedProps {prop : Property} :
    prop ∈ gatedProps contract ↔ prop ∈ contract.props ∧ prop.scope.isEmpty = false := by
  rw [gatedProps, mem_filter, Bool.not_eq_true']

theorem mem_gatedModels {model : Model} :
    model ∈ gatedModels contract ↔ model ∈ contract.models ∧ model.scope.isEmpty = false := by
  rw [gatedModels, mem_filter, Bool.not_eq_true']

theorem forall_gatedModels {p : Model → Prop} :
    (∀ model ∈ gatedModels contract, p model) ↔ ∀ model ∈ contract.models, model.scope.isEmpty = false → p model := by
  simp only [mem_gatedModels, and_imp]

/-- Of a Source that remembers and shows its props, what is left to show is its models. -/
theorem Remembers.faithful_iff {opens : Prop} (h : s.Remembers values contract o)
    (hprops : ∀ prop ∈ contract.props,
      s.props prop = if s.allows prop.scope then o.assigned prop else values.initial prop.type)
    (hmodels : (∀ model ∈ contract.models, s.models model = if s.allows model.scope then o.shows values model else []) ↔
      opens) :
    (s.Publishes values contract o ↔ opens) ∧ (opens → s.Faithful values contract o) :=
  ⟨⟨fun hpublishes => hmodels.mp hpublishes.models, fun hopens => ⟨hprops, hmodels.mpr hopens⟩⟩,
    fun hopens => ⟨h, ⟨hprops, hmodels.mpr hopens⟩⟩⟩

theorem Faithful.regate (h : s.Faithful values contract o) (haccepted : o.Accepted values)
    (caller : Option (String → Bool)) (ungated : Bool) :
    let after := (Source.synqtRegate values contract { s with caller := caller, ungated := ungated }).1
    after.Remembers values contract o ∧
    (∀ prop ∈ contract.props,
      after.props prop = if after.allows prop.scope then o.assigned prop else values.initial prop.type) ∧
    ((∀ model ∈ contract.models, after.models model = if after.allows model.scope then o.shows values model else []) ↔
      s.Opens values contract o caller ungated) := by
  intro after
  have hafter : after = _ := synqtRegate_fst values contract { s with caller := caller, ungated := ungated }
  have hallows (scopes : List String) : after.allows scopes =
      Source.allows { s with caller := caller, ungated := ungated } scopes := by
    rw [hafter]
    exact allows_congr rfl rfl scopes
  refine ⟨⟨?_, ?_, ?_⟩, fun prop hprop => ?_, ?_⟩
  · rw [hafter]
    exact h.remembers.held
  · rw [hafter]
    exact h.remembers.rows
  · rw [hafter]
    exact h.remembers.openRows
  · have hbefore := h.publishes.props prop hprop
    rw [hallows, hafter]
    simp only [mem_gatedProps]
    cases hopen : prop.scope.isEmpty with
    | true =>
      have hnil : prop.scope = [] := isEmpty_iff.mp hopen
      rw [hnil, allows_nil] at hbefore
      rw [hnil, allows_nil]
      simpa using hbefore
    | false =>
      have hheld := h.remembers.held prop hprop hopen
      simp only [hprop, hheld, true_and]
      rcases haccepted.fits prop with hinitial | hfits
      · -- the default: whatever the bound says of it, it is what is published
        rw [hinitial, ite_self] at hbefore
        simp only [hinitial, hbefore, ite_self]
      · rw [if_pos hfits]
  · have hmodel (model : Model) (hmodel : model ∈ contract.models) :
        (after.models model = if after.allows model.scope then o.shows values model else []) ↔
          (model.scope.isEmpty = false →
            Source.allows { s with caller := caller, ungated := ungated } model.scope = true →
            (values.items model (s.rows model)).isSome = true ∨ s.allows model.scope = true ∨
              o.shows values model = []) := by
      have hbefore := h.publishes.models model hmodel
      rw [hallows, hafter]
      simp only [mem_gatedModels]
      cases hopen : model.scope.isEmpty with
      | true =>
        have hnil : model.scope = [] := isEmpty_iff.mp hopen
        rw [hnil, allows_nil] at hbefore
        rw [hnil, allows_nil]
        simpa using hbefore
      | false =>
        simp only [hmodel, true_and, if_true, forall_const]
        cases Source.allows { s with caller := caller, ungated := ungated } model.scope with
        | false => simp
        | true =>
          simp only [if_true, forall_const]
          rw [Owned.getD_items_eq _ (h.remembers.rows model hmodel), hbefore]
          cases s.allows model.scope with
          | true => simp
          | false =>
            simp only [Bool.false_eq_true, if_false, false_or]
            exact or_congr_right eq_comm
    exact (forall₂_congr hmodel).trans forall_gatedModels.symm

end Source

/-- What happens to a Source that answers one caller. The entity behind a front assigns and
publishes through it, and raises through `emit<Signal>`. -/
inductive SourceEvent (V : Type u) where
  | assign (prop : Property) (value : V)
  | publish (model : Model) (rows : List (Row V))
  | emitSignal (signal : Synqtc.Signal) (arguments : List V)
  | raise (signal : Synqtc.Signal) (arguments : List V)
  | call (slot : Slot) (arguments : List V)
  | setCaller (caller : Option (String → Bool))
  | scopeChanged (hasScope : String → Bool)

/-- A Source, beside what its owner last assigned. -/
structure Served (V : Type u) where
  source : Source V
  owned : Owned V

namespace Served
variable (values : Values V) (contract : Contract)

def react (s : Source V) : SourceEvent V → Source V × List (Effect V)
  | .assign prop value => s.setProp values prop value
  | .publish model rows => s.setModel values model rows
  | .emitSignal signal arguments => (s, s.emitSignal values signal arguments)
  | .raise signal arguments => (s, Source.raise signal arguments)
  | .call _ _ => (s, [])
  | .setCaller caller => s.synqtSetCaller values contract caller
  | .scopeChanged hasScope => s.scopeChanged values contract hasScope

def step (r : Served V) (event : SourceEvent V) : Served V where
  source := (react values contract r.source event).1
  owned :=
    match event with
    | .assign prop value => r.owned.assign values prop value
    | .publish model rows => r.owned.publish values model rows
    | _ => r.owned

def start : Served V := { source := values.fresh, owned := .none values }

/-- The gates at one event: what is published at rest is what the owner last assigned where the
caller passes the gate and nothing where they do not, and while they do not no gated signal
leaves the Source and no gated slot is answered. -/
structure Gated (r : Served V) (event : SourceEvent V) : Prop where
  published : (r.step values contract event).source.Publishes values contract (r.step values contract event).owned
  signals : ∀ signal arguments, .raised signal arguments ∈ (react values contract r.source event).2 →
    r.source.allows signal.scope = true
  slots : ∀ slot arguments, event = .call slot arguments → r.source.callSlot values slot arguments = .onward →
    r.source.allows slot.scope = true

/-- No signal is raised past its gate on the Source itself, and a gated model that opens has
rows that convert to publish again. -/
def Respects (r : Served V) : SourceEvent V → Prop
  | .raise signal _ => r.source.allows signal.scope = true
  | .setCaller caller => r.source.Opens values contract r.owned caller r.source.ungated
  | .scopeChanged hasScope =>
    r.source.caller.isSome = true → r.source.Opens values contract r.owned (some hasScope) r.source.ungated
  | _ => True

structure Kept (r : Served V) : Prop where
  faithful : r.source.Faithful values contract r.owned
  accepted : r.owned.Accepted values

variable {values contract} {r : Served V}

section
variable (h : r.Kept values contract)
include h

/-- Another caller: the Source is faithful for them exactly where its gated models open. -/
theorem Kept.regate (caller : Option (String → Bool)) :
    ((Source.synqtRegate values contract { r.source with caller := caller }).1.Publishes values contract r.owned ↔
      r.source.Opens values contract r.owned caller r.source.ungated) ∧
    (r.source.Opens values contract r.owned caller r.source.ungated →
      (Source.synqtRegate values contract { r.source with caller := caller }).1.Faithful values contract r.owned) := by
  obtain ⟨hremembers, hprops, hmodels⟩ := h.faithful.regate h.accepted caller r.source.ungated
  exact hremembers.faithful_iff hprops hmodels

theorem Kept.step (event : SourceEvent V) (hok : r.Respects values contract event) :
    (r.step values contract event).Kept values contract := by
  cases event with
  | assign prop value => exact ⟨h.faithful.setProp prop value, h.accepted.assign prop value⟩
  | publish model rows => exact ⟨h.faithful.setModel model rows, h.accepted.publish model rows⟩
  | emitSignal signal arguments | raise signal arguments | call slot arguments => exact h
  | setCaller caller => exact ⟨(h.regate caller).2 hok, h.accepted⟩
  | scopeChanged hasScope =>
    refine ⟨?_, h.accepted⟩
    show (r.source.scopeChanged values contract hasScope).1.Faithful values contract r.owned
    rw [Source.scopeChanged]
    split
    · rename_i hsome
      exact (h.regate (some hasScope)).2 (hok hsome)
    · exact h.faithful

theorem Kept.gated_iff (event : SourceEvent V) :
    r.Gated values contract event ↔ r.Respects values contract event := by
  constructor
  · intro hgated
    cases event with
    | assign _ _ | publish _ _ | emitSignal _ _ | call _ _ => trivial
    | raise signal arguments => exact hgated.signals signal arguments (mem_singleton_self _)
    | setCaller caller => exact (h.regate caller).1.mp hgated.published
    | scopeChanged hasScope =>
      intro hsome
      have hpublished := hgated.published
      have hstep : (r.step values contract (.scopeChanged hasScope)).source =
          (Source.synqtRegate values contract { r.source with caller := some hasScope }).1 := by
        show (r.source.scopeChanged values contract hasScope).1 = _
        rw [Source.scopeChanged, if_pos hsome]
      rw [hstep] at hpublished
      exact (h.regate (some hasScope)).1.mp hpublished
  · intro hok
    refine ⟨(h.step event hok).faithful.publishes, fun signal arguments hraised => ?_, fun slot arguments _ hcalled => ?_⟩
    · cases event with
      | assign prop value => exact absurd hraised (Source.setProp_quiet values _ prop value signal arguments)
      | publish model rows => exact absurd hraised (Source.setModel_quiet values _ model rows signal arguments)
      | emitSignal _ _ =>
        obtain ⟨rfl, -, hallowed, -⟩ := Source.raised_emitSignal hraised
        exact hallowed
      | raise _ _ =>
        cases mem_singleton.mp hraised
        exact hok
      | call _ _ => cases hraised
      | setCaller caller => exact absurd hraised (Source.synqtRegate_quiet values contract _ signal arguments)
      | scopeChanged hasScope =>
        rw [react, Source.scopeChanged] at hraised
        split at hraised
        · exact absurd hraised (Source.synqtRegate_quiet values contract _ signal arguments)
        · cases hraised
    · exact Source.allows_of_onward hcalled

end

theorem kept_start (values : Values V) (contract : Contract) : (start values).Kept values contract where
  faithful := Source.faithful_fresh values contract
  accepted := Owned.accepted_none values

/-- The gates hold at every event of a run exactly where no event goes round them. -/
theorem each_gated_iff (values : Values V) (contract : Contract) (events : List (SourceEvent V)) :
    Each (step values contract) (Gated values contract) (start values) events ↔
      Each (step values contract) (Respects values contract) (start values) events :=
  each_congr (Kept values contract) (fun _ event h => h.gated_iff event) (fun _ event h hok => h.step event hok)
    (kept_start values contract) events

end Served
end SynQt.Generated
