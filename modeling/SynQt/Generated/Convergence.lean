import SynQt.Generated.Mirrors

namespace SynQt.Generated
open Synqtc Lib

universe u
variable {V : Type u} [DecidableEq V] {values : Values V} {contract : Contract}

namespace Source
variable {s : Source V}

def Converts (values : Values V) (contract : Contract) (s : Source V) : Prop :=
  ∀ model ∈ contract.models, (values.items model (s.rows model)).isSome = true

section
variable (h : s.Converts values contract)
include h

theorem Converts.setProp (prop : Property) (value : V) :
    (s.setProp values prop value).1.Converts values contract := by
  rw [setProp_fst]
  split <;> exact h

theorem Converts.setModel {model : Model} {rows : List (Row V)}
    (hvalid : model ∈ contract.models → model.scope.isEmpty = false → (values.items model rows).isSome = true) :
    (s.setModel values model rows).1.Converts values contract := by
  intro other hother
  rw [setModel_fst]
  show (values.items other ((if (model.scope.isEmpty && (values.items model rows).isNone) = true then s.rows
    else Function.update s.rows model rows) other)).isSome = true
  split
  · exact h other hother
  · rename_i hkept
    rw [Function.update_apply]
    split
    · rename_i heq
      subst heq
      cases hopen : other.scope.isEmpty with
      | false => exact hvalid hother hopen
      | true =>
        rw [hopen, Bool.true_and, Bool.not_eq_true, Option.isNone_eq_false_iff] at hkept
        exact hkept
    · exact h other hother

theorem Converts.regate (caller : Option (String → Bool)) (ungated : Bool) :
    (synqtRegate values contract { s with caller := caller, ungated := ungated }).1.Converts values contract := by
  rw [synqtRegate_fst]
  exact h

theorem Converts.opens (o : Owned V) (caller : Option (String → Bool)) (ungated : Bool) :
    s.Opens values contract o caller ungated :=
  fun model hmodel _ => .inl (h model (mem_gatedModels.mp hmodel).1)

end

end Source

namespace Sharing
variable {r : Sharing V}

/-- The mirrors at one event: a refused publish leaves the shared Source as it was, and every mirror
shows the shared Source's props and rows, by the gates its own caller passes. -/
structure Converges (values : Values V) (contract : Contract) (r : Sharing V) (event : SharedEvent V) : Prop where
  refused : ∀ model ∈ contract.models, ∀ rows, event = .publish model rows → values.items model rows = none →
    (r.step values contract event).shared.models model = r.shared.models model ∧
    (r.step values contract event).shared.rows model = r.shared.rows model
  props : ∀ mirror ∈ (r.step values contract event).mirrors, ∀ prop ∈ contract.props, mirror.props prop =
    if mirror.allows prop.scope then (r.step values contract event).shared.props prop else values.initial prop.type
  models : ∀ mirror ∈ (r.step values contract event).mirrors, ∀ model ∈ contract.models, mirror.models model =
    if mirror.allows model.scope then (r.step values contract event).shared.models model else []

/-- No publish of a gated model is refused. -/
def Validates (values : Values V) (contract : Contract) (_ : Sharing V) : SharedEvent V → Prop
  | .publish model rows =>
    model ∈ contract.models → model.scope.isEmpty = false → (values.items model rows).isSome = true
  | _ => True

/-- The Sources are faithful to the one owner, and remember nothing they would refuse. -/
structure InStep (values : Values V) (contract : Contract) (r : Sharing V) : Prop where
  kept : r.Kept values contract
  shared : r.shared.Converts values contract
  mirrors : ∀ mirror ∈ r.mirrors, mirror.Converts values contract

section
variable (h : r.InStep values contract)
include h

theorem InStep.respects (event : SharedEvent V) : r.Respects values contract event := by
  cases event with
  | holdsSharedState => exact fun _ => h.shared.opens r.owned r.shared.caller true
  | mirror hasScope => exact fun _ model hmodel _ => .inl (h.shared model (Source.mem_gatedModels.mp hmodel).1)
  | setCaller i caller =>
    exact fun mirror hmirror => (h.mirrors mirror (List.mem_of_getElem? hmirror)).opens r.owned caller mirror.ungated
  | scopeChanged i hasScope =>
    exact fun mirror hmirror _ =>
      (h.mirrors mirror (List.mem_of_getElem? hmirror)).opens r.owned (some hasScope) mirror.ungated
  | assign _ _ | publish _ _ | emitSignal _ _ | raise _ _ | emitTo _ _ _ | call _ _ _ => trivial

theorem InStep.made (hasScope : String → Bool) :
    (r.made values contract hasScope).Converts values contract := by
  intro model hmodel
  rw [Sharing.made, Source.fresh_setCaller, Source.mirror_fst]
  show (values.items model (if _ then r.shared.rows model else [])).isSome = true
  split
  · exact h.shared model hmodel
  · rfl

section
variable (event : SharedEvent V)

theorem InStep.reactMirror {i : Nat} {mirror : Source V}
    (hmirror : r.mirrors[i]? = some mirror) : (r.reactMirror values contract i mirror event).1.Converts values contract := by
  have hmem : mirror ∈ r.mirrors := List.mem_of_getElem? hmirror
  have hconverts := h.mirrors mirror hmem
  have hungated := h.kept.ready (List.ne_nil_of_mem hmem)
  obtain ⟨hsame, -⟩ | ⟨prop, value, rfl⟩ | ⟨model, rows, rfl⟩ | ⟨caller, -, hcaller⟩ | ⟨hasScope, -, -, hcaller⟩ :=
    reactMirror_cases values contract hungated i mirror event
  · rw [hsame]
    exact hconverts
  · show (Source.each (Source.follow values) (r.shared.setProp values prop value).2 mirror).1.Converts values contract
    rw [Source.setProp_snd hungated]
    split
    · exact hconverts
    · exact hconverts.setProp prop value
  · show (Source.each (Source.follow values) (r.shared.setModel values model rows).2 mirror).1.Converts values contract
    rw [Source.setModel_snd hungated]
    split
    · rename_i hvalid
      exact hconverts.setModel fun _ _ => hvalid
    · exact hconverts
  · rw [hcaller]
    exact hconverts.regate caller mirror.ungated
  · rw [hcaller]
    exact hconverts.regate (some hasScope) mirror.ungated

theorem InStep.step (hok : r.Validates values contract event) :
    (r.step values contract event).InStep values contract where
  kept := h.kept.step event (h.respects event)
  shared := by
    cases event with
    | assign prop value => exact h.shared.setProp prop value
    | publish model rows => exact h.shared.setModel hok
    | holdsSharedState =>
      show (r.reactShared values contract .holdsSharedState).1.Converts values contract
      rw [reactShared]
      split
      · exact h.shared
      · exact h.shared.regate r.shared.caller true
    | emitSignal _ _ | raise _ _ | mirror _ | setCaller _ _ | scopeChanged _ _ | emitTo _ _ _
    | call _ _ _ => exact h.shared
  mirrors mirror hmirror := by
    rcases mem_step.mp hmirror with ⟨i, old, hold, rfl⟩ | ⟨hasScope, rfl, -, rfl⟩
    · exact h.reactMirror event hold
    · exact h.made hasScope

theorem InStep.converges_iff :
    r.Converges values contract event ↔ r.Validates values contract event := by
  constructor
  · intro hconverges
    cases event with
    | publish model rows =>
      intro hmodel hgated
      rw [Option.isSome_iff_ne_none]
      intro hrefused
      -- the rows are remembered, and could not have been there before
      have hrows := (hconverges.refused model hmodel rows rfl hrefused).2
      have hconverts := h.shared model hmodel
      have hafter : (r.step values contract (.publish model rows)).shared.rows model = rows := by
        show (r.shared.setModel values model rows).1.rows model = rows
        rw [Source.setModel_fst]
        simp [hgated]
      rw [← hrows, hafter, hrefused] at hconverts
      cases hconverts
    | assign _ _ | holdsSharedState | emitSignal _ _ | raise _ _ | mirror _ | setCaller _ _ | scopeChanged _ _
    | emitTo _ _ _ | call _ _ _ => trivial
  · intro hok
    have hstep := h.step event hok
    refine ⟨?_, fun mirror hmirror prop hprop => ?_, fun mirror hmirror model hmodel => ?_⟩
    · rintro model hmodel rows rfl hrefused
      cases hgated : model.scope.isEmpty with
      | false =>
        have hvalid := hok hmodel hgated
        rw [hrefused] at hvalid
        cases hvalid
      | true =>
        show (r.shared.setModel values model rows).1.models model = r.shared.models model ∧
          (r.shared.setModel values model rows).1.rows model = r.shared.rows model
        rw [Source.setModel_fst, List.isEmpty_iff.mp hgated]
        simp [hrefused]
    · have hungated := hstep.kept.ready (List.ne_nil_of_mem hmirror)
      rw [(hstep.kept.mirrors mirror hmirror).publishes.props prop hprop,
        hstep.kept.shared.publishes.props prop hprop, Source.allows_ungated hungated, if_pos rfl]
    · have hungated := hstep.kept.ready (List.ne_nil_of_mem hmirror)
      rw [(hstep.kept.mirrors mirror hmirror).publishes.models model hmodel,
        hstep.kept.shared.publishes.models model hmodel, Source.allows_ungated hungated, if_pos rfl]

end

end

private theorem inStep_start (values : Values V) (contract : Contract) : (start values).InStep values contract where
  kept := kept_start values contract
  shared _ _ := rfl
  mirrors _ hmirror := by cases hmirror

/-- Over every run, with mirrors attached anywhere in it: the mirrors converge and refused publishes
change nothing exactly where no publish of a gated model is refused. -/
theorem converges_iff_validates (values : Values V) (contract : Contract) (events : List (SharedEvent V)) :
    Each (step values contract) (Converges values contract) (start values) events ↔
      Each (step values contract) (Validates values contract) (start values) events :=
  each_congr (InStep values contract) (fun _ event h => h.converges_iff event) (fun _ event h hok => h.step event hok)
    (inStep_start values contract) events

def auditLog : Model := { name := "auditLog", roles := [{ type := "string[4]", name := "line" }], scope := ["admin"] }

/-- A row over its bound is remembered by a gated model that refuses it. -/
theorem refused_rows_remembered :
    ¬ Each (step texts { name := "Gate", members := [.model auditLog] })
      (Converges texts { name := "Gate", members := [.model auditLog] }) (start texts)
      [.holdsSharedState, .publish auditLog [[("line", "ok")]], .publish auditLog [[("line", "far too long")]]] := by
  rintro ⟨-, -, hrefused, -⟩
  have hrows := (hrefused.refused auditLog (by decide) [[("line", "far too long")]] rfl (by decide)).2
  exact absurd hrows (by decide)

end Sharing
end SynQt.Generated
