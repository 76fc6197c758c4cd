import SynQt.Generated.SourceHelper
import SynQt.Lib.Keyed
import SynQt.Tools.SynValidity
import Mathlib.Data.List.TakeWhile

/-! Raising a signal by its name: the caller invokes `emit<Signal>` of the Source with the arguments it
was given, and the meta-object system selects the method by its name and their type names. -/
namespace SynQt.Generated
open Synqtc Lib List

universe u

/-- `_cap`, and `left(1).toUpper()` of an identifier. -/
def cap (name : String) : String :=
  match name.toList with
  | [] => ""
  | c :: rest => String.ofList (c.toUpper :: rest)

def spelled (type : String) : String := (builtinTypes.lookup (baseOf type)).getD (baseOf type)

/-- What of a Source its meta-object can invoke under a name a contract chooses: the `emit<Signal>` of
each signal, the slots its owner answers, the signals themselves, and the notify signals of the props and models. -/
inductive Method where
  | emits (signal : Synqtc.Signal)
  | runs (slot : Slot)
  | raises (signal : Synqtc.Signal)
  | notifies (prop : Property)
  | notifiesRows (model : Model)
deriving DecidableEq

namespace Method

def name : Method → String
  | emits signal => "emit" ++ cap signal.name
  | runs slot => slot.name
  | raises signal => signal.name
  | notifies prop => prop.name ++ "Changed"
  | notifiesRows model => model.name ++ "RowsChanged"

/-- A slot that forwards the session has it for its first parameter. -/
def types (forwardsSession : Bool) : Method → List String
  | emits signal | raises signal => signal.params.map (spelled ·.type)
  | runs slot => (if forwardsSession then ["QVariantMap"] else []) ++ slot.params.map (spelled ·.type)
  | notifies prop => [spelled prop.type]
  | notifiesRows _ => []

def signature (forwardsSession : Bool) (m : Method) : String × List (Option String) :=
  (m.name, (m.types forwardsSession).map some)

end Method

def methods (contract : Contract) : List Method :=
  contract.signals.map .emits ++ contract.slots.map .runs ++ contract.signals.map .raises ++ contract.props.map .notifies ++
    contract.models.map .notifiesRows

/-- `Caller::MaxSignalArgs`. -/
def MaxSignalArgs : Nat := 8

section
variable {V : Type u} (values : Values V) (typeName : V → Option String)

/-- The arguments before the first that is not valid, which has no type name. -/
def callArgs (arguments : List V) : List V :=
  (arguments.take MaxSignalArgs).takeWhile fun value => (typeName value).isSome

def selected (syn : SynFile) (contract : Contract) (method : String) (given : List V) : Option Method :=
  (methods contract).find? fun m => decide (m.signature syn.forwardsSession = (method, given.map typeName))

/-- `Caller::emitSignal` on a Source that is there. What the owner does in a slot is its own. -/
def Source.callerEmit (s : Source V) (syn : SynFile) (contract : Contract) (signalName : String) (arguments : List V) :
    List (Effect V) :=
  if signalName = "" then []
  else
    let given := callArgs typeName arguments
    match selected typeName syn contract ("emit" ++ cap signalName) given with
    | none => []
    | some (.emits signal) => s.emitSignal values signal given
    | some (.runs _) => []
    | some (.raises signal) => Source.raise signal given
    | some (.notifies prop) => [.changed prop (s.props prop)]
    | some (.notifiesRows model) => [.rowsChanged model (s.rows model)]

/-- Arguments of the declared types, where a generic parameter takes any value, the invalid one too. -/
def Declared (params : List Param) (arguments : List V) : Prop :=
  List.Forall₂ (fun param value => isGeneric param.type = true ∨ typeName value = some (spelled param.type)) params arguments

/-- Raised by its name, a signal is raised; and nothing is by arguments it does not declare. -/
def RaisesAlike (syn : SynFile) (contract : Contract) (signal : Synqtc.Signal) (arguments : List V) : Prop :=
  ∀ s : Source V,
    (Declared typeName signal.params arguments →
      s.callerEmit values typeName syn contract signal.name arguments = s.emitSignal values signal arguments) ∧
    (¬ Declared typeName signal.params arguments → s.callerEmit values typeName syn contract signal.name arguments = [])

def Fitting (params : List Param) (arguments : List V) : Prop :=
  arguments.map typeName = params.map fun param => some (spelled param.type)

/-- No method of that name takes the arguments to raise anything with them. -/
def Silent (syn : SynFile) (contract : Contract) (method : String) (given : List V) : Prop :=
  ∀ m ∈ selected typeName syn contract method given,
    match m with
    | .emits signal => values.anyOver signal.params given = true
    | .runs _ => True
    | .raises _ | .notifies _ | .notifiesRows _ => False

end

variable {V : Type u} {values : Values V} {typeName : V → Option String}
variable {syn : SynFile} {contract : Contract} {signal : Synqtc.Signal} {arguments : List V}

private theorem emitSignal_cases (s : Source V) (signal : Synqtc.Signal) (arguments : List V) :
    s.emitSignal values signal arguments = [] ∨ s.emitSignal values signal arguments = [.raised signal arguments] := by
  rw [Source.emitSignal]
  split
  · exact .inl rfl
  · split
    · exact .inl rfl
    · exact .inr rfl

private theorem emitSignal_over (s : Source V) (hover : values.anyOver signal.params arguments = true) :
    s.emitSignal values signal arguments = [] := by
  rw [Source.emitSignal, hover]
  split <;> rfl

def opened (values : Values V) : Source V := { values.fresh with ungated := true }

private theorem over_of_opened (h : (opened values).emitSignal values signal arguments = []) :
    values.anyOver signal.params arguments = true := by
  have hallows : (opened values).allows signal.scope = true := by
    rw [Source.allows, opened, Bool.true_or, Bool.true_or]
  rw [Source.emitSignal, hallows] at h
  by_contra hunder
  rw [Bool.not_eq_true] at hunder
  rw [hunder] at h
  cases h

private theorem selected_of_fitting (hsignal : signal ∈ contract.signals)
    (hcompiles : ((contract.signals.map Method.emits).map (Method.signature syn.forwardsSession)).Nodup)
    (hlength : arguments.length ≤ MaxSignalArgs) (hfit : Fitting typeName signal.params arguments) :
    callArgs typeName arguments = arguments ∧
      selected typeName syn contract ("emit" ++ cap signal.name) arguments = some (.emits signal) := by
  constructor
  · rw [callArgs, take_of_length_le hlength, takeWhile_eq_self_iff]
    intro value hvalue
    have hname : typeName value ∈ signal.params.map fun param => some (spelled param.type) := by
      rw [← hfit]
      exact mem_map_of_mem hvalue
    obtain ⟨param, -, hparam⟩ := mem_map.mp hname
    rw [← hparam]
    rfl
  · have hsignature : ("emit" ++ cap signal.name, arguments.map typeName) =
        (Method.emits signal).signature syn.forwardsSession := by
      rw [hfit, Method.signature, Method.types, map_map]
      rfl
    have hown : (contract.signals.map Method.emits).find? (fun m => decide
        (m.signature syn.forwardsSession = (Method.emits signal).signature syn.forwardsSession)) = some (.emits signal) :=
      find?_key_of_mem hcompiles (mem_map_of_mem hsignal)
    rw [selected, methods, hsignature, append_assoc, append_assoc, append_assoc, List.find?_append, hown]
    rfl

private theorem declared_of_fitting {params : List Param} (hfit : Fitting typeName params arguments) :
    Declared typeName params arguments := by
  induction params generalizing arguments with
  | nil =>
    rw [map_eq_nil_iff.mp hfit]
    exact .nil
  | cons param params ih =>
    cases arguments with
    | nil => cases hfit
    | cons value arguments =>
      obtain ⟨hhead, htail⟩ := List.cons.inj hfit
      exact .cons (.inr hhead) (ih htail)

private theorem selected_signature {method : String} {given : List V} {m : Method}
    (h : selected typeName syn contract method given = some m) :
    m.name = method ∧ (m.types syn.forwardsSession).map some = given.map typeName := by
  have hsignature := List.find?_some h
  rw [decide_eq_true_eq, Method.signature, Prod.mk.injEq] at hsignature
  exact hsignature

private theorem fitting_of_raised {s : Source V}
    (h : s.callerEmit values typeName syn contract signal.name arguments = [.raised signal arguments]) :
    Fitting typeName signal.params arguments := by
  have hsame {raised : Synqtc.Signal} {given : List V}
      (htypes : ((Method.emits raised).types syn.forwardsSession).map some = given.map typeName)
      (heffect : [Effect.raised raised given] = [.raised signal arguments]) : Fitting typeName signal.params arguments := by
    obtain ⟨rfl, rfl⟩ : raised = signal ∧ given = arguments := by
      simpa using heffect
    rw [Fitting, ← htypes, Method.types, map_map]
    rfl
  rw [Source.callerEmit] at h
  split at h
  · cases h
  · simp only at h
    split at h
    · cases h
    · rename_i raised hselected
      rcases emitSignal_cases s raised (callArgs typeName arguments) with hnone | hone
      · rw [hnone] at h
        cases h
      · exact hsame (selected_signature hselected).2 (hone.symm.trans h)
    · cases h
    · rename_i raised hselected
      exact hsame (selected_signature hselected).2 h
    · cases h
    · cases h

private theorem callerEmit_silent (hsilent : Silent values typeName syn contract ("emit" ++ cap signal.name) (callArgs typeName arguments))
    (s : Source V) : s.callerEmit values typeName syn contract signal.name arguments = [] := by
  rw [Source.callerEmit]
  split
  · rfl
  · simp only
    split
    · rfl
    · rename_i raised hselected
      exact emitSignal_over s (hsilent _ hselected)
    · rfl
    · rename_i raised hselected
      exact absurd (hsilent _ hselected) id
    · rename_i prop hselected
      exact absurd (hsilent _ hselected) id
    · rename_i model hselected
      exact absurd (hsilent _ hselected) id

private theorem silent_of_opened (hname : signal.name ≠ "")
    (h : (opened values).callerEmit values typeName syn contract signal.name arguments = []) :
    Silent values typeName syn contract ("emit" ++ cap signal.name) (callArgs typeName arguments) := by
  intro m hm
  rw [Source.callerEmit, if_neg hname] at h
  simp only at h
  rw [Option.mem_def.mp hm] at h
  cases m with
  | emits raised => exact over_of_opened h
  | runs slot => trivial
  | raises raised => cases h
  | notifies prop | notifiesRows model => cases h

/-- Raising a signal by its name is raising it, whatever its Source, exactly where the arguments carry
one for one the type names of its parameters, or where they raise nothing either way. -/
theorem callerEmit_alike_iff (values : Values V) (typeName : V → Option String) (syn : SynFile) (contract : Contract)
    (signal : Synqtc.Signal) (hsignal : signal ∈ contract.signals) (hname : signal.name ≠ "")
    (hcompiles : ((contract.signals.map Method.emits).map (Method.signature syn.forwardsSession)).Nodup)
    (arguments : List V) (hlength : arguments.length ≤ MaxSignalArgs) :
    RaisesAlike values typeName syn contract signal arguments ↔
      Fitting typeName signal.params arguments ∨
        (Declared typeName signal.params arguments → values.anyOver signal.params arguments = true) ∧
          Silent values typeName syn contract ("emit" ++ cap signal.name) (callArgs typeName arguments) := by
  constructor
  · intro halike
    by_cases hfit : Fitting typeName signal.params arguments
    · exact .inl hfit
    · have hquiet (s : Source V) (hdeclared : Declared typeName signal.params arguments) :
          s.emitSignal values signal arguments = [] := by
        have hsame := (halike s).1 hdeclared
        rcases emitSignal_cases s signal arguments with hnone | hone
        · exact hnone
        · exact absurd (fitting_of_raised (hsame.trans hone)) hfit
      refine .inr ⟨fun hdeclared => over_of_opened (hquiet (opened values) hdeclared), silent_of_opened hname ?_⟩
      by_cases hdeclared : Declared typeName signal.params arguments
      · rw [(halike (opened values)).1 hdeclared]
        exact hquiet (opened values) hdeclared
      · exact (halike (opened values)).2 hdeclared
  · rintro (hfit | ⟨hover, hsilent⟩) s
    · obtain ⟨hall, hown⟩ := selected_of_fitting hsignal hcompiles hlength hfit
      refine ⟨fun _ => ?_, fun hundeclared => absurd (declared_of_fitting hfit) hundeclared⟩
      rw [Source.callerEmit, if_neg hname]
      simp only [hall, hown]
    · rw [callerEmit_silent hsilent]
      exact ⟨fun hdeclared => (emitSignal_over s (hover hdeclared)).symm, fun _ => rfl⟩

/-- A value with the name of its type; nothing is the invalid one. -/
abbrev Variant := Option (String × String)

def variants : Values Variant where
  initial type := some (spelled type, "")
  convert _ value := value
  measure _ value := (value.elim "" Prod.snd).length
  field value _ := value
  invalid := none

def variantTypeName (value : Variant) : Option String := value.map Prod.fst

/-- `signal rejected(string[64] reason)`, and `signal noted(var what)`. -/
def rejected : Synqtc.Signal := { name := "rejected", params := [{ type := "string[64]", name := "reason" }] }
def noted : Synqtc.Signal := { name := "noted", params := [{ type := "var", name := "what" }] }

def todo : Contract := { name := "Todo", members := [.signal rejected, .signal noted] }

theorem callerEmit_alike_rejected :
    Fitting variantTypeName rejected.params [some ("QString", "too long")] ∧
      RaisesAlike variants variantTypeName { stem := "todo", contracts := [todo] } todo rejected
        [some ("QString", "too long")] :=
  ⟨rfl, (callerEmit_alike_iff variants variantTypeName { stem := "todo", contracts := [todo] } todo rejected (by decide)
    (by decide) (by decide) [some ("QString", "too long")] (by decide)).mpr (.inl rfl)⟩

/-- A text handed to a generic parameter finds no method, and the signal is not raised. -/
theorem noted_not_raised :
    ¬ RaisesAlike variants variantTypeName { stem := "todo", contracts := [todo] } todo noted [some ("QString", "bought")] := by
  intro halike
  have hdeclared : Declared variantTypeName noted.params [some ("QString", "bought")] :=
    .cons (.inl (by decide)) .nil
  have hsame := (halike (opened variants)).1 hdeclared
  revert hsame
  decide

end SynQt.Generated
