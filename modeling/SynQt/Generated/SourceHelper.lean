import SynQt.Tools.SynModel

/-! The Source a contract generates: its setters, its `emit<Signal>` and its slots, with the
bound and the gate each member was written with. What a value is, is Qt's. -/
namespace SynQt.Generated
open Synqtc Function

universe u v

/-- What Qt gives the generated code: `T{}` of a type, conversion to a type, the size of a value
by the base of its type, a record's field, and the invalid `QVariant`. -/
structure Values (V : Type u) where
  initial : String → V
  convert : String → V → Option V
  measure : String → V → Nat
  field : V → String → V
  invalid : V

def baseOf (spelling : String) : String :=
  match matchType spelling.toList with
  | some (base, _) => String.ofList base
  | none => spelling

def boundOf (spelling : String) : Option Nat :=
  match matchType spelling.toList with
  | some (_, some size) => (intOf size).toOption
  | _ => none

/-- The bases a size is measured for, each a key of `MEASURES`. -/
def measured (base : String) : Bool := (sizedTypes.lookup base).isSome

def isGeneric (spelling : String) : Bool := ["var", "variant"].contains (baseOf spelling)

abbrev Row (V : Type u) := List (String × V)

/-- A generated Source: what it publishes, what it remembers behind a gate, and who it answers.
The caller is what its `hasScope` answers. -/
structure Source (V : Type u) where
  props : Property → V
  held : Property → V
  models : Model → List (List V) := fun _ => []
  rows : Model → List (Row V) := fun _ => []
  caller : Option (String → Bool) := none
  ungated : Bool := false

/-- What leaves a Source: to the consumers that acquired it, and to the mirrors that follow it. -/
inductive Effect (V : Type u) where
  | changed (prop : Property) (value : V)
  | rowsChanged (model : Model) (rows : List (Row V))
  | raised (signal : Synqtc.Signal) (arguments : List V)
deriving DecidableEq

inductive Dispatch where
  | refusedScope
  | refusedBound
  | onward
deriving DecidableEq

namespace Values
variable {V : Type u} [DecidableEq V] (values : Values V)

/-- `_bound_guard`: the value is over the bound its type was written with. -/
def overBound (spelling : String) (value : V) : Bool :=
  match boundOf spelling with
  | some bound => measured (baseOf spelling) && decide (bound < values.measure (baseOf spelling) value)
  | none => false

def valueOf (row : Row V) (key : String) : V := (row.lookup key).getD values.invalid

/-- `_role_conversion`: one declared role off a row, unless it refuses the publish. -/
def roleConversion (row : Row V) (role : Role) : Option V :=
  let value := values.valueOf row role.name
  if isGeneric role.type then if values.overBound role.type value then none else some value
  else if value = values.invalid then some (values.initial role.type)
  else
    match values.convert role.type value with
    | none => none
    | some converted => if values.overBound role.type converted then none else some converted

def items (model : Model) (rows : List (Row V)) : Option (List (List V)) :=
  rows.mapM fun row => model.roles.mapM (values.roleConversion row)

def anyOver (params : List Param) (arguments : List V) : Bool :=
  (params.zip arguments).any fun entry => values.overBound entry.1.type entry.2

/-- A Source as it is constructed: every prop its type's default, every model published empty. -/
def fresh : Source V where
  props prop := values.initial prop.type
  held prop := values.initial prop.type

end Values

namespace Source
variable {V : Type u} [DecidableEq V] (values : Values V) (contract : Contract) (s : Source V)

def allows (scopes : List String) : Bool :=
  s.ungated || scopes.isEmpty || (match s.caller with | none => false | some hasScope => scopes.any hasScope)

/-- The setter repc generates, which the helper's own ends in. -/
def simpleSet (prop : Property) (value : V) : Source V × List (Effect V) :=
  if s.props prop = value then (s, [])
  else ({ s with props := update s.props prop value }, [.changed prop value])

/-- `set<Prop>`: the bound on the way in, the gate on the way out. -/
def setProp (prop : Property) (value : V) : Source V × List (Effect V) :=
  if values.overBound prop.type value then (s, [])
  else if prop.scope.isEmpty then s.simpleSet prop value
  else
    -- remembered whether or not it may be published
    let s := { s with held := update s.held prop value }
    if !s.allows prop.scope then s.simpleSet prop (values.initial prop.type) else s.simpleSet prop value

/-- `set<Model>`: built first, and committed when every row of it converts. -/
def setModel (model : Model) (rows : List (Row V)) : Source V × List (Effect V) :=
  let s := if model.scope.isEmpty then s else { s with rows := update s.rows model rows }
  if !s.allows model.scope then
    ({ s with models := update s.models model [] }, [.rowsChanged model rows])
  else
    match values.items model rows with
    | none => (s, [])
    | some items =>
      ({ s with models := update s.models model items, rows := update s.rows model rows },
        [.rowsChanged model rows])

/-- `emit<Signal>`: the gate, then the bounds, then the signal itself. -/
def emitSignal (signal : Synqtc.Signal) (arguments : List V) : List (Effect V) :=
  if !s.allows signal.scope then []
  else if values.anyOver signal.params arguments then []
  else [.raised signal arguments]

def raise (signal : Synqtc.Signal) (arguments : List V) : List (Effect V) := [.raised signal arguments]

/-- A slot, as far as the checks before it is answered: by the entity behind a front, by the
shared Source behind a mirror, or by the owner's own function. -/
def callSlot (slot : Slot) (arguments : List V) : Dispatch :=
  if !s.allows slot.scope then .refusedScope
  else if values.anyOver slot.params arguments then .refusedBound
  else .onward

/-- One setter after another, with what leaves the Source as they run. -/
def each {α : Type v} (f : Source V → α → Source V × List (Effect V)) : List α → Source V → Source V × List (Effect V)
  | [], s => (s, [])
  | a :: rest, s =>
    let first := f s a
    let later := each f rest first.1
    (later.1, first.2 ++ later.2)

def gatedProps : List Property := contract.props.filter fun prop => !prop.scope.isEmpty

def gatedModels : List Model := contract.models.filter fun model => !model.scope.isEmpty

/-- `synqtRegate`: every gated member again, from what its owner last assigned. -/
def synqtRegate : Source V × List (Effect V) :=
  let props := each (fun s prop => s.setProp values prop (s.held prop)) (gatedProps contract) s
  let models := each (fun s model => s.setModel values model (s.rows model)) (gatedModels contract) props.1
  (models.1, props.2 ++ models.2)

def synqtSetCaller (caller : Option (String → Bool)) : Source V × List (Effect V) :=
  { s with caller := caller }.synqtRegate values contract

/-- The caller's scope moves, and `scopeChanged` publishes the gated members again. A Source
without a caller is told of none. -/
def scopeChanged (hasScope : String → Bool) : Source V × List (Effect V) :=
  if s.caller.isSome then { s with caller := some hasScope }.synqtRegate values contract else (s, [])

def synqtHoldsSharedState : Source V × List (Effect V) :=
  { s with ungated := true }.synqtRegate values contract

end Source
end SynQt.Generated
