import Mathlib.Data.List.Forall2
import SynQt.Generated.Mirrors
import SynQt.Tools.SynValidity

/-! The bounds a contract is written with, and what crosses the boundary generated of it: a prop
published, the rows of a model, the arguments of a signal or a slot, and what a slot returns, with
the fields of any record among them. -/
namespace SynQt.Generated
open Synqtc List

universe u v
variable {V : Type u}

section Conversions
variable {α : Type v} {β : Type u} {f : α → Option β} {l : List α} {out : List β}

private theorem mapM_some_iff : l.mapM f = some out ↔ List.Forall₂ (fun a b => f a = some b) l out := by
  induction l generalizing out with
  | nil => cases out <;> simp
  | cons a l ih =>
    cases out with
    | nil => cases hfirst : f a <;> cases hrest : l.mapM f <;> simp [hfirst, hrest]
    | cons b out =>
      rw [forall₂_cons, ← ih]
      cases hfirst : f a <;> cases hrest : l.mapM f <;> simp [hfirst, hrest]

private theorem isSome_of_mapM (h : l.mapM f = some out) {a : α} (ha : a ∈ l) : ∃ b, f a = some b := by
  have hall := mapM_some_iff.mp h
  obtain ⟨i, hi, rfl⟩ := mem_iff_getElem.mp ha
  have hi' : i < out.length := hall.length_eq ▸ hi
  exact ⟨out[i], hall.get hi hi'⟩

private theorem exists_of_mapM (h : l.mapM f = some out) {b : β} (hb : b ∈ out) : ∃ a ∈ l, f a = some b := by
  have hall := mapM_some_iff.mp h
  obtain ⟨i, hi, rfl⟩ := mem_iff_getElem.mp hb
  have hi' : i < l.length := hall.length_eq ▸ hi
  exact ⟨l[i], getElem_mem hi', hall.get hi' hi⟩

end Conversions

def Names (type : String) (record : Record) : Prop :=
  builtinTypes.lookup (baseOf type) = none ∧ record.name = baseOf type

inductive Bounded (records : List Record) : String → Prop where
  | written {type : String} {bound : Nat} (hbound : boundOf type = some bound) (hmeasured : measured (baseOf type) = true) :
      Bounded records type
  | field {type : String} {record : Record} {field : Field} (hrecord : record ∈ records) (hnames : Names type record)
      (hfield : field ∈ record.fields) (h : Bounded records field.type) : Bounded records type

/-- The record a type names writes a bound on a field, or on a field of a field. -/
def Hides (records : List Record) (type : String) : Prop :=
  ∃ record ∈ records, Names type record ∧ ∃ field ∈ record.fields, Bounded records field.type

/-- The value, or a field of the record it is, is over the bound it was written with. -/
inductive Exceeds (values : Values V) (records : List Record) : String → V → Prop where
  | written {type : String} {value : V} (h : values.overBound type value = true) : Exceeds values records type value
  | field {type : String} {value : V} {record : Record} {field : Field} (hrecord : record ∈ records)
      (hnames : Names type record) (hfield : field ∈ record.fields)
      (h : Exceeds values records field.type (values.field value field.name)) : Exceeds values records type value

/-- Values, each beside the type its place is written with, none of which is over a bound. -/
def Within (values : Values V) (records : List Record) (entries : List (String × V)) : Prop :=
  ∀ entry ∈ entries, ¬ Exceeds values records entry.1 entry.2

namespace Values
variable (values : Values V)

/-- Some value is inside the bound the type is written with. A `var[1]` has none. -/
def Fits (type : String) : Prop := ∃ value, values.overBound type value = false

/-- What the bounds rely on of Qt's values: text, lists and generic values can be made as big as one
likes, a record can carry any value in any field, and `T{}` is the smallest there is of its type,
empty where it is text or a list. -/
structure Roomy (records : List Record) : Prop where
  room : ∀ type size, measured (baseOf type) = true → ∃ value, values.convert type value = some value ∧
    size < values.measure (baseOf type) value
  carries : ∀ record ∈ records, ∀ type, Names type record → ∀ field ∈ record.fields, ∀ value,
    values.convert field.type value = some value →
      ∃ carrier, values.convert type carrier = some carrier ∧ values.field carrier field.name = value
  empty : ∀ type, measured (baseOf type) = true → isGeneric type = false →
    values.measure (baseOf type) (values.initial type) = 0
  smallest : ∀ type, isGeneric type = true → ∀ value,
    values.measure (baseOf type) (values.initial type) ≤ values.measure (baseOf type) value

end Values

private theorem measured_builtin {base : String} (h : measured base = true) : builtinTypes.lookup base ≠ none := by
  rw [measured, Option.isSome_iff_exists] at h
  obtain ⟨unit, h⟩ := h
  have hmem : (base, unit) ∈ sizedTypes := by
    obtain ⟨before, after, hsized, -⟩ := lookup_eq_some_iff.mp h
    rw [hsized]
    exact mem_append_right before mem_cons_self
  simp only [sizedTypes, mem_cons, Prod.mk.injEq, not_mem_nil, or_false] at hmem
  obtain ⟨rfl, -⟩ | ⟨rfl, -⟩ | ⟨rfl, -⟩ | ⟨rfl, -⟩ | ⟨rfl, -⟩ := hmem <;> decide

variable {type : String} {values : Values V} {value : V}

private theorem over_true (h : values.overBound type value = true) :
    ∃ bound, boundOf type = some bound ∧ measured (baseOf type) = true ∧ bound < values.measure (baseOf type) value := by
  rw [Values.overBound] at h
  split at h
  · rename_i bound hbound
    rw [Bool.and_eq_true, decide_eq_true_eq] at h
    exact ⟨bound, hbound, h.1, h.2⟩
  · cases h

private theorem over_eq_true {bound : Nat} (hbound : boundOf type = some bound)
    (hmeasured : measured (baseOf type) = true) (h : bound < values.measure (baseOf type) value) :
    values.overBound type value = true := by
  rw [Values.overBound, hbound]
  simp [hmeasured, h]

variable {records : List Record}

theorem Hides.within (h : Hides records type) (value : V) :
    values.overBound type value = false := by
  obtain ⟨record, -, ⟨hbuiltin, -⟩, -⟩ := h
  by_contra hover
  obtain ⟨bound, -, hmeasured, -⟩ := over_true (Bool.not_eq_false _ ▸ hover)
  exact measured_builtin hmeasured hbuiltin

theorem Hides.bounded (h : Hides records type) : Bounded records type := by
  obtain ⟨record, hrecord, hnames, field, hfield, hbounded⟩ := h
  exact .field hrecord hnames hfield hbounded

theorem Exceeds.bounded (h : Exceeds values records type value) : Bounded records type := by
  induction h with
  | written h =>
    obtain ⟨bound, hbound, hmeasured, -⟩ := over_true h
    exact .written hbound hmeasured
  | field hrecord hnames hfield _ ih => exact .field hrecord hnames hfield ih

private theorem Exceeds.over_or_hides (h : Exceeds values records type value) : values.overBound type value = true ∨ Hides records type := by
  cases h with
  | written h => exact .inl h
  | field hrecord hnames hfield h => exact .inr ⟨_, hrecord, hnames, _, hfield, h.bounded⟩

private theorem generic_builtin (h : isGeneric type = true) : builtinTypes.lookup (baseOf type) ≠ none := by
  rw [isGeneric, contains_iff_mem] at h
  simp only [mem_cons, not_mem_nil, or_false] at h
  obtain h | h := h <;> rw [h] <;> decide

section Roomy
variable {values : Values V} {records : List Record} (hroomy : values.Roomy records)
include hroomy

theorem Bounded.exceeds {type : String} (h : Bounded records type) (avoid : V) :
    ∃ value, values.convert type value = some value ∧ Exceeds values records type value ∧ value ≠ avoid := by
  induction h generalizing avoid with
  | @written type bound hbound hmeasured =>
    obtain ⟨value, hvalue, hsize⟩ := hroomy.room type (max bound (values.measure (baseOf type) avoid)) hmeasured
    refine ⟨value, hvalue, .written (over_eq_true hbound hmeasured (by omega)), ?_⟩
    rintro rfl
    omega
  | @field type record field hrecord hnames hfield _ ih =>
    obtain ⟨value, hvalue, hexceeds, havoid⟩ := ih (values.field avoid field.name)
    obtain ⟨carrier, hcarrier, hcarried⟩ := hroomy.carries record hrecord type hnames field hfield value hvalue
    refine ⟨carrier, hcarrier, .field hrecord hnames hfield (hcarried.symm ▸ hexceeds), ?_⟩
    rintro rfl
    exact havoid hcarried.symm

private theorem over_initial {type : String} (hgeneric : isGeneric type = false) :
    values.overBound type (values.initial type) = false := by
  by_contra hover
  obtain ⟨bound, -, hmeasured, hsize⟩ := over_true (Bool.not_eq_false _ ▸ hover)
  rw [hroomy.empty type hmeasured hgeneric] at hsize
  exact Nat.not_lt_zero bound hsize

private theorem over_initial_of_fits {type : String} {value : V} (h : values.overBound type value = false) :
    values.overBound type (values.initial type) = false := by
  cases hgeneric : isGeneric type with
  | false => exact over_initial hroomy hgeneric
  | true =>
    by_contra hover
    obtain ⟨bound, hbound, hmeasured, hsize⟩ := over_true (Bool.not_eq_false _ ▸ hover)
    have hover := over_eq_true hbound hmeasured (Nat.lt_of_lt_of_le hsize (hroomy.smallest type hgeneric value))
    rw [hover] at h
    cases h

end Roomy

section Checks
variable {values : Values V} {records : List Record}

private theorem within_nil : Within values records [] := fun _ h => nomatch h

private theorem not_exceeds {type : String} {value : V} (hover : values.overBound type value = false) (hhides : ¬ Hides records type) :
    ¬ Exceeds values records type value := by
  intro h
  obtain h | h := h.over_or_hides
  · rw [hover] at h
    cases h
  · exact hhides h

variable {params : List Param} {arguments : List V}

private theorem anyOver_zip (h : values.anyOver params arguments = false)
    {entry : String × V} (hentry : entry ∈ (params.map (·.type)).zip arguments) :
    (∃ param ∈ params, param.type = entry.1) ∧ values.overBound entry.1 entry.2 = false := by
  rw [zip_map_left, mem_map] at hentry
  obtain ⟨⟨param, argument⟩, hmem, rfl⟩ := hentry
  rw [Values.anyOver, any_eq_false] at h
  exact ⟨⟨param, (of_mem_zip hmem).1, rfl⟩, Bool.eq_false_iff.mpr (h (param, argument) hmem)⟩

private theorem fits_of_anyOver (h : values.anyOver params arguments = false)
    (hlength : arguments.length = params.length) {param : Param} (hparam : param ∈ params) : values.Fits param.type := by
  obtain ⟨i, hi, rfl⟩ := mem_iff_getElem.mp hparam
  refine ⟨arguments[i], (@anyOver_zip _ values _ _ h (params[i].type, arguments[i]) ?_).2⟩
  rw [mem_iff_getElem]
  exact ⟨i, by simp [hlength, hi], by simp⟩

private theorem exists_arguments (hroomy : values.Roomy records) (hfits : ∀ param ∈ params, values.Fits param.type) (avoid : V) :
    ∃ arguments : List V, arguments.length = params.length ∧ values.anyOver params arguments = false ∧
      ∀ param ∈ params, Hides records param.type →
        ∃ value, (param.type, value) ∈ (params.map (·.type)).zip arguments ∧ Exceeds values records param.type value := by
  have hvalue (param : Param) (hparam : param ∈ params) :
      ∃ value, values.overBound param.type value = false ∧ (Hides records param.type → Exceeds values records param.type value) := by
    by_cases hhides : Hides records param.type
    · obtain ⟨value, -, hexceeds, -⟩ := hhides.bounded.exceeds hroomy avoid
      exact ⟨value, hhides.within value, fun _ => hexceeds⟩
    · obtain ⟨value, hvalue⟩ := hfits param hparam
      exact ⟨value, hvalue, fun h => absurd h hhides⟩
  have : Nonempty V := ⟨avoid⟩
  choose! argument hover hexceeds using hvalue
  refine ⟨params.map argument, length_map .., ?_, fun param hparam hhides => ⟨argument param, ?_, hexceeds param hparam hhides⟩⟩
  · have hpairs : params.zip (params.map argument) = params.map fun param => (param, argument param) := by
      simpa using zip_map' (f := id) (g := argument) (l := params)
    rw [Values.anyOver, hpairs, any_map, any_eq_false]
    exact fun param hparam => Bool.eq_false_iff.mp (hover param hparam)
  · rw [zip_map']
    exact mem_map.mpr ⟨param, hparam, rfl⟩

private theorem lookup_names {roles : List Role} (h : (roles.map (·.name)).Nodup) (value : Role → V) {role : Role}
    (hrole : role ∈ roles) : (roles.map fun role => (role.name, value role)).lookup role.name = some (value role) := by
  induction roles with
  | nil => cases hrole
  | cons first roles ih =>
    rw [map_cons, nodup_cons] at h
    rw [map_cons, lookup_cons]
    obtain rfl | hrole := mem_cons.mp hrole
    · rw [beq_self_eq_true]
    · have hne : (role.name == first.name) = false := by
        rw [beq_eq_false_iff_ne]
        intro heq
        exact h.1 (heq ▸ mem_map_of_mem hrole)
      rw [hne]
      exact ih h.2 hrole

private theorem over_of_onward {s : Source V} {slot : Slot} (h : s.callSlot values slot arguments = .onward) : values.anyOver slot.params arguments = false := by
  rw [Source.callSlot] at h
  split at h
  · cases h
  · split at h
    · cases h
    · rename_i hover
      exact Bool.eq_false_iff.mpr hover

end Checks

variable [DecidableEq V]

/-- What an effect carries over the link, of the Source as it leaves it: a value, the rows the model
now shows, or the arguments of a signal. -/
def Effect.carried (after : Source V) : Effect V → List (String × V)
  | .changed prop value => [(prop.type, value)]
  | .rowsChanged model _ => (after.models model).flatMap fun item => (model.roles.map (·.type)).zip item
  | .raised signal arguments => (signal.params.map (·.type)).zip arguments

def leaves (outcome : Source V × List (Effect V)) : List (String × V) := outcome.2.flatMap (Effect.carried outcome.1)

namespace Source
variable (values : Values V) (s : Source V)

def handed (slot : Slot) (arguments : List V) : List (String × V) :=
  match s.callSlot values slot arguments with
  | .onward => (slot.params.map (·.type)).zip arguments
  | _ => []

/-- What the caller is answered: what the owner's function returned, as the declared type. A
refusal answers `T{}`, and so does a front, which waits for no result. -/
def answer (slot : Slot) (arguments : List V) (type : String) (result : Option V) : V :=
  match s.callSlot values slot arguments, result with
  | .onward, some result => (values.convert type result).getD (values.initial type)
  | _, _ => values.initial type

end Source

/-- A way over the generated boundary: the owner assigns a prop, publishes a model, sends a signal
through its `emit<Signal>` or raises it on the Source itself, and a caller calls a slot. -/
inductive Route where
  | assign (prop : Property)
  | publish (model : Model)
  | emit (signal : Synqtc.Signal)
  | raise (signal : Synqtc.Signal)
  | call (slot : Slot)

namespace Route
variable (values : Values V) (records : List Record)

/-- Each role and each parameter is a variable of the generated code by its own name, so that two
of one name are no program. -/
def Compiles : Route → Prop
  | .assign _ => True
  | .publish model => (model.roles.map (·.name)).Nodup
  | .emit signal | .raise signal => (signal.params.map (·.name)).Nodup
  | .call slot => (slot.params.map (·.name)).Nodup

/-- Whatever is offered to whichever Source, nothing that crosses is over its bound. -/
def Enforced (route : Route) : Prop :=
  route.Compiles → ∀ s : Source V,
    match route with
    | .assign prop => ∀ value, Within values records (leaves (s.setProp values prop value))
    | .publish model => ∀ rows, Within values records (leaves (s.setModel values model rows))
    | .emit signal => ∀ arguments : List V, arguments.length = signal.params.length →
        Within values records (leaves (s, s.emitSignal values signal arguments))
    | .raise signal => ∀ arguments : List V, arguments.length = signal.params.length →
        Within values records (leaves (s, Source.raise signal arguments))
    | .call slot => ∀ arguments : List V, arguments.length = slot.params.length →
        Within values records (s.handed values slot arguments) ∧ ∀ result, ∀ type ∈ slot.returnType,
          ¬ Exceeds values records type (s.answer values slot arguments type result)

/-- The route writes no bound that its checks do not look at: none inside a record, none at all on
a signal raised past `emit<Signal>`, and none on what a slot returns. Where a role or a parameter is
written so small that nothing fits it, nothing crosses beside it. -/
def Checked (route : Route) : Prop :=
  route.Compiles →
    match route with
    | .assign prop => ¬ Hides records prop.type
    | .publish model => (∀ role ∈ model.roles, values.Fits role.type) → ∀ role ∈ model.roles, ¬ Hides records role.type
    | .emit signal => (∀ param ∈ signal.params, values.Fits param.type) → ∀ param ∈ signal.params, ¬ Hides records param.type
    | .raise signal => ∀ param ∈ signal.params, ¬ Bounded records param.type
    | .call slot =>
        ((∀ param ∈ slot.params, values.Fits param.type) →
          (∀ param ∈ slot.params, ¬ Hides records param.type) ∧ ∀ type ∈ slot.returnType, ¬ Bounded records type) ∧
        ∀ type ∈ slot.returnType, ¬ Exceeds values records type (values.initial type)

end Route

section Checks
variable {values : Values V} {records : List Record}

private theorem mem_setProp {s : Source V} {prop : Property} {value : V} {effect : Effect V}
    (h : effect ∈ (s.setProp values prop value).2) :
    values.overBound prop.type value = false ∧ (effect = .changed prop value ∨ effect = .changed prop (values.initial prop.type)) := by
  have hsimple (s' : Source V) (value' : V) (h : effect ∈ (s'.simpleSet prop value').2) : effect = .changed prop value' := by
    rw [Source.simpleSet] at h
    split at h
    · cases h
    · exact mem_singleton.mp h
  rw [Source.setProp] at h
  split at h
  · cases h
  · rename_i hover
    refine ⟨Bool.eq_false_iff.mpr hover, ?_⟩
    split at h
    · exact .inl (hsimple _ _ h)
    · simp only at h
      split at h
      · exact .inr (hsimple _ _ h)
      · exact .inl (hsimple _ _ h)

private theorem mem_setModel {s : Source V} {model : Model} {rows : List (Row V)} {effect : Effect V}
    (h : effect ∈ (s.setModel values model rows).2) :
    effect = .rowsChanged model rows ∧ ((s.setModel values model rows).1.models model = [] ∨
      values.items model rows = some ((s.setModel values model rows).1.models model)) := by
  have hsame : Source.allows (if model.scope.isEmpty then s else { s with rows := Function.update s.rows model rows })
      model.scope = s.allows model.scope := by
    split
    · rfl
    · exact Source.allows_congr rfl rfl model.scope
  have hmodels : (s.setModel values model rows).1.models model =
      if s.allows model.scope then (values.items model rows).getD (s.models model) else [] := by
    rw [Source.setModel_fst]
    exact Function.update_self ..
  rw [hmodels]
  rw [Source.setModel] at h
  simp only [hsame] at h
  cases hallowed : s.allows model.scope with
  | false =>
    rw [hallowed] at h
    exact ⟨mem_singleton.mp h, .inl rfl⟩
  | true =>
    rw [hallowed] at h
    cases hitems : values.items model rows with
    | none =>
      rw [hitems] at h
      cases h
    | some items =>
      rw [hitems] at h
      exact ⟨mem_singleton.mp h, .inr rfl⟩

private theorem roleConversion_within (hroomy : values.Roomy records) {row : Row V} {role : Role} {item : V}
    (h : values.roleConversion row role = some item) : values.overBound role.type item = false ∧ values.Fits role.type := by
  have hinitial (hgeneric : ¬ isGeneric role.type = true) : values.overBound role.type (values.initial role.type) = false :=
    over_initial hroomy (Bool.eq_false_iff.mpr hgeneric)
  rw [Values.roleConversion] at h
  split at h
  · split at h
    · cases h
    · rename_i hover
      cases h
      exact ⟨Bool.eq_false_iff.mpr hover, _, Bool.eq_false_iff.mpr hover⟩
  · rename_i hgeneric
    refine ⟨?_, _, hinitial hgeneric⟩
    split at h
    · cases h
      exact hinitial hgeneric
    · split at h
      · cases h
      · split at h
        · cases h
        · rename_i hover
          cases h
          exact Bool.eq_false_iff.mpr hover

private theorem exists_row (hroomy : values.Roomy records) {roles : List Role} (hnames : (roles.map (·.name)).Nodup)
    (hfits : ∀ role ∈ roles, values.Fits role.type) :
    ∃ (row : Row V) (item : Role → V), ∀ role ∈ roles, values.roleConversion row role = some (item role) ∧
      (Hides records role.type → Exceeds values records role.type (item role)) := by
  have hrole (role : Role) (hrole : role ∈ roles) :
      ∃ value item, (∀ row, values.valueOf row role.name = value → values.roleConversion row role = some item) ∧
        (Hides records role.type → Exceeds values records role.type item) := by
    cases hgeneric : isGeneric role.type with
    | true =>
      obtain ⟨value, hvalue⟩ := hfits role hrole
      refine ⟨value, value, fun row hrow => ?_, fun ⟨_, _, ⟨hbuiltin, _⟩, _⟩ => absurd hbuiltin (generic_builtin hgeneric)⟩
      rw [Values.roleConversion, hrow]
      simp [hgeneric, hvalue]
    | false =>
      by_cases hhides : Hides records role.type
      · obtain ⟨value, hvalue, hexceeds, hvalid⟩ := hhides.bounded.exceeds hroomy values.invalid
        refine ⟨value, value, fun row hrow => ?_, fun _ => hexceeds⟩
        rw [Values.roleConversion, hrow]
        simp [hgeneric, hvalid, hvalue, hhides.within value]
      · refine ⟨values.invalid, values.initial role.type, fun row hrow => ?_, fun h => absurd h hhides⟩
        rw [Values.roleConversion, hrow]
        simp [hgeneric]
  have : Nonempty V := ⟨values.invalid⟩
  choose! value item hconverts hexceeds using hrole
  refine ⟨roles.map fun role => (role.name, value role), item, fun role hrole => ⟨hconverts role hrole _ ?_, hexceeds role hrole⟩⟩
  rw [Values.valueOf, lookup_names hnames value hrole, Option.getD_some]

namespace Route

section
variable (hroomy : values.Roomy records)
include hroomy

private theorem assign_enforced_iff (prop : Property) :
    (Route.assign prop).Enforced values records ↔ (Route.assign prop).Checked values records := by
  constructor
  · intro h _ hhides
    obtain ⟨value, -, hexceeds, hother⟩ := hhides.bounded.exceeds hroomy (values.initial prop.type)
    -- the Source of a shared entity, as it is made
    let s : Source V := { values.fresh with ungated := true }
    have hleaves : (prop.type, value) ∈ leaves (s.setProp values prop value) := by
      rw [leaves, Source.setProp_snd rfl, if_neg (by simp [hhides.within value, s, Values.fresh, hother.symm])]
      exact mem_singleton_self _
    exact h trivial s value _ hleaves hexceeds
  · intro h _ s value entry hentry
    obtain ⟨effect, heffect, hentry⟩ := mem_flatMap.mp hentry
    obtain ⟨hover, rfl | rfl⟩ := mem_setProp heffect
    · obtain rfl := mem_singleton.mp hentry
      exact not_exceeds hover (h trivial)
    · obtain rfl := mem_singleton.mp hentry
      exact not_exceeds (over_initial_of_fits hroomy hover) (h trivial)

theorem publish_enforced_iff (model : Model) :
    (Route.publish model).Enforced values records ↔ (Route.publish model).Checked values records := by
  constructor
  · intro h hnames hfits role hrole hhides
    obtain ⟨row, item, hrow⟩ := exists_row hroomy hnames hfits
    have hitem : model.roles.mapM (values.roleConversion row) = some (model.roles.map item) :=
      mapM_some_iff.mpr (forall₂_map_right_iff.mpr (forall₂_same.mpr fun role hrole => (hrow role hrole).1))
    have hitems : values.items model [row] = some [model.roles.map item] :=
      mapM_some_iff.mpr (.cons hitem .nil)
    let s : Source V := { values.fresh with ungated := true }
    have hmodels : (s.setModel values model [row]).1.models model = [model.roles.map item] := by
      rw [Source.setModel_fst]
      simp [hitems, Source.allows, s]
    have hleaves : (role.type, item role) ∈ leaves (s.setModel values model [row]) := by
      rw [leaves, Source.setModel_snd rfl, hitems, Option.isSome_some, if_pos rfl, flatMap_singleton, Effect.carried,
        hmodels, flatMap_singleton, zip_map']
      exact mem_map.mpr ⟨role, hrole, rfl⟩
    exact h hnames s [row] _ hleaves ((hrow role hrole).2 hhides)
  · intro h hnames s rows entry hentry
    obtain ⟨effect, heffect, hentry⟩ := mem_flatMap.mp hentry
    obtain ⟨rfl, hclosed | hitems⟩ := mem_setModel heffect
    · rw [Effect.carried, hclosed] at hentry
      cases hentry
    · obtain ⟨item, hitem, hentry⟩ := mem_flatMap.mp hentry
      obtain ⟨row, -, hrow⟩ := exists_of_mapM hitems hitem
      rw [zip_map_left, mem_map] at hentry
      obtain ⟨⟨role, value⟩, hzip, rfl⟩ := hentry
      have hrole : role ∈ model.roles := (of_mem_zip hzip).1
      have hconversion : values.roleConversion row role = some value := forall₂_zip (mapM_some_iff.mp hrow) hzip
      refine not_exceeds (roleConversion_within hroomy hconversion).1 (h hnames (fun other hother => ?_) role hrole)
      obtain ⟨_, hother⟩ := isSome_of_mapM hrow hother
      exact (roleConversion_within hroomy hother).2

private theorem emit_enforced_iff (signal : Synqtc.Signal) :
    (Route.emit signal).Enforced values records ↔ (Route.emit signal).Checked values records := by
  constructor
  · intro h hnames hfits param hparam hhides
    obtain ⟨arguments, hlength, hover, hexceeds⟩ := exists_arguments hroomy hfits values.invalid
    obtain ⟨value, hvalue, hexceeds⟩ := hexceeds param hparam hhides
    let s : Source V := { values.fresh with ungated := true }
    have hleaves : (param.type, value) ∈ leaves (s, s.emitSignal values signal arguments) := by
      simpa [leaves, Source.emitSignal, Source.allows, s, hover, Effect.carried] using hvalue
    exact h hnames s arguments hlength _ hleaves hexceeds
  · intro h hnames s arguments hlength entry hentry
    rw [leaves, Source.emitSignal] at hentry
    split at hentry
    · cases hentry
    · split at hentry
      · cases hentry
      · rename_i hover
        rw [flatMap_singleton] at hentry
        obtain ⟨⟨param, hparam, heq⟩, hfits⟩ := anyOver_zip (Bool.eq_false_iff.mpr hover) hentry
        rw [← heq] at hfits ⊢
        exact not_exceeds hfits (h hnames (fun _ => fits_of_anyOver (Bool.eq_false_iff.mpr hover) hlength) param hparam)

private theorem raise_enforced_iff (signal : Synqtc.Signal) :
    (Route.raise signal).Enforced values records ↔ (Route.raise signal).Checked values records := by
  constructor
  · intro h hnames param hparam hbounded
    obtain ⟨value, -, hexceeds, -⟩ := hbounded.exceeds hroomy values.invalid
    have hleaves : (param.type, value) ∈
        leaves (values.fresh, Source.raise signal (signal.params.map fun _ => value)) := by
      rw [leaves, Source.raise, flatMap_singleton, Effect.carried, zip_map']
      exact mem_map.mpr ⟨param, hparam, rfl⟩
    exact h hnames values.fresh _ (length_map ..) _ hleaves hexceeds
  · intro h hnames s arguments _ entry hentry hexceeds
    rw [leaves, Source.raise, flatMap_singleton, Effect.carried, zip_map_left, mem_map] at hentry
    obtain ⟨⟨param, value⟩, hentry, rfl⟩ := hentry
    exact h hnames param (of_mem_zip hentry).1 hexceeds.bounded

theorem call_enforced_iff (slot : Slot) :
    (Route.call slot).Enforced values records ↔ (Route.call slot).Checked values records := by
  constructor
  · intro h hnames
    let s : Source V := { values.fresh with ungated := true }
    refine ⟨fun hfits => ?_, fun type htype hexceeds => ?_⟩
    · obtain ⟨arguments, hlength, hover, hexceeds⟩ := exists_arguments hroomy hfits values.invalid
      have honward : s.callSlot values slot arguments = .onward := by
        simp [Source.callSlot, Source.allows, s, hover]
      obtain ⟨hhanded, hanswer⟩ := h hnames s arguments hlength
      refine ⟨fun param hparam hhides => ?_, fun type htype hbounded => ?_⟩
      · obtain ⟨value, hvalue, hexceeds⟩ := hexceeds param hparam hhides
        rw [Source.handed, honward] at hhanded
        exact hhanded _ hvalue hexceeds
      · obtain ⟨value, hvalue, hexceeds, -⟩ := hbounded.exceeds hroomy values.invalid
        refine hanswer (some value) type htype ?_
        simp only [Source.answer, honward, hvalue, Option.getD_some]
        exact hexceeds
    · refine (h hnames s (slot.params.map fun _ => values.invalid) (length_map ..)).2 none type htype ?_
      rw [Source.answer]
      · exact hexceeds
      · intro result _ hnone
        cases hnone
  · intro h hnames s arguments hlength
    obtain ⟨hall, hinitial⟩ := h hnames
    rw [Source.handed]
    simp only [Source.answer]
    cases hcall : s.callSlot values slot arguments with
    | refusedScope | refusedBound => exact ⟨within_nil, fun result => hinitial⟩
    | onward =>
      have hover : values.anyOver slot.params arguments = false := over_of_onward hcall
      obtain ⟨hhides, hbounded⟩ := hall fun _ => fits_of_anyOver hover hlength
      refine ⟨fun entry hentry => ?_, fun result type htype hexceeds => hbounded type htype hexceeds.bounded⟩
      obtain ⟨⟨param, hparam, heq⟩, hfits⟩ := anyOver_zip hover hentry
      rw [← heq] at hfits ⊢
      exact not_exceeds hfits (hhides param hparam)

end

end Route

/-- A way over the boundary keeps every bound its types are written with exactly where none of
these is past its checks: inside a record, on a signal raised on the Source itself, or on what a
slot returns. -/
theorem enforced_iff_checked {syn : SynFile} (hroomy : values.Roomy syn.records) (route : Route) :
    route.Enforced values syn.records ↔ route.Checked values syn.records := by
  cases route with
  | assign prop => exact Route.assign_enforced_iff hroomy prop
  | publish model => exact Route.publish_enforced_iff hroomy model
  | emit signal => exact Route.emit_enforced_iff hroomy signal
  | raise signal => exact Route.raise_enforced_iff hroomy signal
  | call slot => exact Route.call_enforced_iff hroomy slot

end Checks

def motto : Slot := { name := "motto", params := [], returnType := some "string[4]" }

def mottoes : SynFile := { stem := "mottoes", contracts := [{ name := "Mottoes", members := [.slot motto] }] }

/-- A text, or a record of texts. -/
inductive Datum where
  | text (text : String)
  | record (fields : List (String × String))
deriving DecidableEq

def author : Record := { name := "Author", fields := [{ type := "string[16]", name := "name" }] }

def authors : Values Datum where
  initial type := if baseOf type = author.name then .record [] else .text ""
  convert type
    | .text text => if baseOf type = author.name then none else some (.text text)
    | .record fields => if baseOf type = author.name then some (.record fields) else none
  measure _
    | .text text => text.length
    | .record _ => 0
  field
    | .record fields, name => .text ((fields.lookup name).getD "")
    | .text _, _ => .text ""
  invalid := .text ""

private theorem authors_initial (base type : String) : authors.measure base (authors.initial type) = 0 := by
  have hinitial : authors.initial type = if baseOf type = author.name then .record [] else .text "" := rfl
  rw [hinitial]
  split <;> rfl

private theorem authors_roomy : authors.Roomy [author] where
  room type size hmeasured := by
    have hbase : baseOf type ≠ author.name := by
      intro h
      rw [h] at hmeasured
      exact absurd hmeasured (by decide)
    exact ⟨.text (String.ofList (List.replicate (size + 1) 'x')), if_neg hbase, by simp [authors]⟩
  carries record hrecord type hnames field hfield value hvalue := by
    obtain rfl := mem_singleton.mp hrecord
    obtain rfl := mem_singleton.mp hfield
    have hbase : baseOf "string[16]" ≠ author.name := by decide
    cases value with
    | text text => exact ⟨.record [("name", text)], if_pos hnames.2.symm, rfl⟩
    | record fields =>
      have hnone : (if baseOf "string[16]" = author.name then some (Datum.record fields) else none) = none := if_neg hbase
      cases hnone.symm.trans hvalue
  empty type _ _ := authors_initial _ type
  smallest type _ value := authors_initial (baseOf type) type ▸ Nat.zero_le _

def writtenBy : Property := { type := "Author", name := "by" }

def ascribed : SynFile := { stem := "mottoes", records := [author], contracts := [{ name := "Mottoes", members := [.prop writtenBy] }] }

/-- Nothing looks at the name in the author that is assigned. -/
theorem author_enforced_iff :
    (Route.assign writtenBy).Enforced authors ascribed.records ↔ (Route.assign writtenBy).Checked authors ascribed.records :=
  enforced_iff_checked authors_roomy (.assign writtenBy)

/-- A contract the compiler takes, and a slot of it that answers with more than it is bounded at. -/
theorem answer_over_bound :
    mottoes.Valid ∧ (∃ contract ∈ mottoes.contracts, motto ∈ contract.slots) ∧
      Source.answer texts texts.fresh motto [] "string[4]" (some "per aspera") = "per aspera" ∧
      Exceeds texts mottoes.records "string[4]" "per aspera" := by
  refine ⟨(@validate_ok mottoes "mottoes.syn").mp (by decide), ⟨_, mem_singleton_self _, by decide⟩, by decide, ?_⟩
  exact .written (by decide)

end SynQt.Generated
