import Mathlib.Data.List.Forall2

/-! Values built from leaves by lists and records, and what holds of them by holding of their leaves. -/
namespace SynQt.Lib
open List

inductive Nested (α : Type) where
  | leaf (a : α)
  | list (items : List (Nested α))
  | record (fields : List (String × Nested α))

namespace Nested
variable {α β : Type}

/-- What the leaves have and a whole has from its parts, every nested value has. -/
@[elab_as_elim]
theorem induct {P : Nested α → Prop} (leaf : ∀ a, P (.leaf a)) (list : ∀ items, (∀ t ∈ items, P t) → P (.list items))
    (record : ∀ fields, (∀ field ∈ fields, P field.2) → P (.record fields)) : ∀ t, P t
  | .leaf a => leaf a
  | .list items => list items (items_have items)
  | .record fields => record fields (fields_have fields)
where
  items_have : ∀ (items : List (Nested α)), ∀ t ∈ items, P t
    | [], _, h => absurd h not_mem_nil
    | t :: rest, _, h => (mem_cons.mp h).elim (fun he => he ▸ induct leaf list record t) (items_have rest _)
  fields_have : ∀ (fields : List (String × Nested α)), ∀ field ∈ fields, P field.2
    | [], _, h => absurd h not_mem_nil
    | (_, t) :: rest, _, h =>
      (mem_cons.mp h).elim (fun he => he ▸ induct leaf list record t) (fields_have rest _)

section Every
variable (p : α → Bool) (key : String → Bool)

mutual

def every : Nested α → Bool
  | .leaf a => p a
  | .list items => everyItem items
  | .record fields => everyField fields

def everyItem : List (Nested α) → Bool
  | [] => true
  | t :: rest => every t && everyItem rest

def everyField : List (String × Nested α) → Bool
  | [] => true
  | (name, t) :: rest => key name && every t && everyField rest

end

variable {p key}

theorem everyItem_iff {items : List (Nested α)} : everyItem p key items = true ↔ ∀ t ∈ items, every p key t = true := by
  induction items with
  | nil => simp [everyItem]
  | cons t rest ih => simp [everyItem, ih]

theorem everyField_iff {fields : List (String × Nested α)} :
    everyField p key fields = true ↔ ∀ field ∈ fields, key field.1 = true ∧ every p key field.2 = true := by
  induction fields with
  | nil => simp [everyField]
  | cons field rest ih =>
    obtain ⟨name, t⟩ := field
    simp [everyField, ih]

end Every

section Agree
variable (eq : α → α → Bool)

mutual

def agree : Nested α → Nested α → Bool
  | .leaf a, .leaf b => eq a b
  | .list items, .list items' => agreeItems items items'
  | .record fields, .record fields' => agreeFields fields fields'
  | _, _ => false

def agreeItems : List (Nested α) → List (Nested α) → Bool
  | [], [] => true
  | t :: rest, t' :: rest' => agree t t' && agreeItems rest rest'
  | _, _ => false

def agreeFields : List (String × Nested α) → List (String × Nested α) → Bool
  | [], [] => true
  | (name, t) :: rest, (name', t') :: rest' => name == name' && agree t t' && agreeFields rest rest'
  | _, _ => false

end

variable {eq}

theorem agree_self {p : α → Bool} {key : String → Bool} (heq : ∀ a, p a = true → eq a a = true) {t : Nested α}
    (h : every p key t = true) : agree eq t t = true := by
  induction t using induct with
  | leaf a => exact heq a h
  | list items ih =>
    rw [agree]
    rw [every, everyItem_iff] at h
    induction items with
    | nil => rfl
    | cons t rest ihrest =>
      have hrest := ihrest (fun t ht => ih t (mem_cons_of_mem _ ht)) fun t ht => h t (mem_cons_of_mem _ ht)
      rw [agreeItems, ih t mem_cons_self (h t mem_cons_self), hrest]
      rfl
  | record fields ih =>
    rw [agree]
    rw [every, everyField_iff] at h
    induction fields with
    | nil => rfl
    | cons field rest ihrest =>
      obtain ⟨name, t⟩ := field
      have hrest := ihrest (fun t ht => ih t (mem_cons_of_mem _ ht)) fun t ht => h t (mem_cons_of_mem _ ht)
      rw [agreeFields, ih _ mem_cons_self (h _ mem_cons_self).2, hrest, beq_self_eq_true]
      rfl

/-- Leaves compared for being equal, two nested values that agree are equal. -/
theorem eq_of_agree (heq : ∀ a b, eq a b = true → a = b) {t t' : Nested α} (h : agree eq t t' = true) : t = t' := by
  induction t using induct generalizing t' with
  | leaf a =>
    cases t' with
    | leaf b => exact congrArg leaf (heq a b h)
    | list items => cases h
    | record fields => cases h
  | list items ih =>
    cases t' with
    | leaf b => cases h
    | record fields => cases h
    | list items' =>
      rw [agree] at h
      refine congrArg list ?_
      induction items generalizing items' with
      | nil =>
        cases items' with
        | nil => rfl
        | cons t rest => cases h
      | cons t rest ihrest =>
        cases items' with
        | nil => cases h
        | cons t' rest' =>
          rw [agreeItems, Bool.and_eq_true] at h
          rw [ih t mem_cons_self h.1, ihrest (fun t ht => ih t (mem_cons_of_mem _ ht)) rest' h.2]
  | record fields ih =>
    cases t' with
    | leaf b => cases h
    | list items => cases h
    | record fields' =>
      rw [agree] at h
      refine congrArg record ?_
      induction fields generalizing fields' with
      | nil =>
        cases fields' with
        | nil => rfl
        | cons field rest => cases h
      | cons field rest ihrest =>
        cases fields' with
        | nil => cases h
        | cons field' rest' =>
          obtain ⟨name, t⟩ := field
          obtain ⟨name', t'⟩ := field'
          rw [agreeFields, Bool.and_eq_true, Bool.and_eq_true, beq_iff_eq] at h
          have hvalue : t = t' := ih (name, t) mem_cons_self h.1.2
          rw [h.1.1, hvalue, ihrest (fun t ht => ih t (mem_cons_of_mem _ ht)) rest' h.2]

end Agree

private theorem every_true (t : Nested α) : every (fun _ => true) (fun _ => true) t = true := by
  induction t using induct with
  | leaf a => rfl
  | list items ih => exact everyItem_iff.mpr ih
  | record fields ih => exact everyField_iff.mpr fun field hfield => ⟨rfl, ih field hfield⟩

private theorem agree_iff_eq [DecidableEq α] {t t' : Nested α} : agree (fun a b => decide (a = b)) t t' = true ↔ t = t' := by
  refine ⟨eq_of_agree fun a b => of_decide_eq_true, ?_⟩
  rintro rfl
  have hself (a : α) (_ : (fun _ => true) a = true) : decide (a = a) = true := decide_eq_true rfl
  exact agree_self hself (every_true t)

instance [DecidableEq α] : DecidableEq (Nested α) := fun _ _ => decidable_of_iff _ agree_iff_eq

/-- Two nested values of one shape, down to the leaves of the first, each related to what stands in its place. -/
inductive Rel (R : α → Nested β → Prop) : Nested α → Nested β → Prop
  | leaf {a : α} {t : Nested β} (h : R a t) : Rel R (.leaf a) t
  | list {items : List (Nested α)} {items' : List (Nested β)} (h : List.Forall₂ (Rel R) items items') :
      Rel R (.list items) (.list items')
  | record {fields : List (String × Nested α)} {fields' : List (String × Nested β)}
      (hkeys : fields.map Prod.fst = fields'.map Prod.fst)
      (h : List.Forall₂ (Rel R) (fields.map Prod.snd) (fields'.map Prod.snd)) : Rel R (.record fields) (.record fields')

/-- Related records have the same keys in the same order, with related values. -/
theorem Rel.fields {R : α → Nested β → Prop} {fields : List (String × Nested α)} {fields' : List (String × Nested β)}
    (h : Rel R (.record fields) (.record fields')) :
    List.Forall₂ (fun field field' => field.1 = field'.1 ∧ Rel R field.2 field'.2) fields fields' := by
  cases h with
  | record hkeys hvalues =>
    have hfirst : List.Forall₂ (fun field field' => field.1 = field'.1) fields fields' := by
      rwa [← forall₂_eq_eq_eq, forall₂_map_left_iff, forall₂_map_right_iff] at hkeys
    have hsecond : List.Forall₂ (fun field field' => Rel R field.2 field'.2) fields fields' := by
      rwa [forall₂_map_left_iff, forall₂_map_right_iff] at hvalues
    exact forall₂_iff_zip.mpr ⟨hfirst.length_eq, fun hmem =>
      ⟨(forall₂_iff_zip.mp hfirst).2 hmem, (forall₂_iff_zip.mp hsecond).2 hmem⟩⟩

private theorem forall₂_of_mem {γ δ : Type} {R S : γ → δ → Prop} {l : List γ} {l' : List δ} (h : List.Forall₂ R l l')
    (hle : ∀ a ∈ l, ∀ b, R a b → S a b) : List.Forall₂ S l l' :=
  forall₂_iff_zip.mpr ⟨h.length_eq, fun hmem => hle _ (of_mem_zip hmem).1 _ ((forall₂_iff_zip.mp h).2 hmem)⟩

theorem Rel.mono {R S : α → Nested β → Prop} (hle : ∀ a t, R a t → S a t) {t : Nested α} {t' : Nested β} (h : Rel R t t') :
    Rel S t t' := by
  induction t using induct generalizing t' with
  | leaf a =>
    cases h with
    | leaf hleaf => exact .leaf (hle _ _ hleaf)
  | list items ih =>
    cases h with
    | list hitems => exact .list (forall₂_of_mem hitems fun t ht _ h => ih t ht h)
  | record fields ih =>
    cases h with
    | record hkeys hvalues =>
      refine .record hkeys (forall₂_of_mem hvalues fun t ht _ h => ?_)
      obtain ⟨field, hfield, rfl⟩ := mem_map.mp ht
      exact ih field hfield h

end Nested

end SynQt.Lib
