import Mathlib.Data.List.Infix

/-! A reader that goes through a list one element at a time, with the next one in sight: the mark it puts
on each, the state it ends in, and the unbroken runs of what it marks as its own. -/
namespace SynQt.Lib
open List

section
variable {σ α β : Type} (next : σ → α → Option α → σ × β)

/-- The marks of a list that `after` comes behind. -/
def marks (after : Option α) : σ → List α → List β
  | _, [] => []
  | s, a :: rest => (next s a (rest.head?.or after)).2 :: marks after (next s a (rest.head?.or after)).1 rest

/-- The state that is left when the list is read. -/
def ends (after : Option α) : σ → List α → σ
  | s, [] => s
  | s, a :: rest => ends after (next s a (rest.head?.or after)).1 rest

theorem marks_append (after : Option α) (s : σ) (l l' : List α) :
    marks next after s (l ++ l') =
      marks next (l'.head?.or after) s l ++ marks next after (ends next (l'.head?.or after) s l) l' := by
  induction l generalizing s with
  | nil => rfl
  | cons a l ih =>
    have hahead : ((l ++ l').head?.or after) = l.head?.or (l'.head?.or after) := by
      rw [List.head?_append, Option.or_assoc]
    rw [cons_append, marks, hahead, ih, marks, ends, cons_append]

theorem ends_append (after : Option α) (s : σ) (l l' : List α) :
    ends next after s (l ++ l') = ends next after (ends next (l'.head?.or after) s l) l' := by
  induction l generalizing s with
  | nil => rfl
  | cons a l ih =>
    have hahead : ((l ++ l').head?.or after) = l.head?.or (l'.head?.or after) := by
      rw [List.head?_append, Option.or_assoc]
    rw [cons_append, ends, hahead, ih, ends]

variable {next}

/-- What comes behind is told apart from nothing only where the reader tells it. -/
theorem marks_congr {after after' : Option α} (h : ∀ s a, next s a after = next s a after') (s : σ) (l : List α) :
    marks next after s l = marks next after' s l ∧ ends next after s l = ends next after' s l := by
  induction l generalizing s with
  | nil => exact ⟨rfl, rfl⟩
  | cons a l ih =>
    have hhere : next s a (l.head?.or after) = next s a (l.head?.or after') := by
      cases l with
      | nil => exact h s a
      | cons b l => rfl
    rw [marks, marks, ends, ends, hhere]
    exact ⟨congrArg _ (ih _).1, (ih _).2⟩

end

section
variable {α : Type}

def begins (ms : List (Option α)) : Bool := ms.head?.any Option.isSome

def runs : List (Option α) → List (List α)
  | [] => []
  | none :: ms => runs ms
  | some a :: ms =>
    match begins ms, runs ms with
    | true, run :: others => (a :: run) :: others
    | _, others => [a] :: others

variable {ms : List (Option α)}

private theorem runs_ne_nil_of_begins (h : begins ms = true) : runs ms ≠ [] := by
  cases ms with
  | nil => cases h
  | cons m ms =>
    cases m with
    | none => cases h
    | some a =>
      rw [runs]
      split <;> exact cons_ne_nil _ _

/-- One more element of a run changes two lists alike that agree on their runs. -/
theorem runs_cons_congr {ms ms' : List (Option α)} (hruns : runs ms = runs ms') (hbegins : begins ms = begins ms') (m : Option α) :
    runs (m :: ms) = runs (m :: ms') ∧ begins (m :: ms) = begins (m :: ms') := by
  cases m with
  | none => exact ⟨hruns, rfl⟩
  | some a => exact ⟨by rw [runs, runs, hruns, hbegins], rfl⟩

theorem runs_append_none (ms : List (Option α)) : runs (ms ++ [none]) = runs ms ∧ begins (ms ++ [none]) = begins ms := by
  induction ms with
  | nil => exact ⟨rfl, rfl⟩
  | cons m ms ih => exact runs_cons_congr ih.1 ih.2 m

theorem exists_run (a : α) (ms : List (Option α)) :
    ∃ run ∈ runs (some a :: ms), [a] <+: run ∧ ∀ b, ms.head? = some (some b) → [a, b] <+: run := by
  rw [runs]
  split
  · next run others hbegins hruns =>
    refine ⟨a :: run, mem_cons_self, cons_prefix_cons.mpr ⟨rfl, nil_prefix⟩, fun b hb => ?_⟩
    cases ms with
    | nil => cases hb
    | cons m ms =>
      obtain rfl := Option.some.inj hb
      have hfirst (l : List α) : [b] <+: b :: l := cons_prefix_cons.mpr ⟨rfl, nil_prefix⟩
      refine cons_prefix_cons.mpr ⟨rfl, ?_⟩
      rw [runs] at hruns
      split at hruns
      · exact (List.cons.inj hruns).1 ▸ hfirst _
      · exact (List.cons.inj hruns).1 ▸ hfirst _
  · next hnone =>
    refine ⟨[a], mem_cons_self, prefix_rfl, fun b hb => ?_⟩
    have hbegins : begins ms = true := by rw [begins, hb]; rfl
    obtain ⟨run, others, hruns⟩ := exists_cons_of_ne_nil (runs_ne_nil_of_begins hbegins)
    exact absurd hruns (hnone run others hbegins)

theorem exists_run_of_mem {m : Option α} {run : List α} (h : run ∈ runs ms) :
    ∃ whole ∈ runs (m :: ms), run <:+: whole := by
  cases m with
  | none => exact ⟨run, h, infix_rfl⟩
  | some a =>
    rw [runs]
    split
    · next first others hbegins hruns =>
      rw [hruns] at h
      obtain rfl | h := mem_cons.mp h
      · exact ⟨a :: run, mem_cons_self, (suffix_cons a run).isInfix⟩
      · exact ⟨run, mem_cons_of_mem _ h, infix_rfl⟩
    · exact ⟨run, mem_cons_of_mem _ h, infix_rfl⟩

theorem runs_eq_nil (h : runs ms = []) : ∀ m ∈ ms, m = none := by
  induction ms with
  | nil => exact nofun
  | cons m ms ih =>
    cases m with
    | none => exact forall_mem_cons.mpr ⟨rfl, ih h⟩
    | some a =>
      rw [runs] at h
      split at h <;> cases h

def Own (ms : List (Option α)) (l : List α) : Prop := List.Forall₂ (fun m a => ∀ b ∈ m, b = a) ms l

theorem infix_of_own {l : List α} (h : Own ms l) :
    (∀ run ∈ runs ms, run <:+: l) ∧ (begins ms = true → ∀ run ∈ (runs ms).head?, run <+: l) := by
  induction h with
  | nil => exact ⟨nofun, nofun⟩
  | cons hfirst hrest ih =>
    next m a ms l =>
    cases m with
    | none => exact ⟨fun run hrun => (ih.1 run hrun).trans (suffix_cons a l).isInfix, nofun⟩
    | some b =>
      obtain rfl := hfirst b rfl
      rw [runs]
      split
      · next run others hbegins hruns =>
        rw [hruns] at ih
        have hrun : b :: run <+: b :: l := cons_prefix_cons.mpr ⟨rfl, ih.2 hbegins run rfl⟩
        refine ⟨fun other hother => ?_, fun _ other hother => ?_⟩
        · obtain rfl | hother := mem_cons.mp hother
          · exact hrun.isInfix
          · exact (ih.1 other (mem_cons_of_mem _ hother)).trans (suffix_cons b l).isInfix
        · obtain rfl := Option.some.inj hother
          exact hrun
      · have hrun : [b] <+: b :: l := cons_prefix_cons.mpr ⟨rfl, nil_prefix⟩
        refine ⟨fun other hother => ?_, fun _ other hother => ?_⟩
        · obtain rfl | hother := mem_cons.mp hother
          · exact hrun.isInfix
          · exact (ih.1 other hother).trans (suffix_cons b l).isInfix
        · obtain rfl := Option.some.inj hother
          exact hrun

end
end SynQt.Lib
