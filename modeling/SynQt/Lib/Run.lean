import Mathlib.Data.List.Basic

/-! Runs of a machine whose step is a function of the state and a label. A run is
the list of its labels; what a step may ask of its state is a predicate beside it. -/
namespace SynQt.Lib
universe u v
variable {σ : Type u} {α : Type v}

def run (step : σ → α → σ) (s : σ) (labels : List α) : σ := labels.foldl step s

/-- Every step of the run meets `ok` in the state it starts from. -/
def Each (step : σ → α → σ) (ok : σ → α → Prop) : σ → List α → Prop
  | _, [] => True
  | s, a :: labels => ok s a ∧ Each step ok (step s a) labels

instance Each.decidable (step : σ → α → σ) (ok : σ → α → Prop) [∀ s a, Decidable (ok s a)] :
    ∀ (labels : List α) (s : σ), Decidable (Each step ok s labels)
  | [], _ => inferInstanceAs (Decidable True)
  | a :: labels, s =>
    letI := Each.decidable step ok labels (step s a)
    inferInstanceAs (Decidable (ok s a ∧ Each step ok (step s a) labels))

variable {step : σ → α → σ} {ok ok' : σ → α → Prop}

@[simp] theorem run_nil (s : σ) : run step s [] = s := rfl

@[simp] theorem run_cons (s : σ) (a : α) (labels : List α) :
    run step s (a :: labels) = run step (step s a) labels := rfl

theorem run_append (s : σ) (labels labels' : List α) :
    run step s (labels ++ labels') = run step (run step s labels) labels' :=
  List.foldl_append

theorem each_append (s : σ) (labels labels' : List α) :
    Each step ok s (labels ++ labels') ↔
      Each step ok s labels ∧ Each step ok (run step s labels) labels' := by
  induction labels generalizing s with
  | nil => simp [Each]
  | cons a labels ih => simp [Each, ih, and_assoc]

variable (I : σ → Prop) {s : σ}

theorem run_invariant (keep : ∀ s a, I s → I (step s a)) (h : I s) (labels : List α) :
    I (run step s labels) := by
  induction labels generalizing s with
  | nil => exact h
  | cons a labels ih => exact ih (keep s a h)

variable {labels : List α}

theorem Each.invariant (keep : ∀ s a, I s → ok s a → I (step s a)) (hs : Each step ok s labels) (h : I s) : I (run step s labels) := by
  induction labels generalizing s with
  | nil => exact h
  | cons a labels ih => exact ih hs.2 (keep _ _ h hs.1)

/-- What an invariant and an admitted step give of each step, and with it the invariant again. -/
theorem Each.imp (keep : ∀ s a, I s → ok s a → ok' s a ∧ I (step s a)) (hs : Each step ok s labels) (h : I s) : Each step ok' s labels := by
  induction labels generalizing s with
  | nil => trivial
  | cons a labels ih =>
    have hkept := keep s a h hs.1
    exact ⟨hkept.1, ih hs.2 hkept.2⟩

theorem each_of_all (h : ∀ s a, ok s a) (s : σ) (labels : List α) : Each step ok s labels := by
  induction labels generalizing s with
  | nil => trivial
  | cons a labels ih => exact ⟨h s a, ih (step s a)⟩

/-- Conditions alike wherever an invariant holds are alike over the run, when the one keeps it. -/
theorem each_congr (hiff : ∀ s a, I s → (ok s a ↔ ok' s a)) (keep : ∀ s a, I s → ok' s a → I (step s a)) (h : I s) (labels : List α) : Each step ok s labels ↔ Each step ok' s labels := by
  induction labels generalizing s with
  | nil => exact Iff.rfl
  | cons a labels ih =>
    rw [Each, Each, hiff s a h]
    exact and_congr_right fun hok => ih (keep s a h hok)

/-- Conditions alike at every admitted step are alike over a run of them. -/
theorem Each.congr {adm : σ → α → Prop} (hiff : ∀ s a, I s → adm s a → (ok s a ↔ ok' s a))
    (keep : ∀ s a, I s → adm s a → I (step s a)) (h : I s) (hadm : Each step adm s labels) :
    Each step ok s labels ↔ Each step ok' s labels := by
  induction labels generalizing s with
  | nil => exact Iff.rfl
  | cons a labels ih =>
    exact and_congr (hiff s a h hadm.1) (ih (keep s a h hadm.1) hadm.2)

/-- What each step reaches exactly where it is as it should be, every state of the run has exactly where
each of its steps is. -/
theorem forall_prefix_iff {adm : σ → α → Prop} {I P : σ → Prop}
    (hstep : ∀ s a, I s → adm s a → (P (step s a) ↔ ok s a)) (keep : ∀ s a, I s → adm s a → ok s a → I (step s a)) (hI : I s) (hP : P s) (hadm : Each step adm s labels) :
    (∀ before after, labels = before ++ after → P (run step s before)) ↔ Each step ok s labels := by
  induction labels generalizing s with
  | nil =>
    refine ⟨fun _ => trivial, fun _ before after h => ?_⟩
    obtain ⟨rfl, -⟩ := List.append_eq_nil_iff.mp h.symm
    exact hP
  | cons a labels ih =>
    obtain ⟨ha, hrest⟩ := hadm
    constructor
    · intro h
      have hfirst : P (step s a) := h [a] labels rfl
      have hok := (hstep s a hI ha).mp hfirst
      refine ⟨hok, (ih (keep s a hI ha hok) hfirst hrest).mp fun before after hl => ?_⟩
      exact h (a :: before) after (by rw [hl, List.cons_append])
    · rintro ⟨hok, hafter⟩ before after h
      cases before with
      | nil => exact hP
      | cons b before =>
        obtain ⟨rfl, hl⟩ := List.cons.inj h
        exact (ih (keep s a hI ha hok) ((hstep s a hI ha).mpr hok) hrest).mpr hafter before after hl

end SynQt.Lib
