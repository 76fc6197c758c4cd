import Mathlib.Data.List.Perm.Subperm
import Mathlib.Data.List.Range
import Mathlib.Data.List.Sort

/-! A list sorted by rank, highest first and stably, and what a search of it comes upon; an
element's rank read off the list by counting what comes before it. -/
namespace SynQt.Lib
open List
universe u v
variable {α : Type u} {β : Type v}

/-- Highest rank first; of one rank, as they stood. -/
def ranked (rank : α → Nat) (l : List α) : List α := l.insertionSort fun a b => rank b ≤ rank a

def firstRanked (rank : α → Nat) (p : α → Bool) : List α → Option α
  | [] => none
  | a :: l =>
    if p a then
      match firstRanked rank p l with
      | some b => if rank a < rank b then some b else some a
      | none => some a
    else firstRanked rank p l

variable {rank : α → Nat} {p : α → Bool}

variable {l : List α}

theorem firstRanked_eq_none : firstRanked rank p l = none ↔ ∀ a ∈ l, p a = false := by
  induction l with
  | nil => simp [firstRanked]
  | cons a l ih =>
    rw [firstRanked]
    by_cases ha : p a = true
    · rw [if_pos ha]
      cases firstRanked rank p l with
      | none => simp [ha]
      | some b =>
        simp only [mem_cons, forall_eq_or_imp, ha]
        split <;> simp
    · rw [if_neg ha, ih]
      simp [ha]

theorem firstRanked_spec {a : α} (h : firstRanked rank p l = some a) :
    a ∈ l ∧ p a = true ∧ ∀ b ∈ l, p b = true → rank b ≤ rank a := by
  induction l generalizing a with
  | nil => cases h
  | cons x l ih =>
    rw [firstRanked] at h
    by_cases hx : p x = true
    · rw [if_pos hx] at h
      cases hl : firstRanked rank p l with
      | none =>
        rw [hl] at h
        cases h
        refine ⟨.head _, hx, fun b hb hpb => ?_⟩
        obtain rfl | hb := mem_cons.mp hb
        · exact Nat.le_refl _
        · exact absurd ((firstRanked_eq_none.mp hl b hb).symm.trans hpb) Bool.false_ne_true
      | some c =>
        rw [hl] at h
        obtain ⟨hc, hpc, hmax⟩ := ih hl
        by_cases hlt : rank x < rank c
        · simp only [if_pos hlt, Option.some.injEq] at h
          subst h
          refine ⟨.tail _ hc, hpc, fun b hb hpb => ?_⟩
          obtain rfl | hb := mem_cons.mp hb
          · exact Nat.le_of_lt hlt
          · exact hmax b hb hpb
        · simp only [if_neg hlt, Option.some.injEq] at h
          subst h
          refine ⟨.head _, hx, fun b hb hpb => ?_⟩
          obtain rfl | hb := mem_cons.mp hb
          · exact Nat.le_refl _
          · exact Nat.le_trans (hmax b hb hpb) (Nat.not_lt.mp hlt)
    · rw [if_neg hx] at h
      obtain ⟨ha, hpa, hmax⟩ := ih h
      refine ⟨.tail _ ha, hpa, fun b hb hpb => ?_⟩
      obtain rfl | hb := mem_cons.mp hb
      · exact absurd hpb hx
      · exact hmax b hb hpb

private theorem firstRanked_append (l l' : List α) :
    firstRanked rank p (l ++ l') =
      match firstRanked rank p l, firstRanked rank p l' with
      | none, found => found
      | some a, none => some a
      | some a, some b => if rank a < rank b then some b else some a := by
  induction l with
  | nil => rfl
  | cons x l ih =>
    rw [cons_append, firstRanked, ih, firstRanked]
    by_cases hx : p x = true
    · rw [if_pos hx, if_pos hx]
      cases firstRanked rank p l with
      | none => cases firstRanked rank p l' <;> rfl
      | some a =>
        cases firstRanked rank p l' with
        | none =>
          simp only
          split <;> rfl
        | some b =>
          simp only
          split_ifs <;> grind
    · rw [if_neg hx, if_neg hx]

/-- An element of the first half alone is found where it would be without the second, unless
something there ranks above it. -/
theorem firstRanked_append_eq_some {l l' : List α} {a : α} (ha : a ∉ l') :
    firstRanked rank p (l ++ l') = some a ↔
      firstRanked rank p l = some a ∧ ∀ b ∈ l', p b = true → rank b ≤ rank a := by
  rw [firstRanked_append]
  cases hl : firstRanked rank p l with
  | none =>
    simp only [reduceCtorEq, false_and, iff_false]
    exact fun hfound => ha (firstRanked_spec hfound).1
  | some c =>
    cases hl' : firstRanked rank p l' with
    | none =>
      have hnone := firstRanked_eq_none.mp hl'
      simp only [Option.some.injEq, iff_self_and]
      exact fun _ b hb hpb => absurd ((hnone b hb).symm.trans hpb) Bool.false_ne_true
    | some d =>
      obtain ⟨hd, hpd, hmax⟩ := firstRanked_spec hl'
      by_cases hlt : rank c < rank d
      · simp only [if_pos hlt, Option.some.injEq]
        constructor
        · exact fun hda => absurd (hda ▸ hd) ha
        · rintro ⟨rfl, hall⟩
          exact absurd hlt (Nat.not_lt.mpr (hall d hd hpd))
      · simp only [if_neg hlt, Option.some.injEq, iff_self_and]
        rintro rfl b hb hpb
        exact Nat.le_trans (hmax b hb hpb) (Nat.not_lt.mp hlt)

theorem firstRanked_append_ne {a b : α} (ha : a ∈ l) (hpa : p a = true) (hle : rank b ≤ rank a) (hb : b ∉ l)
    (l' : List α) : firstRanked rank p (l ++ l') ≠ some b := by
  intro hfound
  rw [firstRanked_append] at hfound
  cases hl : firstRanked rank p l with
  | none => exact absurd ((firstRanked_eq_none.mp hl a ha).symm.trans hpa) Bool.false_ne_true
  | some c =>
    obtain ⟨hc, -, hmax⟩ := firstRanked_spec hl
    have hac := hmax a ha hpa
    rw [hl] at hfound
    cases hl' : firstRanked rank p l' with
    | none =>
      rw [hl'] at hfound
      exact hb (Option.some.inj hfound ▸ hc)
    | some d =>
      rw [hl'] at hfound
      dsimp only at hfound
      split at hfound
      · next hlt =>
        obtain rfl := Option.some.inj hfound
        omega
      · exact hb (Option.some.inj hfound ▸ hc)

theorem firstRanked_map (f : β → α) (l : List β) :
    firstRanked rank p (l.map f) = (firstRanked (rank ∘ f) (p ∘ f) l).map f := by
  induction l with
  | nil => rfl
  | cons b l ih =>
    rw [map_cons, firstRanked, ih, firstRanked]
    simp only [Function.comp_apply]
    split
    · cases firstRanked (rank ∘ f) (p ∘ f) l with
      | none => rfl
      | some c =>
        simp only [Option.map_some]
        split <;> rfl
    · rfl

theorem find?_orderedInsert (a : α) (h : l.Pairwise fun a b => rank b ≤ rank a) :
    (l.orderedInsert (fun a b => rank b ≤ rank a) a).find? p =
      if p a then
        match l.find? p with
        | some b => if rank a < rank b then some b else some a
        | none => some a
      else l.find? p := by
  induction l with
  | nil =>
    rw [orderedInsert_nil, List.find?_cons, List.find?_nil]
    cases p a <;> rfl
  | cons x l ih =>
    obtain ⟨hx, hl⟩ := pairwise_cons.mp h
    by_cases hle : rank x ≤ rank a
    · -- nothing behind ranks above the one it is put before
      have hbelow : ∀ b, (x :: l).find? p = some b → ¬ rank a < rank b := by
        intro b hb
        obtain rfl | hmem := mem_cons.mp (mem_of_find?_eq_some hb)
        · exact Nat.not_lt.mpr hle
        · exact Nat.not_lt.mpr (Nat.le_trans (hx b hmem) hle)
      rw [orderedInsert_cons, if_pos hle, List.find?_cons]
      cases ha : p a with
      | false => simp
      | true =>
        cases hfound : (x :: l).find? p with
        | none => simp
        | some b => simp [hbelow b hfound]
    · rw [orderedInsert_cons, if_neg hle, List.find?_cons, List.find?_cons, ih hl]
      cases hpx : p x with
      | false => rfl
      | true => simp [Nat.not_le.mp hle]

theorem find?_ranked (l : List α) : (ranked rank l).find? p = firstRanked rank p l := by
  have : Std.Total fun a b : α => rank b ≤ rank a := ⟨fun a b => Nat.le_total (rank b) (rank a)⟩
  have : IsTrans α fun a b => rank b ≤ rank a := ⟨fun a b c hab hbc => Nat.le_trans hbc hab⟩
  induction l with
  | nil => rfl
  | cons a l ih =>
    have hsorted : (ranked rank l).Pairwise fun a b => rank b ≤ rank a := pairwise_insertionSort _ l
    rw [firstRanked, ← ih]
    exact find?_orderedInsert a hsorted

/-- Of a linear order's list, as many elements as asked for have fewer before them. -/
theorem countP_rank_lt {before : α → α → Bool} (hnodup : l.Nodup)
    (hirrefl : ∀ a ∈ l, before a a = false)
    (htrans : ∀ a b c, before a b = true → before b c = true → before a c = true)
    (htotal : ∀ a ∈ l, ∀ b ∈ l, a ≠ b → before a b = true ∨ before b a = true) (n : Nat) :
    (l.countP fun a => decide (l.countP (before · a) < n)) = min n l.length := by
  have hlt (a : α) (ha : a ∈ l) (b : α) (hab : before a b = true) : l.countP (before · a) < l.countP (before · b) := by
    rw [countP_eq_length_filter, countP_eq_length_filter]
    have hsub : (l.filter (before · a)).Sublist (l.filter (before · b)) :=
      monotone_filter_right l fun c hca => htrans c a b hca hab
    refine Nat.lt_of_le_of_ne hsub.length_le fun heq => ?_
    have hmem : a ∈ l.filter (before · b) := mem_filter.mpr ⟨ha, hab⟩
    rw [← hsub.eq_of_length heq, mem_filter, hirrefl a ha] at hmem
    exact Bool.false_ne_true hmem.2
  have hranks : (l.map fun a => l.countP (before · a)).Nodup := by
    refine hnodup.map_on fun a ha b hb heq => ?_
    by_contra hne
    rcases htotal a ha b hb hne with hab | hba
    · exact absurd heq (Nat.ne_of_lt (hlt a ha b hab))
    · exact absurd heq (Nat.ne_of_gt (hlt b hb a hba))
  have hperm : (l.map fun a => l.countP (before · a)).Perm (List.range l.length) := by
    refine (hranks.subperm fun rank hrank => ?_).perm_of_length_le ?_
    · obtain ⟨a, ha, rfl⟩ := mem_map.mp hrank
      rw [mem_range]
      refine Nat.lt_of_le_of_ne countP_le_length fun hall => ?_
      have hself := countP_eq_length.mp hall a ha
      rw [hirrefl a ha] at hself
      exact Bool.false_ne_true hself
    · rw [length_range, length_map]
  have hrange (k : Nat) : (List.range k).countP (fun rank => decide (rank < n)) = min n k := by
    induction k with
    | zero => simp
    | succ k ih =>
      rw [range_succ, countP_append, ih, countP_singleton]
      grind
  have hcount := hperm.countP_eq fun rank => decide (rank < n)
  rw [countP_map, hrange] at hcount
  exact hcount

end SynQt.Lib
