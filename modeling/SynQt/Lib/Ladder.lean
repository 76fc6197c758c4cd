import Mathlib.Data.List.Induction
import SynQt.Lib.Dict

/-! A ladder of names, lowest first, with something on some of its rungs. Whoever holds a name comes to what is on
that rung, or on the highest one below that has anything. -/
namespace SynQt.Lib.Ladder
open Dict List
universe u
variable {α β : Type u} [DecidableEq α]

def rank (order : List α) (a : α) : Option Nat := order.findIdx? (· == a)

variable {order : List α}

theorem rank_inj {a b : α} {n : Nat} (ha : rank order a = some n) (hb : rank order b = some n) : a = b := by
  obtain ⟨hlen, heq, -⟩ := List.findIdx?_eq_some_iff_getElem.mp ha
  obtain ⟨hlen', heq', -⟩ := List.findIdx?_eq_some_iff_getElem.mp hb
  exact (beq_iff_eq.mp heq).symm.trans (beq_iff_eq.mp heq')

theorem mem_of_rank {a : α} {n : Nat} (h : rank order a = some n) : a ∈ order := by
  obtain ⟨hlen, heq, -⟩ := List.findIdx?_eq_some_iff_getElem.mp h
  exact beq_iff_eq.mp heq ▸ getElem_mem hlen

private theorem rank_isSome {a : α} (h : a ∈ order) : ∃ n, rank order a = some n := by
  rw [← Option.isSome_iff_exists, rank, List.findIdx?_isSome, any_eq_true]
  exact ⟨a, h, beq_self_eq_true a⟩

theorem rank_lt_of_mem {l : List α} {a : α} (h : a ∈ l) (rest : List α) : ∃ n, n < l.length ∧ rank (l ++ rest) a = some n := by
  obtain ⟨n, hn⟩ := rank_isSome h
  obtain ⟨hlen, -⟩ := List.findIdx?_eq_some_iff_getElem.mp hn
  refine ⟨n, hlen, ?_⟩
  rw [rank] at hn ⊢
  rw [List.findIdx?_append, hn, Option.some_or]

theorem rank_of_not_mem {l : List α} {a : α} (h : a ∉ l) (rest : List α) : rank (l ++ a :: rest) a = some l.length := by
  have hnone : l.findIdx? (· == a) = none := by
    rw [List.findIdx?_eq_none_iff]
    exact fun b hb => beq_eq_false_iff_ne.mpr fun hsame => h (hsame ▸ hb)
  rw [rank, List.findIdx?_append, hnone, Option.none_or, List.findIdx?_cons, if_pos (beq_self_eq_true a), Option.map_some,
    Nat.zero_add]

/-- The highest rung there is within bounds, among those that have something. -/
def climb (order : List α) (within : Nat → Bool) (tiers : List (α × β)) (best : β × Option Nat) : β × Option Nat :=
  tiers.foldl (fun best tier =>
    match rank order tier.1 with
    | none => best
    | some n => if within n && best.2.all (· < n) then (tier.2, some n) else best) best

/-- Nothing within bounds, and it stays where it was; or the highest. -/
theorem climb_spec (order : List α) (within : Nat → Bool) (tiers : List (α × β)) (b : β) :
    (climb order within tiers (b, none) = (b, none) ∧
        ∀ tier ∈ tiers, ∀ n, rank order tier.1 = some n → within n = false) ∨
      ∃ tier ∈ tiers, ∃ n, rank order tier.1 = some n ∧ within n = true ∧
        climb order within tiers (b, none) = (tier.2, some n) ∧
        ∀ tier' ∈ tiers, ∀ n', rank order tier'.1 = some n' → within n' = true → n' ≤ n := by
  induction tiers using List.reverseRecOn with
  | nil => exact .inl ⟨rfl, forall_mem_nil _⟩
  | append_singleton tiers tier ih =>
    have hstep : climb order within (tiers ++ [tier]) (b, none) =
        match rank order tier.1 with
        | none => climb order within tiers (b, none)
        | some n => if within n && (climb order within tiers (b, none)).2.all (· < n) then (tier.2, some n)
          else climb order within tiers (b, none) := by
      rw [climb, foldl_append]
      rfl
    rw [hstep]
    cases hrank : rank order tier.1 with
    | none =>
      have hlast {P : Nat → Prop} : ∀ n, rank order tier.1 = some n → P n := fun n hn => by cases hrank.symm.trans hn
      obtain ⟨hstays, hnone⟩ | ⟨top, htop, n, hn, hin, hhere, hhigh⟩ := ih
      · refine .inl ⟨hstays, ?_⟩
        rw [forall_mem_append, forall_mem_singleton]
        exact ⟨hnone, hlast⟩
      · refine .inr ⟨top, mem_append_left _ htop, n, hn, hin, hhere, ?_⟩
        rw [forall_mem_append, forall_mem_singleton]
        exact ⟨hhigh, hlast⟩
    | some m =>
      have hlast {P : Nat → Prop} (hm : P m) : ∀ n, rank order tier.1 = some n → P n := fun n hn =>
        Option.some.inj (hrank.symm.trans hn) ▸ hm
      have hmem : tier ∈ tiers ++ [tier] := mem_append_right _ mem_cons_self
      cases hwithin : within m with
      | false =>
        obtain ⟨hstays, hnone⟩ | ⟨top, htop, n, hn, hin, hhere, hhigh⟩ := ih
        · refine .inl ⟨by simp [hwithin, hstays], ?_⟩
          rw [forall_mem_append, forall_mem_singleton]
          exact ⟨hnone, hlast hwithin⟩
        · refine .inr ⟨top, mem_append_left _ htop, n, hn, hin, by simp [hwithin, hhere], ?_⟩
          rw [forall_mem_append, forall_mem_singleton]
          exact ⟨hhigh, hlast fun h => absurd (hwithin.symm.trans h) Bool.false_ne_true⟩
      | true =>
        obtain ⟨hstays, hnone⟩ | ⟨top, htop, n, hn, hin, hhere, hhigh⟩ := ih
        · refine .inr ⟨tier, hmem, m, hrank, hwithin, by simp [hwithin, hstays], ?_⟩
          rw [forall_mem_append, forall_mem_singleton]
          exact ⟨fun tier' h n' hn' hin' => (Bool.false_ne_true ((hnone tier' h n' hn').symm.trans hin')).elim,
            hlast fun _ => Nat.le_refl m⟩
        · by_cases hlt : n < m
          · refine .inr ⟨tier, hmem, m, hrank, hwithin, by simp [hwithin, hhere, hlt], ?_⟩
            rw [forall_mem_append, forall_mem_singleton]
            exact ⟨fun tier' h n' hn' hin' => Nat.le_trans (hhigh tier' h n' hn' hin') (Nat.le_of_lt hlt), hlast fun _ => Nat.le_refl m⟩
          · refine .inr ⟨top, mem_append_left _ htop, n, hn, hin, by simp [hwithin, hhere, hlt], ?_⟩
            rw [forall_mem_append, forall_mem_singleton]
            exact ⟨hhigh, hlast fun _ => Nat.le_of_not_lt hlt⟩

/-- What a holder comes to: their own rung, or, where rungs rank, the highest at or below it. -/
def Lands (order : List α) (ranks : Bool) (tiers : List (α × β)) (held : α) (b : β) : Prop :=
  (held, b) ∈ tiers ∨
    held ∉ keys tiers ∧ ranks = true ∧ ∃ top n bound, (top, b) ∈ tiers ∧ rank order held = some bound ∧
      rank order top = some n ∧ n ≤ bound ∧
      ∀ tier ∈ tiers, ∀ n', rank order tier.1 = some n' → n' ≤ bound → n' ≤ n

section
variable {order : List α} {ranks : Bool} {tiers tiers' : List (α × β)} {held : α} {b b' : β}

theorem eq_of_mem (hkeys : (keys tiers).Nodup) (h : (held, b) ∈ tiers) (h' : (held, b') ∈ tiers) : b = b' :=
  Option.some.inj ((lookup_of_mem hkeys h).symm.trans (lookup_of_mem hkeys h'))

theorem Lands.unique (hkeys : (keys tiers).Nodup) (h : Lands order ranks tiers held b)
    (h' : Lands order ranks tiers held b') : b = b' := by
  obtain hown | ⟨hnot, -, top, n, bound, htop, hheld, hn, hle, hhigh⟩ := h
  · obtain hown' | ⟨hnot', -⟩ := h'
    · exact eq_of_mem hkeys hown hown'
    · exact absurd (mem_map_of_mem (f := Prod.fst) hown) hnot'
  · obtain hown' | ⟨-, -, top', n', bound', htop', hheld', hn', hle', hhigh'⟩ := h'
    · exact absurd (mem_map_of_mem (f := Prod.fst) hown') hnot
    · obtain rfl := Option.some.inj (hheld.symm.trans hheld')
      obtain rfl := Nat.le_antisymm (hhigh' _ htop n hn hle) (hhigh _ htop' n' hn' hle')
      obtain rfl := rank_inj hn hn'
      exact eq_of_mem hkeys htop htop'

theorem Lands.perm (hperm : tiers.Perm tiers') (h : Lands order ranks tiers held b) : Lands order ranks tiers' held b := by
  have hmem (tier : α × β) : tier ∈ tiers ↔ tier ∈ tiers' := hperm.mem_iff
  obtain hown | ⟨hnot, hranks, top, n, bound, htop, hheld, hn, hle, hhigh⟩ := h
  · exact .inl ((hmem _).mp hown)
  · refine .inr ⟨fun hin => hnot ((hperm.map Prod.fst).mem_iff.mpr hin), hranks, top, n, bound, (hmem _).mp htop, hheld, hn,
      hle, fun tier htier => hhigh tier ((hmem _).mpr htier)⟩

/-- Without a rung of their own they are on the ladder, where rungs rank. -/
theorem Lands.ranked (h : Lands order ranks tiers held b) (hnot : held ∉ keys tiers) :
    ranks = true ∧ ∃ bound, rank order held = some bound := by
  obtain hown | ⟨-, hranks, -, -, bound, -, hheld, -⟩ := h
  · exact absurd (mem_map_of_mem (f := Prod.fst) hown) hnot
  · exact ⟨hranks, bound, hheld⟩

theorem lands_nil : Lands [] ranks tiers held b ↔ (held, b) ∈ tiers := by
  refine ⟨fun h => ?_, .inl⟩
  obtain hown | ⟨-, -, -, -, bound, -, hheld, -⟩ := h
  · exact hown
  · cases hheld

/-- On a ladder of one rung there is nothing below one's own. -/
theorem lands_singleton {a : α} : Lands [a] ranks tiers held b ↔ (held, b) ∈ tiers := by
  refine ⟨fun h => ?_, .inl⟩
  obtain hown | ⟨hnot, -, top, n, bound, htop, hheld, hn, -⟩ := h
  · exact hown
  · have hsame : top = held := by rw [mem_singleton.mp (mem_of_rank hn), mem_singleton.mp (mem_of_rank hheld)]
    exact absurd (mem_map_of_mem (f := Prod.fst) htop) (hsame ▸ hnot)

/-- Climbing to the highest rung at or below one's own comes to what one lands on. -/
theorem climb_lands {bound : Nat} (b₀ : β) (hnot : held ∉ keys tiers) (hheld : rank order held = some bound)
    (hkeys : (keys tiers).Nodup) (hb : b ≠ b₀) :
    (climb order (fun n => decide (n ≤ bound)) tiers (b₀, none)).1 = b ↔ Lands order true tiers held b := by
  have hlands {tier : α × β} {n : Nat} (htier : tier ∈ tiers) (hn : rank order tier.1 = some n) (hin : n ≤ bound)
      (hhigh : ∀ tier' ∈ tiers, ∀ n', rank order tier'.1 = some n' → decide (n' ≤ bound) = true → n' ≤ n) :
      Lands order true tiers held tier.2 :=
    .inr ⟨hnot, rfl, tier.1, n, bound, htier, hheld, hn, hin, fun tier' htier' n' hn' hle' =>
      hhigh tier' htier' n' hn' (decide_eq_true hle')⟩
  obtain ⟨hstays, hnone⟩ | ⟨tier, htier, n, hn, hin, hhere, hhigh⟩ := climb_spec order (fun n => decide (n ≤ bound)) tiers b₀
  · rw [hstays]
    refine iff_of_false (Ne.symm hb) ?_
    rintro (hown | ⟨-, -, top, n, bound', htop, hheld', hn, hle, -⟩)
    · exact hnot (mem_map_of_mem (f := Prod.fst) hown)
    · obtain rfl := Option.some.inj (hheld.symm.trans hheld')
      exact absurd hle (of_decide_eq_false (hnone _ htop n hn))
  · rw [hhere]
    have hland := hlands htier hn (of_decide_eq_true hin) hhigh
    constructor
    · rintro rfl
      exact hland
    · exact fun h => hland.unique hkeys h

theorem climb_own {bound : Nat} (b₀ : β) (hown : (held, b) ∈ tiers) (hheld : rank order held = some bound)
    (hkeys : (keys tiers).Nodup) : (climb order (fun n => decide (n ≤ bound)) tiers (b₀, none)).1 = b := by
  obtain ⟨-, hnone⟩ | ⟨tier, htier, n, hn, hin, hhere, hhigh⟩ := climb_spec order (fun n => decide (n ≤ bound)) tiers b₀
  · exact absurd (Nat.le_refl bound) (of_decide_eq_false (hnone _ hown bound hheld))
  · rw [hhere]
    obtain rfl := Nat.le_antisymm (of_decide_eq_true hin) (hhigh _ hown bound hheld (decide_eq_true (Nat.le_refl bound)))
    obtain ⟨scope, b'⟩ := tier
    obtain rfl := rank_inj hn hheld
    exact eq_of_mem hkeys htier hown

end
end SynQt.Lib.Ladder
