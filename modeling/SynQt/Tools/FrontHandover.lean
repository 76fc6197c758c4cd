import Mathlib.Data.List.Dedup
import SynQt.Edge.ScopeTiers
import SynQt.Tools.FrontLint

/-! Whom a front hands its callers to: the check and the edge each find where a caller lands on the ladder of scopes. -/
namespace SynQt.FrontLint
open List hiding keys
open Lib Dict EnvLayer TopologyWriter RouteLint ContractGen DesignDoc
open YamlEdit (Str lit strip)

section
variable {order : List String} {ranks : Bool} {tiers : List (String × String)} {held entity : String}

theorem tierFor_eq_iff (hkeys : (keys tiers).Nodup) (hentity : entity ≠ "") :
    tierFor held tiers order ranks = entity ↔ Ladder.Lands order ranks tiers held entity := by
  rw [tierFor]
  cases hown : lookup tiers held with
  | some tier =>
    have hlands : Ladder.Lands order ranks tiers held tier := .inl (mem_of_lookup hown)
    constructor
    · rintro rfl
      exact hlands
    · exact fun h => hlands.unique hkeys h
  | none =>
    have hnot := (lookup_eq_none_iff tiers held).mp hown
    dsimp only
    split
    · next hnone =>
      refine iff_of_false (Ne.symm hentity) fun h => ?_
      obtain ⟨hranks, bound, hheld⟩ := h.ranked hnot
      have horder := isEmpty_eq_false_iff_exists_mem.mpr ⟨held, Ladder.mem_of_rank hheld⟩
      rw [hranks, horder] at hnone
      exact absurd hnone Bool.false_ne_true
    · next hsome =>
      cases hheld : Ladder.rank order held with
      | none =>
        have hstays : (Ladder.climb order (fun _ => false) tiers ("", none)).1 = "" := by
          obtain ⟨hstays, -⟩ | ⟨-, -, -, -, hin, -⟩ := Ladder.climb_spec order (fun _ => false) tiers ""
          · rw [hstays]
          · exact absurd hin Bool.false_ne_true
        refine iff_of_false (fun h => hentity (h.symm.trans hstays)) fun h => ?_
        obtain ⟨-, bound, hbound⟩ := h.ranked hnot
        cases hheld.symm.trans hbound
      | some bound =>
        have hranks : ranks = true := by
          cases ranks with
          | true => rfl
          | false => exact absurd rfl hsome
        rw [hranks]
        exact Ladder.climb_lands "" hnot hheld hkeys hentity

end

section
variable {t : Tools} {config point : Entries}

/-- The order of the scopes is written as a list, or not at all. -/
def isListed (config : Entries) : Bool :=
  match get (mapping config "scopes") "order" with
  | none | some (.list _) => true
  | some _ => false

private theorem scopeOrder_of_unlisted (h : isListed config = false) : scopeOrder t config = [] := by
  rw [isListed, mapping] at h
  rw [scopeOrder]
  split
  · next scopes hscopes =>
    simp only [hscopes] at h
    split
    · next items horder => simp only [horder, Bool.true_eq_false] at h
    · rfl
  · rfl

private theorem mapM_asText {items : List Node} {vocab : List String} (h : items.mapM (fun item => (asText item).map String.ofList) = some vocab) :
    items.map (fun item => String.ofList (pyStr t.casts item)) = vocab := by
  induction items generalizing vocab with
  | nil => exact Option.some.inj h
  | cons item items ih =>
    rw [mapM_cons, Option.bind_eq_bind, Option.bind_eq_some_iff] at h
    obtain ⟨first, hfirst, h⟩ := h
    rw [Option.bind_eq_bind, Option.bind_eq_some_iff] at h
    obtain ⟨rest, hrest, h⟩ := h
    obtain ⟨s, hs, rfl⟩ := Option.map_eq_some_iff.mp hfirst
    rw [map_cons, ih hrest, eq_text_of_asText hs]
    exact Option.some.inj h

/-- Where no order is written the edge has the one scope everybody holds. -/
theorem scopes_of_listed {vocab : List String} (h : isListed config = true) (hvocab : scopeVocab config = some vocab) :
    vocab = scopeOrder t config ∨ scopeOrder t config = [] ∧ vocab = ["anonymous"] := by
  rw [isListed, mapping] at h
  rw [scopeVocab] at hvocab
  rw [scopeOrder]
  split at hvocab
  · next hnone =>
    rw [hnone]
    exact .inr ⟨rfl, (Option.some.inj hvocab).symm⟩
  · next scopes hscopes =>
    simp only [hscopes] at h ⊢
    split at hvocab
    · next hnone =>
      rw [hnone]
      exact .inr ⟨rfl, (Option.some.inj hvocab).symm⟩
    · next order horder =>
      simp only [horder] at h ⊢
      cases order with
      | list items => exact .inl (mapM_asText hvocab).symm
      | scalar value => cases h
      | dict entries => cases h
  · cases hvocab

theorem hierarchical_of_scopes {ranks : Bool} (h : scopesHierarchical config = some ranks) : hierarchical config = ranks := by
  rw [scopesHierarchical] at h
  rw [hierarchical]
  split at h
  · next hnone =>
    rw [hnone]
    exact Option.some.inj h
  · next scopes hscopes =>
    rw [hscopes]
    exact Option.some.inj h
  · cases h

theorem nodup_behind : (keys (behind t point)).Nodup := by
  rw [behind]
  split
  · next declared _ =>
    refine List.foldlRecOn (motive := fun tiers => (keys tiers).Nodup) declared _ nodup_nil fun tiers htiers entry _ => ?_
    dsimp only
    split
    · exact nodup_keys_put htiers _ _
    · exact htiers
  · exact nodup_nil

private theorem eq_iff_of_ne {a b : String} {A B : String → Prop} (ha : ∀ e, e ≠ "" → (a = e ↔ A e)) (hb : ∀ e, e ≠ "" → (b = e ↔ B e)) :
    a = b ↔ ∀ e, e ≠ "" → (A e ↔ B e) := by
  constructor
  · rintro rfl e he
    exact (ha e he).symm.trans (hb e he)
  · intro h
    by_cases hempty : a = ""
    · by_contra hne
      have hb' : b ≠ "" := fun hb' => hne (hempty.trans hb'.symm)
      exact hne ((ha b hb').mpr ((h b hb').mpr ((hb b hb').mp rfl)))
    · exact ((hb a hempty).mpr ((h a hempty).mp ((ha a hempty).mp rfl))).symm

/-- The check and the edge hand everybody to the same entity where the vocabulary is a list; where it is anything else,
the check has no ladder and everybody must stay on lines of their own. -/
theorem handed_iff {order : ScopeOrder} {connectPoint : WebEdgeConnectPoint} (h : Emitted t config point order connectPoint) :
    (∀ held, tierFor held (behind t point) (scopeOrder t config) (hierarchical config) = order.entityFor connectPoint held) ↔
      isListed config = true ∨ ∀ held entity, entity ≠ "" →
        Ladder.Lands order.scopes order.hierarchical (behind t point) held entity → (held, entity) ∈ behind t point := by
  have hboth : (∀ held, tierFor held (behind t point) (scopeOrder t config) (hierarchical config) = order.entityFor connectPoint held) ↔
      ∀ held entity, entity ≠ "" → (Ladder.Lands (scopeOrder t config) order.hierarchical (behind t point) held entity ↔
        Ladder.Lands order.scopes order.hierarchical (behind t point) held entity) := by
    rw [hierarchical_of_scopes h.ranks]
    exact forall_congr' fun held => eq_iff_of_ne (fun e he => tierFor_eq_iff nodup_behind he)
      fun e he => ScopeOrder.entityFor_eq_iff h.behind nodup_behind he
  rw [hboth]
  cases hlisted : isListed config with
  | true =>
    refine iff_of_true (fun held entity _ => ?_) (.inl rfl)
    obtain hsame | ⟨hnone, hone⟩ := @scopes_of_listed t _ _ hlisted h.scopes
    · rw [hsame]
    · rw [hnone, hone, Ladder.lands_nil, Ladder.lands_singleton]
  | false =>
    simp only [scopeOrder_of_unlisted hlisted, Ladder.lands_nil, Bool.false_eq_true, false_or]
    constructor
    · exact fun h held entity hentity => (h held entity hentity).mpr
    · exact fun h held entity hentity => ⟨.inl, h held entity hentity⟩

end

section
variable {t : Tools} {config point : Entries}

private theorem Clean.of_flatMap {α : Type} {l : List α} {f : α → List Str} (h : Clean (l.flatMap f)) {a : α} (ha : a ∈ l) : Clean (f a) :=
  fun finding hfinding => h finding (mem_flatMap.mpr ⟨a, ha, hfinding⟩)

/-- A line that says nothing wrong of itself leads somewhere, from a scope of the vocabulary. -/
theorem tierFindings_clean {scope tier : String} (h : Clean (tierFindings t config point scope tier).1) :
    (tierFindings t config point scope tier).2 = true ∧ (scopeOrder t config ≠ [] → scope ∈ scopeOrder t config) := by
  have hscope {rest : Str} (hclean : Clean (if !(scopeOrder t config).isEmpty && !(scopeOrder t config).contains scope then
      [lit "error: " ++ rest] else [])) : scopeOrder t config ≠ [] → scope ∈ scopeOrder t config := by
    intro hsome
    by_contra hnot
    rw [if_pos (by simpa [hsome] using hnot)] at hclean
    exact Bool.false_ne_true (hclean _ mem_cons_self).symm
  have herror {unknown : List Str} {rest : Str} : ¬ Clean (unknown ++ [lit "error: " ++ rest]) := fun hclean =>
    Bool.false_ne_true (hclean _ (mem_append_right _ mem_cons_self)).symm
  rw [tierFindings] at h ⊢
  simp only [append_assoc] at h
  split at h
  · exact absurd h herror
  · next hknown =>
    split at h
    · exact absurd h herror
    · next hserves =>
      split at h
      · exact absurd h herror
      · next hother =>
        split at h
        · exact absurd h herror
        · next howns =>
          rw [if_neg hknown, if_neg hserves, if_neg hother, if_neg howns]
          exact ⟨rfl, hscope h⟩

/-- An entity is served as soon as one caller is handed to it, and stays so. -/
theorem lookup_served {tiers : List (String × String)} {order scopes : List String} {ranks : Bool} {held : String}
    (hsome : tierFor held tiers order ranks ≠ "") (served : List (String × List String))
    (h : held ∈ scopes ∨ ∃ audience, lookup served (tierFor held tiers order ranks) = some audience ∧ held ∈ audience) :
    ∃ audience, lookup (scopes.foldl (serve tiers order ranks) served) (tierFor held tiers order ranks) = some audience ∧
      held ∈ audience := by
  induction scopes generalizing served with
  | nil =>
    obtain hnone | hthere := h
    · exact absurd hnone not_mem_nil
    · exact hthere
  | cons scope scopes ih =>
    rw [foldl_cons]
    apply ih
    rw [mem_cons, or_assoc, or_left_comm] at h
    obtain hlater | h := h
    · exact .inl hlater
    · refine .inr ?_
      rw [serve]
      by_cases hempty : tierFor scope tiers order ranks = ""
      · rw [if_pos hempty]
        obtain rfl | hthere := h
        · exact absurd hempty hsome
        · exact hthere
      · rw [if_neg hempty, lookup_put]
        obtain rfl | ⟨audience, hthere, hheld⟩ := h
        · exact ⟨_, if_pos rfl, mem_append_right _ mem_cons_self⟩
        · by_cases hsame : tierFor held tiers order ranks = tierFor scope tiers order ranks
          · rw [if_pos hsame, ← hsame, hthere]
            exact ⟨_, rfl, mem_append_left _ hheld⟩
          · rw [if_neg hsame]
            exact ⟨audience, hthere, hheld⟩

private theorem count_le_of_clean {names : List String} {what consequence : Str} (h : Clean (duplicateMessages names what consequence))
    (name : String) : names.count name ≤ 1 := by
  by_contra hmany
  have hmem : name ∈ ((names.filter fun name => 1 < names.count name).dedup.mergeSort fun a b => decide (a ≤ b)) := by
    rw [mem_mergeSort, mem_dedup, mem_filter]
    exact ⟨count_pos_iff.mp (Nat.lt_trans Nat.zero_lt_one (Nat.lt_of_not_le hmany)), decide_eq_true (Nat.lt_of_not_le hmany)⟩
  exact Bool.false_ne_true (h _ (mem_map_of_mem hmem)).symm

private theorem owned_eq (h : Accepted t config) {q : Entries} (hq : q ∈ appPoints config) (hsome : textUnder t q "owner" ≠ "") :
    owned t config (textUnder t q "owner") = [q] := by
  have hmem : q ∈ owned t config (textUnder t q "owner") := mem_filter.mpr ⟨hq, beq_self_eq_true _⟩
  have hnamed (point : Entries) (hpoint : (textUnder t point "owner" == textUnder t q "owner") = true) :
      ((truthyGet point "owner").map (fun owner => String.ofList (pyStr t.casts owner)) == some (textUnder t q "owner")) = true := by
    rw [← beq_iff_eq.mp hpoint] at hsome ⊢
    rw [textUnder] at hsome ⊢
    cases howner : truthyGet point "owner" with
    | none =>
      rw [howner] at hsome
      exact absurd rfl hsome
    | some owner => exact beq_self_eq_true _
  have hone : (owned t config (textUnder t q "owner")).length ≤ 1 :=
    calc (owned t config (textUnder t q "owner")).length
        = (appPoints config).countP fun point => textUnder t point "owner" == textUnder t q "owner" :=
          countP_eq_length_filter.symm
      _ ≤ (mappings config "connect_points").countP fun point => textUnder t point "owner" == textUnder t q "owner" :=
          filter_sublist.countP_le
      _ ≤ (mappings config "connect_points").countP fun point =>
            (truthyGet point "owner").map (fun owner => String.ofList (pyStr t.casts owner)) == some (textUnder t q "owner") :=
          countP_mono_left fun point _ => hnamed point
      _ = (ownerNames t config).count (textUnder t q "owner") := count_filterMap.symm
      _ ≤ 1 := count_le_of_clean h.owners _
  obtain ⟨q', hq'⟩ := length_eq_one_iff.mp (Nat.le_antisymm hone (length_pos_of_mem hmem))
  rw [hq', mem_singleton] at hmem
  rw [hq', hmem]

variable (h : Accepted t config) (hpoint : point ∈ appPoints config) (hfront : isFront point = true)
include h hpoint hfront

private theorem clean_tiers : Clean (tierMessages t config point) :=
  (Clean.of_flatMap h.fronts (mem_filter.mpr ⟨hpoint, hfront⟩)).append.2

private theorem clean_line {scope tier : String} (hline : (scope, tier) ∈ behind t point) :
    (tierFindings t config point scope tier).2 = true ∧ (scopeOrder t config ≠ [] → scope ∈ scopeOrder t config) :=
  tierFindings_clean (Clean.of_flatMap (clean_tiers h hpoint hfront).append.1 hline)

theorem reachable_eq : reachable t config point = behind t point :=
  filter_eq_self.mpr fun _ hline => (clean_line h hpoint hfront hline).1

private theorem mem_callers {held : String} (hsome : tierFor held (behind t point) (scopeOrder t config) (hierarchical config) ≠ "") :
    held ∈ if (scopeOrder t config).isEmpty then (keys (behind t point)).mergeSort fun a b => decide (a ≤ b) else scopeOrder t config := by
  have hlands := (tierFor_eq_iff nodup_behind hsome).mp rfl
  split
  · next hnone =>
    rw [isEmpty_iff.mp hnone, Ladder.lands_nil] at hlands
    exact mem_mergeSort.mpr (mem_map_of_mem (f := Prod.fst) hlands)
  · next horder =>
    by_cases hown : held ∈ keys (behind t point)
    · obtain ⟨line, hline, rfl⟩ := mem_map.mp hown
      exact (clean_line h hpoint hfront hline).2 (fun hnone => horder (isEmpty_iff.mpr hnone))
    · obtain ⟨-, bound, hbound⟩ := hlands.ranked hown
      exact Ladder.mem_of_rank hbound

/-- The check compares what the front carries with what is carried where a caller is handed. -/
theorem clean_surface {front members : List DocMember} {held : String} {q : Entries} (hread : frontMembers t point = some front)
    (hq : q ∈ appPoints config) (hsome : textUnder t q "owner" ≠ "")
    (htier : tierFor held (behind t point) (scopeOrder t config) (hierarchical config) = textUnder t q "owner")
    (hmembers : frontMembers t q = some members) :
    ∃ audience, held ∈ audience ∧ sortedDifference
      (wantedOf front (String.ofList (strip (textUnder t point "scope").toList)) audience (scopeOrder t config) (hierarchical config))
      (members.map ofMember) = [] := by
  obtain ⟨audience, hserved, hheld⟩ := lookup_served (htier.symm ▸ hsome) []
    (.inl (mem_callers h hpoint hfront (htier.symm ▸ hsome)))
  rw [htier] at hserved
  have hclean := (clean_tiers h hpoint hfront).append.2
  rw [surfaceMessages, hread, reachable_eq h hpoint hfront] at hclean
  have hhere := Clean.of_flatMap hclean (mem_of_lookup hserved)
  rw [surfaceFindings, owned_eq h hq hsome, headD_cons, hmembers] at hhere
  refine ⟨audience, hheld, ?_⟩
  have hmissing := hhere.append.1.eq_nil (forall_mem_map.mpr fun member _ => rfl)
  exact map_eq_nil_iff.mp hmissing

end
end SynQt.FrontLint
