import SynQt.Client.Router
import SynQt.Edge.SourceTable
import SynQt.Lib.Ladder

/-! What is served by scope: the bundle an edge delivers and the entity a front hands on to. Both choose the highest
tier there is an entry for that is not above the scope held. -/
namespace SynQt
open List hiding lookup_eq_none_iff
open Lib Dict Option

namespace ScopeOrder

/-- What a scope is delivered, where `bundles` has a bundle for some of them. -/
def bundleForScope (o : ScopeOrder) (bundles : List (QString × QString)) (defaultScope scope : QString) : QString :=
  let value (key : QString) := (lookup bundles key).getD ""
  let fallback := value defaultScope
  if scope.isEmpty then fallback
  else if !(value scope).isEmpty then value scope
  else if !o.hierarchical then fallback
  else match o.rank scope with
    | none => fallback
    | some rank =>
      let below := (o.scopes.take rank).reverse
      (below.findSome? fun scope => if (value scope).isEmpty then none else some (value scope)).getD fallback

def AtMost (o : ScopeOrder) (t held : QString) : Prop :=
  t = held ∨ o.hierarchical = true ∧ ∃ low high, o.rank t = some low ∧ o.rank held = some high ∧ low ≤ high

/-- The highest tier there is an entry for that is not above the scope held. -/
structure Highest (o : ScopeOrder) (entries : List (QString × QString)) (held t : QString) : Prop where
  entry : t ∈ keys entries
  within : o.AtMost t held
  top : ∀ t' ∈ keys entries, o.AtMost t' held → o.AtMost t' t

/-- The highest tier's entry, and the fallback where there is no tier. -/
def Picks (o : ScopeOrder) (entries : List (QString × QString)) (held fallback answer : QString) : Prop :=
  (∃ t, o.Highest entries held t ∧ (t, answer) ∈ entries) ∨ (∀ t ∈ keys entries, ¬ o.AtMost t held) ∧ answer = fallback

section
variable {o : ScopeOrder} {t held fallback answer answer' : QString} {entries entries' : List (QString × QString)}

private theorem hasScope_iff : o.hasScope (some held) t = true ↔ o.AtMost t held := by
  rw [hasScope, AtMost]
  by_cases hsame : held = t
  · rw [if_pos (beq_iff_eq.mpr hsame)]
    exact iff_of_true rfl (.inl hsame.symm)
  · rw [if_neg fun h => hsame (beq_iff_eq.mp h)]
    have hne : t ≠ held := Ne.symm hsame
    cases hhigh : o.rank held with
    | none => simp [hne]
    | some high =>
      have hsome : o.scopes ≠ [] := ne_nil_of_mem (Ladder.mem_of_rank hhigh)
      cases hlow : o.rank t with
      | none => simp [hne]
      | some low => simp [hne, hsome]

private theorem atMost_antisymm {t' : QString} (h : o.AtMost t t') (h' : o.AtMost t' t) : t = t' := by
  obtain rfl | ⟨-, low, high, hlow, hhigh, hle⟩ := h
  · rfl
  · obtain rfl | ⟨-, low', high', hlow', hhigh', hle'⟩ := h'
    · rfl
    · obtain rfl := Option.some.inj (hlow.symm.trans hhigh')
      obtain rfl := Option.some.inj (hhigh.symm.trans hlow')
      exact Ladder.rank_inj hlow (Nat.le_antisymm hle hle' ▸ hhigh)

private theorem highest_unique {t' : QString} (h : o.Highest entries held t) (h' : o.Highest entries held t') : t = t' :=
  atMost_antisymm (h'.top t h.entry h.within) (h.top t' h'.entry h'.within)

private theorem lands_iff : Ladder.Lands o.scopes o.hierarchical entries held answer ↔ ∃ t, o.Highest entries held t ∧ (t, answer) ∈ entries := by
  constructor
  · rintro (hown | ⟨hnot, hranks, top, n, bound, htop, hheld, hn, hle, hhigh⟩)
    · exact ⟨held, ⟨mem_map_of_mem (f := Prod.fst) hown, .inl rfl, fun _ _ h => h⟩, hown⟩
    · refine ⟨top, ⟨mem_map_of_mem (f := Prod.fst) htop, .inr ⟨hranks, n, bound, hn, hheld, hle⟩, ?_⟩, htop⟩
      rintro t' ht' (rfl | ⟨-, low, high, hlow, hhigh', hle'⟩)
      · exact absurd ht' hnot
      · obtain ⟨tier, htier, rfl⟩ := mem_map.mp ht'
        obtain rfl := Option.some.inj (hheld.symm.trans hhigh')
        exact .inr ⟨hranks, low, n, hlow, hn, hhigh tier htier low hlow hle'⟩
  · rintro ⟨t, ⟨-, hwithin, htop⟩, hmem⟩
    obtain rfl | ⟨hranks, low, high, hlow, hhigh, hle⟩ := hwithin
    · exact .inl hmem
    · by_cases hown : held ∈ keys entries
      · rw [← atMost_antisymm (htop held hown (.inl rfl)) (.inr ⟨hranks, low, high, hlow, hhigh, hle⟩)] at hmem
        exact .inl hmem
      · refine .inr ⟨hown, hranks, t, low, high, hmem, hhigh, hlow, hle, fun tier htier n hn hle' => ?_⟩
        obtain hsame | ⟨-, low', high', hlow', hhigh', hle''⟩ :=
          htop tier.1 (mem_map_of_mem htier) (.inr ⟨hranks, n, high, hn, hhigh, hle'⟩)
        · exact Nat.le_of_eq (Option.some.inj (hn.symm.trans (hsame ▸ hlow)))
        · obtain rfl := Option.some.inj (hn.symm.trans hlow')
          obtain rfl := Option.some.inj (hlow.symm.trans hhigh')
          exact hle''

theorem entityFor_eq_iff {order : ScopeOrder} {connectPoint : WebEdgeConnectPoint} {tiers : List (QString × QString)}
    {held entity : QString} (hperm : connectPoint.behind.Perm tiers)
    (hkeys : (keys tiers).Nodup) (hentity : entity ≠ "") :
    order.entityFor connectPoint held = entity ↔ Ladder.Lands order.scopes order.hierarchical tiers held entity := by
  have hkeys' : (keys connectPoint.behind).Nodup := (hperm.map Prod.fst).nodup_iff.mpr hkeys
  have hsame : Ladder.Lands order.scopes order.hierarchical tiers held entity ↔
      Ladder.Lands order.scopes order.hierarchical connectPoint.behind held entity :=
    ⟨.perm hperm.symm, .perm hperm⟩
  rw [hsame, ScopeOrder.entityFor]
  cases hown : connectPoint.behind.lookup held with
  | some own =>
    have hmem : (held, own) ∈ connectPoint.behind := mem_of_lookup hown
    have hlands : Ladder.Lands order.scopes order.hierarchical connectPoint.behind held own := .inl hmem
    have hown : ∀ e, own = e ↔ Ladder.Lands order.scopes order.hierarchical connectPoint.behind held e := fun e =>
      ⟨fun h => h ▸ hlands, hlands.unique hkeys'⟩
    rw [← hown, getD_some]
    by_cases hempty : own = ""
    · -- the ladder is climbed, to the rung that hands on to nobody
      rw [if_neg (by rw [hempty]; exact Bool.false_ne_true), hempty]
      refine iff_of_false (fun h => hentity (h.symm.trans ?_)) (Ne.symm hentity)
      split
      · rfl
      · cases hheld : order.rank held with
        | none => rfl
        | some bound => exact Ladder.climb_own "" (hempty ▸ hmem) hheld hkeys'
    · rw [if_pos (by simpa using hempty)]
  | none =>
    have hnot : held ∉ keys connectPoint.behind := (lookup_eq_none_iff connectPoint.behind held).mp hown
    rw [getD_none, if_neg (by exact Bool.false_ne_true)]
    cases hranks : order.hierarchical with
    | false =>
      refine iff_of_false (Ne.symm hentity) fun h => ?_
      exact absurd (h.ranked hnot).1 Bool.false_ne_true
    | true =>
      cases hheld : order.rank held with
      | none =>
        refine iff_of_false (Ne.symm hentity) fun h => ?_
        obtain ⟨-, bound, hbound⟩ := h.ranked hnot
        cases hheld.symm.trans hbound
      | some bound => exact Ladder.climb_lands "" hnot hheld hkeys' hentity

private theorem exists_highest (hin : t ∈ keys entries) (hwithin : o.AtMost t held) : ∃ t', o.Highest entries held t' := by
  by_cases hown : held ∈ keys entries
  · exact ⟨held, hown, .inl rfl, fun _ _ h => h⟩
  · obtain rfl | ⟨hranks, low, high, hlow, hhigh, hle⟩ := hwithin
    · exact absurd hin hown
    · obtain ⟨tier, htier, rfl⟩ := mem_map.mp hin
      obtain ⟨-, hnone⟩ | ⟨top, htop, n, hn, hbelow, -, hmost⟩ :=
        Ladder.climb_spec o.scopes (fun n => decide (n ≤ high)) entries ""
      · exact absurd hle (of_decide_eq_false (hnone tier htier low hlow))
      · have hlands : Ladder.Lands o.scopes o.hierarchical entries held top.2 :=
          .inr ⟨hown, hranks, top.1, n, high, htop, hhigh, hn, of_decide_eq_true hbelow, fun tier' htier' n' hn' hle' =>
            hmost tier' htier' n' hn' (decide_eq_true hle')⟩
        obtain ⟨t', ht', -⟩ := lands_iff.mp hlands
        exact ⟨t', ht'⟩

private theorem picks_unique (hkeys : (keys entries).Nodup) (h : o.Picks entries held fallback answer)
    (h' : o.Picks entries held fallback answer') : answer = answer' := by
  obtain ⟨t, hhighest, hmem⟩ | ⟨hnone, rfl⟩ := h
  · obtain ⟨t', hhighest', hmem'⟩ | ⟨hnone', -⟩ := h'
    · rw [highest_unique hhighest' hhighest] at hmem'
      exact Ladder.eq_of_mem hkeys hmem hmem'
    · exact absurd hhighest.within (hnone' t hhighest.entry)
  · obtain ⟨t', hhighest', -⟩ | ⟨-, rfl⟩ := h'
    · exact absurd hhighest'.within (hnone t' hhighest'.entry)
    · rfl

private theorem entityFor_picks (connectPoint : WebEdgeConnectPoint) (hkeys : (keys connectPoint.behind).Nodup) (held : QString) :
    o.Picks connectPoint.behind held "" (o.entityFor connectPoint held) := by
  by_cases hnobody : o.entityFor connectPoint held = ""
  · by_cases hsome : ∃ t ∈ keys connectPoint.behind, o.AtMost t held
    · obtain ⟨t, hin, hwithin⟩ := hsome
      obtain ⟨top, htop⟩ := exists_highest hin hwithin
      obtain ⟨⟨scope, entity⟩, htier, rfl⟩ := mem_map.mp htop.entry
      have hempty : entity = "" := by
        by_contra hentity
        exact hentity ((entityFor_eq_iff (.refl _) hkeys hentity).mpr (lands_iff.mpr ⟨_, htop, htier⟩) ▸ hnobody)
      exact .inl ⟨_, htop, by rw [hnobody, ← hempty]; exact htier⟩
    · exact .inr ⟨fun t hin hwithin => hsome ⟨t, hin, hwithin⟩, hnobody⟩
  · exact .inl (lands_iff.mp ((entityFor_eq_iff (.refl _) hkeys hnobody).mp rfl))

def present (bundles : List (QString × QString)) : List (QString × QString) := bundles.filter fun entry => !entry.2.isEmpty

variable {bundles : List (QString × QString)}

section
variable (hkeys : (keys bundles).Nodup)
include hkeys

private theorem mem_present :
    (t, answer) ∈ present bundles ↔ (lookup bundles t).getD "" = answer ∧ answer ≠ "" := by
  have hsome : (!answer.isEmpty) = true ↔ answer ≠ "" := by simp
  rw [present, mem_filter, hsome]
  constructor
  · exact fun ⟨hmem, hne⟩ => ⟨by rw [lookup_of_mem hkeys hmem, getD_some], hne⟩
  · rintro ⟨hvalue, hne⟩
    cases hthere : lookup bundles t with
    | none =>
      rw [hthere] at hvalue
      exact absurd hvalue.symm hne
    | some bundle =>
      rw [hthere] at hvalue
      exact ⟨hvalue ▸ mem_of_lookup hthere, hne⟩

private theorem mem_keys_present :
    t ∈ keys (present bundles) ↔ (lookup bundles t).getD "" ≠ "" := by
  constructor
  · intro h
    obtain ⟨⟨t, bundle⟩, hmem, rfl⟩ := mem_map.mp h
    obtain ⟨hvalue, hne⟩ := (mem_present hkeys).mp hmem
    exact hvalue ▸ hne
  · exact fun hne => mem_map_of_mem (f := Prod.fst) ((mem_present hkeys).mpr ⟨rfl, hne⟩)

private theorem nodup_present : (keys (present bundles)).Nodup :=
  List.Nodup.sublist (filter_sublist.map Prod.fst) hkeys

private theorem lookup_present (t : QString) :
    lookup (present bundles) t = (lookup bundles t).filter fun bundle => !bundle.isEmpty := by
  apply Option.ext
  intro bundle
  rw [filter_eq_some_iff]
  constructor
  · intro h
    obtain ⟨hmem, hsome⟩ := mem_filter.mp (mem_of_lookup h)
    exact ⟨lookup_of_mem hkeys hmem, hsome⟩
  · rintro ⟨hthere, hsome⟩
    exact lookup_of_mem (nodup_present hkeys) (mem_filter.mpr ⟨mem_of_lookup hthere, hsome⟩)

end

/-- The walk down the order comes to the highest tier below a scope that has no bundle of its own. -/
theorem highest_of_walk {rank : Nat} (hnodup : o.scopes.Nodup) (hranks : o.hierarchical = true) (hrank : o.rank held = some rank)
    (hown : held ∉ keys entries) {passed rest : List QString} (hwalk : (o.scopes.take rank).reverse = passed ++ t :: rest)
    (hin : t ∈ keys entries) (hpassed : ∀ s ∈ passed, s ∉ keys entries) : o.Highest entries held t := by
  have htake : o.scopes.take rank = rest.reverse ++ t :: passed.reverse := by
    rw [← reverse_reverse (o.scopes.take rank), hwalk, reverse_append, reverse_cons, append_assoc]
    rfl
  have hscopes : o.scopes = rest.reverse ++ t :: (passed.reverse ++ o.scopes.drop rank) := by
    rw [← cons_append, ← append_assoc, ← htake, take_append_drop]
  have hfresh : t ∉ rest.reverse := by
    rw [hscopes] at hnodup
    exact fun hmem => disjoint_of_nodup_append hnodup hmem mem_cons_self
  have hlow : o.rank t = some rest.reverse.length := by
    have h := Ladder.rank_of_not_mem hfresh (passed.reverse ++ o.scopes.drop rank)
    rwa [← hscopes] at h
  have hlen : rest.reverse.length ≤ rank := by
    have h := congrArg List.length htake
    rw [length_append] at h
    exact Nat.le_trans (Nat.le_add_right _ _) (h ▸ length_take_le rank o.scopes)
  refine ⟨hin, .inr ⟨hranks, _, rank, hlow, hrank, hlen⟩, fun t' hin' hwithin => ?_⟩
  obtain rfl | ⟨-, low, high, hlow', hhigh, hle⟩ := hwithin
  · exact absurd hin' hown
  · obtain rfl := Option.some.inj (hrank.symm.trans hhigh)
    have hne : low ≠ rank := fun h => hown (Ladder.rank_inj (h ▸ hlow') hrank ▸ hin')
    have hbelow : t' ∈ o.scopes.take rank := by
      obtain ⟨hlt, heq, -⟩ := List.findIdx?_eq_some_iff_getElem.mp hlow'
      rw [← beq_iff_eq.mp heq]
      exact mem_take_iff_getElem.mpr ⟨low, Nat.lt_min.mpr ⟨Nat.lt_of_le_of_ne hle hne, hlt⟩, rfl⟩
    rw [htake, mem_append, mem_cons] at hbelow
    obtain hthere | rfl | hskipped := hbelow
    · obtain ⟨n, hn, hrank'⟩ := Ladder.rank_lt_of_mem hthere (t :: (passed.reverse ++ o.scopes.drop rank))
      rw [← hscopes] at hrank'
      exact .inr ⟨hranks, n, _, hrank', hlow, Nat.le_of_lt hn⟩
    · exact .inl rfl
    · exact absurd hin' (hpassed t' (mem_reverse.mp hskipped))

theorem bundleForScope_picks (hnodup : o.scopes.Nodup) (hkeys : (keys bundles).Nodup)
    (defaultScope : QString) (hheld : held ≠ "") :
    o.Picks (present bundles) held ((lookup bundles defaultScope).getD "") (o.bundleForScope bundles defaultScope held) := by
  have hisEmpty (s : QString) : s.isEmpty = true ↔ s = "" := by simp
  rw [bundleForScope]
  dsimp only
  rw [if_neg ((hisEmpty held).not.mpr hheld)]
  by_cases hexact : (lookup bundles held).getD "" = ""
  · have hown : held ∉ keys (present bundles) := fun hin => (mem_keys_present hkeys).mp hin hexact
    have hfar (hnone : o.hierarchical = true → ∀ rank, o.rank held = some rank →
        ∀ t ∈ o.scopes.take rank, t ∉ keys (present bundles)) : ∀ t ∈ keys (present bundles), ¬ o.AtMost t held := by
      rintro t hin (rfl | ⟨hranks, low, high, hlow, hhigh, hle⟩)
      · exact hown hin
      · have hne : low ≠ high := fun h => hown (Ladder.rank_inj (h ▸ hlow) hhigh ▸ hin)
        obtain ⟨hlt, heq, -⟩ := List.findIdx?_eq_some_iff_getElem.mp hlow
        refine hnone hranks high hhigh t ?_ hin
        rw [← beq_iff_eq.mp heq]
        exact mem_take_iff_getElem.mpr ⟨low, Nat.lt_min.mpr ⟨Nat.lt_of_le_of_ne hle hne, hlt⟩, rfl⟩
    rw [if_neg (by rw [hexact]; exact Bool.false_ne_true)]
    cases hranks : o.hierarchical with
    | false => exact .inr ⟨hfar fun h => absurd (hranks.symm.trans h) Bool.false_ne_true, rfl⟩
    | true =>
      rw [Bool.not_true, if_neg Bool.false_ne_true]
      cases hrank : o.rank held with
      | none => exact .inr ⟨hfar fun _ rank h => (by cases hrank.symm.trans h), rfl⟩
      | some rank =>
        dsimp only
        have hvalue {s : QString} : (if ((lookup bundles s).getD "").isEmpty then none else some ((lookup bundles s).getD "")) = none ↔
            s ∉ keys (present bundles) := by
          rw [mem_keys_present hkeys, not_not, ← hisEmpty]
          split
          · next h => exact iff_of_true rfl h
          · next h => exact iff_of_false (by simp) h
        cases hwalk : (o.scopes.take rank).reverse.findSome? fun scope =>
            if ((lookup bundles scope).getD "").isEmpty then none else some ((lookup bundles scope).getD "") with
        | none =>
          rw [List.findSome?_eq_none_iff] at hwalk
          refine .inr ⟨hfar fun _ rank' h t ht => ?_, rfl⟩
          obtain rfl := Option.some.inj (hrank.symm.trans h)
          exact hvalue.mp (hwalk t (mem_reverse.mpr ht))
        | some bundle =>
          obtain ⟨passed, t, rest, hsplit, hbundle, hpassed⟩ := List.findSome?_eq_some_iff.mp hwalk
          split at hbundle
          · cases hbundle
          · next hne =>
            obtain rfl := Option.some.inj hbundle
            have hthere := (hisEmpty _).not.mp hne
            exact .inl ⟨t, highest_of_walk hnodup hranks hrank hown hsplit ((mem_keys_present hkeys).mpr hthere) fun s hs =>
              hvalue.mp (hpassed s hs), (mem_present hkeys).mpr ⟨rfl, hthere⟩⟩
  · rw [if_pos (by simpa using hexact)]
    exact .inl ⟨held, ⟨(mem_keys_present hkeys).mpr hexact, .inl rfl, fun _ _ h => h⟩, (mem_present hkeys).mpr ⟨rfl, hexact⟩⟩

/-- Nothing but the entries of the tiers that are not above is chosen among. -/
theorem Picks.congr (hkeys : (keys entries).Nodup)
    (hagree : ∀ t, o.AtMost t held → lookup entries t = lookup entries' t) (h : o.Picks entries held fallback answer) :
    o.Picks entries' held fallback answer := by
  have hmem {entries : List (QString × QString)} (t : QString) : t ∈ keys entries ↔ (lookup entries t).isSome := by
    rw [← not_iff_not, ← lookup_eq_none_iff, not_isSome_iff_eq_none]
  obtain ⟨t, ⟨hin, hwithin, htop⟩, hentry⟩ | ⟨hnone, hanswer⟩ := h
  · refine .inl ⟨t, ⟨?_, hwithin, fun t' hin' hwithin' => htop t' ?_ hwithin'⟩, ?_⟩
    · rw [hmem, ← hagree t hwithin, ← hmem]
      exact hin
    · rw [hmem, hagree t' hwithin', ← hmem]
      exact hin'
    · exact mem_of_lookup ((hagree t hwithin).symm.trans (lookup_of_mem hkeys hentry))
  · refine .inr ⟨fun t hin hwithin => hnone t ?_ hwithin, hanswer⟩
    rw [hmem, hagree t hwithin, ← hmem]
    exact hin

end

end ScopeOrder

def ClientSession.holding (o : ScopeOrder) (held : QString) : ClientSession where
  scopesHierarchical := o.hierarchical
  scopeOrder := o.scopes
  scope := [held]

private theorem ClientSession.hasScope_holding (o : ScopeOrder) (held t : QString) :
    (ClientSession.holding o held).hasScope t = o.hasScope (some held) t := by
  rw [Bool.eq_iff_iff, ScopeOrder.hasScope_iff, ScopeOrder.AtMost, ClientSession.hasScope, ClientSession.holding]
  dsimp only
  cases o.hierarchical with
  | false => simp
  | true =>
    have hrank (s : QString) : o.scopes.idxOf? s = o.rank s := rfl
    rw [hrank, hrank, ClientSession.held]
    cases hhigh : o.rank held with
    | none => simp [eq_comm]
    | some high =>
      cases hlow : o.rank t with
      | none => simp [eq_comm]
      | some low =>
        have hself (hsame : t = held) : low ≤ high := Nat.le_of_eq (Option.some.inj (hlow.symm.trans (hsame ▸ hhigh)))
        simpa using hself

/-- What a scope is served: the highest tier's entry, nothing from a tier the scope does not meet, and the client's own
answer is the owner's. -/
structure TiersHeld (o : ScopeOrder) (bundles : List (QString × QString)) (defaultScope : QString)
    (connectPoint : WebEdgeConnectPoint) (held : QString) : Prop where
  bundle : held ≠ "" → o.Picks (ScopeOrder.present bundles) held ((lookup bundles defaultScope).getD "")
    (o.bundleForScope bundles defaultScope held)
  unnamed : held = "" → o.bundleForScope bundles defaultScope held = (lookup bundles defaultScope).getD ""
  entity : o.Picks connectPoint.behind held "" (o.entityFor connectPoint held)
  bundleApart : ∀ t, o.hasScope (some held) t = false → t ≠ defaultScope → ∀ bundle,
    o.bundleForScope (put bundles t bundle) defaultScope held = o.bundleForScope bundles defaultScope held
  entityApart : ∀ t, o.hasScope (some held) t = false → ∀ entity,
    o.entityFor { connectPoint with behind := put connectPoint.behind t entity } held = o.entityFor connectPoint held
  session : ∀ t, (ClientSession.holding o held).hasScope t = o.hasScope (some held) t

/-- Nobody is served above the scope they hold, but for the default scope's bundle. -/
theorem tiers_held (o : ScopeOrder) (hnodup : o.scopes.Nodup) {bundles : List (QString × QString)} (hbundles : (keys bundles).Nodup)
    (defaultScope : QString) {connectPoint : WebEdgeConnectPoint} (hbehind : (keys connectPoint.behind).Nodup) (held : QString) :
    TiersHeld o bundles defaultScope connectPoint held := by
  have hapart {t t' : QString} (hnot : o.hasScope (some held) t = false) (hwithin : o.AtMost t' held) : t' ≠ t := by
    rintro rfl
    exact Bool.false_ne_true (hnot.symm.trans (ScopeOrder.hasScope_iff.mpr hwithin))
  refine ⟨ScopeOrder.bundleForScope_picks hnodup hbundles defaultScope, ?_, ScopeOrder.entityFor_picks connectPoint hbehind held, ?_, ?_,
    ClientSession.hasScope_holding o held⟩
  · rintro rfl
    rfl
  · intro t hnot hdefault bundle
    have hfallback : lookup (put bundles t bundle) defaultScope = lookup bundles defaultScope := by
      rw [lookup_put, if_neg (Ne.symm hdefault)]
    by_cases hheld : held = ""
    · have hunnamed (bundles : List (QString × QString)) :
          o.bundleForScope bundles defaultScope "" = (lookup bundles defaultScope).getD "" := rfl
      rw [hheld, hunnamed, hunnamed, hfallback]
    · have hkeys := nodup_keys_put hbundles t bundle
      have hpicks := ScopeOrder.bundleForScope_picks hnodup hkeys defaultScope hheld
      rw [hfallback] at hpicks
      refine ScopeOrder.picks_unique (ScopeOrder.nodup_present hbundles)
        (hpicks.congr (ScopeOrder.nodup_present hkeys) fun t' hwithin => ?_)
        (ScopeOrder.bundleForScope_picks hnodup hbundles defaultScope hheld)
      rw [ScopeOrder.lookup_present hkeys, ScopeOrder.lookup_present hbundles, lookup_put, if_neg (hapart hnot hwithin)]
  · intro t hnot entity
    have hkeys : (keys (put connectPoint.behind t entity)).Nodup := nodup_keys_put hbehind t entity
    have hpicks := ScopeOrder.entityFor_picks (o := o) { connectPoint with behind := put connectPoint.behind t entity } hkeys held
    refine ScopeOrder.picks_unique hbehind (hpicks.congr hkeys fun t' hwithin => ?_) (ScopeOrder.entityFor_picks connectPoint hbehind held)
    rw [lookup_put, if_neg (hapart hnot hwithin)]

def memberOrder : ScopeOrder where
  scopes := ["anonymous", "user", "admin"]
  hierarchical := true

def memberFront : WebEdgeConnectPoint where
  name := "edge"
  contract := "Edge"
  serverFile := "edge/Edge.qml"
  scope := ""
  shared := false
  behind := [("anonymous", "lobby"), ("admin", "office")]

/-- A user is handed to the lobby and delivered the gate. -/
theorem tiers_held_member :
    TiersHeld memberOrder [("admin", "desk"), ("anonymous", "gate")] "anonymous" memberFront "user" ∧
      memberOrder.entityFor memberFront "user" = "lobby" ∧
      memberOrder.bundleForScope [("admin", "desk"), ("anonymous", "gate")] "anonymous" "user" = "gate" :=
  ⟨tiers_held memberOrder (by decide) (by decide) "anonymous" (by decide) "user", by decide, by decide⟩

/-- Whoever holds less than the default scope is still delivered its bundle, the only one there is. -/
theorem default_above :
    memberOrder.hasScope (some "anonymous") "user" = false ∧
      memberOrder.bundleForScope [("user", "members")] "user" "anonymous" = "members" ∧
      memberOrder.bundleForScope [] "user" "anonymous" = "" := by
  decide

end SynQt
