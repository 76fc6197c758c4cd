import SynQt.Lib.Lines
import SynQt.Transport.RoutePattern

/-! What a pattern's literals leave open: the paths it fits, and a path that no pattern with other literals takes from it. -/
namespace SynQt
open List

theorem splitKeepEmpty_eq (separator : Char) (text : List Char) : splitKeepEmpty separator text = text.splitOn separator := by
  induction text with
  | nil => rfl
  | cons c text ih =>
    rw [splitKeepEmpty, splitOn_cons_eq_if_modifyHead, ih]
    cases hsplit : text.splitOn separator with
    | nil => exact absurd hsplit (splitOn_ne_nil separator text)
    | cons part parts => rfl

namespace RoutePattern

def isPlaceholder (segment : QString) : Bool := startsWith segment colon

def shape (segments : List QString) : List (Option QString) :=
  segments.map fun segment => if isPlaceholder segment then none else some segment

def literals (segments : List QString) : Nat := segments.countP fun segment => !isPlaceholder segment

def Fits (segments actual : List QString) : Prop :=
  List.Forall₂ (fun segment given => isPlaceholder segment = true ∨ segment = given) segments actual

/-- The names of the placeholders with what stands at them. -/
def bindings (qt : QtText) (segments actual : List QString) : QVariantMap :=
  (segments.zip actual).filterMap fun pair =>
    if isPlaceholder pair.1 then some (String.ofList pair.1.toList.tail, qt.fromPercentEncoding pair.2) else none

def names (segments : List QString) : List QString :=
  (segments.filter isPlaceholder).map fun segment => String.ofList segment.toList.tail

variable {segment : QString}

theorem names_placeholder (h : isPlaceholder segment = true) (segments : List QString) :
    names (segment :: segments) = String.ofList segment.toList.tail :: names segments := by
  rw [names, filter_cons_of_pos h, map_cons, names]

theorem names_literal (h : ¬ isPlaceholder segment = true) (segments : List QString) :
    names (segment :: segments) = names segments := by
  rw [names, filter_cons_of_neg h, names]

variable {qt : QtText} {segments actual : List QString}

private theorem isSome_capture {captured : QVariantMap} :
    (capture qt captured segments actual).isSome = true ↔ Fits segments actual := by
  induction segments generalizing captured actual with
  | nil =>
    cases actual with
    | nil => exact iff_of_true rfl .nil
    | cons given actual => exact iff_of_false Bool.false_ne_true nofun
  | cons segment segments ih =>
    cases actual with
    | nil => exact iff_of_false Bool.false_ne_true nofun
    | cons given actual =>
      rw [Fits, forall₂_cons, capture]
      by_cases hplaceholder : startsWith segment colon = true
      · rw [if_pos hplaceholder, ih]
        exact ⟨fun h => ⟨.inl hplaceholder, h⟩, fun h => h.2⟩
      · rw [if_neg hplaceholder]
        by_cases hsame : segment = given
        · rw [if_pos hsame, ih]
          exact ⟨fun h => ⟨.inr hsame, h⟩, fun h => h.2⟩
        · rw [if_neg hsame]
          exact iff_of_false Bool.false_ne_true fun h => h.1.elim hplaceholder hsame

theorem isSome_matchesSegments {pattern : RoutePattern} {actual : List QString} :
    (pattern.matchesSegments qt actual).isSome = true ↔ pattern.valid = true ∧ Fits pattern.segments actual := by
  rw [matchesSegments]
  split
  · next h => rw [isSome_capture, and_iff_right h.1]
  · next h => exact iff_of_false Bool.false_ne_true fun hfits => h ⟨hfits.1, hfits.2.length_eq.symm⟩

variable {segments : List QString}

section
variable {taken : List QString} {count total : Nat} (h : countLiterals qt taken count segments = some total)
include h

private theorem countLiterals_eq : total = count + literals segments := by
  induction segments generalizing taken count with
  | nil => exact (Option.some.inj h).symm
  | cons segment segments ih =>
    rw [countLiterals] at h
    rw [literals, countP_cons]
    by_cases hplaceholder : startsWith segment colon = true
    · rw [if_pos hplaceholder] at h
      dsimp only at h
      split at h
      · cases h
      · rw [ih h, literals, isPlaceholder, hplaceholder]
        rfl
    · rw [if_neg hplaceholder] at h
      rw [ih h, literals, isPlaceholder, Bool.eq_false_iff.mpr hplaceholder, Bool.not_false, if_pos rfl]
      omega

private theorem nodup_names :
    (names segments).Nodup ∧ ∀ name ∈ names segments, name ∉ taken := by
  induction segments generalizing taken count with
  | nil => exact ⟨nodup_nil, nofun⟩
  | cons segment segments ih =>
    rw [countLiterals] at h
    by_cases hplaceholder : startsWith segment colon = true
    · rw [if_pos hplaceholder] at h
      dsimp only at h
      split at h
      · cases h
      · next hname =>
        obtain ⟨hnodup, hfree⟩ := ih h
        rw [Bool.or_eq_true, not_or] at hname
        rw [names_placeholder hplaceholder]
        refine ⟨nodup_cons.mpr ⟨fun hin => hfree _ hin mem_cons_self, hnodup⟩, fun name hin => ?_⟩
        obtain rfl | hin := mem_cons.mp hin
        · exact fun hin => hname.2 (contains_iff_mem.mpr hin)
        · exact fun htaken => hfree name hin (mem_cons_of_mem _ htaken)
    · rw [if_neg hplaceholder] at h
      rw [names_literal hplaceholder]
      exact ih h

end

theorem make_valid {pattern : QString} (h : (make qt pattern).valid = true) :
    (make qt pattern).segments = splitSegments pattern ∧ (make qt pattern).literalSegments = literals (splitSegments pattern) ∧
      (names (splitSegments pattern)).Nodup := by
  rw [make] at h ⊢
  split at h
  · next hslash =>
    rw [if_pos hslash]
    cases hcount : countLiterals qt [] 0 (splitSegments pattern) with
    | none =>
      rw [hcount] at h
      cases h
    | some total =>
      refine ⟨rfl, ?_, (nodup_names hcount).1⟩
      rw [countLiterals_eq hcount, Nat.zero_add]
  · cases h

private theorem mem_insertVariant {map : QVariantMap} {key value : QString} (h : key ∉ map.map Prod.fst) {entry : QString × QString} :
    entry ∈ insertVariant map key value ↔ entry = (key, value) ∨ entry ∈ map := by
  induction map with
  | nil => simp [insertVariant]
  | cons first rest ih =>
    rw [map_cons, mem_cons, not_or] at h
    rw [insertVariant, if_neg h.1]
    split
    · exact mem_cons
    · rw [mem_cons, ih h.2, mem_cons]
      exact or_left_comm

theorem bindings_placeholder (h : isPlaceholder segment = true) (given : QString) (segments actual : List QString) :
    bindings qt (segment :: segments) (given :: actual) =
      (String.ofList segment.toList.tail, qt.fromPercentEncoding given) :: bindings qt segments actual := by
  rw [bindings, zip_cons_cons, filterMap_cons, if_pos h]
  rfl

theorem bindings_literal (h : ¬ isPlaceholder segment = true) (given : QString) (segments actual : List QString) :
    bindings qt (segment :: segments) (given :: actual) = bindings qt segments actual := by
  rw [bindings, zip_cons_cons, filterMap_cons, if_neg h]
  rfl

theorem mem_capture {captured parameters : QVariantMap} (h : capture qt captured segments actual = some parameters) (hnodup : (names segments).Nodup)
    (hfree : ∀ name ∈ names segments, name ∉ captured.map Prod.fst) (entry : QString × QString) :
    entry ∈ parameters ↔ entry ∈ captured ∨ entry ∈ bindings qt segments actual := by
  induction segments generalizing captured actual with
  | nil =>
    cases actual with
    | nil =>
      obtain rfl := Option.some.inj h
      exact (or_iff_left not_mem_nil).symm
    | cons given actual => cases h
  | cons segment segments ih =>
    cases actual with
    | nil => cases h
    | cons given actual =>
      rw [capture] at h
      by_cases hplaceholder : startsWith segment colon = true
      · rw [if_pos hplaceholder] at h
        rw [names_placeholder hplaceholder] at hnodup hfree
        rw [nodup_cons] at hnodup
        have hhere := hfree _ mem_cons_self
        rw [bindings_placeholder hplaceholder, mem_cons, ih h hnodup.2 ?_, mem_insertVariant hhere, or_assoc, or_left_comm]
        intro name hname hin
        obtain ⟨e, he, rfl⟩ := mem_map.mp hin
        obtain rfl | hold := (mem_insertVariant hhere).mp he
        · exact hnodup.1 hname
        · exact hfree _ (mem_cons_of_mem _ hname) (mem_map_of_mem hold)
      · rw [if_neg hplaceholder] at h
        split at h
        · rw [names_literal hplaceholder] at hnodup hfree
          rw [bindings_literal hplaceholder]
          exact ih h hnodup hfree
        · cases h

/-- The placeholders are bound to what the path has at them, and nothing else is bound. -/
theorem mem_matched {pattern : QString} (hvalid : (make qt pattern).valid = true) {actual : List QString} {parameters : QVariantMap}
    (h : (make qt pattern).matchesSegments qt actual = some parameters) (entry : QString × QString) :
    entry ∈ parameters ↔ entry ∈ bindings qt (splitSegments pattern) actual := by
  obtain ⟨hsegments, -, hnodup⟩ := make_valid hvalid
  rw [matchesSegments] at h
  split at h
  · rw [hsegments] at h
    rw [mem_capture h hnodup (fun _ _ => not_mem_nil), or_iff_right not_mem_nil]
  · cases h

/-- The pattern's own path with a segment at every placeholder. -/
def fill (fresh : QString) (segments : List QString) : List QString :=
  segments.map fun segment => if isPlaceholder segment then fresh else segment

theorem fits_fill (fresh : QString) (segments : List QString) : Fits segments (fill fresh segments) := by
  induction segments with
  | nil => exact .nil
  | cons segment segments ih =>
    refine .cons ?_ ih
    by_cases hplaceholder : isPlaceholder segment = true
    · exact .inl hplaceholder
    · exact .inr (if_neg hplaceholder).symm

/-- What fits the path has no more literals than the pattern, and with as many has the same. -/
theorem literals_le_of_fits {fresh : QString} {segments other : List QString} (hfresh : fresh ∉ other)
    (h : Fits other (fill fresh segments)) :
    literals other ≤ literals segments ∧ (literals segments ≤ literals other → shape other = shape segments) := by
  induction segments generalizing other with
  | nil =>
    cases h
    exact ⟨Nat.le_refl _, fun _ => rfl⟩
  | cons segment segments ih =>
    cases h with
    | cons hfirst hrest =>
      next first rest =>
      rw [mem_cons, not_or] at hfresh
      obtain ⟨hle, hshape⟩ := ih hfresh.2 hrest
      rw [literals, literals, countP_cons, countP_cons, shape, shape, map_cons, map_cons]
      rw [literals, literals] at hle hshape
      rw [shape, shape] at hshape
      by_cases hplaceholder : isPlaceholder segment = true
      · dsimp only at hfirst
        rw [if_pos hplaceholder] at hfirst
        obtain hother := hfirst.resolve_right fun he => hfresh.1 he.symm
        simp only [hother, hplaceholder, Bool.not_true, Bool.false_eq_true, if_false, Nat.add_zero, if_true]
        exact ⟨hle, fun h => by rw [hshape h]⟩
      · dsimp only at hfirst
        rw [if_neg hplaceholder] at hfirst
        have hliteral : isPlaceholder segment = false := Bool.eq_false_iff.mpr hplaceholder
        by_cases hother : isPlaceholder first = true
        · simp only [hother, hliteral, Bool.not_true, Bool.not_false, Bool.false_eq_true, if_false, if_true]
          exact ⟨by omega, fun h => absurd h (by omega)⟩
        · obtain rfl := hfirst.resolve_left hother
          simp only [hliteral, Bool.not_false, if_true, Bool.false_eq_true, if_false]
          exact ⟨by omega, fun h => by rw [hshape (by omega)]⟩

theorem fits_of_shape {segments other actual : List QString} (h : shape segments = shape other) (hfits : Fits segments actual) :
    Fits other actual := by
  induction hfits generalizing other with
  | nil =>
    obtain rfl := map_eq_nil_iff.mp h.symm
    exact .nil
  | cons hfirst hrest ih =>
    next segment given segments actual =>
    cases other with
    | nil => cases h
    | cons first rest =>
      rw [shape, shape, map_cons, map_cons, List.cons.injEq] at h
      refine .cons ?_ (ih h.2)
      by_cases hplaceholder : isPlaceholder first = true
      · exact .inl hplaceholder
      · by_cases hsegment : isPlaceholder segment = true
        · rw [if_pos hsegment, if_neg hplaceholder] at h
          cases h.1
        · rw [if_neg hsegment, if_neg hplaceholder] at h
          exact .inr (Option.some.inj h.1 ▸ hfirst.resolve_left hsegment)

theorem literals_eq_of_shape {segments other : List QString} (h : shape segments = shape other) : literals segments = literals other := by
  have hcount (l : List QString) : literals l = (shape l).countP Option.isSome := by
    rw [literals, shape, countP_map]
    refine countP_congr fun segment _ => ?_
    rw [Function.comp_apply]
    cases isPlaceholder segment <;> simp
  rw [hcount, hcount, h]

theorem fits_self (segments : List QString) : Fits segments segments := by
  induction segments with
  | nil => exact .nil
  | cons segment segments ih => exact .cons (.inr rfl) ih

theorem literals_le_of_fits_self {other segments : List QString} (h : Fits other segments) : literals other ≤ literals segments := by
  induction h with
  | nil => exact Nat.le_refl _
  | cons hfirst hrest ih =>
    next first segment rest segments =>
    rw [literals, literals, countP_cons, countP_cons]
    rw [literals, literals] at ih
    obtain hplaceholder | rfl := hfirst
    · rw [hplaceholder, Bool.not_true, if_neg Bool.false_ne_true]
      omega
    · omega

/-- Without placeholders there is one path. -/
theorem eq_of_fits_of_names (hnames : names segments = []) (h : Fits segments actual) :
    actual = segments := by
  induction h with
  | nil => rfl
  | cons hfirst hrest ih =>
    next segment given segments actual =>
    by_cases hplaceholder : isPlaceholder segment = true
    · rw [names_placeholder hplaceholder] at hnames
      cases hnames
    · rw [names_literal hplaceholder] at hnames
      rw [ih hnames, hfirst.resolve_left hplaceholder]

theorem exists_placeholder (h : names segments ≠ []) : ∃ segment ∈ segments, isPlaceholder segment = true := by
  obtain ⟨name, hname⟩ := exists_mem_of_ne_nil _ h
  obtain ⟨segment, hin, -⟩ := mem_map.mp hname
  exact ⟨segment, mem_filter.mp hin⟩

/-- A segment that a path can have. -/
def Plain (segment : QString) : Prop := segment.toList ≠ [] ∧ slash ∉ segment.toList

def joined (segments : List QString) : QString := String.ofList (slash :: [slash].intercalate (segments.map String.toList))

/-- The same path with the slash behind it that is tolerated. -/
def slashed (segments : List QString) : QString := String.ofList ((joined segments).toList ++ [slash])

theorem plain_of_mem_splitSegments {path segment : QString} (h : segment ∈ splitSegments path) : Plain segment := by
  obtain ⟨part, hpart, rfl⟩ := mem_map.mp h
  obtain ⟨hin, hne⟩ := mem_filter.mp hpart
  rw [splitKeepEmpty_eq, splitOn_eq_splitOnP] at hin
  refine ⟨?_, fun hslash => ?_⟩
  · rw [String.toList_ofList]
    simpa using hne
  · rw [String.toList_ofList] at hslash
    simpa using (mem_splitOnP hin slash hslash).1

private theorem startsWith_ofList (c : Char) (text : List Char) : startsWith (String.ofList (c :: text)) c = true := by
  rw [startsWith, String.toList_ofList, List.head?_cons]
  exact beq_self_eq_true _

private theorem map_ofList_toList (segments : List QString) : (segments.map String.toList).map String.ofList = segments := by
  rw [map_map]
  exact (map_congr_left fun s _ => String.ofList_toList).trans (map_id _)

section
variable (h : ∀ segment ∈ segments, Plain segment)
include h

/-- What stands between the slashes of a path made of plain segments. -/
theorem splitKeepEmpty_intercalate (hne : segments ≠ []) :
    splitKeepEmpty slash ([slash].intercalate (segments.map String.toList)) = segments.map String.toList := by
  rw [splitKeepEmpty_eq, splitOn_intercalate _ (fun part hpart => ?_) (by simpa using hne)]
  obtain ⟨segment, hin, rfl⟩ := mem_map.mp hpart
  exact (h segment hin).2

private theorem any_isEmpty_eq_false :
    (segments.map String.toList).any (·.isEmpty) = false := by
  rw [any_eq_false]
  intro part hpart
  obtain ⟨segment, hin, rfl⟩ := mem_map.mp hpart
  simpa using (h segment hin).1

theorem splitPath_joined :
    splitPath (joined segments) = some segments := by
  rw [splitPath, joined, if_pos (startsWith_ofList _ _), String.toList_ofList, splitKeepEmpty, if_pos (beq_self_eq_true _),
    tail_cons]
  by_cases hne : segments = []
  · rw [hne]
    rfl
  · have hlast : ¬ ((segments.map String.toList).getLast? == some []) = true := by
      intro hlast
      have hin := mem_of_getLast? (eq_of_beq hlast)
      obtain ⟨segment, hsegment, he⟩ := mem_map.mp hin
      exact (h segment hsegment).1 he
    rw [splitKeepEmpty_intercalate h hne]
    dsimp only
    rw [if_neg hlast, any_isEmpty_eq_false h, if_neg Bool.false_ne_true, map_ofList_toList]

theorem splitKeepEmpty_concat (hne : segments ≠ []) :
    splitKeepEmpty slash ([slash].intercalate (segments.map String.toList) ++ [slash]) = segments.map String.toList ++ [[]] := by
  rw [splitKeepEmpty_eq, ← intercalate_concat_nil slash (by simpa using hne),
    splitOn_intercalate _ (fun part hpart => ?_) (by simp)]
  obtain hin | rfl := (mem_append.mp hpart).imp_right mem_singleton.mp
  · obtain ⟨segment, hsegment, rfl⟩ := mem_map.mp hin
    exact (h segment hsegment).2
  · exact not_mem_nil

theorem splitPath_slashed (hne : segments ≠ []) :
    splitPath (slashed segments) = some segments := by
  rw [splitPath, slashed, joined, String.toList_ofList, cons_append, if_pos (startsWith_ofList _ _), String.toList_ofList,
    splitKeepEmpty, if_pos (beq_self_eq_true _), tail_cons, splitKeepEmpty_concat h hne]
  dsimp only
  rw [List.getLast?_concat, if_pos (beq_self_eq_true _), dropLast_concat, any_isEmpty_eq_false h,
    if_neg Bool.false_ne_true, map_ofList_toList]

end

theorem map_toList_ofList (parts : List (List Char)) : (parts.map String.ofList).map String.toList = parts := by
  rw [map_map]
  exact (map_congr_left fun s _ => String.toList_ofList).trans (map_id _)

/-- The two paths of a list of segments. -/
theorem eq_joined_or_slashed {path : QString} (h : splitPath path = some segments) :
    path = joined segments ∨ segments ≠ [] ∧ path = slashed segments := by
  rw [splitPath] at h
  split at h
  · next hslash =>
    obtain ⟨rest, hpath⟩ : ∃ rest, path.toList = slash :: rest := by
      rw [startsWith, beq_iff_eq, List.head?_eq_some_iff] at hslash
      exact hslash
    rw [hpath, splitKeepEmpty, if_pos (beq_self_eq_true _), tail_cons, splitKeepEmpty_eq] at h
    have hrest : [slash].intercalate (rest.splitOn slash) = rest := intercalate_splitOn slash
    have hwhole (text : List Char) (htext : slash :: rest = text) : path = String.ofList text := by
      rw [← htext, ← hpath, String.ofList_toList]
    dsimp only at h
    split at h
    · next hlast =>
      obtain ⟨front, hfront⟩ := List.getLast?_eq_some_iff.mp (eq_of_beq hlast)
      rw [hfront, dropLast_concat] at h
      split at h
      · cases h
      · obtain rfl := Option.some.inj h
        by_cases hne : front = []
        · refine .inl (hwhole _ ?_)
          rw [← hrest, hfront, hne]
          rfl
        · refine .inr ⟨by simpa using hne, hwhole _ ?_⟩
          rw [joined, map_toList_ofList, String.toList_ofList, cons_append, ← intercalate_concat_nil slash hne, ← hfront, hrest]
    · split at h
      · cases h
      · obtain rfl := Option.some.inj h
        refine .inl (hwhole _ ?_)
        rw [map_toList_ofList, hrest]
  · cases h

/-- A segment longer than any text there is. -/
theorem exists_fresh (texts : List QString) :
    ∃ fresh : QString, Plain fresh ∧ ∀ text ∈ texts, text.toList.length < fresh.toList.length := by
  have hbound : ∃ bound, ∀ text ∈ texts, text.toList.length ≤ bound := by
    induction texts with
    | nil => exact ⟨0, nofun⟩
    | cons text texts ih =>
      obtain ⟨bound, hbound⟩ := ih
      refine ⟨max text.toList.length bound, fun other hother => ?_⟩
      obtain rfl | hother := mem_cons.mp hother
      · exact Nat.le_max_left _ _
      · exact Nat.le_trans (hbound other hother) (Nat.le_max_right _ _)
  obtain ⟨bound, hbound⟩ := hbound
  refine ⟨String.ofList (List.replicate (bound + 1) 'x'), ⟨?_, ?_⟩, fun text htext => ?_⟩
  · rw [String.toList_ofList]
    exact cons_ne_nil _ _
  · rw [String.toList_ofList]
    exact fun h => absurd (eq_of_mem_replicate h) (by decide)
  · rw [String.toList_ofList, length_replicate]
    exact Nat.lt_succ_of_le (hbound text htext)

end RoutePattern
end SynQt
