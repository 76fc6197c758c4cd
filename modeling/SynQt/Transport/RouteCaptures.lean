import SynQt.Lib.Percent
import SynQt.Transport.RouteShape

/-! Values written into a pattern, and what the pattern captures of the path that makes. -/
namespace SynQt
open Lib Percent List

/-- What is documented of Qt's decoding: a text is read as the text whose bytes it spells. -/
def Decodes (decoded : QString → QString) : Prop :=
  ∀ text value : QString, Spells text.toList (utf8 value.toList) → decoded text = value

/-- A value written as one segment of a path, whichever of its characters are escaped. -/
structure WrittenAs (value text : QString) : Prop where
  spells : Spells text.toList (utf8 value.toList)
  slash : slash ∉ text.toList
  query : questionMark ∉ text.toList
  fragment : '#' ∉ text.toList

/-- The characters that stand for themselves in every segment. -/
def unreserved (c : Char) : Bool := c.isAlphanum || ['-', '.', '_', '~'].contains c

def encodeSegment (value : QString) : QString := String.ofList (encode unreserved value.toList)

/-- A segment with everything escaped that is not unreserved is one way to write a value. -/
theorem writtenAs_encodeSegment (value : QString) : WrittenAs value (encodeSegment value) := by
  have hapart (c : Char) (hc : unreserved c = false) (hpercent : c ≠ '%') : c ∉ (encodeSegment value).toList := by
    rw [encodeSegment, String.toList_ofList]
    intro hin
    obtain hplain | hsign | hdigit := mem_encode hin
    · exact Bool.eq_false_iff.mp hc hplain
    · exact hpercent hsign
    · rw [unreserved, hdigit, Bool.true_or] at hc
      cases hc
  refine ⟨?_, hapart _ (by decide) (by decide), hapart _ (by decide) (by decide), hapart _ (by decide) (by decide)⟩
  rw [encodeSegment, String.toList_ofList]
  exact spells_encode (by decide) _

namespace RoutePattern

def matchesPath (qt : QtText) (pattern : RoutePattern) (path : QString) : Option QVariantMap :=
  if pattern.valid then (splitPath path).bind (pattern.matchesSegments qt) else none

/-- A segment of a pattern, with what stands for its placeholder. -/
def written (texts : QString → QString) (segment : QString) : QString :=
  if isPlaceholder segment then texts (String.ofList segment.toList.tail) else segment

/-- The pattern's own text with every placeholder written out. -/
def substituted (texts : QString → QString) (pattern : QString) : QString :=
  String.ofList ([slash].intercalate
    ((splitKeepEmpty slash pattern.toList).map fun part => (written texts (String.ofList part)).toList))

def Binds (pattern : QString) (values : QString → QString) (parameters : QVariantMap) : Prop :=
  ∀ entry, entry ∈ parameters ↔ entry.1 ∈ names (splitSegments pattern) ∧ entry.2 = values entry.1

variable {qt : QtText} {texts : QString → QString} {pattern path : QString} {segments : List QString}

/-- The parts behind the first, without the empty one that a last slash leaves. -/
def trimmed (parts : List (List Char)) : List (List Char) :=
  if parts.tail.getLast? == some [] then parts.tail.dropLast else parts.tail

private theorem splitPath_eq (path : QString) : splitPath path =
    if startsWith path slash then
      if (trimmed (splitKeepEmpty slash path.toList)).any (·.isEmpty) then none
      else some ((trimmed (splitKeepEmpty slash path.toList)).map String.ofList)
    else none := rfl

private theorem splitKeepEmpty_rooted (h : startsWith path slash = true) :
    ∃ parts, splitKeepEmpty slash path.toList = [] :: parts ∧ parts ≠ [] := by
  rw [startsWith, beq_iff_eq, List.head?_eq_some_iff] at h
  obtain ⟨rest, hpath⟩ := h
  rw [hpath, splitKeepEmpty, if_pos (beq_self_eq_true _)]
  refine ⟨_, rfl, ?_⟩
  rw [splitKeepEmpty_eq]
  exact splitOn_ne_nil _ _

private theorem rooted_of_splitPath (h : splitPath path = some segments) : startsWith path slash = true := by
  rw [splitPath_eq] at h
  split at h
  · assumption
  · cases h

variable {parts : List (List Char)}

/-- Where no inner part is empty, the parts left are all that are not. -/
theorem filter_eq_trimmed (h : ¬ (trimmed ([] :: parts)).any (·.isEmpty) = true) :
    ([] :: parts).filter (!·.isEmpty) = trimmed ([] :: parts) := by
  rw [filter_cons_of_neg (by simp)]
  rw [Bool.not_eq_true, any_eq_false] at h
  have hall : (trimmed ([] :: parts)).filter (!·.isEmpty) = trimmed ([] :: parts) :=
    filter_eq_self.mpr fun part hpart => by simpa using h part hpart
  rw [← hall, trimmed, tail_cons]
  split
  · next hlast =>
    obtain ⟨front, rfl⟩ := List.getLast?_eq_some_iff.mp (eq_of_beq hlast)
    rw [dropLast_concat, filter_append, filter_cons_of_neg (by simp), filter_nil, append_nil]
  · rfl

theorem splitSegments_of_splitPath (h : splitPath path = some segments) : splitSegments path = segments := by
  obtain ⟨parts, hparts, -⟩ := splitKeepEmpty_rooted (rooted_of_splitPath h)
  rw [splitPath_eq, if_pos (rooted_of_splitPath h), hparts] at h
  rw [splitSegments, hparts]
  split at h
  · cases h
  · next hnone =>
    rw [filter_eq_trimmed hnone]
    exact Option.some.inj h

theorem plain_of_splitPath (h : splitPath path = some segments) {segment : QString} (hin : segment ∈ segments) :
    Plain segment := by
  rw [← splitSegments_of_splitPath h] at hin
  exact plain_of_mem_splitSegments hin

def writtenPart (texts : QString → QString) (part : List Char) : List Char := (written texts (String.ofList part)).toList

variable {part : List Char}

theorem writtenPart_literal (h : ¬ isPlaceholder (String.ofList part) = true) : writtenPart texts part = part := by
  rw [writtenPart, written, if_neg h, String.toList_ofList]

private theorem writtenPart_nil : writtenPart texts [] = [] := writtenPart_literal (by decide)

theorem toList_substituted : (substituted texts pattern).toList =
    [slash].intercalate ((splitKeepEmpty slash pattern.toList).map (writtenPart texts)) := by
  rw [substituted, String.toList_ofList]
  rfl

private theorem mem_names {segment : QString} (hin : segment ∈ segments) (h : isPlaceholder segment = true) :
    String.ofList segment.toList.tail ∈ names segments :=
  mem_map.mpr ⟨segment, mem_filter.mpr ⟨hin, h⟩, rfl⟩

section
variable (hin : part ∈ splitKeepEmpty slash pattern.toList)
include hin

theorem mem_names_part (h : isPlaceholder (String.ofList part) = true) : String.ofList part.tail ∈ names (splitSegments pattern) := by
  have hne : part ≠ [] := by
    rintro rfl
    exact absurd h (by decide)
  have hsegment : String.ofList part ∈ splitSegments pattern :=
    mem_map_of_mem (mem_filter.mpr ⟨hin, by simpa using hne⟩)
  have hname := mem_names hsegment h
  rwa [String.toList_ofList] at hname

private theorem slash_notMem_part : slash ∉ part := by
  rw [splitKeepEmpty_eq, splitOn_eq_splitOnP] at hin
  intro hslash
  simpa using (mem_splitOnP hin slash hslash).1

end

/-- No text written for a name adds a slash. -/
def Unslashed (texts : QString → QString) (pattern : QString) : Prop :=
  ∀ name ∈ names (splitSegments pattern), slash ∉ (texts name).toList

private theorem slash_notMem_writtenPart (h : Unslashed texts pattern)
    (hin : part ∈ splitKeepEmpty slash pattern.toList) : slash ∉ writtenPart texts part := by
  by_cases hplaceholder : isPlaceholder (String.ofList part) = true
  · rw [writtenPart, written, if_pos hplaceholder, String.toList_ofList]
    exact h _ (mem_names_part hin hplaceholder)
  · rw [writtenPart_literal hplaceholder]
    exact slash_notMem_part hin

private theorem splitKeepEmpty_substituted (h : Unslashed texts pattern) :
    splitKeepEmpty slash (substituted texts pattern).toList = (splitKeepEmpty slash pattern.toList).map (writtenPart texts) := by
  rw [toList_substituted, splitKeepEmpty_eq slash ([slash].intercalate _), splitOn_intercalate _ (fun part hpart => ?_) ?_]
  · rw [splitKeepEmpty_eq, Ne, map_eq_nil_iff]
    exact splitOn_ne_nil _ _
  · obtain ⟨part, hin, rfl⟩ := mem_map.mp hpart
    exact slash_notMem_writtenPart h hin

private theorem startsWith_substituted (h : startsWith pattern slash = true) : startsWith (substituted texts pattern) slash = true := by
  obtain ⟨parts, hparts, hne⟩ := splitKeepEmpty_rooted h
  rw [startsWith, toList_substituted, hparts, map_cons, writtenPart_nil,
    intercalate_cons_of_ne_nil (by simpa using hne), nil_append, singleton_append, List.head?_cons]
  exact beq_self_eq_true _

/-- Every name is written as something. -/
def Filled (texts : QString → QString) (pattern : QString) : Prop :=
  ∀ name ∈ names (splitSegments pattern), (texts name).toList ≠ []

private theorem writtenPart_eq_nil (h : Filled texts pattern) (hin : part ∈ splitKeepEmpty slash pattern.toList) :
    writtenPart texts part = [] ↔ part = [] := by
  constructor
  · intro hnil
    by_cases hplaceholder : isPlaceholder (String.ofList part) = true
    · rw [writtenPart, written, if_pos hplaceholder, String.toList_ofList] at hnil
      exact absurd hnil (h _ (mem_names_part hin hplaceholder))
    · rwa [writtenPart_literal hplaceholder] at hnil
  · rintro rfl
    exact writtenPart_nil

/-- The parts that are left of a path are written one by one. -/
theorem trimmed_map (f : List Char → List Char) (h : ∀ part ∈ parts, f part = [] ↔ part = []) :
    trimmed (parts.map f) = (trimmed parts).map f := by
  rw [trimmed, trimmed, ← map_tail, List.getLast?_map]
  have hlast : (parts.tail.getLast?.map f == some []) = (parts.tail.getLast? == some []) := by
    cases hparts : parts.tail.getLast? with
    | none => rfl
    | some part =>
      have hin := mem_of_mem_tail (mem_of_getLast? hparts)
      rw [Option.map_some, Bool.eq_iff_iff, beq_iff_eq, beq_iff_eq, Option.some.injEq, Option.some.injEq]
      exact h part hin
  rw [hlast]
  split
  · rw [map_dropLast]
  · rfl

private theorem mem_of_mem_trimmed (h : part ∈ trimmed parts) : part ∈ parts := by
  rw [trimmed] at h
  split at h
  · exact mem_of_mem_tail (mem_of_mem_dropLast h)
  · exact mem_of_mem_tail h

theorem splitPath_substituted (hslash : Unslashed texts pattern) (hfilled : Filled texts pattern)
    (h : splitPath pattern = some segments) : splitPath (substituted texts pattern) = some (segments.map (written texts)) := by
  have hrooted := rooted_of_splitPath h
  rw [splitPath_eq, if_pos hrooted] at h
  rw [splitPath_eq, if_pos (startsWith_substituted hrooted), splitKeepEmpty_substituted hslash,
    trimmed_map _ fun part hin => writtenPart_eq_nil hfilled hin]
  split at h
  · cases h
  · next hnone =>
    obtain rfl := Option.some.inj h
    rw [if_neg, map_map, map_map]
    · congr 1
      refine map_congr_left fun part _ => ?_
      rw [Function.comp_apply, Function.comp_apply, writtenPart, String.ofList_toList]
    · rw [Bool.not_eq_true, any_eq_false] at hnone ⊢
      intro part hpart
      obtain ⟨part, hin, rfl⟩ := mem_map.mp hpart
      have hne := hnone part hin
      rw [List.isEmpty_iff] at hne ⊢
      exact fun hnil => hne ((writtenPart_eq_nil hfilled (mem_of_mem_trimmed hin)).mp hnil)

theorem of_matchesPath {parameters : QVariantMap} (h : (make qt pattern).matchesPath qt path = some parameters) :
    (make qt pattern).valid = true ∧
      ∃ segments, splitPath path = some segments ∧ (make qt pattern).matchesSegments qt segments = some parameters := by
  rw [matchesPath] at h
  split at h
  · next hvalid => exact ⟨hvalid, Option.bind_eq_some_iff.mp h⟩
  · cases h

private theorem fits_written (texts : QString → QString) (segments : List QString) : Fits segments (segments.map (written texts)) := by
  induction segments with
  | nil => exact .nil
  | cons segment segments ih =>
    refine .cons ?_ ih
    by_cases hplaceholder : isPlaceholder segment = true
    · exact .inl hplaceholder
    · exact .inr (if_neg hplaceholder).symm

private theorem mem_bindings_written (texts : QString → QString) (segments : List QString) (entry : QString × QString) :
    entry ∈ bindings qt segments (segments.map (written texts)) ↔
      entry.1 ∈ names segments ∧ entry.2 = qt.fromPercentEncoding (texts entry.1) := by
  induction segments with
  | nil => exact iff_of_false not_mem_nil fun h => not_mem_nil h.1
  | cons segment segments ih =>
    rw [map_cons]
    by_cases hplaceholder : isPlaceholder segment = true
    · rw [bindings_placeholder hplaceholder, names_placeholder hplaceholder, mem_cons, mem_cons, ih, or_and_right,
        written, if_pos hplaceholder]
      refine or_congr_left ?_
      constructor
      · rintro rfl
        exact ⟨rfl, rfl⟩
      · rintro ⟨hname, hvalue⟩
        rw [← hname]
        exact Prod.ext rfl hvalue
    · rw [bindings_literal hplaceholder, names_literal hplaceholder]
      exact ih

/-- A valid pattern takes its own segments, and captures what was written for its names. -/
theorem matchesSegments_written (hvalid : (make qt pattern).valid = true) (texts : QString → QString) :
    ∃ parameters, (make qt pattern).matchesSegments qt ((splitSegments pattern).map (written texts)) = some parameters ∧
      Binds pattern (fun name => qt.fromPercentEncoding (texts name)) parameters := by
  have hsome : ((make qt pattern).matchesSegments qt ((splitSegments pattern).map (written texts))).isSome = true := by
    rw [isSome_matchesSegments, (make_valid hvalid).1]
    exact ⟨hvalid, fits_written texts _⟩
  obtain ⟨parameters, hmatched⟩ := Option.isSome_iff_exists.mp hsome
  refine ⟨parameters, hmatched, fun entry => ?_⟩
  rw [mem_matched hvalid hmatched, mem_bindings_written]

theorem Binds.congr {values others : QString → QString} {parameters : QVariantMap} (h : Binds pattern values parameters)
    (hsame : ∀ name ∈ names (splitSegments pattern), values name = others name) : Binds pattern others parameters := by
  intro entry
  rw [h entry]
  exact and_congr_right fun hname => by rw [hsame _ hname]

theorem matchesPath_substituted (hqt : Decodes qt.fromPercentEncoding) (hvalid : (make qt pattern).valid = true)
    (hpath : splitPath pattern = some segments) {values : QString → QString}
    (htexts : ∀ name ∈ names (splitSegments pattern), values name ≠ "" ∧ WrittenAs (values name) (texts name)) :
    ∃ parameters, (make qt pattern).matchesPath qt (substituted texts pattern) = some parameters ∧
      Binds pattern values parameters := by
  have hfilled : Filled texts pattern := by
    intro name hname hnil
    obtain ⟨hne, hwritten⟩ := htexts name hname
    have hempty : texts name = "" := String.toList_eq_nil_iff.mp hnil
    refine hne ?_
    rw [← hqt (texts name) (values name) hwritten.spells]
    rw [hempty]
    exact hqt "" "" .nil
  obtain ⟨parameters, hmatched, hbinds⟩ := matchesSegments_written hvalid texts
  refine ⟨parameters, ?_, hbinds.congr fun name hname => hqt _ _ (htexts name hname).2.spells⟩
  rw [matchesPath, if_pos hvalid, splitPath_substituted (fun name hname => (htexts name hname).2.slash) hfilled hpath,
    Option.bind_some, ← splitSegments_of_splitPath hpath]
  exact hmatched

end RoutePattern
end SynQt
