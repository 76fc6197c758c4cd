import SynQt.Transport.RouteCaptures

namespace SynQt
open Lib Percent Option List

structure ApiRoute (Handler : Type) where
  method : QString
  pattern : RoutePattern
  handler : Handler

/-- The path of a request's URL is asked for in its default form: all of it decoded. -/
def requestPath (fullyDecoded : QString → QString) (target : QString) : QString :=
  fullyDecoded (String.ofList (target.toList.takeWhile fun c => c != questionMark && c != '#'))

namespace Api
variable {Handler : Type}

/-- The path is split once for the whole table, and the first route of the method that matches is taken. -/
def dispatch (qt : QtText) (routes : List (ApiRoute Handler)) (method path : QString) : Option (ApiRoute Handler × QVariantMap) :=
  (RoutePattern.splitPath path).bind fun segments =>
    routes.findSome? fun route =>
      if route.method ≠ method then none
      else (route.pattern.matchesSegments qt segments).map fun parameters => (route, parameters)

open RoutePattern
variable {qt : QtText} {fullyDecoded : QString → QString} {pattern path : QString} {segments : List QString}
  {values texts : QString → QString}

/-- A literal that stands in a URL for itself. -/
structure Bare (segment : QString) : Prop where
  percent : '%' ∉ segment.toList
  query : questionMark ∉ segment.toList
  fragment : '#' ∉ segment.toList

def BareLiterals (pattern : QString) : Prop :=
  ∀ segment ∈ splitSegments pattern, isPlaceholder segment = false → Bare segment

variable {part : List Char}

private theorem bare_part (h : BareLiterals pattern) (hin : part ∈ splitKeepEmpty slash pattern.toList)
    (hliteral : ¬ isPlaceholder (String.ofList part) = true) : Bare (String.ofList part) := by
  by_cases hempty : part = []
  · subst hempty
    exact ⟨by simp, by simp, by simp⟩
  · exact h _ (mem_map_of_mem (mem_filter.mpr ⟨hin, by simpa using hempty⟩)) (Bool.eq_false_iff.mpr hliteral)

private theorem spells_part (hbare : BareLiterals pattern)
    (htexts : ∀ name ∈ names (splitSegments pattern), WrittenAs (values name) (texts name)) (hin : part ∈ splitKeepEmpty slash pattern.toList) : Spells (writtenPart texts part) (utf8 (writtenPart values part)) := by
  by_cases hplaceholder : isPlaceholder (String.ofList part) = true
  · rw [writtenPart, writtenPart, written, written, if_pos hplaceholder, if_pos hplaceholder, String.toList_ofList]
    exact (htexts _ (mem_names_part hin hplaceholder)).spells
  · rw [writtenPart_literal hplaceholder, writtenPart_literal hplaceholder]
    have hpercent := (bare_part hbare hin hplaceholder).percent
    rw [String.toList_ofList] at hpercent
    exact spells_self hpercent

private theorem inner_part (hbare : BareLiterals pattern)
    (htexts : ∀ name ∈ names (splitSegments pattern), WrittenAs (values name) (texts name)) (hin : part ∈ splitKeepEmpty slash pattern.toList) : questionMark ∉ writtenPart texts part ∧ '#' ∉ writtenPart texts part := by
  by_cases hplaceholder : isPlaceholder (String.ofList part) = true
  · rw [writtenPart, written, if_pos hplaceholder, String.toList_ofList]
    have hwritten := htexts _ (mem_names_part hin hplaceholder)
    exact ⟨hwritten.query, hwritten.fragment⟩
  · rw [writtenPart_literal hplaceholder]
    have hpart := bare_part hbare hin hplaceholder
    rw [← String.toList_ofList (l := part)]
    exact ⟨hpart.query, hpart.fragment⟩

private theorem requestPath_substituted (hurl : Decodes fullyDecoded) (hbare : BareLiterals pattern)
    (htexts : ∀ name ∈ names (splitSegments pattern), WrittenAs (values name) (texts name)) :
    requestPath fullyDecoded (substituted texts pattern) = substituted values pattern := by
  have hall : (substituted texts pattern).toList.takeWhile (fun c => c != questionMark && c != '#') =
      (substituted texts pattern).toList := by
    rw [takeWhile_eq_self_iff]
    intro c hc
    rw [toList_substituted] at hc
    rw [Bool.and_eq_true, bne_iff_ne, bne_iff_ne]
    obtain rfl | ⟨given, hgiven, hin⟩ := mem_of_mem_intercalate hc
    · exact ⟨by decide, by decide⟩
    · obtain ⟨part, hpart, rfl⟩ := mem_map.mp hgiven
      obtain ⟨hquery, hfragment⟩ := inner_part hbare htexts hpart
      exact ⟨fun he => hquery (he ▸ hin), fun he => hfragment (he ▸ hin)⟩
  rw [requestPath, hall, String.ofList_toList]
  refine hurl _ _ ?_
  rw [toList_substituted, toList_substituted]
  refine spells_intercalate _ (by decide) ?_
  rw [forall₂_map_left_iff, forall₂_map_right_iff, forall₂_same]
  exact fun part hpart => spells_part hbare htexts hpart

private theorem dispatch_first {earlier later : List (ApiRoute Handler)} {route : ApiRoute Handler} {parameters : QVariantMap}
    (hpath : splitPath path = some segments) (hmatched : route.pattern.matchesSegments qt segments = some parameters)
    (hearlier : ∀ other ∈ earlier, other.method = route.method → other.pattern.matchesPath qt path = none) :
    dispatch qt (earlier ++ route :: later) route.method path = some (route, parameters) := by
  have hnone : (earlier.findSome? fun other =>
      if other.method ≠ route.method then none
      else (other.pattern.matchesSegments qt segments).map fun parameters => (other, parameters)) = none := by
    rw [List.findSome?_eq_none_iff]
    intro other hin
    split
    · rfl
    · next hsame =>
      have hother := hearlier other hin (not_not.mp hsame)
      rw [matchesPath, hpath, bind_some] at hother
      rw [map_eq_none_iff]
      split at hother
      · exact hother
      · next hinvalid => rw [matchesSegments, if_neg fun h => hinvalid h.1]
  rw [dispatch, hpath, bind_some, List.findSome?_append, hnone, none_or, List.findSome?_cons,
    if_neg (not_not.mpr rfl), hmatched, map_some]

/-- A value a handler reads as it was written: with nothing in it that is decoded once more. -/
structure Settled (value : QString) : Prop where
  nonempty : value ≠ ""
  slash : slash ∉ value.toList
  percent : '%' ∉ value.toList

private theorem dispatch_substituted (hqt : Decodes qt.fromPercentEncoding) (hurl : Decodes fullyDecoded)
    {earlier later : List (ApiRoute Handler)} {route : ApiRoute Handler} (hroute : route.pattern = make qt pattern)
    (hvalid : (make qt pattern).valid = true) (hpath : splitPath pattern = some segments) (hbare : BareLiterals pattern)
    (htexts : ∀ name ∈ names (splitSegments pattern), Settled (values name) ∧ WrittenAs (values name) (texts name))
    (hearlier : ∀ other ∈ earlier, other.method = route.method →
      other.pattern.matchesPath qt (substituted values pattern) = none) :
    ∃ parameters, dispatch qt (earlier ++ route :: later) route.method (requestPath fullyDecoded (substituted texts pattern)) =
      some (route, parameters) ∧ Binds pattern values parameters := by
  have hsplit := splitPath_substituted (fun name hname => (htexts name hname).1.slash)
    (fun name hname hnil => (htexts name hname).1.nonempty (String.toList_eq_nil_iff.mp hnil)) hpath
  rw [← splitSegments_of_splitPath hpath] at hsplit
  obtain ⟨parameters, hmatched, hbinds⟩ := matchesSegments_written hvalid values
  rw [← hroute] at hmatched
  refine ⟨parameters, ?_, hbinds.congr fun name hname => hqt _ _ (spells_self (htexts name hname).1.percent)⟩
  rw [requestPath_substituted hurl hbare fun name hname => (htexts name hname).2]
  exact dispatch_first hsplit hmatched hearlier

/-- Values that were written into a pattern's path are what it captures, for the pattern alone and through
the gateway, and a path is split at its own slashes only, with every segment decoded once. -/
theorem captures_invert (qt : QtText) (fullyDecoded : QString → QString) (hqt : Decodes qt.fromPercentEncoding)
    (hurl : Decodes fullyDecoded) :
    (∀ (pattern : QString) (segments : List QString) (values texts : QString → QString),
      (make qt pattern).valid = true → splitPath pattern = some segments →
      (∀ name ∈ names (splitSegments pattern), values name ≠ "" ∧ WrittenAs (values name) (texts name)) →
      ∃ parameters, (make qt pattern).matchesPath qt (substituted texts pattern) = some parameters ∧
        Binds pattern values parameters) ∧
    (∀ (pattern path : QString) (parameters : QVariantMap), (make qt pattern).matchesPath qt path = some parameters →
      ∃ segments, (path = joined segments ∨ path = slashed segments) ∧ (∀ segment ∈ segments, Plain segment) ∧
        Fits (splitSegments pattern) segments ∧
        ∀ entry, entry ∈ parameters ↔ entry ∈ bindings qt (splitSegments pattern) segments) ∧
    (∀ (earlier later : List (ApiRoute Handler)) (route : ApiRoute Handler) (pattern : QString) (segments : List QString)
        (values texts : QString → QString), route.pattern = make qt pattern → (make qt pattern).valid = true →
      splitPath pattern = some segments → BareLiterals pattern →
      (∀ name ∈ names (splitSegments pattern), Settled (values name) ∧ WrittenAs (values name) (texts name)) →
      (∀ other ∈ earlier, other.method = route.method →
        other.pattern.matchesPath qt (substituted values pattern) = none) →
      ∃ parameters, dispatch qt (earlier ++ route :: later) route.method
          (requestPath fullyDecoded (substituted texts pattern)) = some (route, parameters) ∧
        Binds pattern values parameters) := by
  refine ⟨fun pattern segments values texts hvalid hpath htexts => matchesPath_substituted hqt hvalid hpath htexts, ?_,
    fun earlier later route pattern segments values texts hroute hvalid hpath hbare htexts hearlier =>
      dispatch_substituted hqt hurl hroute hvalid hpath hbare htexts hearlier⟩
  intro pattern path parameters hmatched
  obtain ⟨hvalid, segments, hpath, hmatched⟩ := of_matchesPath hmatched
  refine ⟨segments, (eq_joined_or_slashed hpath).imp_right And.right, fun segment => plain_of_splitPath hpath, ?_,
    mem_matched hvalid hmatched⟩
  have hfits := (isSome_matchesSegments.mp (isSome_of_eq_some hmatched)).2
  rwa [(make_valid hvalid).1] at hfits

def asciiText : QtText where
  isLetter := Char.isAlpha
  isLetterOrNumber := Char.isAlphanum
  fromPercentEncoding text := String.ofList (decode (List.map fun _ => '\uFFFD') text.toList)
  queryItems _ := []

private theorem decodes_asciiText : Decodes asciiText.fromPercentEncoding := by
  intro text value hspells
  exact (congrArg String.ofList (decode_of_spells _ hspells)).trans String.ofList_toList

/-- Slashes and escapes in a value by the pattern alone, and text outside ASCII through the gateway. -/
theorem captures_invert_lots :
    (∃ parameters, (make asciiText "/lots/:id").matchesPath asciiText
        (substituted (fun _ => encodeSegment "a/b%2F") "/lots/:id") = some parameters ∧
      Binds "/lots/:id" (fun _ => "a/b%2F") parameters) ∧
    ∃ parameters, dispatch asciiText [⟨"GET", make asciiText "/lots/open", ()⟩, ⟨"GET", make asciiText "/lots/:id", ()⟩] "GET"
        (requestPath asciiText.fromPercentEncoding (substituted (fun _ => encodeSegment "caf\u00e9 ..") "/lots/:id")) =
          some (⟨"GET", make asciiText "/lots/:id", ()⟩, parameters) ∧
      Binds "/lots/:id" (fun _ => "caf\u00e9 ..") parameters := by
  have hinvert := @captures_invert Unit asciiText asciiText.fromPercentEncoding decodes_asciiText decodes_asciiText
  refine ⟨hinvert.1 "/lots/:id" ["lots", ":id"] _ _ rfl rfl fun name _ => ⟨by decide, writtenAs_encodeSegment _⟩,
    hinvert.2.2 [⟨"GET", make asciiText "/lots/open", ()⟩] [] ⟨"GET", make asciiText "/lots/:id", ()⟩ "/lots/:id" ["lots", ":id"]
      _ _ rfl rfl rfl ?_ (fun name _ => ⟨⟨by decide, by decide, by decide⟩, writtenAs_encodeSegment _⟩) ?_⟩
  · intro segment hin hliteral
    rw [show splitSegments "/lots/:id" = ["lots", ":id"] from by decide, mem_cons, mem_singleton] at hin
    obtain rfl | rfl := hin
    · exact ⟨by decide, by decide, by decide⟩
    · cases hliteral
  · intro other hin _
    rw [mem_singleton.mp hin]
    decide

/-- An empty value leaves no segment, two slashes of a pattern none either, and through the gateway an
escaped slash splits the path and an escaped escape is decoded twice. -/
theorem captures_not_inverted :
    (make asciiText "/c/:name").matchesPath asciiText (substituted (fun _ => encodeSegment "") "/c/:name") = none ∧
    (make asciiText "/c//:name").matchesPath asciiText (substituted (fun _ => encodeSegment "x") "/c//:name") = none ∧
    dispatch asciiText [⟨"GET", make asciiText "/c/:name", ()⟩] "GET"
      (requestPath asciiText.fromPercentEncoding (substituted (fun _ => encodeSegment "a/b") "/c/:name")) = none ∧
    dispatch asciiText [⟨"GET", make asciiText "/c/:name", ()⟩] "GET"
      (requestPath asciiText.fromPercentEncoding (substituted (fun _ => encodeSegment "%41") "/c/:name")) =
        some (⟨"GET", make asciiText "/c/:name", ()⟩, [("name", "A")]) := by
  have hbare : BareLiterals "/c/:name" := by
    intro segment hin hliteral
    rw [show splitSegments "/c/:name" = ["c", ":name"] from by decide, mem_cons, mem_singleton] at hin
    obtain rfl | rfl := hin
    · exact ⟨by decide, by decide, by decide⟩
    · cases hliteral
  have hpath (value : QString) : requestPath asciiText.fromPercentEncoding (substituted (fun _ => encodeSegment value) "/c/:name") =
      substituted (fun _ => value) "/c/:name" :=
    requestPath_substituted decodes_asciiText hbare fun _ _ => writtenAs_encodeSegment value
  refine ⟨by decide, by decide, ?_, ?_⟩
  · rw [hpath]
    decide
  · rw [hpath]
    have hspells : Spells ['%', '4', '1'] [0x41] := @Spells.escape '4' '1' 4 1 [] [] rfl rfl .nil
    have hdecoded : asciiText.fromPercentEncoding "%41" = "A" := decodes_asciiText _ _ hspells
    rw [← hdecoded]
    rfl

end Api
end SynQt
