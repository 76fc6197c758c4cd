import SynQt.Client.LoginResume
import SynQt.Lib.Url
import SynQt.Transport.RouteShape

namespace SynQt
open Lib List

theorem exists_parts (separator : Char) (text : List Char) : ∃ parts last, text.splitOn separator = parts ++ [last] ∧
    text = parts.flatMap (· ++ [separator]) ++ last ∧ (∀ part ∈ parts ++ [last], separator ∉ part ∧ part ⊆ text) := by
  obtain ⟨parts, last, hsplit⟩ := eq_nil_or_concat' (text.splitOn separator) |>.resolve_left (splitOn_ne_nil _ _)
  refine ⟨parts, last, hsplit, ?_, ?_⟩
  · have hjoin (parts : List (List Char)) : [separator].intercalate (parts ++ [last]) =
        parts.flatMap (· ++ [separator]) ++ last := by
      induction parts with
      | nil => simp
      | cons part parts ih =>
        rw [cons_append, intercalate_cons_of_ne_nil (by simp), ih, flatMap_cons]
        simp only [append_assoc]
    rw [← hjoin, ← hsplit, intercalate_splitOn]
  · intro part hpart
    rw [← hsplit, splitOn_eq_splitOnP] at hpart
    have hmem := mem_splitOnP hpart
    exact ⟨fun hin => by simpa using (hmem _ hin).1, fun c hc => (hmem c hc).2⟩

/-- One empty segment at the end is a trailing slash. -/
def pathSegments (segments : List (List Char)) : List (List Char) :=
  if segments.getLast? == some [] then segments.dropLast else segments

namespace ResumePath

structure Accepted (qt : QtText) (candidate : QString) (declaredPaths : List QString) (body : List Char)
    (segments : List QString) : Prop where
  rooted : candidate.toList = slash :: body
  relative : body.head? ≠ some slash
  unwritten : ∀ c ∈ candidate.toList, ¬ (c.toNat < 0x20) ∧ c ≠ '\\' ∧ c ≠ '#'
  safe : hasUnsafeSegment (RoutePattern.splitQuery qt candidate).1 = false
  split : RoutePattern.splitPath (RoutePattern.splitQuery qt candidate).1 = some segments
  declared : ∃ declared ∈ declaredPaths, ((RoutePattern.make qt declared).matchesSegments qt segments).isSome = true

theorem isAcceptable_elim {qt : QtText} {candidate : QString} {declaredPaths : List QString}
    (h : isAcceptable qt candidate declaredPaths = true) :
    ∃ body segments, Accepted qt candidate declaredPaths body segments := by
  rw [isAcceptable] at h
  split at h
  · cases h
  split at h
  · cases h
  next hstarts =>
  split at h
  · cases h
  next hdouble =>
  split at h
  · cases h
  next hrewriting =>
  dsimp only at h
  split at h
  · cases h
  next hunsafe =>
  split at h
  · cases h
  next segments hsplit =>
  obtain ⟨body, hbody⟩ : ∃ body, candidate.toList = slash :: body := by
    rw [not_not, startsWith, beq_iff_eq] at hstarts
    exact List.head?_eq_some_iff.mp hstarts
  refine ⟨body, segments, hbody, fun hhead => hdouble ?_, fun c hc => ?_, Bool.not_eq_true _ ▸ hunsafe, hsplit,
    any_eq_true.mp h⟩
  · obtain ⟨rest, rfl⟩ := List.head?_eq_some_iff.mp hhead
    rw [hbody]
    rfl
  · rw [hasRewritingCharacter, any_eq_true, not_exists] at hrewriting
    have hclean := hrewriting c
    simp only [hc, true_and, Bool.or_eq_true, decide_eq_true_eq, beq_iff_eq, not_or] at hclean
    exact ⟨hclean.1.1.1.1, hclean.1.1.2, hclean.2⟩

private theorem eq_dot_of_toLower {c : Char} (h : c.toLower = '.') : c = '.' := by
  delta Char.toLower at h
  split at h
  · next hupper =>
    have hshifted : c.val + 32 = 46 := congrArg Char.val h
    have hlow : 65 ≤ c.val := hupper.1
    have hhigh : c.val ≤ 90 := hupper.2
    rw [UInt32.le_iff_toNat_le] at hlow hhigh
    have hsum := congrArg UInt32.toNat hshifted
    rw [UInt32.toNat_add] at hsum
    simp at hlow hhigh hsum
    omega
  · exact h

private theorem isDots_of_safe {segment : List Char}
    (h : (segment == ['.'] || segment == ['.', '.'] || containsFolded ['%', '2', 'f'] segment ||
      containsFolded ['%', '5', 'c'] segment || containsFolded ['%', '2', 'e'] segment) = false) :
    Url.isDots segment = false := by
  simp only [Bool.or_eq_false_iff, beq_eq_false_iff_ne] at h
  obtain ⟨⟨⟨⟨hsingle, hdouble⟩, -⟩, -⟩, hencoded⟩ := h
  rw [← Bool.not_eq_true, Url.isDots_iff]
  intro hdots
  rw [containsFolded, ← Url.lower] at hencoded
  simp only [mem_cons, not_mem_nil, or_false] at hdots
  rcases hdots with hat | hat | hat | hat | hat | hat
  · obtain ⟨c, rfl, hc⟩ := map_eq_singleton_iff.mp hat
    exact hsingle (by rw [eq_dot_of_toLower hc])
  · rw [hat] at hencoded
    revert hencoded
    decide
  · obtain ⟨c, rest, rfl, hc, hrest⟩ := map_eq_cons_iff.mp hat
    obtain ⟨c', rfl, hc'⟩ := map_eq_singleton_iff.mp hrest
    exact hdouble (by rw [eq_dot_of_toLower hc, eq_dot_of_toLower hc'])
  all_goals
    rw [hat] at hencoded
    revert hencoded
    decide

section
variable {qt : QtText} {candidate : QString} {declaredPaths : List QString} {body : List Char} {segments : List QString}

section
variable (h : Accepted qt candidate declaredPaths body segments)
include h

private theorem Accepted.path_eq :
    (RoutePattern.splitQuery qt candidate).1.toList = slash :: body.takeWhile (· != questionMark) := by
  have htake : candidate.toList.takeWhile (· != questionMark) = slash :: body.takeWhile (· != questionMark) := by
    rw [h.rooted]
    rfl
  rw [RoutePattern.splitQuery]
  split
  · next hnone =>
    have hwhole := takeWhile_append_dropWhile (p := (· != questionMark)) (l := candidate.toList)
    rw [hnone, append_nil, htake] at hwhole
    exact hwhole.symm
  · rw [String.toList_ofList, htake]

theorem Accepted.parts :
    ∃ parts last, body.takeWhile (· != questionMark) = parts.flatMap (· ++ [slash]) ++ last ∧
      (∀ part ∈ parts ++ [last], (∀ c ∈ part, Url.isInner c = true) ∧ Url.isDots part = false) ∧
      segments.map String.toList = pathSegments (parts ++ [last]) := by
  obtain ⟨parts, last, hsplit, hjoin, hparts⟩ := exists_parts slash (body.takeWhile (· != questionMark))
  have hkept : splitKeepEmpty slash (RoutePattern.splitQuery qt candidate).1.toList = [] :: (parts ++ [last]) := by
    rw [h.path_eq, splitKeepEmpty, if_pos (beq_self_eq_true slash), splitKeepEmpty_eq, hsplit]
  refine ⟨parts, last, hjoin, fun part hpart => ⟨fun c hc => ?_, ?_⟩, ?_⟩
  · obtain ⟨hslash, hin⟩ := hparts part hpart
    have hmark := mem_takeWhile_imp (hin hc)
    have hbody : c ∈ candidate.toList := h.rooted ▸ mem_cons_of_mem _ (( takeWhile_prefix _).subset (hin hc))
    obtain ⟨-, hback, hhash⟩ := h.unwritten c hbody
    have hne : c ≠ slash := fun heq => hslash (heq ▸ hc)
    simp only [Url.isInner, Url.isSeparator, Bool.and_eq_true, Bool.not_eq_true', Bool.or_eq_false_iff,
      beq_eq_false_iff_ne, bne_iff_ne]
    exact ⟨⟨⟨hne, hback⟩, by simpa [questionMark] using hmark⟩, hhash⟩
  · apply isDots_of_safe
    have hsafe := h.safe
    rw [hasUnsafeSegment, hkept, any_cons, Bool.or_eq_false_iff, any_eq_false] at hsafe
    exact Bool.not_eq_true _ ▸ hsafe.2 part hpart
  · have hread := h.split
    have hdropped : (if (parts ++ [last]).getLast? == some [] then (parts ++ [last]).dropLast else parts ++ [last]) =
        pathSegments (parts ++ [last]) := rfl
    simp only [RoutePattern.splitPath, hkept, tail_cons, hdropped] at hread
    split at hread
    · split at hread
      · cases hread
      · cases hread
        simp
    · cases hread

end

variable (parts : List (List Char))

private theorem rdropWhile_parts (last : List Char) :
    (parts.flatMap (· ++ [slash]) ++ last).rdropWhile Url.isControlOrSpace =
      parts.flatMap (· ++ [slash]) ++ last.rdropWhile Url.isControlOrSpace := by
  induction parts with
  | nil => rfl
  | cons part parts ih =>
    rw [flatMap_cons, append_assoc, append_assoc, singleton_append,
      rdropWhile_append_of_last (by decide), ih, append_assoc, append_assoc, singleton_append]

/-- The last part, as the parser reads it: without the blanks at its end, unless a query stands behind it. -/
def readLast (body last : List Char) : List Char :=
  if questionMark ∈ body then last else last.rdropWhile Url.isControlOrSpace

theorem Accepted.trim_eq (h : Accepted qt candidate declaredPaths body segments) :
    (trim Url.isControlOrSpace candidate.toList).filter (!Url.isTabOrNewline ·) =
      slash :: body.rdropWhile Url.isControlOrSpace := by
  have hclean : (trim Url.isControlOrSpace candidate.toList).filter (!Url.isTabOrNewline ·) =
      trim Url.isControlOrSpace candidate.toList := by
    refine filter_eq_self.mpr fun c hc => ?_
    have hprints := (h.unwritten c (mem_of_mem_trim hc)).1
    simp only [Url.isTabOrNewline, Bool.not_eq_true', Bool.or_eq_false_iff, beq_eq_false_iff_ne]
    refine ⟨⟨?_, ?_⟩, ?_⟩ <;> rintro rfl <;> exact hprints (by decide)
  have hfirst : Url.isControlOrSpace slash = false := by decide
  have hback : ([] ++ slash :: body).rdropWhile Url.isControlOrSpace = [] ++ slash :: body.rdropWhile Url.isControlOrSpace :=
    rdropWhile_append_of_last hfirst
  rw [hclean, trim, h.rooted, dropWhile_cons_of_neg (by rw [hfirst]; exact Bool.false_ne_true)]
  exact hback

variable {last : List Char}

private theorem rdropWhile_body {parts : List (List Char)} (hjoin : body.takeWhile (· != questionMark) = parts.flatMap (· ++ [slash]) ++ last) :
    ∃ more, body.rdropWhile Url.isControlOrSpace = parts.flatMap (· ++ [slash]) ++ readLast body last ++ more ∧
      (more = [] ∨ ∃ query, more = questionMark :: query) := by
  have hwhole := takeWhile_append_dropWhile (p := (· != questionMark)) (l := body)
  cases hafter : body.dropWhile (· != questionMark) with
  | nil =>
    have hmark : questionMark ∉ body := fun hmark => absurd (dropWhile_eq_nil_iff.mp hafter _ hmark) (by simp)
    refine ⟨[], ?_, .inl rfl⟩
    rw [hafter, append_nil] at hwhole
    conv_lhs => rw [← hwhole, hjoin, rdropWhile_parts]
    rw [readLast, if_neg hmark, append_nil]
  | cons c query =>
    have hfirst := List.head?_dropWhile_not (· != questionMark) body
    rw [hafter] at hfirst
    obtain rfl : c = questionMark := by simpa using hfirst
    have hmark : questionMark ∈ body := (dropWhile_suffix _).subset (hafter ▸ mem_cons_self)
    refine ⟨questionMark :: query.rdropWhile Url.isControlOrSpace, ?_, .inr ⟨_, rfl⟩⟩
    conv_lhs => rw [← hwhole, hafter]
    rw [rdropWhile_append_of_last (by decide), hjoin, readLast, if_pos hmark]

private theorem getLast?_parts : (slash :: parts.flatMap (· ++ [slash])).getLast? = some slash := by
  obtain rfl | ⟨parts, part, rfl⟩ := eq_nil_or_concat' parts
  · rfl
  · rw [flatMap_append, flatMap_singleton, ← append_assoc, ← cons_append]
    exact List.getLast?_concat

/-- The last part is read as it stands exactly where no blank ends the path, or a query stands behind it. -/
theorem Accepted.readLast_eq_iff (h : Accepted qt candidate declaredPaths body segments) {parts : List (List Char)} (hjoin : body.takeWhile (· != questionMark) = parts.flatMap (· ++ [slash]) ++ last) :
    readLast body last = last ↔ ¬ (candidate.toList.getLast? = some ' ' ∧ questionMark ∉ candidate.toList) := by
  have hmem : questionMark ∈ candidate.toList ↔ questionMark ∈ body := by
    rw [h.rooted, mem_cons, or_iff_right (by decide)]
  rw [readLast, hmem]
  by_cases hmark : questionMark ∈ body
  · simp [hmark]
  · have hwhole : body.takeWhile (· != questionMark) = body :=
      takeWhile_eq_self_iff.mpr fun c hc => bne_iff_ne.mpr fun heq => hmark (heq ▸ hc)
    rw [hwhole] at hjoin
    rw [if_neg hmark, h.rooted, hjoin]
    simp only [← hjoin, hmark, not_false_eq_true, and_true]
    obtain rfl | ⟨front, c, rfl⟩ := eq_nil_or_concat' last
    · rw [hjoin, append_nil, getLast?_parts]
      simp [slash]
    · have hprints : ¬ c.toNat < 0x20 := by
        refine (h.unwritten c ?_).1
        rw [h.rooted, hjoin]
        simp
      have hblank : Url.isControlOrSpace c = true ↔ c = ' ' := by
        rw [Url.isControlOrSpace, decide_eq_true_eq, ← Char.toNat_inj]
        have hspace : ' '.toNat = 0x20 := rfl
        omega
      have hlast : (slash :: body).getLast? = some c := by
        rw [hjoin, ← append_assoc, ← cons_append]
        exact List.getLast?_concat
      rw [rdropWhile_eq_self_iff, hlast]
      simp [hblank]

private theorem pathSegments_concat (front : List (List Char)) (last : List Char) :
    pathSegments (front ++ [last]) = if last = [] then front else front ++ [last] := by
  simp [pathSegments]

private theorem pathSegments_ne {parts : List (List Char)} {cut blanks : List Char} (hblanks : blanks ≠ []) :
    pathSegments (Url.endSegment (parts.map (Url.encode Url.inPathSet)) (Url.encode Url.inPathSet cut) false) ≠
      (pathSegments (parts ++ [cut ++ blanks])).map (Url.encode Url.inPathSet) := by
  have hwhole : (pathSegments (parts ++ [cut ++ blanks])).map (Url.encode Url.inPathSet) =
      parts.map (Url.encode Url.inPathSet) ++ [Url.encode Url.inPathSet (cut ++ blanks)] := by
    rw [pathSegments_concat, if_neg (by simp [hblanks]), map_append, map_singleton]
  have hshort {shorter : List (List Char)} (hle : shorter.length ≤ parts.length) :
      shorter ≠ parts.map (Url.encode Url.inPathSet) ++ [Url.encode Url.inPathSet (cut ++ blanks)] := by
    rintro rfl
    simp at hle
  rw [hwhole, Url.endSegment]
  simp only [Bool.false_eq_true, if_false]
  split
  · rw [pathSegments_concat, if_pos rfl]
    exact hshort (by simp)
  split
  · rw [pathSegments_concat, if_pos rfl]
    exact hshort (by simp)
  · rw [pathSegments_concat]
    split
    · exact hshort (by simp)
    · rw [Url.encode_append]
      intro hsame
      have hlast := append_cancel_left hsame
      simp [Url.encode_eq_nil, hblanks] at hlast

private theorem pathSegments_eq (hplain : Url.isDots last = false) :
    pathSegments (Url.endSegment (parts.map (Url.encode Url.inPathSet)) (Url.encode Url.inPathSet last) false) =
      (pathSegments (parts ++ [last])).map (Url.encode Url.inPathSet) := by
  have hencoded : Url.isDots (Url.encode Url.inPathSet last) = false := by
    rw [← Bool.not_eq_true] at hplain ⊢
    exact fun hdots => hplain (Url.isDots_encode hdots)
  rw [Url.endSegment_plain _ hencoded, pathSegments_concat, pathSegments_concat]
  by_cases hnone : last = []
  · rw [if_pos (Url.encode_eq_nil.mpr hnone), if_pos hnone]
  · rw [if_neg (mt Url.encode_eq_nil.mp hnone), if_neg hnone, map_append, map_singleton]

end

end ResumePath

/-- The URL is of the origin, and its path is the segments, each percent-encoded. -/
structure LeadsTo {A : Type} (base url : Url A) (segments : List QString) : Prop where
  scheme : url.scheme = base.scheme
  authority : url.authority = base.authority
  path : pathSegments url.path = segments.map fun segment => Url.encode Url.inPathSet segment.toList

/-- A path that is accepted stays on the origin it is followed from, whatever that is. It leads to the
segments that the route table matched exactly where no blank ends its path without a query behind it. -/
theorem resume_stays_iff {qt : QtText} {candidate : QString} {declaredPaths : List QString}
    (h : ResumePath.isAcceptable qt candidate declaredPaths = true) :
    ∃ segments, RoutePattern.splitPath (RoutePattern.splitQuery qt candidate).1 = some segments ∧
      (∃ declared ∈ declaredPaths, ((RoutePattern.make qt declared).matchesSegments qt segments).isSome = true) ∧
      ∀ (A : Type) (elsewhere : List Char → Option (Url A)) (base : Url A),
        ∃ url, Url.parse elsewhere base candidate.toList = some url ∧
          url.scheme = base.scheme ∧ url.authority = base.authority ∧
          (LeadsTo base url segments ↔ ¬ (candidate.toList.getLast? = some ' ' ∧ questionMark ∉ candidate.toList)) := by
  obtain ⟨body, segments, haccepted⟩ := ResumePath.isAcceptable_elim h
  obtain ⟨parts, last, hjoin, hparts, hsegments⟩ := haccepted.parts
  obtain ⟨more, hbody, hmore⟩ := ResumePath.rdropWhile_body hjoin
  refine ⟨segments, haccepted.split, haccepted.declared, fun A elsewhere base => ?_⟩
  have hlast := hparts last (mem_append_right parts mem_cons_self)
  have hread : ∀ c ∈ ResumePath.readLast body last, Url.isInner c = true := by
    intro c hc
    rw [ResumePath.readLast] at hc
    split at hc
    · exact hlast.1 c hc
    · exact hlast.1 c (( rdropWhile_prefix _ _).subset hc)
  have hrooted : (body.rdropWhile Url.isControlOrSpace).head?.any Url.isSeparator = false := by
    obtain ⟨behind, hprefix⟩ := rdropWhile_prefix (p := Url.isControlOrSpace) (l := body)
    cases hkept : body.rdropWhile Url.isControlOrSpace with
    | nil => rfl
    | cons c rest =>
      have hbegins : body = c :: (rest ++ behind) := by rw [← hprefix, hkept, cons_append]
      have hslash : c ≠ '/' := fun heq => haccepted.relative (by rw [hbegins, heq]; rfl)
      have hback : c ≠ '\\' := (haccepted.unwritten c (by rw [haccepted.rooted, hbegins]; simp)).2.1
      simp [Url.isSeparator, hslash, hback]
  obtain ⟨url, hparse, hscheme, hauthority, hpath⟩ := Url.parse_rooted elsewhere base parts (ResumePath.readLast body last)
    (haccepted.trim_eq.trans (congrArg (slash :: ·) hbody)) (hbody ▸ hrooted)
    (fun part hpart => (hparts part (mem_append_left _ hpart)).1) hread
    (fun part hpart => (hparts part (mem_append_left _ hpart)).2) hmore
  have hmatched : (segments.map fun segment => Url.encode Url.inPathSet segment.toList) =
      (pathSegments (parts ++ [last])).map (Url.encode Url.inPathSet) := by
    rw [← hsegments, map_map]
    rfl
  refine ⟨url, hparse, hscheme, hauthority, ?_⟩
  rw [← haccepted.readLast_eq_iff hjoin]
  constructor
  · intro hleads
    by_contra hcut
    have hpaths := hleads.path
    rw [hpath, hmatched] at hpaths
    rw [ResumePath.readLast] at hcut hpaths
    split at hcut
    · exact hcut rfl
    · next hmark =>
      rw [if_neg hmark] at hpaths
      obtain ⟨blanks, -, hwhole⟩ := exists_rdropWhile_append Url.isControlOrSpace last
      have hblanks : blanks ≠ [] := by
        rintro rfl
        rw [append_nil] at hwhole
        exact hcut hwhole.symm
      have hne := @ResumePath.pathSegments_ne parts (last.rdropWhile Url.isControlOrSpace) blanks hblanks
      rw [← hwhole] at hne
      exact hne hpaths
  · intro hwhole
    refine ⟨hscheme, hauthority, ?_⟩
    rw [hpath, hmatched, hwhole]
    exact ResumePath.pathSegments_eq parts hlast.2

def shop : Url String := ⟨"https".toList, "shop.example", [[]], none, none⟩

theorem resume_stays_iff_campaign :
    ∃ segments, RoutePattern.splitPath (RoutePattern.splitQuery Router.plainClient.qt "/c/summer").1 = some segments ∧
      (∃ declared ∈ ["/c/:campaign"], ((RoutePattern.make Router.plainClient.qt declared).matchesSegments
        Router.plainClient.qt segments).isSome = true) ∧
      ∀ (A : Type) (elsewhere : List Char → Option (Url A)) (base : Url A),
        ∃ url, Url.parse elsewhere base "/c/summer".toList = some url ∧
          url.scheme = base.scheme ∧ url.authority = base.authority ∧
          (LeadsTo base url segments ↔ ¬ ("/c/summer".toList.getLast? = some ' ' ∧ questionMark ∉ "/c/summer".toList)) :=
  resume_stays_iff (by decide +kernel)

/-- A blank after two dots: the path is accepted as a campaign's, and leads to the entry page. -/
theorem blank_behind_dots :
    ResumePath.isAcceptable Router.plainClient.qt "/c/.. " ["/c/:campaign"] = true ∧
      RoutePattern.splitPath "/c/.. " = some ["c", ".. "] ∧
      (Url.parse (fun _ => none) shop "/c/.. ".toList).map (·.path) = some [[]] ∧
      ¬ ∃ url, Url.parse (fun _ => none) shop "/c/.. ".toList = some url ∧ LeadsTo shop url ["c", ".. "] := by
  have hread : (Url.parse (fun _ => none) shop "/c/.. ".toList).map (·.path) = some [[]] := by decide +kernel
  refine ⟨by decide +kernel, by decide +kernel, hread, ?_⟩
  rintro ⟨url, hparse, hleads⟩
  rw [hparse, Option.map_some, Option.some.injEq] at hread
  have hpath := hleads.path
  rw [hread] at hpath
  revert hpath
  decide +kernel

end SynQt
