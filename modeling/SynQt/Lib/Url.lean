import Mathlib.Data.List.Infix
import Mathlib.Tactic.IntervalCases
import SynQt.Lib.Words

/-! The URL standard's parser, for a reference that is read against a base with a special scheme. What a
text that names a scheme or a host of its own is parsed to is left open. -/
namespace SynQt.Lib
open List

/-- A URL whose path is a list. Its username, password, host and port are of any type. -/
structure Url (A : Type) where
  scheme : List Char
  authority : A
  path : List (List Char)
  query : Option (List Char)
  fragment : Option (List Char)

namespace Url

/-- The bytes of a character in UTF-8. -/
def utf8 (c : Char) : List Nat :=
  let n := c.toNat
  if n < 0x80 then [n]
  else if n < 0x800 then [0xC0 + n / 0x40, 0x80 + n % 0x40]
  else if n < 0x10000 then [0xE0 + n / 0x1000, 0x80 + n / 0x40 % 0x40, 0x80 + n % 0x40]
  else [0xF0 + n / 0x40000, 0x80 + n / 0x1000 % 0x40, 0x80 + n / 0x40 % 0x40, 0x80 + n % 0x40]

def hexDigit (n : Nat) : Char := if n < 10 then Char.ofNat (0x30 + n) else Char.ofNat (0x41 + (n - 10))

def percentEncodeByte (byte : Nat) : List Char := ['%', hexDigit (byte / 16), hexDigit (byte % 16)]

def inC0ControlSet (c : Char) : Bool := c.toNat ≤ 0x1F || 0x7E < c.toNat

def inFragmentSet (c : Char) : Bool := inC0ControlSet c || [' ', '"', '<', '>', '`'].contains c

def inQuerySet (c : Char) : Bool := inC0ControlSet c || [' ', '"', '#', '<', '>'].contains c

def inSpecialQuerySet (c : Char) : Bool := inQuerySet c || c == '\''

def inPathSet (c : Char) : Bool := inQuerySet c || ['?', '^', '`', '{', '}'].contains c

def encodeChar (encodes : Char → Bool) (c : Char) : List Char :=
  if encodes c then (utf8 c).flatMap percentEncodeByte else [c]

def encode (encodes : Char → Bool) (text : List Char) : List Char := text.flatMap (encodeChar encodes)

def isControlOrSpace (c : Char) : Bool := c.toNat ≤ 0x20

def isTabOrNewline (c : Char) : Bool := c == '\t' || c == '\n' || c == '\r'

def lower (text : List Char) : List Char := text.map Char.toLower

def isSingleDot (segment : List Char) : Bool := [".".toList, "%2e".toList].contains (lower segment)

def isDoubleDot (segment : List Char) : Bool :=
  ["..".toList, ".%2e".toList, "%2e.".toList, "%2e%2e".toList].contains (lower segment)

/-- A special scheme's paths are separated by a backslash as well. -/
def isSeparator (c : Char) : Bool := c == '/' || c == '\\'

/-- The path once a segment has ended, at a separator or not. -/
def endSegment (path : List (List Char)) (segment : List Char) (separator : Bool) : List (List Char) :=
  if isDoubleDot segment then path.dropLast ++ (if separator then [] else [[]])
  else if isSingleDot segment then path ++ (if separator then [] else [[]])
  else path ++ [segment]

section
variable {A : Type}

def fragmentFrom (url : Url A) (text : List Char) : Url A := { url with fragment := some (encode inFragmentSet text) }

def queryFrom (url : Url A) (text : List Char) : Url A :=
  let query := text.takeWhile (· != '#')
  let url := { url with query := some (encode inSpecialQuerySet query) }
  match text.drop query.length with
  | [] => url
  | _ :: rest => fragmentFrom url rest

/-- The path state, with the segment that is being read. -/
def pathFrom (url : Url A) (buffer : List Char) : List Char → Url A
  | [] => { url with path := endSegment url.path buffer false }
  | c :: rest =>
    if isSeparator c then pathFrom { url with path := endSegment url.path buffer true } [] rest
    else if c == '?' then queryFrom { url with path := endSegment url.path buffer false } rest
    else if c == '#' then fragmentFrom { url with path := endSegment url.path buffer false } rest
    else pathFrom url (buffer ++ encodeChar inPathSet c) rest

def namesScheme (text : List Char) : Bool :=
  text.head?.any Char.isAlpha &&
    (text.dropWhile fun c => c.isAlphanum || c == '+' || c == '-' || c == '.').head? == some ':'

/-- A reference read against a base with a special scheme other than `file`. -/
def parse (elsewhere : List Char → Option (Url A)) (base : Url A) (input : List Char) : Option (Url A) :=
  let text := (trim isControlOrSpace input).filter (!isTabOrNewline ·)
  if namesScheme text then elsewhere text
  else match text with
    | [] => some { base with fragment := none }
    | '?' :: rest => some (queryFrom { base with fragment := none } rest)
    | '#' :: rest => some (fragmentFrom base rest)
    | first :: rest =>
      if isSeparator first then
        if rest.head?.any isSeparator then elsewhere text
        else some (pathFrom { base with path := [], query := none, fragment := none } [] rest)
      else some (pathFrom { base with path := base.path.dropLast, query := none, fragment := none } [] text)

end

theorem encode_append (encodes : Char → Bool) (text more : List Char) :
    encode encodes (text ++ more) = encode encodes text ++ encode encodes more := flatMap_append

private theorem encodeChar_ne_nil (encodes : Char → Bool) (c : Char) : encodeChar encodes c ≠ [] := by
  rw [encodeChar]
  split
  · rw [utf8]
    split_ifs <;> simp [percentEncodeByte]
  · exact cons_ne_nil _ _

theorem encode_eq_nil {encodes : Char → Bool} {text : List Char} : encode encodes text = [] ↔ text = [] := by
  rw [encode, flatMap_eq_nil_iff]
  constructor
  · intro hall
    refine eq_nil_iff_forall_not_mem.mpr fun c hc => ?_
    exact encodeChar_ne_nil encodes c (hall c hc)
  · rintro rfl
    simp

private theorem hexDigit_lower {n : Nat} (h : n < 16) : ((hexDigit n).toLower = '2' → n = 2) ∧ ((hexDigit n).toLower = 'e' → n = 14) := by
  interval_cases n <;> decide

/-- The first byte of an encoded character is not a dot's. -/
theorem utf8_apart {c : Char} (h : inPathSet c = true) : ∃ byte rest, utf8 c = byte :: rest ∧ byte < 0x100 ∧ byte ≠ 0x2E := by
  have hmax : c.toNat < 0x110000 := by
    have hvalid := c.valid
    simp only [UInt32.isValidChar, Nat.isValidChar] at hvalid
    exact hvalid.elim (fun hlow => Nat.lt_trans hlow (by decide)) And.right
  simp only [utf8]
  split_ifs
  · refine ⟨_, _, rfl, by omega, fun hdot => ?_⟩
    have hc : c = '.' := Char.toNat_inj.mp hdot
    subst hc
    revert h
    decide
  · exact ⟨_, _, rfl, by omega, by omega⟩
  · exact ⟨_, _, rfl, by omega, by omega⟩
  · exact ⟨_, _, rfl, by omega, by omega⟩

/-- What an encoded character is written as does not begin as an encoded dot. -/
theorem encodeChar_apart {c : Char} (h : inPathSet c = true) :
    ∃ first second rest, encodeChar inPathSet c = '%' :: first :: second :: rest ∧
      ¬ (first.toLower = '2' ∧ second.toLower = 'e') := by
  obtain ⟨byte, rest, hutf8, hlt, hdot⟩ := utf8_apart h
  refine ⟨hexDigit (byte / 16), hexDigit (byte % 16), rest.flatMap percentEncodeByte, ?_, ?_⟩
  · rw [encodeChar, if_pos h, hutf8]
    rfl
  · rintro ⟨hfirst, hsecond⟩
    have hhigh := (hexDigit_lower (n := byte / 16) (by omega)).1 hfirst
    have hlow := (hexDigit_lower (n := byte % 16) (by omega)).2 hsecond
    omega

/-- A single or a double dot, in one of its spellings. -/
def isDots (segment : List Char) : Bool := isSingleDot segment || isDoubleDot segment

/-- In a spelling of dots every percent sign is an encoded dot's. -/
theorem dots_tails : ∀ spelling ∈ [".".toList, "%2e".toList, "..".toList, ".%2e".toList, "%2e.".toList, "%2e%2e".toList],
    ∀ tail ∈ spelling.tails, tail.head? = some '%' → (tail.drop 1).take 2 = ['2', 'e'] := by decide

theorem isDots_iff (segment : List Char) : isDots segment = true ↔
    lower segment ∈ [".".toList, "%2e".toList, "..".toList, ".%2e".toList, "%2e.".toList, "%2e%2e".toList] := by
  simp only [isDots, isSingleDot, isDoubleDot, Bool.or_eq_true, contains_eq_mem, decide_eq_true_eq, mem_cons,
    not_mem_nil, or_false, or_assoc]

/-- Dots are not written by encoding something else. -/
theorem isDots_encode {segment : List Char} (h : isDots (encode inPathSet segment) = true) : isDots segment = true := by
  have hnone : ∀ c ∈ segment, inPathSet c = false := by
    intro c hc
    by_contra hin
    rw [Bool.not_eq_false] at hin
    obtain ⟨front, back, rfl⟩ := append_of_mem hc
    obtain ⟨first, second, rest, hwritten, hapart⟩ := encodeChar_apart hin
    have hsuffix : lower ('%' :: first :: second :: (rest ++ encode inPathSet back)) <:+
        lower (encode inPathSet (front ++ c :: back)) := by
      refine ⟨lower (encode inPathSet front), ?_⟩
      rw [lower, lower, lower, ← map_append, encode_append]
      congr 1
      rw [encode, encode, encode, flatMap_cons, hwritten]
      rfl
    have hdots := dots_tails _ ((isDots_iff _).mp h) _ ((mem_tails _ _).mpr hsuffix) rfl
    simp only [lower, map_cons, drop_succ_cons, drop_zero, take_succ_cons, take_zero,
      List.cons.injEq, and_true] at hdots
    exact hapart hdots
  have hsame : encode inPathSet segment = segment := by
    rw [encode]
    conv_rhs => rw [← flatMap_singleton' segment]
    exact flatMap_congr fun c hc => by rw [encodeChar, hnone c hc, if_neg Bool.false_ne_true]
  exact hsame ▸ h

section
variable {A : Type}

def isInner (c : Char) : Bool := !isSeparator c && c != '?' && c != '#'

variable {text : List Char}

private theorem pathFrom_inner (url : Url A) (buffer : List Char) (h : ∀ c ∈ text, isInner c = true)
    (more : List Char) : pathFrom url buffer (text ++ more) = pathFrom url (buffer ++ encode inPathSet text) more := by
  induction text generalizing buffer with
  | nil => simp [encode]
  | cons c text ih =>
    obtain ⟨hc, htext⟩ := forall_mem_cons.mp h
    simp only [isInner, Bool.and_eq_true, Bool.not_eq_true', bne_iff_ne, ne_eq] at hc
    obtain ⟨⟨hseparator, hquery⟩, hfragment⟩ := hc
    rw [cons_append, pathFrom, hseparator, if_neg Bool.false_ne_true, if_neg (by simpa using hquery),
      if_neg (by simpa using hfragment), ih _ htext, encode, encode, flatMap_cons, append_assoc]

theorem endSegment_plain (path : List (List Char)) {segment : List Char} (h : isDots segment = false) (separator : Bool) :
    endSegment path segment separator = path ++ [segment] := by
  rw [isDots, Bool.or_eq_false_iff] at h
  rw [endSegment, h.1, h.2, if_neg Bool.false_ne_true, if_neg Bool.false_ne_true]

/-- Segments without dots are taken up one by one, as they are written. -/
theorem pathFrom_segments (url : Url A) (segments : List (List Char)) (h : ∀ segment ∈ segments, ∀ c ∈ segment, isInner c = true)
    (hplain : ∀ segment ∈ segments, isDots segment = false) (more : List Char) :
    pathFrom url [] (segments.flatMap (· ++ ['/']) ++ more) =
      pathFrom { url with path := url.path ++ segments.map (encode inPathSet) } [] more := by
  induction segments generalizing url with
  | nil => simp
  | cons segment segments ih =>
    obtain ⟨hinner, hinners⟩ := forall_mem_cons.mp h
    obtain ⟨hsegment, hsegments⟩ := forall_mem_cons.mp hplain
    have hencoded : isDots (encode inPathSet segment) = false := by
      rw [← Bool.not_eq_true] at hsegment ⊢
      exact fun hdots => hsegment (isDots_encode hdots)
    rw [flatMap_cons, append_assoc, append_assoc, pathFrom_inner url [] hinner, nil_append,
      singleton_append, pathFrom, if_pos (by rfl), endSegment_plain _ hencoded, ih _ hinners hsegments]
    simp

/-- The end of the path: a query follows, or nothing does. -/
theorem pathFrom_end (url : Url A) (buffer : List Char) {more : List Char} (h : more = [] ∨ ∃ query, more = '?' :: query) :
    (pathFrom url buffer more).path = endSegment url.path buffer false ∧
      (pathFrom url buffer more).scheme = url.scheme ∧ (pathFrom url buffer more).authority = url.authority := by
  rcases h with rfl | ⟨query, rfl⟩
  · exact ⟨rfl, rfl, rfl⟩
  · rw [pathFrom, if_neg (by decide), if_pos (by decide), queryFrom]
    dsimp only
    split <;> exact ⟨rfl, rfl, rfl⟩

variable (elsewhere : List Char → Option (Url A))

private theorem parse_slash (base : Url A) {input text : List Char}
    (htext : (trim isControlOrSpace input).filter (!isTabOrNewline ·) = '/' :: text)
    (hrooted : text.head?.any isSeparator = false) :
    parse elsewhere base input = some (pathFrom { base with path := [], query := none, fragment := none } [] text) := by
  have hread : parse elsewhere base input = if namesScheme ('/' :: text) then elsewhere ('/' :: text)
      else if text.head?.any isSeparator then elsewhere ('/' :: text)
      else some (pathFrom { base with path := [], query := none, fragment := none } [] text) := by
    rw [parse, htext]
    rfl
  rw [hread, hrooted, if_neg Bool.false_ne_true, if_neg]
  exact Bool.false_ne_true

/-- A text that is rooted at one slash stays where the base is, and its path is the segments after the
slash, each encoded, where none but the last is of dots. -/
theorem parse_rooted (base : Url A) {input more : List Char}
    (segments : List (List Char)) (last : List Char)
    (htext : (trim isControlOrSpace input).filter (!isTabOrNewline ·) = '/' :: (segments.flatMap (· ++ ['/']) ++ last ++ more))
    (hrooted : (segments.flatMap (· ++ ['/']) ++ last ++ more).head?.any isSeparator = false)
    (hinner : ∀ segment ∈ segments, ∀ c ∈ segment, isInner c = true) (hlast : ∀ c ∈ last, isInner c = true)
    (hplain : ∀ segment ∈ segments, isDots segment = false) (hmore : more = [] ∨ ∃ query, more = '?' :: query) :
    ∃ url, parse elsewhere base input = some url ∧ url.scheme = base.scheme ∧ url.authority = base.authority ∧
      url.path = endSegment (segments.map (encode inPathSet)) (encode inPathSet last) false := by
  have hread : parse elsewhere base input = some (pathFrom
      { base with path := segments.map (encode inPathSet), query := none, fragment := none } (encode inPathSet last) more) := by
    rw [parse_slash elsewhere base htext hrooted, append_assoc, pathFrom_segments _ _ hinner hplain,
      pathFrom_inner _ _ hlast]
    simp
  obtain ⟨hpath, hscheme, hauthority⟩ := pathFrom_end
    { base with path := segments.map (encode inPathSet), query := none, fragment := none } (encode inPathSet last) hmore
  exact ⟨_, hread, hscheme, hauthority, hpath⟩

def pathname (url : Url A) : List Char := url.path.flatMap ('/' :: ·)

def search (url : Url A) : List Char :=
  match url.query with
  | none => []
  | some query => if query.isEmpty then [] else '?' :: query

def IsPlainSegment (segment : List Char) : Prop := (∀ c ∈ segment, isInner c = true ∧ inPathSet c = false) ∧ isDots segment = false

private theorem encode_plain {encodes : Char → Bool} (h : ∀ c ∈ text, encodes c = false) : encode encodes text = text := by
  rw [encode]
  conv_rhs => rw [← flatMap_singleton' text]
  exact flatMap_congr fun c hc => by rw [encodeChar, h c hc, if_neg Bool.false_ne_true]

private theorem trim_eq_self {p : Char → Bool} (h : ∀ c ∈ text, p c = false) : trim p text = text := by
  have hdrop : text.dropWhile p = text := by
    cases text with
    | nil => rfl
    | cons c text => rw [dropWhile_cons_of_neg (Bool.eq_false_iff.mp (h c mem_cons_self))]
  rw [trim, hdrop]
  exact rdropWhile_eq_self_iff.mpr fun hne => Bool.eq_false_iff.mp (h _ (getLast_mem hne))

theorem slashed (parts : List (List Char)) (last : List Char) :
    (parts ++ [last]).flatMap ('/' :: ·) = '/' :: (parts.flatMap (· ++ ['/']) ++ last) := by
  induction parts with
  | nil => rw [nil_append, flatMap_singleton, flatMap_nil, nil_append]
  | cons part parts ih =>
    rw [cons_append, flatMap_cons, ih, flatMap_cons]
    simp only [cons_append, append_assoc, nil_append]

private theorem pathFrom_written (url : Url A) (last : List Char) {more : List Char} (hlast : isDots last = false)
    (hmore : more = [] ∨ ∃ query, query ≠ [] ∧ more = '?' :: query ∧ ∀ c ∈ query, inSpecialQuerySet c = false)
    (hquery : url.query = none) :
    (pathFrom url last more).scheme = url.scheme ∧ (pathFrom url last more).authority = url.authority ∧
      (pathFrom url last more).pathname = (url.path ++ [last]).flatMap ('/' :: ·) ∧ (pathFrom url last more).search = more := by
  obtain rfl | ⟨query, hne, rfl, hplain⟩ := hmore
  · rw [pathFrom, endSegment_plain _ hlast, pathname, search, hquery]
    exact ⟨rfl, rfl, rfl, rfl⟩
  · have hall : query.takeWhile (· != '#') = query := by
      rw [takeWhile_eq_self_iff]
      intro c hc
      rw [bne_iff_ne]
      rintro rfl
      exact Bool.false_ne_true ((hplain '#' hc).symm.trans (by decide))
    rw [pathFrom, if_neg (by decide), if_pos (by decide), queryFrom, endSegment_plain _ hlast]
    dsimp only
    rw [hall, drop_length]
    refine ⟨rfl, rfl, rfl, ?_⟩
    rw [search]
    dsimp only
    rw [encode_plain hplain, isEmpty_eq_false_iff.mpr hne, if_neg Bool.false_ne_true]

/-- An address that is rooted at one slash, made of plain segments and of a plain query if it has one, is read as it
stands. -/
theorem parse_written (base : Url A) {parts : List (List Char)} {last more : List Char}
    (hparts : ∀ part ∈ parts ++ [last], IsPlainSegment part) (hrooted : (parts ++ [last]).head? = some [] → parts = [])
    (hmore : more = [] ∨ ∃ query, query ≠ [] ∧ more = '?' :: query ∧ ∀ c ∈ query, inSpecialQuerySet c = false) :
    ∃ url, parse elsewhere base ('/' :: (parts.flatMap (· ++ ['/']) ++ last ++ more)) = some url ∧ url.scheme = base.scheme ∧
      url.authority = base.authority ∧ url.pathname ++ url.search = '/' :: (parts.flatMap (· ++ ['/']) ++ last ++ more) := by
  have hpath {c : Char} (hc : inPathSet c = false) : inC0ControlSet c = false ∧ c ≠ ' ' := by
    simp only [inPathSet, inQuerySet, Bool.or_eq_false_iff] at hc
    exact ⟨hc.1.1, fun hspace => by rw [hspace] at hc; exact absurd hc.1.2 (by decide)⟩
  have hchars : ∀ c ∈ '/' :: (parts.flatMap (· ++ ['/']) ++ last ++ more), inC0ControlSet c = false ∧ c ≠ ' ' := by
    have hsegment : ∀ part ∈ parts ++ [last], ∀ c ∈ part, inC0ControlSet c = false ∧ c ≠ ' ' :=
      fun part hpart c hc => hpath ((hparts part hpart).1 c hc).2
    intro c hc
    obtain rfl | hc := mem_cons.mp hc
    · decide
    obtain hc | hc := mem_append.mp hc
    · obtain hc | hc := mem_append.mp hc
      · obtain ⟨part, hpart, hc⟩ := mem_flatMap.mp hc
        obtain hc | hc := mem_append.mp hc
        · exact hsegment part (mem_append_left _ hpart) c hc
        · rw [mem_singleton.mp hc]
          decide
      · exact hsegment last (by simp) c hc
    · obtain rfl | ⟨query, -, rfl, hplain⟩ := hmore
      · cases hc
      · obtain rfl | hc := mem_cons.mp hc
        · decide
        · have hquery := hplain c hc
          simp only [inSpecialQuerySet, inQuerySet, Bool.or_eq_false_iff] at hquery
          exact ⟨hquery.1.1, fun hspace => by rw [hspace] at hquery; exact absurd hquery.1.2 (by decide)⟩
  have hread : ∀ c ∈ '/' :: (parts.flatMap (· ++ ['/']) ++ last ++ more), isControlOrSpace c = false ∧ isTabOrNewline c = false := by
    intro c hc
    obtain ⟨hcontrol, hspace⟩ := hchars c hc
    rw [inC0ControlSet, Bool.or_eq_false_iff, decide_eq_false_iff_not, Nat.not_le] at hcontrol
    have hne : c.toNat ≠ 0x20 := fun heq => hspace (Char.toNat_inj.mp heq)
    rw [isControlOrSpace, decide_eq_false_iff_not, Nat.not_le]
    refine ⟨by omega, ?_⟩
    rw [← Bool.not_eq_true, isTabOrNewline]
    intro htab
    have hlow : c.toNat < 0x20 := by
      simp only [Bool.or_eq_true, beq_iff_eq] at htab
      obtain (rfl | rfl) | rfl := htab <;> decide
    omega
  have htext : (trim isControlOrSpace ('/' :: (parts.flatMap (· ++ ['/']) ++ last ++ more))).filter (!isTabOrNewline ·) =
      '/' :: (parts.flatMap (· ++ ['/']) ++ last ++ more) := by
    rw [trim_eq_self fun c hc => (hread c hc).1, filter_eq_self]
    exact fun c hc => by rw [(hread c hc).2]; rfl
  have hinner : ∀ part ∈ parts ++ [last], ∀ c ∈ part, isInner c = true := fun part hpart c hc => ((hparts part hpart).1 c hc).1
  have hfirst : (parts.flatMap (· ++ ['/']) ++ last ++ more).head?.any isSeparator = false := by
    have hseparator {c : Char} (hc : isInner c = true) : isSeparator c = false := by
      simp only [isInner, Bool.and_eq_true, Bool.not_eq_true'] at hc
      exact hc.1.1
    have hlast : (last ++ more).head?.any isSeparator = false := by
      cases last with
      | nil =>
        obtain rfl | ⟨query, -, rfl, -⟩ := hmore
        · rfl
        · rfl
      | cons c last => exact hseparator (hinner (c :: last) (by simp) c mem_cons_self)
    cases parts with
    | nil => exact hlast
    | cons part parts =>
      cases part with
      | nil => exact absurd (hrooted rfl) (by simp)
      | cons c part => exact hseparator (hinner (c :: part) (by simp) c mem_cons_self)
  have hdots : isDots last = false := (hparts last (by simp)).2
  have hplain {segment : List Char} (h : IsPlainSegment segment) : encode inPathSet segment = segment :=
    encode_plain fun c hc => (h.1 c hc).2
  have hsame : parts.map (encode inPathSet) = parts := by
    conv_rhs => rw [← map_id parts]
    exact map_congr_left fun part hpart => hplain (hparts part (mem_append_left _ hpart))
  obtain ⟨hscheme, hauthority, hpathname, hsearch⟩ := pathFrom_written
    { base with path := parts, query := none, fragment := none } last hdots hmore rfl
  refine ⟨pathFrom { base with path := parts, query := none, fragment := none } last more, ?_, hscheme, hauthority, ?_⟩
  · rw [parse_slash elsewhere base htext hfirst, append_assoc,
      pathFrom_segments _ _ (fun part hpart => hinner part (mem_append_left _ hpart))
        (fun part hpart => (hparts part (mem_append_left _ hpart)).2),
      pathFrom_inner _ _ (hinner last (by simp)), hsame, hplain (hparts last (by simp))]
    simp only [nil_append]
  · rw [hpathname, hsearch, slashed]
    rfl

end
end Url
end SynQt.Lib
