import SynQt.Lib.IllFormed
import SynQt.Client.PaletteCursor
import SynQt.Tools.ScanPieces
import SynQt.Tools.SchemaSteps

/-! The modules a delivered page seems to import: a pattern over the lines of its file. -/
namespace SynQt.PageImports
open List hiding map_map
open Lib Option
open YamlEdit (Str isSpace endsLine isSpace_of_endsLine splitlines cutLines lit)
open TopologyWriter (universalNewlines)
open QmlScan (unitsOf units encoded unitsOf_ne_nil)

/-- What reads a file as text that may be ill-formed and drops a byte order mark. -/
def pythonText (file : List Piece) : Str := file.map Piece.toChar

/-- `QString::fromUtf8`, with a replacement for each byte of an ill-formed stretch. -/
def qtUnits : Piece → Text
  | .char c => unitsOf c
  | .ill bytes => List.replicate bytes 0xFFFD

def qtText (file : List Piece) : Text := file.flatMap qtUnits

def file (page : List UInt8) : List Piece := withoutMark (pieces page)

def isNameStart (c : Char) : Bool := c.isAlpha || c == '_'

def isNameChar (c : Char) : Bool := c.isAlphanum || c == '_' || c == '.'

def importKeyword : Str := lit "import"

/-- What `_REMOTE_PAGE_IMPORT` captures in a line. -/
def importOf (line : Str) : Option Str :=
  let begun := line.dropWhile isSpace
  if !importKeyword.isPrefixOf begun then none
  else
    let after := begun.drop importKeyword.length
    if (after.takeWhile isSpace).isEmpty then none
    else
      let name := (after.dropWhile isSpace).takeWhile isNameChar
      if ((after.dropWhile isSpace).head?.any isNameStart) then some name else none

/-- `_imports_of` -/
def importsOf (page : List UInt8) : List Str := (splitlines (universalNewlines (pythonText (file page)))).filterMap importOf

/-- Each line and where it begins, with `acc` read of it. -/
def placed (start : Nat) : Str → Str → List (Nat × Str)
  | acc, [] => if acc.isEmpty then [] else [(start, acc.reverse)]
  | acc, '\r' :: '\n' :: rest => (start, acc.reverse) :: placed (start + acc.length + 2) [] rest
  | acc, c :: rest =>
    if endsLine c then (start, acc.reverse) :: placed (start + acc.length + 1) [] rest else placed start (c :: acc) rest

private theorem placed_lines (start : Nat) (acc text : Str) : (placed start acc text).map Prod.snd = cutLines acc text := by
  fun_induction placed start acc text with
  | case1 start acc hempty => rw [cutLines, if_pos hempty]; rfl
  | case2 start acc hempty => rw [cutLines, if_neg hempty]; rfl
  | case3 start acc rest ih => rw [map_cons, ih, cutLines]
  | case4 start acc c rest hpair hends ih => rw [map_cons, ih, cutLines, if_pos hends]; exact hpair
  | case5 start acc c rest hpair hends ih => rw [ih, cutLines, if_neg hends]; exact hpair

private theorem broken_append {c : Char} (hc : endsLine c = true) {before : Str} (h : ∀ d ∈ before.getLast?, endsLine d = true) (text : Str) :
    ∀ d ∈ (text ++ c :: before).getLast?, endsLine d = true := by
  intro d hd
  rw [List.getLast?_append, List.getLast?_cons, some_or] at hd
  obtain rfl := Option.some.inj hd
  cases hlast : before.getLast? with
  | none => exact hc
  | some last => exact h last hlast

theorem placed_at {start : Nat} {acc text : Str} {place : Nat × Str} (h : place ∈ placed start acc text)
    (hacc : ∀ c ∈ acc, endsLine c = false) :
    ∃ before after, acc.reverse ++ text = before ++ (place.2 ++ after) ∧ place.1 = start + before.length ∧
      (∀ c ∈ before.getLast?, endsLine c = true) ∧ ∀ c ∈ place.2, endsLine c = false := by
  have hwhole (acc' : Str) (hacc' : ∀ c ∈ acc', endsLine c = false) : ∀ c ∈ acc'.reverse, endsLine c = false :=
    fun c hc => hacc' c (mem_reverse.mp hc)
  fun_induction placed start acc text with
  | case1 start acc hempty => exact absurd h not_mem_nil
  | case2 start acc hempty =>
    obtain rfl := mem_singleton.mp h
    exact ⟨[], [], rfl, rfl, nofun, hwhole acc hacc⟩
  | case3 start acc rest ih =>
    obtain rfl | hlater := mem_cons.mp h
    · exact ⟨[], _, rfl, rfl, nofun, hwhole acc hacc⟩
    · obtain ⟨before, after, hsplit, hplace, hbroken, hline⟩ := ih hlater nofun
      refine ⟨acc.reverse ++ '\r' :: '\n' :: before, after, ?_, ?_, ?_, hline⟩
      · rw [reverse_nil, nil_append] at hsplit
        rw [hsplit, append_assoc, cons_append, cons_append]
      · rw [hplace, length_append, length_reverse, length_cons, length_cons]
        omega
      · rw [append_cons]
        exact broken_append (by decide) hbroken _
  | case4 start acc c rest hpair hends ih =>
    obtain rfl | hlater := mem_cons.mp h
    · exact ⟨[], _, rfl, rfl, nofun, hwhole acc hacc⟩
    · obtain ⟨before, after, hsplit, hplace, hbroken, hline⟩ := ih hlater nofun
      refine ⟨acc.reverse ++ c :: before, after, ?_, ?_, broken_append hends hbroken _, hline⟩
      · rw [reverse_nil, nil_append] at hsplit
        rw [hsplit, append_assoc, cons_append]
      · rw [hplace, length_append, length_reverse, length_cons]
        omega
  | case5 start acc c rest hpair hends ih =>
    have hacc' : ∀ d ∈ c :: acc, endsLine d = false := by
      intro d hd
      obtain rfl | hd := mem_cons.mp hd
      · exact Bool.eq_false_iff.mpr hends
      · exact hacc d hd
    obtain ⟨before, after, hsplit, hplace, hbroken, hline⟩ := ih h hacc'
    refine ⟨before, after, ?_, hplace, hbroken, hline⟩
    rw [← hsplit, reverse_cons, append_assoc, singleton_append]

private theorem cutLines_universalNewlines (acc text : Str) : cutLines acc (universalNewlines text) = cutLines acc text := by
  fun_induction cutLines acc text with
  | case1 acc hempty => rw [universalNewlines, cutLines, if_pos hempty]
  | case2 acc hempty => rw [universalNewlines, cutLines, if_neg hempty]
  | case3 acc rest ih =>
    have hpair : universalNewlines ('\r' :: '\n' :: rest) = '\n' :: universalNewlines rest := by
      rw [universalNewlines, if_pos rfl, List.head?_cons, if_pos rfl, universalNewlines, if_neg (by decide)]
    rw [hpair, cutLines, if_pos (by decide), ih]
    exact fun _ hc => absurd hc (by decide)
  | case4 acc c rest hpair hends ih =>
    rw [universalNewlines]
    split
    · next hreturn =>
      have halone : ¬ rest.head? = some '\n' := by
        intro hhead
        obtain ⟨rest', rfl⟩ := List.head?_eq_some_iff.mp hhead
        exact hpair rest' hreturn rfl
      rw [if_neg halone, cutLines, if_pos (by decide), ih]
      exact fun _ hc => absurd hc (by decide)
    · next hother =>
      rw [cutLines, if_pos hends, ih]
      exact fun _ hc => absurd hc hother
  | case5 acc c rest hpair hends ih =>
    have hother : c ≠ '\r' := by
      rintro rfl
      exact hends (by decide)
    rw [universalNewlines, if_neg hother, cutLines, if_neg hends, ih]
    exact fun _ hc => absurd hc hother

/-- Where each import seems to stand, and the module it names. -/
def lookalikes (page : List UInt8) : List (Nat × Str) :=
  (placed 0 [] (pythonText (file page))).filterMap fun place =>
    (importOf place.2).map fun name => (place.1 + (place.2.takeWhile isSpace).length, name)

private theorem lookalikes_names (page : List UInt8) : (lookalikes page).map Prod.snd = importsOf page := by
  rw [lookalikes, importsOf, splitlines, cutLines_universalNewlines, ← placed_lines 0, map_filterMap, filterMap_map]
  refine filterMap_congr fun place _ => ?_
  rw [map_map, Function.comp_apply]
  exact map_id'

private theorem importOf_spelled {line name : Str} (h : importOf line = some name) :
    ∃ w tail, line = line.takeWhile isSpace ++ (importKeyword ++ w :: tail) ∧ isSpace w = true := by
  rw [importOf] at h
  dsimp only at h
  split at h
  · cases h
  · next hprefix =>
    split at h
    · cases h
    · next hspaces =>
      rw [Bool.not_eq_true, Bool.not_eq_false'] at hprefix
      obtain ⟨after, hafter⟩ := isPrefixOf_iff_prefix.mp hprefix
      rw [← hafter, drop_left] at hspaces
      cases after with
      | nil => exact absurd rfl hspaces
      | cons w tail =>
        refine ⟨w, tail, ?_, ?_⟩
        · rw [hafter, takeWhile_append_dropWhile]
        · by_contra hword
          rw [takeWhile_cons_of_neg hword] at hspaces
          exact hspaces rfl

theorem spelled {read : List Piece} {text rest : Str} (h : pythonText read = text ++ rest) (htext : replacement ∉ text) :
    ∃ more, read = text.map .char ++ more ∧ pythonText more = rest := by
  obtain ⟨front, more, rfl, rfl, rfl⟩ := map_eq_append_iff.mp h
  have hchar : ∀ piece ∈ front, Piece.char piece.toChar = piece := by
    intro piece hin
    cases piece with
    | char c => rfl
    | ill bytes => exact absurd (mem_map_of_mem hin) htext
  refine ⟨more, congrArg (· ++ more) ?_, rfl⟩
  rw [List.map_map]
  exact ((map_congr_left hchar).trans (map_id' front)).symm

private theorem qtText_chars (text : Str) (more : List Piece) : qtText (text.map .char ++ more) = units text ++ qtText more := by
  rw [qtText, flatMap_append, flatMap_map]
  rfl

/-- A blank is one unit, which stands for nothing but itself. -/
structure Blank (c : Char) (u : QChar) : Prop where
  alone : unitsOf c = [u]
  number : u.toNat = c.toNat
  white : Qml.isQuote u = false ∧ u ≠ Qml.slash ∧ u ≠ Qml.byteOrderMark
  bare : u ≠ 0x5F ∧ u ≠ 0x24
  within : endsLine c = false → QmlPalette.endsLine u = false

private theorem unit_of_isSpace {c : Char} (h : isSpace c = true) : ∃ u, Blank c u := by
  rw [isSpace] at h
  simp only [Bool.or_eq_true, Bool.and_eq_true, beq_iff_eq, decide_eq_true_eq] at h
  have hencoded := encoded c
  cases hunits : unitsOf c with
  | nil => exact absurd hunits (unitsOf_ne_nil c)
  | cons u us =>
    rw [hunits] at hencoded
    cases hencoded with
    | unit u hu =>
      have hne {v : QChar} {n : Nat} (hv : v.toNat = n) (hn : n ≠ c.toNat) : u ≠ v := fun huv => hn (hv ▸ huv ▸ hu)
      have hquote : Qml.isQuote u = false := by
        simp only [Qml.isQuote, Bool.or_eq_false_iff, beq_eq_false_iff_ne]
        exact ⟨⟨hne (n := 0x22) rfl (by omega), hne (n := 0x27) rfl (by omega)⟩, hne (n := 0x60) rfl (by omega)⟩
      refine ⟨u, hunits, hu, ⟨hquote, hne (n := 0x2F) rfl (by omega), hne (n := 0xFEFF) rfl (by omega)⟩,
        ⟨hne (n := 0x5F) rfl (by omega), hne (n := 0x24) rfl (by omega)⟩, fun hwithin => ?_⟩
      rw [endsLine] at hwithin
      simp only [Bool.or_eq_false_iff, Bool.and_eq_false_iff, beq_eq_false_iff_ne, decide_eq_false_iff_not] at hwithin
      simp only [QmlPalette.endsLine, Bool.or_eq_false_iff, beq_eq_false_iff_ne]
      exact ⟨⟨⟨hne (n := 0x0A) rfl (by omega), hne (n := 0x0D) rfl (by omega)⟩, hne (n := 0x2028) rfl (by omega)⟩,
        hne (n := 0x2029) rfl (by omega)⟩
    | pair high low hhigh hlow hnumber => omega

section
variable (isLetterOrNumber : QChar → Bool)

/-- What the build reports outside the palette, a client refuses. -/
def Agrees (palette : List Text) (page : List UInt8) : Prop :=
  ∀ name ∈ importsOf page, units name ∉ palette → QmlPalette.isAcceptable isLetterOrNumber palette (qtText (file page)) ≠ .ok ()

/-- The keyword stands at a place outside comments and literals, and the scan reads the same name after it. -/
def AsRead (page : List UInt8) (place : Nat) (name : Str) : Prop :=
  QmlPalette.Outside (qtText ((file page).take place)) (qtText ((file page).drop place)) ∧
    QmlPalette.moduleAt (QmlPalette.strippedFrom 0 ((qtText ((file page).drop place)).drop QmlPalette.importKeyword.length)) = units name

variable {isLetterOrNumber}

theorem lookalike_at {page : List UInt8} {place : Nat} {name : Str} (h : (place, name) ∈ lookalikes page) :
    ∃ w more, (file page).drop place = (importKeyword ++ [w]).map .char ++ more ∧ isSpace w = true ∧ endsLine w = false ∧
      ∀ c ∈ (pythonText ((file page).take place)).getLast?, isSpace c = true := by
  obtain ⟨line, hin, himport⟩ := mem_filterMap.mp h
  obtain ⟨named, hname, hpair⟩ := map_eq_some_iff.mp himport
  obtain ⟨rfl, rfl⟩ := Prod.mk.inj hpair
  obtain ⟨before, after, hsplit, hstart, hbroken, hline⟩ := placed_at hin (forall_mem_nil _)
  obtain ⟨w, tail, hspelled, hw⟩ := importOf_spelled hname
  have hplace : line.1 + (line.2.takeWhile isSpace).length = (before ++ line.2.takeWhile isSpace).length := by
    rw [hstart, length_append, Nat.zero_add]
  have htext : pythonText (file page) =
      (before ++ line.2.takeWhile isSpace) ++ ((importKeyword ++ [w]) ++ (tail ++ after)) := by
    rw [reverse_nil, nil_append] at hsplit
    rw [hsplit]
    conv_lhs => rw [hspelled]
    simp only [append_assoc, cons_append, nil_append]
  rw [hplace]
  have hdrop : pythonText ((file page).drop (before ++ line.2.takeWhile isSpace).length) =
      (importKeyword ++ [w]) ++ (tail ++ after) := by
    rw [pythonText, map_drop, ← pythonText, htext, drop_left]
  have hchars : replacement ∉ importKeyword ++ [w] := by
    intro hin
    obtain hin | hin := mem_append.mp hin
    · exact absurd hin (by decide)
    · rw [← mem_singleton.mp hin] at hw
      exact absurd hw (by decide)
  obtain ⟨more, hmore, -⟩ := spelled hdrop hchars
  have hwithin : endsLine w = false := hline w (hspelled ▸ by simp)
  refine ⟨w, more, hmore, hw, hwithin, fun c hc => ?_⟩
  rw [pythonText, map_take, ← pythonText, htext, take_left, List.getLast?_append] at hc
  cases hblank : (line.2.takeWhile isSpace).getLast? with
  | some d =>
    rw [hblank, some_or] at hc
    obtain rfl := Option.some.inj hc
    exact mem_takeWhile_imp (mem_of_getLast? hblank)
  | none =>
    rw [hblank, none_or] at hc
    exact isSpace_of_endsLine (hbroken c hc)

theorem listed_of_asRead (hspaces : ∀ c, isSpace c = true → ∀ u ∈ unitsOf c, isLetterOrNumber u = false) {page : List UInt8}
    {place : Nat} {name : Str} (hlooks : (place, name) ∈ lookalikes page) (hread : AsRead page place name) {palette : List Text}
    (h : QmlPalette.isAcceptable isLetterOrNumber palette (qtText (file page)) = .ok ()) : units name ∈ palette := by
  obtain ⟨w, more, hdrop, hw, hwithin, hbefore⟩ := lookalike_at hlooks
  obtain ⟨houtside, hname⟩ := hread
  have hbare {c : Char} {u : QChar} (hc : isSpace c = true) (hu : Blank c u) :
      QmlPalette.isIdentifierChar isLetterOrNumber u = false := by
    have hmem : u ∈ unitsOf c := hu.alone ▸ mem_singleton_self u
    simp only [QmlPalette.isIdentifierChar, hspaces c hc u hmem, beq_eq_false_iff_ne.mpr hu.bare.1,
      beq_eq_false_iff_ne.mpr hu.bare.2, Bool.or_self]
  have hpost : qtText ((file page).drop place) = QmlPalette.importKeyword ++ (unitsOf w ++ qtText more) := by
    have hkeyword : units importKeyword = QmlPalette.importKeyword := by decide
    have hblank : units [w] = unitsOf w := flatMap_singleton unitsOf w
    rw [hdrop, qtText_chars, QmlScan.units_append, append_assoc, hkeyword, hblank]
  have hwhole : qtText (file page) =
      qtText ((file page).take place) ++ (QmlPalette.importKeyword ++ (unitsOf w ++ qtText more)) := by
    rw [← hpost, qtText, qtText, qtText, ← flatMap_append, take_append_drop]
  rw [hpost, drop_left] at hname
  rw [hpost] at houtside
  rw [hwhole] at h
  rw [← hname]
  refine QmlPalette.listed_of_outside isLetterOrNumber houtside (fun u hu => ?_) ?_ (fun u hu => ?_) h
  · obtain hnil | ⟨front, piece, hfront⟩ := eq_nil_or_concat ((file page).take place)
    · rw [hnil] at hu
      cases hu
    · rw [hfront, pythonText, concat_eq_append, map_append, map_singleton, List.getLast?_concat] at hbefore
      rw [hfront, qtText, concat_eq_append, flatMap_append, flatMap_singleton] at hu
      have hspace := hbefore piece.toChar rfl
      cases piece with
      | ill bytes =>
        rw [Piece.toChar] at hspace
        exact absurd hspace (by decide)
      | char c =>
        rw [Piece.toChar] at hspace
        obtain ⟨v, hv⟩ := unit_of_isSpace hspace
        rw [qtUnits, hv.alone, List.getLast?_concat] at hu
        obtain rfl := Option.some.inj hu
        exact ⟨hv.white, hbare hspace hv⟩
  · obtain ⟨u, hu⟩ := unit_of_isSpace (c := '\n') (by decide)
    obtain rfl : Qml.lineFeed = u := (List.cons.inj hu.alone).1
    exact hbare (by decide) hu
  · obtain ⟨v, hv⟩ := unit_of_isSpace hw
    have hplain : ∀ c ∈ [v], QmlPalette.isPlain c = true := by
      intro c hc
      obtain rfl := mem_singleton.mp hc
      obtain ⟨hquote, hslash, hmark⟩ := hv.white
      simp [QmlPalette.isPlain, hquote, hslash, hmark, hv.within hwithin]
    rw [hv.alone, QmlPalette.strippedFrom_plain hplain] at hu
    obtain rfl := Option.some.inj hu
    exact hbare hw hv

/-- What the build reports is refused by every client, whatever the palette, where each line that looks like an import stands
outside comments and literals and is read there with the same name, or names a module that the header imports; and then only. -/
theorem imports_refused_iff (hspaces : ∀ c, isSpace c = true → ∀ u ∈ unitsOf c, isLetterOrNumber u = false) (page : List UInt8) :
    (∀ palette, Agrees isLetterOrNumber palette page) ↔
      ∀ pairs, QmlPalette.Readable isLetterOrNumber (qtText (file page)) pairs →
        ∀ place name, (place, name) ∈ lookalikes page → AsRead page place name ∨ units name ∈ pairs.map Prod.snd := by
  constructor
  · intro hagrees pairs hreadable place name hlooks
    by_contra hneither
    obtain ⟨-, hunlisted⟩ := not_or.mp hneither
    have hreported : name ∈ importsOf page := lookalikes_names page ▸ mem_map_of_mem hlooks
    refine hagrees _ name hreported hunlisted ((QmlPalette.isAcceptable_iff isLetterOrNumber).mpr ⟨pairs, hreadable, ?_⟩)
    exact fun p hp => mem_map_of_mem hp
  · intro hclear palette name hreported hunlisted haccepted
    obtain ⟨pairs, hreadable, hlisted⟩ := (QmlPalette.isAcceptable_iff isLetterOrNumber).mp haccepted
    rw [← lookalikes_names] at hreported
    obtain ⟨⟨place, _⟩, hlooks, rfl⟩ := mem_map.mp hreported
    obtain hread | hnamed := hclear pairs hreadable place _ hlooks
    · exact hunlisted (listed_of_asRead hspaces hlooks hread haccepted)
    · obtain ⟨p, hp, hmodule⟩ := mem_map.mp hnamed
      exact hunlisted (hmodule ▸ hlisted p hp)

end

private theorem asciiLetterOrNumber_of_isSpace (c : Char) (h : isSpace c = true) : ∀ u ∈ unitsOf c, QmlPalette.asciiLetterOrNumber u = false := by
  obtain ⟨v, hv⟩ := unit_of_isSpace h
  intro u hu
  rw [hv.alone] at hu
  obtain rfl := mem_singleton.mp hu
  have hnumber := hv.number
  rw [isSpace] at h
  simp only [Bool.or_eq_true, Bool.and_eq_true, beq_iff_eq, decide_eq_true_eq] at h
  rw [QmlPalette.asciiLetterOrNumber]
  simp only [Bool.or_eq_false_iff, Bool.and_eq_false_iff, decide_eq_false_iff_not, UInt16.le_iff_toNat_le, UInt16.toNat_ofNat]
  omega

def asciiPage (text : String) : List UInt8 := text.toList.map fun c => UInt8.ofNat c.toNat

def headedPage : List UInt8 := asciiPage "import QtQuick 2.15\nItem \x7b\x7d\n"

theorem imports_refused_headed :
    QmlPalette.Readable QmlPalette.asciiLetterOrNumber (qtText (file headedPage)) [(0, units "QtQuick".toList)] ∧
      ∀ palette, Agrees QmlPalette.asciiLetterOrNumber palette headedPage := by
  refine ⟨⟨by decide +kernel, by decide +kernel⟩, (imports_refused_iff asciiLetterOrNumber_of_isSpace headedPage).mpr fun pairs _ place name hlooks => ?_⟩
  have hone : lookalikes headedPage = [(0, "QtQuick".toList)] := by decide +kernel
  rw [hone] at hlooks
  obtain ⟨rfl, rfl⟩ := Prod.mk.inj (mem_singleton.mp hlooks)
  exact .inl ⟨by decide +kernel, by decide +kernel⟩

/-- An import in a comment is reported, and the page is accepted. -/
theorem commented_import_reported : ¬ Agrees QmlPalette.asciiLetterOrNumber [units "QtQuick".toList]
    (asciiPage "/*\nimport Evil\n*/\nimport QtQuick\nItem \x7b\x7d\n") :=
  fun h => h "Evil".toList (by decide +kernel) (by decide +kernel) (by decide +kernel)

end SynQt.PageImports
