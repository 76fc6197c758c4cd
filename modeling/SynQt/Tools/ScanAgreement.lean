import SynQt.Client.PaletteSoundness
import SynQt.Tools.ScanPieces

namespace SynQt
open QmlPalette List

namespace QmlPalette
open Qml (isSpace)

/-- The module `isAcceptable` reads in a statement, if it takes it for an import. -/
def importedModule (statement : Text) : Option Text :=
  if matchesKeyword statement importKeyword true then
    some ((trimmed (statement.drop importKeyword.length)).takeWhile (!isSpace ·))
  else none

def importedModules (source : Text) : List Text :=
  (statementsOf (stripped source)).filterMap fun statement => importedModule statement.text

def endsStatement (c : QChar) : Bool := !withinStatement c

/-- Before an import it takes, the palette has taken nothing but imports and pragmas. -/
theorem header_of_checkStatements {modules : List Text} {headerEnded : Bool} {approved approved' : List Nat}
    {before after : List Statement} {statement : Statement}
    (h : checkStatements modules headerEnded approved (before ++ statement :: after) = .ok approved')
    (hmatch : matchesKeyword statement.text importKeyword true = true) :
    headerEnded = false ∧
      (∀ s ∈ before, matchesKeyword s.text importKeyword true = true ∨ matchesKeyword s.text pragmaKeyword false = true) ∧
      Imports modules statement (statement.text.drop importKeyword.length) := by
  induction before generalizing headerEnded approved with
  | nil =>
    rw [nil_append, checkStatements, if_pos hmatch] at h
    split at h
    · cases h
    · next hended =>
      dsimp only at h
      split at h
      · cases h
      · next hempty =>
        split at h
        · cases h
        · next hquote =>
          split at h
          · cases h
          · next hlisted =>
            exact ⟨by simpa using hended, by simp, imports_of_matches hmatch hempty hquote (by simpa using hlisted)⟩
  | cons s before ih =>
    have later {ended : Bool} {approved : List Nat}
        (hs : matchesKeyword s.text importKeyword true = true ∨ matchesKeyword s.text pragmaKeyword false = true)
        (h : checkStatements modules ended approved (before ++ statement :: after) = .ok approved') :
        ended = false ∧ (∀ t ∈ s :: before, matchesKeyword t.text importKeyword true = true ∨
          matchesKeyword t.text pragmaKeyword false = true) ∧
          Imports modules statement (statement.text.drop importKeyword.length) := by
      obtain ⟨hended, hbefore, himports⟩ := ih h
      refine ⟨hended, ?_, himports⟩
      intro t ht
      rcases mem_cons.mp ht with rfl | ht
      · exact hs
      · exact hbefore t ht
    rw [cons_append, checkStatements] at h
    split at h
    · next himport =>
      split at h
      · cases h
      · dsimp only at h
        split at h
        · cases h
        · split at h
          · cases h
          · split at h
            · cases h
            · exact later (.inl himport) h
    · split at h
      · next hpragma => exact later (.inr hpragma) h
      · exact absurd (ih h).1 (by simp)

end QmlPalette

namespace QmlScan
open QmlPalette (importKeyword pragmaKeyword matchesKeyword)
open Graphics (importWord)

section
def Piece.endsStatement : Piece → Bool
  | .lineEnd => true
  | .char c => Graphics.endsStatement c
  | _ => false

def linesOf (source : List Char) : List (List Piece) := (pieces source).splitOnP Piece.endsStatement

/-- The statements the palette cuts from a line, the empty ones too. -/
def paletteStatements (line : List Piece) : List Text :=
  ((line.flatMap Piece.paletteLeft).splitOnP QmlPalette.endsStatement).map QmlPalette.trimmed

def toolStatement (line : List Piece) : List Char := trim isSpace (line.flatMap Piece.toolLeft)

def paletteModules (line : List Piece) : List Text := (paletteStatements line).filterMap QmlPalette.importedModule

def toolModule (isalnum : Char → Bool) (line : List Piece) : Option (List Char) :=
  Graphics.importedModule isalnum (toolStatement line)

/-- Left as it stands by both scans, or by neither, within one statement. -/
def Piece.plain : Piece → Bool
  | .mark => true
  | .lineComment _ => true
  | .blockComment lineEnds => lineEnds == 0
  | .char c => !isSeparator c
  | _ => false

/-- The keyword begins the statement, and what follows it does not continue it. -/
def startsImport (isalnum : Char → Bool) (statement : List Char) : Bool :=
  importWord.isPrefixOf statement &&
    (statement.drop importWord.length).head?.any (!Graphics.isIdentifierCharacter isalnum ·)

/-- A line neither scan reads an import in. -/
structure Silent (isalnum : Char → Bool) (line : List Piece) : Prop where
  tool : startsImport isalnum (toolStatement line) = false
  palette : ∀ statement ∈ paletteStatements line, matchesKeyword statement importKeyword true = false

/-- A line that is blank for the palette up to an import in plain pieces, at whose end both scans
come to a space or an end, and after which the palette reads no other import. -/
structure SharedImport (line blank head tail : List Piece) (spaces word : List Char) : Prop where
  split : line = blank ++ head ++ tail
  blank : ∀ u ∈ blank.flatMap Piece.paletteLeft, Qml.isSpace u = true
  plain : ∀ piece ∈ head, piece.plain = true
  text : head.flatMap Piece.toolLeft = importWord ++ spaces ++ word
  spaces_ne : spaces ≠ []
  spaces : ∀ u ∈ units spaces, Qml.isSpace u = true
  word_ne : word ≠ []
  word : ∀ c ∈ word, isSpace c = false
  toolEnd : ∀ c ∈ (tail.flatMap Piece.toolLeft).head?, isSpace c = true
  paletteEnd : ∀ u ∈ (tail.flatMap Piece.paletteLeft).head?, Qml.isSpace u = true
  rest : ∀ statement ∈ (paletteStatements tail).tail, matchesKeyword statement importKeyword true = false

def ReadsAlike (isalnum : Char → Bool) (line : List Piece) : Prop :=
  Silent isalnum line ∨ ∃ blank head tail spaces word, SharedImport line blank head tail spaces word

end

section
private theorem closeStatement_text (begin_ : Nat) (pending : Text) :
    (closeStatement begin_ pending).map (·.text) = [QmlPalette.trimmed pending].filter (!·.isEmpty) := by
  rw [closeStatement]
  cases hempty : (QmlPalette.trimmed pending).isEmpty with
  | true => simp [hempty]
  | false => simp [hempty]

theorem statementsFrom_text {begin_ : Nat} {pending : Text}
    (hpending : ∀ c ∈ pending, withinStatement c = true) (rest : Text) :
    (statementsFrom begin_ pending rest).map (·.text) =
      (((pending ++ rest).splitOnP endsStatement).map QmlPalette.trimmed).filter (!·.isEmpty) := by
  have inside : ∀ c ∈ pending, endsStatement c = false := by
    intro c hc
    rw [endsStatement, hpending c hc]
    rfl
  induction rest generalizing begin_ pending with
  | nil =>
    rw [statementsFrom, closeStatement_text, append_nil, splitOnP_eq_singleton inside]
    rfl
  | cons c rest ih =>
    rw [statementsFrom]
    cases hc : withinStatement c with
    | true =>
      have hends : endsStatement c = false := by rw [endsStatement, hc]; rfl
      have hpending' : ∀ d ∈ pending ++ [c], withinStatement d = true := by
        intro d hd
        rcases mem_append.mp hd with hd | hd
        · exact hpending d hd
        · obtain rfl := mem_singleton.mp hd
          exact hc
      have inside' : ∀ d ∈ pending ++ [c], endsStatement d = false := by
        intro d hd
        rw [endsStatement, hpending' d hd]
        rfl
      rw [if_pos rfl, ih hpending' inside', append_assoc, singleton_append]
    | false =>
      have hends : endsStatement c = true := by rw [endsStatement, hc]; rfl
      have hnone : ∀ d ∈ ([] : Text), withinStatement d = true := by simp
      have hnone' : ∀ d ∈ ([] : Text), endsStatement d = false := by simp
      rw [if_neg Bool.false_ne_true, map_append, closeStatement_text, ih hnone hnone', nil_append,
        splitOnP_append_cons_of_forall_mem inside c hends, map_cons, filter_cons, filter_cons]
      split <;> rfl

/-- What every piece that ends a statement leaves is one unit that ends it, for both scans. -/
theorem paletteLeft_of_endsStatement (piece : Piece) (h : piece.endsStatement = true) :
    ∃ u, piece.paletteLeft = [u] ∧ endsStatement u = true := by
  cases piece with
  | lineEnd => exact ⟨Qml.lineFeed, rfl, by decide⟩
  | char c =>
    have hcases : c = lineFeed ∨ c = semicolon := by
      simpa [Piece.endsStatement, Graphics.endsStatement] using h
    rcases hcases with rfl | rfl
    · exact ⟨Qml.lineFeed, rfl, by decide⟩
    · exact ⟨Qml.semicolon, rfl, by decide⟩
  | mark | literal | lineComment | blockComment => cases h

private theorem toolLeft_of_endsStatement (piece : Piece) (h : piece.endsStatement = true) :
    ∃ c, piece.toolLeft = [c] ∧ Graphics.endsStatement c = true := by
  cases piece with
  | lineEnd => exact ⟨lineFeed, rfl, by decide⟩
  | char c => exact ⟨c, rfl, h⟩
  | mark | literal | lineComment | blockComment => cases h

variable {source : List Char}

private theorem statementsOf_text (hwhole : ∀ piece ∈ pieces source, piece.cut = false) :
    (QmlPalette.statementsOf (QmlPalette.stripped (units source))).map (·.text) =
      ((linesOf source).flatMap paletteStatements).filter (!·.isEmpty) := by
  have hstripped : QmlPalette.stripped (units source) = (pieces source).flatMap Piece.paletteLeft :=
    strippedFrom_units hwhole
  rw [statementsOf, statementsFrom_text (by simp), nil_append, hstripped,
    splitOnP_flatMap paletteLeft_of_endsStatement, map_flatMap]
  rfl

private theorem importedModule_nil : importedModule [] = none := rfl

private theorem filterMap_filter_nonempty (statements : List Text) :
    (statements.filter (!·.isEmpty)).filterMap importedModule =
      statements.filterMap importedModule := by
  induction statements with
  | nil => rfl
  | cons statement statements ih =>
    cases statement with
    | nil => exact ih.trans (filterMap_cons_none importedModule_nil).symm
    | cons c statement => simp [filterMap_cons, ih]

private theorem palette_importedModules (hwhole : ∀ piece ∈ pieces source, piece.cut = false) :
    importedModules (units source) = (linesOf source).flatMap paletteModules := by
  calc importedModules (units source)
      = ((QmlPalette.statementsOf (QmlPalette.stripped (units source))).map (·.text)).filterMap
          importedModule := by rw [filterMap_map]; rfl
    _ = ((linesOf source).flatMap paletteStatements).filterMap importedModule := by
        rw [statementsOf_text hwhole, filterMap_filter_nonempty]
    _ = (linesOf source).flatMap paletteModules := by rw [filterMap_flatMap]; rfl

private theorem inside_of_mem_linesOf {line : List Piece} (hline : line ∈ linesOf source) :
    ∀ piece ∈ line, piece.endsStatement = false := fun piece hpiece => (mem_splitOnP hline piece hpiece).1

private theorem toolLeft_inside {line : List Piece} (h : ∀ piece ∈ line, piece.endsStatement = false) :
    ∀ c ∈ line.flatMap Piece.toolLeft, Graphics.endsStatement c = false := by
  intro c hc
  obtain ⟨piece, hpiece, hc⟩ := mem_flatMap.mp hc
  have hinside := h piece hpiece
  cases piece with
  | char d =>
    obtain rfl := mem_singleton.mp hc
    exact hinside
  | lineEnd => cases hinside
  | mark | literal | lineComment | blockComment => cases hc

private theorem tool_importedModules (isalnum : Char → Bool) (source : List Char) :
    Graphics.importedModules isalnum (stripped source) = (linesOf source).filterMap (toolModule isalnum) := by
  have hone : ∀ line ∈ linesOf source,
      (line.flatMap Piece.toolLeft).splitOnP Graphics.endsStatement = [line.flatMap Piece.toolLeft] := fun line hline =>
    splitOnP_eq_singleton (toolLeft_inside (inside_of_mem_linesOf hline))
  have hchunks : (stripped source).splitOnP Graphics.endsStatement = (linesOf source).map (·.flatMap Piece.toolLeft) := by
    rw [stripped, strippedFrom_eq, splitOnP_flatMap toolLeft_of_endsStatement, map_eq_flatMap]
    exact flatMap_congr hone
  have hempty (statements : List (List Char)) : (statements.filter (!·.isEmpty)).filterMap (Graphics.importedModule isalnum) =
      statements.filterMap (Graphics.importedModule isalnum) := by
    induction statements with
    | nil => rfl
    | cons statement statements ih => cases statement with
      | nil => exact ih.trans (filterMap_cons_none rfl).symm
      | cons c statement => simp [filterMap_cons, ih]
  rw [Graphics.importedModules, Graphics.statements, hempty, hchunks, map_map, filterMap_map]
  rfl

end

section
theorem Surrogate.isSpace {u : QChar} (h : Surrogate u) : Qml.isSpace u = false := by
  obtain ⟨hfrom, hto⟩ := h
  apply Bool.eq_false_of_not_eq_true
  intro hspace
  rw [Qml.isSpace] at hspace
  simp only [Bool.or_eq_true, Bool.and_eq_true, beq_iff_eq, decide_eq_true_eq, UInt16.le_iff_toNat_le,
    ← UInt16.toNat_inj, UInt16.toNat_ofNat] at hspace
  omega

/-- What the palette takes for a space the tooling takes for one. -/
theorem isSpace_of_mem_unitsOf {c : Char} {u : QChar} (hu : u ∈ unitsOf c) (h : Qml.isSpace u = true) :
    isSpace c = true := by
  have hencoded := encoded c
  generalize unitsOf c = us at hu hencoded
  cases hencoded with
  | unit v hv =>
    obtain rfl := mem_singleton.mp hu
    rw [Qml.isSpace] at h
    rw [isSpace, ← hv]
    simp only [Bool.or_eq_true, Bool.and_eq_true, beq_iff_eq, decide_eq_true_eq, UInt16.le_iff_toNat_le,
      ← UInt16.toNat_inj, UInt16.toNat_ofNat] at h ⊢
    omega
  | pair high low hhigh hlow _ =>
    have hsurrogate : Surrogate u := by
      rcases mem_pair.mp hu with rfl | rfl
      · exact hhigh
      · exact hlow
    exact absurd h (by simp [hsurrogate.isSpace])

variable {text : List Char}

private theorem isSpace_of_units (h : ∀ u ∈ units text, Qml.isSpace u = true) :
    ∀ c ∈ text, isSpace c = true := by
  intro c hc
  obtain ⟨u, us, hunits⟩ := exists_cons_of_ne_nil (unitsOf_ne_nil c)
  have hu : u ∈ unitsOf c := by simp [hunits]
  exact isSpace_of_mem_unitsOf hu (h u (mem_flatMap.mpr ⟨c, hc, hu⟩))

private theorem not_isSpace_units (h : ∀ c ∈ text, isSpace c = false) :
    ∀ u ∈ units text, Qml.isSpace u = false := by
  intro u hu
  obtain ⟨c, hc, hu⟩ := mem_flatMap.mp hu
  apply Bool.eq_false_of_not_eq_true
  intro hspace
  exact absurd (isSpace_of_mem_unitsOf hu hspace) (by simp [h c hc])

private theorem units_ne_nil (h : text ≠ []) : units text ≠ [] := by
  obtain ⟨c, rest, rfl⟩ := exists_cons_of_ne_nil h
  rw [units_cons]
  exact append_ne_nil_of_left_ne_nil (unitsOf_ne_nil c) _

private theorem paletteLeft_of_plain {head : List Piece} (h : ∀ piece ∈ head, piece.plain = true) :
    head.flatMap Piece.paletteLeft = units (head.flatMap Piece.toolLeft) := by
  induction head with
  | nil => rfl
  | cons piece head ih =>
    have hpiece := h piece (mem_cons_self ..)
    rw [flatMap_cons, flatMap_cons, units_append, ih fun p hp => h p (mem_cons_of_mem _ hp)]
    congr 1
    cases piece with
    | mark => rfl
    | lineComment => rfl
    | blockComment lineEnds =>
      obtain rfl : lineEnds = 0 := by simpa [Piece.plain] using hpiece
      rfl
    | char c =>
      have hsep : isSeparator c = false := by simpa [Piece.plain] using hpiece
      simp [Piece.paletteLeft, Piece.toolLeft, hsep, units]
    | lineEnd => cases hpiece
    | literal => cases hpiece

/-- The palette's blanks are blank for the tooling, which sees none of a literal and is the only
one to see a separator as it stands. -/
theorem toolLeft_of_blank {blank : List Piece} (h : ∀ u ∈ blank.flatMap Piece.paletteLeft, Qml.isSpace u = true) :
    ∀ c ∈ blank.flatMap Piece.toolLeft, isSpace c = true := by
  intro c hc
  obtain ⟨piece, hpiece, hc⟩ := mem_flatMap.mp hc
  have hblank : ∀ u ∈ piece.paletteLeft, Qml.isSpace u = true := fun u hu =>
    h u (mem_flatMap.mpr ⟨piece, hpiece, hu⟩)
  cases piece with
  | char d =>
    obtain rfl := mem_singleton.mp hc
    cases hsep : isSeparator c with
    | true =>
      have hcases : c = lineSeparator ∨ c = paragraphSeparator := by simpa [isSeparator] using hsep
      rcases hcases with rfl | rfl <;> decide
    | false =>
      rw [Piece.paletteLeft, hsep, if_neg Bool.false_ne_true] at hblank
      have hone : ∀ u ∈ units [c], Qml.isSpace u = true := by simpa [units] using hblank
      exact isSpace_of_units hone c (mem_singleton_self c)
  | lineEnd =>
    obtain rfl := mem_singleton.mp hc
    decide
  | mark | literal | lineComment | blockComment => cases hc

private theorem importWord_ne : importWord ≠ [] := by decide

private theorem importWord_word : ∀ c ∈ importWord, isSpace c = false := eq_false_of_all (by decide)

private theorem importWord_letters : importWord.all (!isQuote ·) = true ∧ importWord.all (!· == lineFeed) = true := by decide

private theorem units_importWord : units importWord = importKeyword := by decide

variable {spaces word : List Char} {isalnum : Char → Bool}

private theorem toolModule_of_shared (hspaces : ∀ c, isSpace c = true → isalnum c = false)
    {line blank head tail : List Piece}
    (h : SharedImport line blank head tail spaces word) : toolModule isalnum line = some word := by
  have hsplit : line.flatMap Piece.toolLeft =
      blank.flatMap Piece.toolLeft ++ (importWord ++ spaces ++ word) ++ tail.flatMap Piece.toolLeft := by
    rw [h.split, flatMap_append, flatMap_append, h.text]
  obtain ⟨rest, hrest, hfirst, hword⟩ := trim_spelled (toolLeft_of_blank h.blank) importWord_ne importWord_word
    h.spaces_ne (isSpace_of_units h.spaces) h.word_ne h.word h.toolEnd
  rw [toolModule, toolStatement, hsplit, hrest, Graphics.importedModule]
  have hbegins : importWord.isPrefixOf (importWord ++ rest) = true :=
    isPrefixOf_iff_prefix.mpr (prefix_append ..)
  have hdrop : (importWord ++ rest).drop importWord.length = rest := drop_left
  have hnext : rest.head?.any (Graphics.isIdentifierCharacter isalnum) = false := by
    rw [Option.any_eq_false]
    intro c hc
    have hspace := hfirst c hc
    have hother : c ≠ '_' ∧ c ≠ '$' := by
      constructor
      · rintro rfl
        exact absurd hspace (by decide)
      · rintro rfl
        exact absurd hspace (by decide)
    simp [Graphics.isIdentifierCharacter, hspaces c hspace, hother]
  simp [hbegins, hdrop, hnext, hword, h.word_ne]

private theorem importedModule_of_spelled {last : Text} (hne : spaces ≠ [])
    (hspaces : ∀ u ∈ units spaces, Qml.isSpace u = true) (hwordNe : word ≠ []) (hword : ∀ c ∈ word, isSpace c = false)
    (hlast : ∀ u ∈ last.head?, Qml.isSpace u = true) :
    importedModule (QmlPalette.trimmed (units (importWord ++ spaces ++ word) ++ last)) =
      some (units word) := by
  have hnone : ∀ u ∈ ([] : Text), Qml.isSpace u = true := by simp
  have hkeyword : ∀ u ∈ importKeyword, Qml.isSpace u = false := eq_false_of_all (by decide)
  obtain ⟨rest, hrest, hfirst, hmodule⟩ := trim_spelled hnone (by decide) hkeyword (units_ne_nil hne) hspaces
    (units_ne_nil hwordNe) (not_isSpace_units hword) hlast
  have hmatches : matchesKeyword (importKeyword ++ rest) importKeyword true = true := by
    rw [matchesKeyword, isPrefixOf_iff_prefix.mpr (prefix_append ..), drop_left]
    cases rest with
    | nil => rfl
    | cons u rest => simp [hfirst u rfl]
  rw [nil_append] at hrest
  rw [units_append, units_append, units_importWord, QmlPalette.trimmed, hrest, importedModule, hmatches,
    if_pos rfl, drop_left, QmlPalette.trimmed, takeWhile_trim, hmodule]

private theorem paletteStatements_eq (line : List Piece) :
    paletteStatements line =
      QmlPalette.trimmed ((line.flatMap Piece.paletteLeft).takeWhile (!endsStatement ·)) ::
        (paletteStatements line).tail := by
  rw [paletteStatements, splitOnP_eq_takeWhile_cons]
  rfl

private theorem paletteStatements_blank {blank : List Piece} (hblank : ∀ u ∈ blank.flatMap Piece.paletteLeft, Qml.isSpace u = true)
    (body : List Piece) :
    ∃ empty, (∀ statement ∈ empty, statement = []) ∧
      paletteStatements (blank ++ body) = empty ++ paletteStatements body := by
  obtain ⟨lines, last, first, rest, hfront, hbody, hboth⟩ := splitOnP_append endsStatement
    (blank.flatMap Piece.paletteLeft) (body.flatMap Piece.paletteLeft)
  have spaces {run : Text} (hrun : run ∈ lines ++ [last]) : ∀ u ∈ run, Qml.isSpace u = true := fun u hu =>
    hblank u (mem_splitOnP (hfront ▸ hrun) u hu).2
  refine ⟨lines.map QmlPalette.trimmed, ?_, ?_⟩
  · intro statement hstatement
    obtain ⟨run, hrun, rfl⟩ := mem_map.mp hstatement
    rw [QmlPalette.trimmed, trim, dropWhile_eq_nil_iff.mpr (spaces (mem_append_left _ hrun))]
    rfl
  · have hlast : QmlPalette.trimmed (last ++ first) = QmlPalette.trimmed first :=
      trim_append_blanks (spaces (mem_append_right _ (mem_singleton_self last)))
    rw [paletteStatements, paletteStatements, flatMap_append, hboth, hbody, map_append, map_cons,
      map_cons, hlast]

private theorem endsStatement_of_mem_unitsOf {c : Char} {u : QChar} (hu : u ∈ unitsOf c) :
    endsStatement u = Graphics.endsStatement c := by
  rw [endsStatement, withinStatement, Graphics.endsStatement, bne, bne,
    beq_of_mem_unitsOf lineFeed Qml.lineFeed rfl hu, beq_of_mem_unitsOf semicolon Qml.semicolon rfl hu, Bool.not_and,
    Bool.not_not, Bool.not_not]

/-- The statement a line begins with goes on past what is spelled within one. -/
theorem paletteStatements_inside {head : List Piece} (hplain : ∀ piece ∈ head, piece.plain = true)
    (hinside : ∀ piece ∈ head, piece.endsStatement = false) (tail : List Piece) :
    paletteStatements (head ++ tail) =
      QmlPalette.trimmed (units (head.flatMap Piece.toolLeft) ++
        (tail.flatMap Piece.paletteLeft).takeWhile (!endsStatement ·)) :: (paletteStatements tail).tail := by
  have hunits : ∀ u ∈ units (head.flatMap Piece.toolLeft), endsStatement u = false := by
    intro u hu
    obtain ⟨c, hc, hu⟩ := mem_flatMap.mp hu
    rw [endsStatement_of_mem_unitsOf hu]
    exact toolLeft_inside hinside c hc
  rw [paletteStatements, flatMap_append, paletteLeft_of_plain hplain, splitOnP_append_of_inside hunits,
    splitOnP_eq_takeWhile_cons endsStatement (tail.flatMap Piece.paletteLeft), modifyHead_cons,
    map_cons, map_tail]
  rfl

private theorem importedModule_of_not_matches {statement : Text} (h : matchesKeyword statement importKeyword true = false) :
    importedModule statement = none := by
  rw [importedModule, h]
  rfl

private theorem paletteModules_of_shared {line blank head tail : List Piece}
    (hinside : ∀ piece ∈ line, piece.endsStatement = false) (h : SharedImport line blank head tail spaces word) :
    paletteModules line = [units word] := by
  obtain ⟨empty, hempty, hstatements⟩ := paletteStatements_blank h.blank (head ++ tail)
  have hhead : ∀ piece ∈ head, piece.endsStatement = false := fun piece hpiece =>
    hinside piece (by rw [h.split]; simp [hpiece])
  have hnone : empty.filterMap importedModule = [] := by
    rw [filterMap_eq_nil_iff]
    intro statement hstatement
    rw [hempty statement hstatement, importedModule_nil]
  have hrest : (paletteStatements tail).tail.filterMap importedModule = [] := by
    rw [filterMap_eq_nil_iff]
    exact fun statement hstatement => importedModule_of_not_matches (h.rest statement hstatement)
  have hlast : ∀ u ∈ ((tail.flatMap Piece.paletteLeft).takeWhile (!endsStatement ·)).head?,
      Qml.isSpace u = true := by
    intro u hu
    apply h.paletteEnd u
    cases htail : tail.flatMap Piece.paletteLeft with
    | nil => simp [htail] at hu
    | cons v rest =>
      rw [htail, takeWhile_cons] at hu
      split at hu
      · exact hu
      · cases hu
  rw [paletteModules, h.split, append_assoc, hstatements, paletteStatements_inside h.plain hhead, h.text,
    filterMap_append, hnone, filterMap_cons_some
      (importedModule_of_spelled h.spaces_ne h.spaces h.word_ne h.word hlast), hrest]
  rfl

private theorem startsImport_of_importedModule {statement word : List Char}
    (h : Graphics.importedModule isalnum statement = some word) : startsImport isalnum statement = true := by
  rw [Graphics.importedModule] at h
  split at h
  · cases h
  · next hbegins =>
    dsimp only at h
    split at h
    · cases h
    · next hnext =>
      split at h
      · cases h
      · next hword =>
        cases hrest : statement.drop importWord.length with
        | nil => exact absurd (by rw [hrest]; rfl) hword
        | cons c rest => simp_all [startsImport]

/-- Where a line is silent or its import shared, the scans read the same of it. -/
theorem modules_of_readsAlike (hspaces : ∀ c, isSpace c = true → isalnum c = false)
    {line : List Piece} (hinside : ∀ piece ∈ line, piece.endsStatement = false) (h : ReadsAlike isalnum line) :
    paletteModules line = ((toolModule isalnum line).map units).toList := by
  rcases h with hsilent | ⟨blank, head, tail, spaces, word, hshared⟩
  · have htool : toolModule isalnum line = none := by
      rw [Option.eq_none_iff_forall_ne_some]
      intro word hword
      exact absurd (startsImport_of_importedModule hword) (by simp [hsilent.tool])
    rw [htool, paletteModules]
    exact filterMap_eq_nil_iff.mpr fun statement hstatement =>
      importedModule_of_not_matches (hsilent.palette statement hstatement)
  · rw [toolModule_of_shared hspaces hshared, paletteModules_of_shared hinside hshared]
    rfl

end

section
variable {line : List Piece}

/-- Where a line spells a text for the palette, it does so for the tooling, in plain pieces. -/
theorem spelled (hformed : ∀ piece ∈ line, piece.wellFormed = true)
    (hinside : ∀ piece ∈ line, piece.endsStatement = false) {text : List Char} {rest : Text}
    (htext : ∀ c ∈ text, isQuote c = false ∧ (c == lineFeed) = false)
    (h : line.flatMap Piece.paletteLeft = units text ++ rest) :
    ∃ head tail, line = head ++ tail ∧ (∀ piece ∈ head, piece.plain = true) ∧ head.flatMap Piece.toolLeft = text ∧
      tail.flatMap Piece.paletteLeft = rest := by
  induction line generalizing text with
  | nil => cases text with
    | nil => exact ⟨[], [], rfl, by simp, rfl, h⟩
    | cons c text => exact absurd h.symm (append_ne_nil_of_left_ne_nil (units_ne_nil (cons_ne_nil _ _)) _)
  | cons piece line ih => cases text with
    | nil => exact ⟨[], piece :: line, rfl, by simp, rfl, h⟩
    | cons c text =>
      have hformed' : ∀ p ∈ line, p.wellFormed = true := fun p hp => hformed p (mem_cons_of_mem _ hp)
      have hinside' : ∀ p ∈ line, p.endsStatement = false := fun p hp => hinside p (mem_cons_of_mem _ hp)
      have skip (hplain : piece.plain = true) (htool : piece.toolLeft = []) (hpalette : piece.paletteLeft = []) :
          ∃ head tail, piece :: line = head ++ tail ∧ (∀ p ∈ head, p.plain = true) ∧
            head.flatMap Piece.toolLeft = c :: text ∧ tail.flatMap Piece.paletteLeft = rest := by
        rw [flatMap_cons, hpalette, nil_append] at h
        obtain ⟨head, tail, hsplit, hhead, hleft, htail⟩ := ih hformed' hinside' htext h
        refine ⟨piece :: head, tail, by rw [hsplit, cons_append], ?_, by simp [htool, hleft], htail⟩
        intro p hp
        rcases mem_cons.mp hp with rfl | hp
        · exact hplain
        · exact hhead p hp
      obtain ⟨hquote, hfeed⟩ := htext c (mem_cons_self ..)
      -- the first unit of a character that is neither a quote nor a line feed is neither
      have no_feed {rest' : Text} : ¬ Qml.lineFeed :: rest' = units (c :: text) ++ rest := by
        rw [units_cons, append_assoc]
        intro heq
        have hunits : unitsOf lineFeed ++ rest' = unitsOf c ++ (units text ++ rest) := heq
        obtain ⟨rfl, -⟩ := unitsOf_append_inj hunits
        exact absurd hfeed (by decide)
      rw [flatMap_cons] at h
      have hpiece := hformed piece (mem_cons_self ..)
      cases piece with
      | mark => exact skip rfl rfl rfl
      | lineComment => exact skip rfl rfl rfl
      | lineEnd => exact absurd h no_feed
      | literal quote cut =>
        rw [Piece.paletteLeft, units_cons quote, units_cons c, append_assoc, append_assoc] at h
        obtain ⟨rfl, -⟩ := unitsOf_append_inj h
        exact absurd hpiece (by simp [Piece.wellFormed, hquote])
      | blockComment lineEnds => cases lineEnds with
        | zero => exact skip rfl rfl rfl
        | succ lineEnds => exact absurd h no_feed
      | char d =>
        rw [Piece.paletteLeft] at h
        cases hsep : isSeparator d with
        | true =>
          rw [hsep, if_pos rfl] at h
          exact absurd h no_feed
        | false =>
          rw [hsep, if_neg Bool.false_ne_true, units_cons, append_assoc] at h
          obtain ⟨rfl, hrest⟩ := unitsOf_append_inj h
          obtain ⟨head, tail, hsplit, hhead, hleft, htail⟩ :=
            ih hformed' hinside' (fun e he => htext e (mem_cons_of_mem _ he)) hrest
          refine ⟨.char d :: head, tail, by rw [hsplit, cons_append], ?_, by simp [Piece.toolLeft, hleft], htail⟩
          intro p hp
          rcases mem_cons.mp hp with rfl | hp
          · simp [Piece.plain, hsep]
          · exact hhead p hp

variable {isalnum : Char → Bool}

private theorem silent_of_no_modules (htool : toolModule isalnum line = none)
    (hpalette : paletteModules line = []) : Silent isalnum line := by
  constructor
  · apply Bool.eq_false_of_not_eq_true
    intro hstarts
    obtain ⟨hbegins, hnext⟩ := Bool.and_eq_true_iff.mp hstarts
    obtain ⟨rest, hrest⟩ := isPrefixOf_iff_prefix.mp hbegins
    have hdrop : (toolStatement line).drop importWord.length = rest := by rw [← hrest, drop_left]
    rw [hdrop] at hnext
    cases rest with
    | nil => cases hnext
    | cons c rest =>
      have hword : firstWord isSpace (c :: rest) ≠ [] := firstWord_ne_nil_of_trim hrest.symm (cons_ne_nil _ _)
      rw [toolModule, Graphics.importedModule, hbegins, hdrop] at htool
      simp_all
  · intro statement hstatement
    have hnone := filterMap_eq_nil_iff.mp hpalette statement hstatement
    rw [importedModule] at hnone
    split at hnone
    · cases hnone
    · next hmatch => simpa using hmatch

variable {isLetterOrNumber : QChar → Bool} {modules : List Text} {source : List Char}

theorem header_of_accepted (hwhole : ∀ piece ∈ pieces source, piece.cut = false)
    (haccept : isAcceptable isLetterOrNumber modules (units source) = .ok ())
    (hline : line ∈ linesOf source) {before after : List Text} {statement : Text}
    (hsplit : paletteStatements line = before ++ statement :: after)
    (hmatch : matchesKeyword statement importKeyword true = true) :
    (∀ s ∈ before, s ≠ [] → matchesKeyword s importKeyword true = true ∨ matchesKeyword s pragmaKeyword false = true) ∧
      firstWord Qml.isSpace (statement.drop importKeyword.length) ≠ [] ∧
      ∀ u ∈ (firstWord Qml.isSpace (statement.drop importKeyword.length)).head?,
        u ≠ Qml.quotation ∧ u ≠ Qml.apostrophe := by
  have hne : (!statement.isEmpty) = true := by
    cases statement with
    | nil => cases hmatch
    | cons u statement => rfl
  obtain ⟨earlier, later, hlines⟩ := append_of_mem hline
  have htexts := statementsOf_text hwhole
  rw [hlines, flatMap_append, flatMap_cons, hsplit, append_assoc, cons_append, ← append_assoc,
    filter_append, filter_cons_of_pos (p := fun x : Text => !x.isEmpty) hne, map_eq_append_iff] at htexts
  obtain ⟨first, rest, hstatements, hfirst, hrest⟩ := htexts
  obtain ⟨s, last, rfl, rfl, -⟩ := map_eq_cons_iff.mp hrest
  rw [isAcceptable, hstatements] at haccept
  cases hcheck : checkStatements modules false [] (first ++ s :: last) with
  | error reason =>
    rw [hcheck] at haccept
    cases haccept
  | ok approved =>
    obtain ⟨-, hheader, himports⟩ := header_of_checkStatements hcheck hmatch
    refine ⟨?_, himports.some_word, himports.named⟩
    intro t ht hnonempty
    have hmem : t ∈ first.map (·.text) := by
      rw [hfirst, filter_append]
      apply mem_append_right
      rw [mem_filter]
      exact ⟨ht, by simpa using hnonempty⟩
    obtain ⟨s', hs', rfl⟩ := mem_map.mp hmem
    exact hheader s' hs'

variable {word : List Char}

private theorem spelled_of_toolModule (h : toolModule isalnum line = some word) :
    ∃ rest, toolStatement line = importWord ++ rest ∧ firstWord isSpace rest = word ∧ word ≠ [] := by
  rw [toolModule, Graphics.importedModule] at h
  split at h
  · cases h
  · next hbegins =>
    have hstarts : importWord.isPrefixOf (toolStatement line) = true := by simpa using hbegins
    obtain ⟨rest, hrest⟩ := isPrefixOf_iff_prefix.mp hstarts
    have hdrop : (toolStatement line).drop importWord.length = rest := by rw [← hrest, drop_left]
    rw [hdrop] at h
    dsimp only at h
    split at h
    · cases h
    · split at h
      · cases h
      · next hword =>
        obtain rfl := Option.some.inj h
        exact ⟨rest, hrest.symm, rfl, by simpa using hword⟩

variable {piece : Piece}

/-- The piece a line begins with, blanks aside, begins a statement of the palette's. -/
theorem leads (hformed : piece.wellFormed = true) (hinside : piece.endsStatement = false)
    (hvisible : ¬ ∀ u ∈ piece.paletteLeft, Qml.isSpace u = true) :
    (∃ v us, piece.paletteLeft = v :: us ∧ Qml.isSpace v = false ∧ (v = 0x70 → piece = .char 'p')) ∧
      ∀ u ∈ piece.paletteLeft, endsStatement u = false := by
  cases piece with
  | mark | lineComment => exact absurd (by simp [Piece.paletteLeft]) hvisible
  | lineEnd => cases hinside
  | blockComment lineEnds =>
    apply absurd _ hvisible
    intro u hu
    obtain rfl := eq_of_mem_replicate hu
    decide
  | literal quote cut =>
    have hquote : (quote = quotation ∨ quote = apostrophe) ∨ quote = backtick := by
      simpa [Piece.wellFormed, isQuote] using hformed
    rcases hquote with (rfl | rfl) | rfl
    · have hstop : ∀ u ∈ units [quotation, quotation], endsStatement u = false := eq_false_of_all (by decide)
      exact ⟨⟨Qml.quotation, [Qml.quotation], rfl, by decide, fun h => absurd h (by decide)⟩, hstop⟩
    · have hstop : ∀ u ∈ units [apostrophe, apostrophe], endsStatement u = false := eq_false_of_all (by decide)
      exact ⟨⟨Qml.apostrophe, [Qml.apostrophe], rfl, by decide, fun h => absurd h (by decide)⟩, hstop⟩
    · have hstop : ∀ u ∈ units [backtick, backtick], endsStatement u = false := eq_false_of_all (by decide)
      exact ⟨⟨Qml.backtick, [Qml.backtick], rfl, by decide, fun h => absurd h (by decide)⟩, hstop⟩
  | char c =>
    rw [Piece.paletteLeft] at hvisible ⊢
    cases hsep : isSeparator c with
    | true =>
      rw [hsep, if_pos rfl] at hvisible
      exact absurd (all_eq_true.mp (by decide)) hvisible
    | false =>
      rw [hsep, if_neg Bool.false_ne_true] at hvisible
      rw [if_neg Bool.false_ne_true]
      obtain ⟨v, us, hunits⟩ := exists_cons_of_ne_nil (unitsOf_ne_nil c)
      have hv : v ∈ unitsOf c := by simp [hunits]
      refine ⟨⟨v, us, hunits, ?_, ?_⟩, fun u hu => (endsStatement_of_mem_unitsOf hu).trans hinside⟩
      · have hencoded := encoded c
        rw [hunits] at hencoded hvisible
        cases hencoded with
        | unit _ _ => simpa using hvisible
        | pair _ low hhigh _ _ => exact hhigh.isSpace
      · intro hletter
        have hc := beq_of_mem_unitsOf 'p' 0x70 rfl hv
        rw [hletter, beq_self_eq_true] at hc
        rw [eq_of_beq hc.symm]

private theorem visible_of_modules (h : paletteModules line ≠ []) :
    ∃ blank piece body, line = blank ++ piece :: body ∧ (∀ u ∈ blank.flatMap Piece.paletteLeft, Qml.isSpace u = true) ∧
      ¬ ∀ u ∈ piece.paletteLeft, Qml.isSpace u = true := by
  have hblank : ∀ u ∈ (line.takeWhile (·.paletteLeft.all Qml.isSpace)).flatMap Piece.paletteLeft,
      Qml.isSpace u = true := by
    intro u hu
    obtain ⟨piece, hpiece, hu⟩ := mem_flatMap.mp hu
    have hall := mem_takeWhile_imp hpiece
    exact all_eq_true.mp hall u hu
  have hsplit := (takeWhile_append_dropWhile (p := (·.paletteLeft.all Qml.isSpace)) (l := line)).symm
  cases hbody : line.dropWhile (·.paletteLeft.all Qml.isSpace) with
  | nil =>
    obtain ⟨empty, hempty, hstatements⟩ := paletteStatements_blank hblank []
    rw [hbody] at hsplit
    apply absurd _ h
    rw [paletteModules, hsplit, hstatements, filterMap_eq_nil_iff]
    intro statement hstatement
    rcases mem_append.mp hstatement with hstatement | hstatement
    · rw [hempty statement hstatement, importedModule_nil]
    · obtain rfl : statement = [] := by simpa [paletteStatements, QmlPalette.trimmed, trim] using hstatement
      exact importedModule_nil
  | cons piece body =>
    refine ⟨_, piece, body, hbody ▸ hsplit, hblank, ?_⟩
    have hhead := List.head?_dropWhile_not (·.paletteLeft.all Qml.isSpace) line
    rw [hbody] at hhead
    simpa using hhead

/-- A statement the palette takes for an import is not the one a pragma takes the place of. -/
theorem matches_of_modules (hwhole : ∀ piece ∈ pieces source, piece.cut = false)
    (haccept : isAcceptable isLetterOrNumber modules (units source) = .ok ())
    (hline : line ∈ linesOf source) (htool : toolModule isalnum line = some word)
    {blank body : List Piece} (hsplit : line = blank ++ piece :: body)
    (hblank : ∀ u ∈ blank.flatMap Piece.paletteLeft, Qml.isSpace u = true) {v : QChar} {empty rest : List Text}
    {first : Text} (hstatements : paletteStatements line = empty ++ (v :: first) :: rest)
    (hletter : v = 0x70 → piece = .char 'p') (hrest : ∃ s ∈ rest, matchesKeyword s importKeyword true = true) :
    matchesKeyword (v :: first) importKeyword true = true := by
  obtain ⟨s, hs, hmatch⟩ := hrest
  obtain ⟨between, after, hbetween⟩ := append_of_mem hs
  have hsplit' : paletteStatements line = (empty ++ (v :: first) :: between) ++ s :: after := by
    rw [hstatements, hbetween, append_assoc, cons_append]
  obtain ⟨hheader, -, -⟩ := header_of_accepted hwhole haccept hline hsplit' hmatch
  rcases hheader (v :: first) (by simp) (cons_ne_nil _ _) with himport | hpragma
  · exact himport
  · -- the pragma would begin the tooling's statement too
    have hv : v = 0x70 := by
      rw [matchesKeyword] at hpragma
      split at hpragma
      · cases hpragma
      · next hbegins =>
        have hstarts : pragmaKeyword.isPrefixOf (v :: first) = true := by simpa using hbegins
        obtain ⟨after, hafter⟩ := isPrefixOf_iff_prefix.mp hstarts
        exact (List.cons.inj hafter).1.symm
    obtain ⟨rest, hspelled, -, -⟩ := spelled_of_toolModule htool
    have hp : ∀ c ∈ ['p'], isSpace c = false := eq_false_of_all (by decide)
    have htext : line.flatMap Piece.toolLeft =
        blank.flatMap Piece.toolLeft ++ (['p'] ++ body.flatMap Piece.toolLeft) := by
      rw [hsplit, hletter hv, flatMap_append, flatMap_cons]
      rfl
    rw [toolStatement, htext, trim_append_blanks (toolLeft_of_blank hblank),
      trim_word_append (cons_ne_nil _ _) hp] at hspelled
    have hfirst : 'p' = 'i' := (List.cons.inj hspelled).1
    exact absurd hfirst (by decide)

/-- What a line leaves that ends a statement is a line feed. -/
theorem isSpace_of_endsStatement (hformed : ∀ piece ∈ line, piece.wellFormed = true)
    (hinside : ∀ piece ∈ line, piece.endsStatement = false) {u : QChar} (hu : u ∈ line.flatMap Piece.paletteLeft)
    (h : endsStatement u = true) : Qml.isSpace u = true := by
  obtain ⟨piece, hpiece, hu⟩ := mem_flatMap.mp hu
  cases hspace : Qml.isSpace u with
  | true => rfl
  | false =>
    have hvisible : ¬ ∀ v ∈ piece.paletteLeft, Qml.isSpace v = true := by
      intro hall
      exact absurd (hall u hu) (by simp [hspace])
    exact absurd h (by simp [(leads (hformed piece hpiece) (hinside piece hpiece) hvisible).2 u hu])

private theorem exists_units_of_spaces {us : Text} (h : ∀ u ∈ us, Qml.isSpace u = true) : ∃ text, units text = us := by
  induction us with
  | nil => exact ⟨[], rfl⟩
  | cons u us ih =>
    obtain ⟨text, htext⟩ := ih fun v hv => h v (mem_cons_of_mem _ hv)
    have hlow : u.toNat < 0xD800 := by
      have hspace := h u (mem_cons_self ..)
      rw [Qml.isSpace] at hspace
      simp only [Bool.or_eq_true, Bool.and_eq_true, beq_iff_eq, decide_eq_true_eq, UInt16.le_iff_toNat_le,
        ← UInt16.toNat_inj, UInt16.toNat_ofNat] at hspace
      omega
    have hvalid : u.toNat.isValidChar := .inl hlow
    have hchar : (Char.ofNat u.toNat).toNat = u.toNat := by
      rw [Char.ofNat, dif_pos hvalid]
      rfl
    have hunits : unitsOf (Char.ofNat u.toNat) = [u] := by
      rw [unitsOf, hchar, if_pos (Nat.lt_trans hlow (by decide)), UInt16.ofNat_toNat]
    refine ⟨Char.ofNat u.toNat :: text, ?_⟩
    rw [units_cons, hunits, htext]
    rfl

private theorem toolLeft_letters (hformed : ∀ piece ∈ line, piece.wellFormed = true)
    (hinside : ∀ piece ∈ line, piece.endsStatement = false) :
    ∀ c ∈ line.flatMap Piece.toolLeft, isQuote c = false ∧ (c == lineFeed) = false := by
  intro c hc
  obtain ⟨piece, hpiece, hleft⟩ := mem_flatMap.mp hc
  refine ⟨?_, (Bool.or_eq_false_iff.mp (toolLeft_inside hinside c hc)).1⟩
  have hwell := hformed piece hpiece
  cases piece with
  | char d =>
    obtain rfl := mem_singleton.mp hleft
    simpa [Piece.wellFormed] using hwell
  | lineEnd =>
    obtain rfl := mem_singleton.mp hleft
    decide
  | mark | literal | lineComment | blockComment => cases hleft

theorem text_of_importedModule {statement word : Text} (h : importedModule statement = some word)
    (hne : firstWord Qml.isSpace (statement.drop importKeyword.length) ≠ [])
    (hnamed : ∀ u ∈ (firstWord Qml.isSpace (statement.drop importKeyword.length)).head?,
      u ≠ Qml.quotation ∧ u ≠ Qml.apostrophe) :
    ∃ spaces rest, statement = importKeyword ++ spaces ++ word ++ rest ∧ spaces ≠ [] ∧
      (∀ u ∈ spaces, Qml.isSpace u = true) ∧ ∀ u ∈ rest.head?, Qml.isSpace u = true := by
  rw [importedModule] at h
  split at h
  · next hmatch =>
    rw [matchesKeyword] at hmatch
    split at hmatch
    · cases hmatch
    · next hbegins =>
      have hstarts : importKeyword.isPrefixOf statement = true := by simpa using hbegins
      obtain ⟨after, rfl⟩ := isPrefixOf_iff_prefix.mp hstarts
      rw [drop_left] at hmatch h hne hnamed
      have hword : firstWord Qml.isSpace after = word := by
        rw [← Option.some.inj h, QmlPalette.trimmed, takeWhile_trim]
      obtain ⟨rest, hsplit, hrest⟩ := eq_firstWord_append Qml.isSpace after
      refine ⟨after.takeWhile Qml.isSpace, rest, ?_, ?_, ?_, hrest⟩
      · rw [← hword, append_assoc, append_assoc, ← append_assoc (after.takeWhile Qml.isSpace), ← hsplit]
      · cases after with
        | nil => exact absurd rfl hne
        | cons u after =>
          have hspace : Qml.isSpace u = true := by
            cases hspace : Qml.isSpace u with
            | true => rfl
            | false =>
              have hhead : (firstWord Qml.isSpace (u :: after)).head? = some u := by simp [firstWord, hspace]
              have hquote := hnamed u hhead
              simp only [hspace, Bool.false_or, Bool.true_and, Bool.or_eq_true, beq_iff_eq] at hmatch
              exact absurd hmatch (not_or.mpr hquote)
          simp [hspace]
      · exact fun u hu => mem_takeWhile_imp hu
  · cases h

private theorem first_statement (body : List Piece) {v : QChar} {us : Text}
    (hleft : piece.paletteLeft = v :: us) (hv : Qml.isSpace v = false) (hstop : endsStatement v = false) :
    ∃ first blanks after, (piece :: body).flatMap Piece.paletteLeft = v :: first ++ blanks ++ after ∧
      paletteStatements (piece :: body) = (v :: first) :: (paletteStatements (piece :: body)).tail ∧
      (∀ u ∈ v :: first, endsStatement u = false) ∧ (∀ u ∈ blanks, Qml.isSpace u = true) ∧
      ∀ u ∈ after.head?, endsStatement u = true := by
  have htext : (piece :: body).flatMap Piece.paletteLeft = v :: (us ++ body.flatMap Piece.paletteLeft) := by
    rw [flatMap_cons, hleft, cons_append]
  have htake : ((piece :: body).flatMap Piece.paletteLeft).takeWhile (!endsStatement ·) =
      v :: (us ++ body.flatMap Piece.paletteLeft).takeWhile (!endsStatement ·) := by
    rw [htext, takeWhile_cons_of_pos (by simp [hstop])]
  have hword : ∀ u ∈ [v], Qml.isSpace u = false := by simpa using hv
  obtain ⟨blanks, hblanks, hends⟩ := exists_rdropWhile_append Qml.isSpace
    ((us ++ body.flatMap Piece.paletteLeft).takeWhile (!endsStatement ·))
  refine ⟨((us ++ body.flatMap Piece.paletteLeft).takeWhile (!endsStatement ·)).rdropWhile Qml.isSpace,
    blanks, ((piece :: body).flatMap Piece.paletteLeft).dropWhile (!endsStatement ·), ?_, ?_, ?_, hblanks, ?_⟩
  · rw [cons_append, ← hends, ← htake, takeWhile_append_dropWhile]
  · have htrim := trim_word_append (cons_ne_nil v []) hword
      ((us ++ body.flatMap Piece.paletteLeft).takeWhile (!endsStatement ·))
    rw [paletteStatements_eq, htake]
    exact congrArg (· :: _) htrim
  · intro u hu
    rcases mem_cons.mp hu with rfl | hu
    · exact hstop
    · have htaken := mem_takeWhile_imp (( rdropWhile_prefix _ _).subset hu)
      simpa using htaken
  · intro u hu
    have hhead := List.head?_dropWhile_not (!endsStatement ·) ((piece :: body).flatMap Piece.paletteLeft)
    rw [Option.mem_def.mp hu] at hhead
    simpa using hhead

private theorem paletteModules_of_empty {empty statements : List Text}
    (hstatements : paletteStatements line = empty ++ statements) (hempty : ∀ statement ∈ empty, statement = []) :
    paletteModules line = statements.filterMap importedModule := by
  have hnone : empty.filterMap importedModule = [] := by
    rw [filterMap_eq_nil_iff]
    intro statement hstatement
    rw [hempty statement hstatement, importedModule_nil]
  rw [paletteModules, hstatements, filterMap_append, hnone, nil_append]

/-- Where both readers find a module, the first statement the palette reads is the import. -/
theorem matches_first (hwhole : ∀ piece ∈ pieces source, piece.cut = false)
    (haccept : isAcceptable isLetterOrNumber modules (units source) = .ok ())
    (hline : line ∈ linesOf source) (htool : toolModule isalnum line = some word)
    {blank body : List Piece} (hsplit : line = blank ++ piece :: body)
    (hblank : ∀ u ∈ blank.flatMap Piece.paletteLeft, Qml.isSpace u = true) {v : QChar} {empty rest : List Text}
    {first : Text} (hstatements : paletteStatements line = empty ++ (v :: first) :: rest)
    (hletter : v = 0x70 → piece = .char 'p')
    (hmodules : ((v :: first) :: rest).filterMap importedModule ≠ []) :
    matchesKeyword (v :: first) importKeyword true = true := by
  cases hmatch : matchesKeyword (v :: first) importKeyword true with
  | true => rfl
  | false =>
    rw [filterMap_cons_none (importedModule_of_not_matches hmatch)] at hmodules
    obtain ⟨named, hmem⟩ := exists_mem_of_ne_nil _ hmodules
    obtain ⟨s, hs, hmodule⟩ := mem_filterMap.mp hmem
    have hlater : matchesKeyword s importKeyword true = true := by
      cases hlater : matchesKeyword s importKeyword true with
      | true => rfl
      | false =>
        rw [importedModule_of_not_matches hlater] at hmodule
        cases hmodule
    rw [← hmatch]
    exact matches_of_modules hwhole haccept hline htool hsplit hblank hstatements hletter ⟨s, hs, hlater⟩

/-- An import's keyword, spaces and word have no quote and no line's end among them. -/
theorem import_letters (hformed : ∀ piece ∈ line, piece.wellFormed = true)
    (hinside : ∀ piece ∈ line, piece.endsStatement = false) {spaces word : List Char}
    (hspaces : ∀ u ∈ units spaces, Qml.isSpace u = true ∧ endsStatement u = false)
    (hword : ∀ c ∈ word, c ∈ toolStatement line) :
    ∀ c ∈ importWord ++ spaces ++ word, isQuote c = false ∧ (c == lineFeed) = false := by
  intro c hc
  rcases mem_append.mp hc with hc | hc
  · rcases mem_append.mp hc with hc | hc
    · exact ⟨eq_false_of_all importWord_letters.1 c hc, eq_false_of_all importWord_letters.2 c hc⟩
    · obtain ⟨u, us, hu⟩ := exists_cons_of_ne_nil (unitsOf_ne_nil c)
      have hmem : u ∈ unitsOf c := by simp [hu]
      obtain ⟨hspace, hends⟩ := hspaces u (mem_flatMap.mpr ⟨c, hc, hmem⟩)
      rw [endsStatement_of_mem_unitsOf hmem] at hends
      exact ⟨(isQuote_of_mem_unitsOf hmem).symm.trans (opensNothing hspace).1,
        (Bool.or_eq_false_iff.mp hends).1⟩
  · exact toolLeft_letters hformed hinside c (mem_of_mem_trim (hword c hc))

/-- What the tool reads after the word begins with a space. -/
theorem toolEnd_of_spelled {line blank head tail : List Piece} {spaces word rest : List Char}
    (hsplit : line = blank ++ (head ++ tail))
    (hblank : ∀ u ∈ blank.flatMap Piece.paletteLeft, Qml.isSpace u = true)
    (hhead : head.flatMap Piece.toolLeft = importWord ++ spaces ++ word)
    (hspaces : ∀ u ∈ units spaces, Qml.isSpace u = true) (hwordNe : word ≠ []) (hword : ∀ c ∈ word, isSpace c = false)
    (hspelled : toolStatement line = importWord ++ rest) (hfirstWord : firstWord isSpace rest = word) :
    ∀ c ∈ (tail.flatMap Piece.toolLeft).head?, isSpace c = true := by
  have htools : line.flatMap Piece.toolLeft = blank.flatMap Piece.toolLeft ++
      (importWord ++ (spaces ++ word ++ tail.flatMap Piece.toolLeft)) := by
    rw [hsplit, flatMap_append, flatMap_append, hhead]
    simp only [append_assoc]
  rw [toolStatement, htools, trim_append_blanks (toolLeft_of_blank hblank),
    trim_word_append importWord_ne importWord_word] at hspelled
  have hstop : word ++ (tail.flatMap Piece.toolLeft).takeWhile (!isSpace ·) = word := by
    rw [← firstWord_append (isSpace_of_units hspaces) hwordNe hword, ← firstWord_rdropWhile,
      append_cancel_left hspelled, hfirstWord]
  intro c hc
  obtain ⟨others, hothers⟩ := List.head?_eq_some_iff.mp hc
  rw [append_right_eq_self, hothers, takeWhile_cons] at hstop
  simpa using hstop

theorem shared_of_modules (hwhole : ∀ piece ∈ pieces source, piece.cut = false)
    (haccept : isAcceptable isLetterOrNumber modules (units source) = .ok ())
    (hline : line ∈ linesOf source) (htool : toolModule isalnum line = some word)
    (hpalette : paletteModules line = [units word]) :
    ∃ blank head tail spaces word, SharedImport line blank head tail spaces word := by
  have hmodules : paletteModules line ≠ [] := by simp [hpalette]
  obtain ⟨blank, piece, body, hsplit, hblank, hvisible⟩ := visible_of_modules hmodules
  have hinside : ∀ p ∈ line, p.endsStatement = false := inside_of_mem_linesOf hline
  have hformed : ∀ p ∈ line, p.wellFormed = true := fun p hp => wellFormed_of_mem (mem_splitOnP hline p hp).2
  have hbody : ∀ p ∈ piece :: body, p ∈ line := fun p hp => hsplit ▸ mem_append_right _ hp
  obtain ⟨⟨v, us, hleft, hv, hletter⟩, hstop⟩ :=
    leads (hformed piece (hbody piece (mem_cons_self ..))) (hinside piece (hbody piece (mem_cons_self ..)))
      hvisible
  obtain ⟨first, blanks, after, htext, hfirst, hwithin, hblanks, hafter⟩ :=
    first_statement body hleft hv (hstop v (by simp [hleft]))
  obtain ⟨empty, hempty, hstatements⟩ := paletteStatements_blank hblank (piece :: body)
  rw [← hsplit, hfirst] at hstatements
  rw [paletteModules_of_empty hstatements hempty] at hpalette hmodules
  have hmatch := matches_first hwhole haccept hline htool hsplit hblank hstatements hletter hmodules
  obtain ⟨-, hne, hnamed⟩ := header_of_accepted hwhole haccept hline hstatements hmatch
  have hmodule : importedModule (v :: first) =
      some (firstWord Qml.isSpace ((v :: first).drop importKeyword.length)) := by
    rw [importedModule, hmatch, if_pos rfl, QmlPalette.trimmed, takeWhile_trim]
  rw [filterMap_cons_some hmodule] at hpalette
  obtain ⟨hword, hothers⟩ := List.cons.inj hpalette
  rw [hword] at hmodule
  obtain ⟨spaceUnits, ends, hstatement, hspacesNe, hspaces, hends⟩ := text_of_importedModule hmodule hne hnamed
  obtain ⟨spaces, rfl⟩ := exists_units_of_spaces hspaces
  obtain ⟨rest, hspelled, hfirstWord, hwordNe⟩ := spelled_of_toolModule htool
  have hwordSpace : ∀ c ∈ word, isSpace c = false := fun c hc => (mem_firstWord (hfirstWord ▸ hc)).2
  have hunits : (piece :: body).flatMap Piece.paletteLeft =
      units (importWord ++ spaces ++ word) ++ (ends ++ blanks ++ after) := by
    rw [htext, hstatement, units_append, units_append, units_importWord]
    simp only [append_assoc]
  have hletters : ∀ c ∈ importWord ++ spaces ++ word, isQuote c = false ∧ (c == lineFeed) = false := by
    apply import_letters hformed hinside
    · exact fun u hu => ⟨hspaces u hu, hwithin u (by rw [hstatement]; simp [hu])⟩
    · intro c hc
      rw [hspelled]
      exact mem_append_right _ (mem_firstWord (hfirstWord ▸ hc)).1
  obtain ⟨head, tail, hhead, hplain, hheadText, htail⟩ :=
    spelled (fun p hp => hformed p (hbody p hp)) (fun p hp => hinside p (hbody p hp)) hletters hunits
  have hwhere : line = blank ++ (head ++ tail) := by rw [hsplit, hhead]
  refine ⟨blank, head, tail, spaces, word, ?_⟩
  refine ⟨by rw [hwhere, append_assoc], hblank, hplain, hheadText, ?_, hspaces, hwordNe, hwordSpace,
    toolEnd_of_spelled hwhere hblank hheadText hspaces hwordNe hwordSpace hspelled hfirstWord, ?_, ?_⟩
  · rintro rfl
    exact hspacesNe rfl
  · rw [htail]
    intro u hu
    cases ends with
    | cons v ends => exact hends u hu
    | nil => cases blanks with
      | cons v blanks =>
        obtain rfl : v = u := by simpa using hu
        exact hblanks v (mem_cons_self ..)
      | nil =>
        apply isSpace_of_endsStatement hformed hinside _ (hafter u hu)
        rw [hsplit, flatMap_append, htext]
        obtain ⟨others, rfl⟩ := List.head?_eq_some_iff.mp hu
        simp
  · have hinsideHead : ∀ p ∈ head, p.endsStatement = false := fun p hp =>
      hinside p (hbody p (by rw [hhead]; exact mem_append_left _ hp))
    intro statement hstatement
    have hnone := congrArg List.tail (paletteStatements_inside hplain hinsideHead tail)
    rw [← hhead, tail_cons] at hnone
    have hmodules := filterMap_eq_nil_iff.mp hothers statement (hnone ▸ hstatement)
    rw [importedModule] at hmodules
    split at hmodules
    · cases hmodules
    · next hmatch => simpa using hmatch

private theorem readsAlike_iff (hspaces : ∀ c, isSpace c = true → isalnum c = false)
    (hwhole : ∀ piece ∈ pieces source, piece.cut = false)
    (haccept : isAcceptable isLetterOrNumber modules (units source) = .ok ())
    (hline : line ∈ linesOf source) :
    ReadsAlike isalnum line ↔ paletteModules line = ((toolModule isalnum line).map units).toList := by
  constructor
  · exact modules_of_readsAlike hspaces (inside_of_mem_linesOf hline)
  · intro hmodules
    cases htool : toolModule isalnum line with
    | none =>
      rw [htool] at hmodules
      exact .inl (silent_of_no_modules htool hmodules)
    | some word =>
      rw [htool] at hmodules
      exact .inr (shared_of_modules hwhole haccept hline htool hmodules)

/-- A page no piece of which is cut, and whose lines are silent or shared, has the same imports for
both scans; on a line that is neither they read different ones. -/
theorem scans_read_alike {isalnum : Char → Bool} (hspaces : ∀ c, isSpace c = true → isalnum c = false)
    {isLetterOrNumber : QChar → Bool} {modules : List Text} {source : QString}
    (hwhole : ∀ piece ∈ pieces source.toList, piece.cut = false)
    (haccept : QmlPalette.isAcceptable isLetterOrNumber modules (toUtf16 source) = .ok ()) :
    ((∀ line ∈ linesOf source.toList, ReadsAlike isalnum line) →
      QmlPalette.importedModules (toUtf16 source) =
        (Graphics.importedModules isalnum (stripped source.toList)).map units) ∧
    ∀ line ∈ linesOf source.toList,
      ReadsAlike isalnum line ↔ paletteModules line = ((toolModule isalnum line).map units).toList := by
  rw [toUtf16_eq] at haccept ⊢
  constructor
  · intro hlines
    rw [palette_importedModules hwhole, tool_importedModules, map_filterMap, filterMap_eq_flatMap_toList]
    apply flatMap_congr
    intro line hline
    exact modules_of_readsAlike hspaces (inside_of_mem_linesOf hline) (hlines line hline)
  · intro line hline
    exact readsAlike_iff hspaces hwhole haccept hline

/-- A heading comment that spans lines, an import below it, and a string that spells one. -/
def headedPage : QString := "/*\n*/ import Qt // Qt\nA\x7b'import B;'\x7d"

def asciiAlnum (c : Char) : Bool :=
  (0x30 ≤ c.toNat && c.toNat ≤ 0x39) || (0x41 ≤ c.toNat && c.toNat ≤ 0x5A) || (0x61 ≤ c.toNat && c.toNat ≤ 0x7A)

private theorem asciiAlnum_of_isSpace (c : Char) (h : isSpace c = true) : asciiAlnum c = false := by
  rw [isSpace] at h
  apply Bool.eq_false_of_not_eq_true
  intro halnum
  rw [asciiAlnum] at halnum
  simp only [Bool.or_eq_true, Bool.and_eq_true, beq_iff_eq, decide_eq_true_eq] at h halnum
  omega

def headedImport : List Piece := .blockComment 1 :: (" import Qt ".toList.map .char ++ [.lineComment false])

def headedBody : List Piece := [.char 'A', .char '\x7b', .literal apostrophe false, .char '\x7d']

private theorem headedImport_shared : SharedImport headedImport (headedImport.take 2) ((headedImport.drop 2).take 9)
    (headedImport.drop 11) [' '] "Qt".toList where
  split := by decide
  blank := all_eq_true.mp (by decide)
  plain := by decide
  text := by decide
  spaces_ne := by decide
  spaces := all_eq_true.mp (by decide)
  word_ne := by decide
  word := eq_false_of_all (by decide)
  toolEnd := by
    rintro c ⟨⟩
    decide
  paletteEnd := by
    rintro u ⟨⟩
    decide
  rest := by decide

theorem scans_read_alike_headed :
    QmlPalette.importedModules (toUtf16 headedPage) =
      (Graphics.importedModules asciiAlnum (stripped headedPage.toList)).map units := by
  have hbody : Silent asciiAlnum headedBody := ⟨by decide, by decide⟩
  have hlines : linesOf headedPage.toList = [headedImport, headedBody] := by decide
  have haccept : QmlPalette.isAcceptable QmlPalette.asciiLetterOrNumber [utf16 "Qt"] (toUtf16 headedPage) = .ok () := by
    decide
  refine (scans_read_alike asciiAlnum_of_isSpace (by decide) haccept).1 ?_
  intro line hline
  rw [hlines] at hline
  rcases mem_pair.mp hline with rfl | rfl
  · exact .inr ⟨_, _, _, _, _, headedImport_shared⟩
  · exact .inl hbody

/-- A separator ends the statement for the palette, and a word for the tooling. -/
theorem separator_reads_apart :
    QmlPalette.isAcceptable QmlPalette.asciiLetterOrNumber [utf16 "A", utf16 "B"] (toUtf16 "import A\u2028import B") =
        .ok () ∧
      QmlPalette.importedModules (toUtf16 "import A\u2028import B") ≠
        (Graphics.importedModules asciiAlnum (stripped "import A\u2028import B".toList)).map units := by
  decide

/-- A comment that spans lines, a literal left open and a literal within the keyword are read apart too. -/
example :
    ["import A/*\n*/import B", "import A \"\nimport B", "im''port A"].all fun page =>
      QmlPalette.isAcceptable QmlPalette.asciiLetterOrNumber [utf16 "A", utf16 "B"] (toUtf16 page) = .ok () ∧
        QmlPalette.importedModules (toUtf16 page) ≠
          (Graphics.importedModules asciiAlnum (stripped page.toList)).map units := by
  decide

end
end QmlScan
end SynQt
