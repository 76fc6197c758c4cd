import SynQt.Client.QmlPalette

namespace SynQt.QmlPalette
open List
open Qml (Element ReadsImport leftOf lineFeed carriageReturn byteOrderMark quotation apostrophe backtick backslash
  slash isTerminator isSpace isQuote literalEnd commentEnd elementsFrom elements targetOf ImportTarget)

section
/-- Templates aside, where a hidden pair does not end the literal. -/
def hidesPair : Element → Bool
  | .literal quote continued => continued && quote != backtick
  | _ => false

def Unescaped (es : List Element) : Prop := ∀ e ∈ es, hidesPair e = false

theorem Unescaped.tail {e : Element} {es : List Element} (h : Unescaped (e :: es)) : Unescaped es :=
  fun d hd => h d (mem_cons_of_mem _ hd)

/-- In a template the LF of a pair is read over whether the escape hides it or not. -/
theorem consumeString_pair {text : Text} (h : text.take 2 = [carriageReturn, lineFeed]) :
    consumeString backtick 1 text = consumeString backtick 2 text := by
  match text, h with
  | c :: d :: rest, h =>
    obtain ⟨rfl, rfl⟩ : c = carriageReturn ∧ d = lineFeed := by simpa using h
    simp [consumeString, lineFeed, backslash, backtick]

private theorem consumeString_eq {quote : QChar} {hidden : Nat} {text : Text}
    (h : (literalEnd quote hidden text).2 = true → quote = backtick) :
    consumeString quote hidden text = (literalEnd quote hidden text).1 := by
  induction text generalizing hidden with
  | nil => rfl
  | cons c rest ih =>
    cases hidden with
    | succ hidden => rw [consumeString, literalEnd, ih h]
    | zero =>
      rw [literalEnd] at h
      rw [consumeString, literalEnd]
      cases hescape : c == backslash with
      | true =>
        rw [hescape] at h
        cases hpair : rest.take 2 == [carriageReturn, lineFeed] with
        | true =>
          obtain rfl : quote = backtick := h (by simp [hpair])
          simp [consumeString_pair (eq_of_beq hpair), ih fun _ => rfl]
        | false => simp_all
      | false =>
        have hends : endsLine c = isTerminator c := rfl
        cases hquote : c == quote with
        | true => simp
        | false => cases hstop : quote != backtick && isTerminator c with
          | true => simp_all
          | false => simp_all

private theorem consumeBlockComment_eq (skip : Nat) (text : Text) :
    consumeBlockComment skip text =
      (List.replicate (commentEnd skip text).1 lineFeed, (commentEnd skip text).2) := by
  induction text generalizing skip with
  | nil => rfl
  | cons c rest ih =>
    cases skip with
    | succ skip => rw [consumeBlockComment, commentEnd, ih]
    | zero =>
      rw [consumeBlockComment, commentEnd, endsLine, ← isTerminator]
      split
      · rw [ih, replicate_add]
        rfl
      · split
        · rfl
        · rw [ih]

private theorem leftOf_cons (e : Element) (es : List Element) : leftOf (e :: es) = e.left ++ leftOf es := flatMap_cons

theorem opensNothing {c : QChar} (h : isSpace c = true) : isQuote c = false ∧ (c == slash) = false := by
  have differs (d : QChar) (hd : isSpace d = false) : (c == d) = false := by
    apply beq_false_of_ne
    rintro rfl
    exact absurd h (by simp [hd])
  constructor
  · rw [isQuote, differs quotation (by decide), differs apostrophe (by decide), differs backtick (by decide)]
    rfl
  · exact differs slash (by decide)

theorem strippedFrom_eq {skip : Nat} {text : Text} (h : Unescaped (elementsFrom skip text)) :
    strippedFrom skip text = leftOf (elementsFrom skip text) := by
  induction text generalizing skip with
  | nil => rfl
  | cons c rest ih =>
    cases skip with
    | succ skip => rw [strippedFrom, elementsFrom, ih h]
    | zero =>
      have hends : endsLine c = isTerminator c := rfl
      have hquote : isQuote c = (c == quotation || c == apostrophe || c == backtick) := rfl
      rw [elementsFrom] at h ⊢
      rw [strippedFrom, hends, ← hquote]
      cases hbom : c == byteOrderMark with
      | true =>
        obtain rfl := eq_of_beq hbom
        have hq : isQuote byteOrderMark = false := by decide
        have hs : (byteOrderMark == slash) = false := by decide
        have hterminator : isTerminator byteOrderMark = false := by decide
        have hspace : isSpace byteOrderMark = false := by decide
        simp only [hterminator, hspace, hq, hs, Bool.false_and, Bool.false_eq_true, reduceIte] at h ⊢
        rw [ih h.tail, leftOf_cons]
        rfl
      | false =>
        cases hterminator : isTerminator c with
        | true =>
          simp only [hterminator, reduceIte, Bool.false_eq_true] at h ⊢
          rw [ih h.tail, leftOf_cons]
          rfl
        | false =>
          cases hspace : isSpace c with
          | true =>
            obtain ⟨hq, hs⟩ := opensNothing hspace
            simp only [hterminator, hspace, hq, hs, Bool.false_and, Bool.false_eq_true, reduceIte] at h ⊢
            rw [ih h.tail, leftOf_cons]
            rfl
          | false =>
            simp only [hterminator, hspace, Bool.false_eq_true, reduceIte] at h ⊢
            cases hq : isQuote c with
            | true =>
              simp only [hq, reduceIte] at h ⊢
              have hcontinued : (literalEnd c 0 rest).2 = true → c = backtick := by
                intro hc
                simpa [hidesPair, hc] using h _ (mem_cons_self ..)
              rw [consumeString_eq hcontinued, ih h.tail, leftOf_cons]
              rfl
            | false =>
              simp only [hq, Bool.false_eq_true, reduceIte] at h ⊢
              split
              · next hline =>
                rw [if_pos hline] at h
                exact ih h.tail
              · next hline =>
                rw [if_neg hline] at h
                split
                · next hblock =>
                  rw [if_pos hblock] at h
                  rw [consumeBlockComment_eq, ih h.tail, leftOf_cons]
                  rfl
                · next hblock =>
                  rw [if_neg hblock] at h
                  rw [ih h.tail, leftOf_cons, Element.left, hbom]
                  rfl

/-- The mark the grammar skips the scan drops. -/
theorem stripped_eq {source : Text} (h : Unescaped (elements source)) : stripped source = leftOf (elements source) := by
  rw [elements] at h ⊢
  split
  · next hmark =>
    rw [if_pos hmark] at h
    match source, hmark with
    | c :: rest, hmark =>
      obtain rfl : c = byteOrderMark := by simpa using hmark
      have drops : stripped (byteOrderMark :: rest) = strippedFrom 0 rest := by
        rw [stripped, strippedFrom]
        rfl
      rw [drops]
      exact strippedFrom_eq h
  · next hmark =>
    rw [if_neg hmark] at h
    exact strippedFrom_eq h

end

section
def moduleAt (rest : Text) : Text := firstWord isSpace (rest.takeWhile withinStatement)

/-- A statement that imports a module of the palette. -/
structure Imports (modules : List Text) (statement : Statement) (rest : Text) : Prop where
  line : statement.text = importKeyword ++ rest
  listed : firstWord isSpace rest ∈ modules
  named : ∀ c ∈ (firstWord isSpace rest).head?, c ≠ quotation ∧ c ≠ apostrophe
  some_word : firstWord isSpace rest ≠ []

variable {statement : Statement} {modules : List Text}

theorem imports_of_matches (hmatch : matchesKeyword statement.text importKeyword true = true)
    (hempty : ¬ (trimmed (statement.text.drop importKeyword.length)).isEmpty = true)
    (hquote : ¬ ((trimmed (statement.text.drop importKeyword.length)).head? == some quotation ||
      (trimmed (statement.text.drop importKeyword.length)).head? == some apostrophe) = true)
    (hlisted : (trimmed (statement.text.drop importKeyword.length)).takeWhile (!isSpace ·) ∈ modules) :
    Imports modules statement (statement.text.drop importKeyword.length) := by
  rw [trimmed] at hempty hquote hlisted
  rw [head?_trim] at hquote
  rw [takeWhile_trim] at hlisted
  refine ⟨?_, hlisted, ?_, ?_⟩
  · have hprefix : importKeyword.isPrefixOf statement.text = true := by
      rw [matchesKeyword] at hmatch
      by_contra hnot
      simp [hnot] at hmatch
    exact (prefix_iff_eq_append.mp ( isPrefixOf_iff_prefix.mp hprefix)).symm
  · intro c hc
    rw [Option.mem_def.mp hc] at hquote
    simpa using hquote
  · intro hnil
    have hnone := head?_trim isSpace (statement.text.drop importKeyword.length)
    rw [hnil, List.head?_nil, List.head?_eq_none_iff] at hnone
    exact hempty (by rw [hnone]; rfl)

theorem imports_of_checkStatements {headerEnded : Bool} {approved approved' : List Nat}
    {statements : List Statement} (h : checkStatements modules headerEnded approved statements = .ok approved')
    {index : Nat} (hindex : index ∈ approved') :
    index ∈ approved ∨ ∃ statement ∈ statements, statement.offset = index ∧ ∃ rest, Imports modules statement rest := by
  induction statements generalizing headerEnded approved with
  | nil =>
    obtain rfl : approved = approved' := by simpa [checkStatements] using h
    exact .inl hindex
  | cons statement statements ih =>
    have later {headerEnded approved} (h : checkStatements modules headerEnded approved statements = .ok approved') :
        index ∈ approved ∨ ∃ s ∈ statement :: statements, s.offset = index ∧ ∃ rest, Imports modules s rest := by
      rcases ih h with hi | ⟨s, hs, himports⟩
      · exact .inl hi
      · exact .inr ⟨s, mem_cons_of_mem _ hs, himports⟩
    rw [checkStatements] at h
    split at h
    · next hmatch =>
      split at h
      · cases h
      · dsimp only at h
        split at h
        · cases h
        · split at h
          · cases h
          · split at h
            · cases h
            · next hempty hquote hlisted =>
              rcases later h with hi | hlater
              · rcases mem_cons.mp hi with rfl | hi
                · exact .inr ⟨statement, mem_cons_self .., rfl, _, imports_of_matches hmatch hempty hquote
                    (by simpa using hlisted)⟩
                · exact .inl hi
              · exact .inr hlater
    · split at h
      · exact later h
      · exact later h

theorem approved_of_scanKeyword {isLetterOrNumber : QChar → Bool} {approved : List Nat} {previous : Option QChar}
    {index : Nat} {before after : Text}
    (h : scanKeyword isLetterOrNumber approved previous index (before ++ importKeyword ++ after) = .ok ())
    (hbefore : ∀ c ∈ before.getLast?.or previous, isIdentifierChar isLetterOrNumber c = false)
    (hafter : ∀ c ∈ after.head?, isIdentifierChar isLetterOrNumber c = false) :
    index + before.length ∈ approved := by
  induction before generalizing previous index with
  | nil =>
    by_contra hnot
    have starts : previous.any (isIdentifierChar isLetterOrNumber) = false := by
      simpa [Option.any_eq_false] using hbefore
    have ends : after.head?.any (isIdentifierChar isLetterOrNumber) = false := by
      simpa [Option.any_eq_false] using hafter
    have spelled : [] ++ importKeyword ++ after = 0x69 :: (importKeyword.tail ++ after) := rfl
    have here : importKeyword.isPrefixOf (0x69 :: (importKeyword.tail ++ after)) = true :=
      isPrefixOf_iff_prefix.mpr (prefix_append importKeyword after)
    have next : (0x69 :: (importKeyword.tail ++ after)).drop importKeyword.length = after :=
      drop_left
    rw [spelled, scanKeyword, here, next, starts, ends] at h
    simp_all
  | cons c before ih =>
    rw [cons_append, cons_append, scanKeyword] at h
    split at h
    · cases h
    · have hnext : index + 1 + before.length ∈ approved := by
        apply ih h
        intro d hd
        apply hbefore d
        rw [List.getLast?_cons]
        cases hlast : before.getLast? <;> simp_all
      simpa [Nat.add_assoc, Nat.add_comm 1] using hnext

section
variable {pending rest : Text} (hpending : ∀ c ∈ pending, withinStatement c = true)
include hpending

private theorem mem_closeStatement {begin_ : Nat} (hrest : rest = [] ∨ ∃ c rest', rest = c :: rest' ∧ withinStatement c = false)
    (h : statement ∈ closeStatement begin_ pending) :
    ∃ before after, pending ++ rest = before ++ after ∧ statement.offset = begin_ + before.length ∧
      statement.text = (after.takeWhile withinStatement).rdropWhile isSpace := by
  rw [closeStatement] at h
  split at h
  · cases h
  · obtain rfl := mem_singleton.mp h
    refine ⟨pending.takeWhile isSpace, pending.dropWhile isSpace ++ rest, ?_, rfl, ?_⟩
    · rw [← append_assoc, takeWhile_append_dropWhile]
    · have inside : ∀ c ∈ pending.dropWhile isSpace, withinStatement c = true :=
        fun c hc => hpending c ((dropWhile_sublist isSpace).subset hc)
      have boundary : rest.takeWhile withinStatement = [] := by
        rcases hrest with rfl | ⟨c, rest', rfl, hc⟩
        · rfl
        · exact takeWhile_cons_of_neg (by simp [hc])
      rw [takeWhile_append_of_pos inside, boundary, append_nil, trimmed, trim]

private theorem mem_statementsFrom {begin_ : Nat} (h : statement ∈ statementsFrom begin_ pending rest) :
    ∃ before after, pending ++ rest = before ++ after ∧ statement.offset = begin_ + before.length ∧
      statement.text = (after.takeWhile withinStatement).rdropWhile isSpace := by
  induction rest generalizing begin_ pending with
  | nil => simpa using mem_closeStatement hpending (.inl rfl) h
  | cons c rest ih =>
    rw [statementsFrom] at h
    split at h
    · next hc =>
      have hpending' : ∀ d ∈ pending ++ [c], withinStatement d = true := by
        intro d hd
        rcases mem_append.mp hd with hd | hd
        · exact hpending d hd
        · obtain rfl := mem_singleton.mp hd
          exact hc
      simpa using ih hpending' h
    · next hc =>
      rcases mem_append.mp h with h | h
      · exact mem_closeStatement hpending (.inr ⟨c, rest, rfl, by simpa using hc⟩) h
      · obtain ⟨before, after, hsplit, hoffset, htext⟩ := ih (by simp) h
        refine ⟨pending ++ c :: before, after, ?_, ?_, htext⟩
        · simp_all
        · rw [hoffset, length_append, length_cons]
          omega

end

theorem moduleAt_of_imports {before after rest : Text}
    (hmem : statement ∈ statementsOf (before ++ importKeyword ++ after)) (hoffset : statement.offset = before.length)
    (himports : Imports modules statement rest) : moduleAt after = firstWord isSpace rest := by
  obtain ⟨a, b, hsplit, ha, htext⟩ := mem_statementsFrom (by simp) hmem
  have hlength : before.length = a.length := by rw [← hoffset, ha, Nat.zero_add]
  rw [nil_append, append_assoc] at hsplit
  obtain rfl : importKeyword ++ after = b := (append_inj hsplit hlength).2
  have hkeyword : importKeyword = utf16 "impor" ++ [0x74] := by decide
  have hwithin : ∀ c ∈ importKeyword, withinStatement c = true := all_eq_true.mp (by decide)
  have hrest : importKeyword ++ rest = importKeyword ++ (after.takeWhile withinStatement).rdropWhile isSpace := by
    calc importKeyword ++ rest
        = (importKeyword ++ after.takeWhile withinStatement).rdropWhile isSpace := by
          rw [← himports.line, htext, takeWhile_append_of_pos hwithin]
      _ = importKeyword ++ (after.takeWhile withinStatement).rdropWhile isSpace := by
          rw [hkeyword, append_assoc, singleton_append, rdropWhile_append_of_last (by decide)]
          simp
  rw [append_cancel_left hrest, firstWord_rdropWhile, moduleAt]

end

section
variable {isLetterOrNumber : QChar → Bool}

private theorem isSpace_of_blank {skip : Nat} {text : Text} {c : QChar} (h : .blank c ∈ elementsFrom skip text) :
    isSpace c = true := by
  induction text generalizing skip with
  | nil => cases h
  | cons d rest ih =>
    cases skip with
    | succ skip => exact ih h
    | zero =>
      rw [elementsFrom] at h
      split at h
      · exact ih (by simpa using h)
      · split at h
        · next hspace =>
          rcases mem_cons.mp h with h | h
          · obtain rfl : c = d := by simpa using h
            exact hspace
          · exact ih h
        · split at h
          · exact ih (by simpa using h)
          · split at h
            · exact ih (by simpa using h)
            · split at h
              · exact ih (by simpa using h)
              · exact ih (by simpa using h)

/-- Where a path is imported, the text reaches the quote over spaces. -/
theorem leftOf_of_path {es : List Element} (h : targetOf isLetterOrNumber es = some .path)
    (hblank : ∀ c, .blank c ∈ es → isSpace c = true) :
    ∃ spaces quote rest, leftOf es = spaces ++ quote :: rest ∧ (∀ c ∈ spaces, isSpace c = true) ∧
      (quote = quotation ∨ quote = apostrophe) := by
  induction es with
  | nil => cases h
  | cons e es ih =>
    rw [leftOf_cons]
    have later (htail : targetOf isLetterOrNumber es = some .path) (hspaces : ∀ c ∈ e.left, isSpace c = true) :
        ∃ spaces quote rest, e.left ++ leftOf es = spaces ++ quote :: rest ∧ (∀ c ∈ spaces, isSpace c = true) ∧
          (quote = quotation ∨ quote = apostrophe) := by
      obtain ⟨spaces, quote, rest, hleft, hall, hquote⟩ := ih htail fun c hc => hblank c (mem_cons_of_mem _ hc)
      refine ⟨e.left ++ spaces, quote, rest, by rw [hleft, append_assoc], ?_, hquote⟩
      intro c hc
      exact (mem_append.mp hc).elim (hspaces c) (hall c)
    cases e with
    | terminator => exact later h (all_eq_true.mp (by decide))
    | blank c => exact later h (by simpa [Element.left] using hblank c)
    | comment terminators =>
      apply later h
      intro c hc
      obtain rfl := eq_of_mem_replicate hc
      decide
    | literal quote continued =>
      refine ⟨[], quote, quote :: leftOf es, rfl, by simp, ?_⟩
      by_contra hnot
      simp_all [targetOf, Element.separates]
    | char c =>
      rw [targetOf] at h
      simp only [Element.separates, Bool.false_eq_true, reduceIte] at h
      split at h
      · cases h
      · cases h

private theorem moduleAt_of_path {spaces rest : Text} {quote : QChar} (hall : ∀ c ∈ spaces, isSpace c = true)
    (hquote : quote = quotation ∨ quote = apostrophe) :
    ∀ c ∈ (moduleAt (spaces ++ quote :: rest)).head?, c = quote := by
  intro c hc
  rw [moduleAt] at hc
  cases hwithin : spaces.all withinStatement with
  | true =>
    have hquoteWithin : withinStatement quote = true := by rcases hquote with rfl | rfl <;> decide
    have hquoteSpace : isSpace quote = false := by rcases hquote with rfl | rfl <;> decide
    rw [takeWhile_append_of_pos (by simpa using hwithin), takeWhile_cons_of_pos hquoteWithin, firstWord,
      dropWhile_append_of_pos hall] at hc
    simpa [hquoteSpace, eq_comm] using hc
  | false =>
    have hspaces : (spaces ++ quote :: rest).takeWhile withinStatement = spaces.takeWhile withinStatement := by
      rw [takeWhile_append, if_neg]
      intro hlength
      have hself := ( takeWhile_prefix withinStatement).eq_of_length hlength
      have hall' : spaces.all withinStatement = true := by
        rw [← hself, all_takeWhile]
      exact absurd hall' (by simp [hwithin])
    have hnil : firstWord isSpace (spaces.takeWhile withinStatement) = [] := by
      have hdrop : (spaces.takeWhile withinStatement).dropWhile isSpace = [] :=
        dropWhile_eq_nil_iff.mpr fun c hc => hall c ((takeWhile_sublist _).subset hc)
      rw [firstWord, hdrop, takeWhile_nil]
    simp [hspaces, hnil] at hc

/-- What an import statement may name. -/
def Listed (modules : List Text) (target : ImportTarget) : Prop := ∃ name ∈ modules, target = .module name

/-- The keyword is not run into when comments are gone, and the word after it is the name, if the
palette lists it at all. -/
structure Clear (isLetterOrNumber : QChar → Bool) (modules : List Text) (pre post : List Element)
    (target : ImportTarget) : Prop where
  before : ∀ c ∈ (leftOf pre).getLast?, isIdentifierChar isLetterOrNumber c = false
  after : ∀ c ∈ (leftOf post).head?, isIdentifierChar isLetterOrNumber c = false
  name : moduleAt (leftOf post) ∈ modules → ∀ name, target = .module name → name = moduleAt (leftOf post)

theorem listed_of_clear {modules : List Text} {source : Text} {pre post : List Element} {target : ImportTarget}
    (hescape : Unescaped (elements source)) (hread : ReadsImport isLetterOrNumber (elements source) pre post target)
    (hclear : Clear isLetterOrNumber modules pre post target)
    (h : isAcceptable isLetterOrNumber modules source = .ok ()) : Listed modules target := by
  have hbody : stripped source = leftOf pre ++ importKeyword ++ leftOf post := by
    rw [stripped_eq hescape, hread.split, leftOf, flatMap_append, flatMap_append]
    rfl
  have hblank : ∀ c, .blank c ∈ post → isSpace c = true := by
    intro c hc
    have hmem : .blank c ∈ elements source := by
      rw [hread.split]
      exact mem_append_right _ hc
    rw [elements] at hmem
    split at hmem
    · exact isSpace_of_blank hmem
    · exact isSpace_of_blank hmem
  rw [isAcceptable, hbody] at h
  cases hcheck : checkStatements modules false [] (statementsOf (leftOf pre ++ importKeyword ++ leftOf post)) with
  | error reason => rw [hcheck] at h; cases h
  | ok approved =>
    rw [hcheck] at h
    have happroved : 0 + (leftOf pre).length ∈ approved := by
      apply approved_of_scanKeyword h
      · simpa using hclear.before
      · exact hclear.after
    rcases imports_of_checkStatements hcheck happroved with hnil | ⟨statement, hmem, hoffset, rest, himports⟩
    · cases hnil
    · have hmodule : moduleAt (leftOf post) = firstWord isSpace rest :=
        moduleAt_of_imports hmem (by simpa using hoffset) himports
      cases target with
      | module name =>
        have hlisted : moduleAt (leftOf post) ∈ modules := hmodule ▸ himports.listed
        exact ⟨name, hclear.name hlisted name rfl ▸ hlisted, rfl⟩
      | path =>
        obtain ⟨spaces, quote, tail, hleft, hall, hquote⟩ := leftOf_of_path hread.target hblank
        have hhead : ∀ c ∈ (firstWord isSpace rest).head?, c = quote := by
          rw [← hmodule, hleft]
          exact moduleAt_of_path hall hquote
        cases hword : firstWord isSpace rest with
        | nil => exact absurd hword himports.some_word
        | cons c word =>
          rw [hword] at hhead
          obtain rfl := hhead c rfl
          have hnamed := himports.named c (by rw [hword]; rfl)
          exact absurd hquote (not_or.mpr hnamed)

/-- An import that the grammar reads on an accepted page is listed, where it is clear on a page with no such escape: one
that is clear and not listed refuses the page, whatever else is on it. -/
theorem accepted_imports_listed (isLetterOrNumber : QChar → Bool) (modules : List Text) (source : Text)
    (h : isAcceptable isLetterOrNumber modules source = .ok ()) :
    ∀ pre post target, ReadsImport isLetterOrNumber (elements source) pre post target →
      Listed modules target ∨ Unescaped (elements source) ∧ Clear isLetterOrNumber modules pre post target →
      Listed modules target := by
  intro pre post target hread himport
  rcases himport with hlisted | ⟨hescape, hclear⟩
  · exact hlisted
  · exact listed_of_clear hescape hread hclear h

def asciiLetterOrNumber (c : QChar) : Bool :=
  (0x30 ≤ c && c ≤ 0x39) || (0x41 ≤ c && c ≤ 0x5A) || (0x61 ≤ c && c ≤ 0x7A)

def ordinaryPage : Text := utf16 "import Qt;A{}"

theorem accepted_imports_listed_ordinary :
    isAcceptable asciiLetterOrNumber [utf16 "Qt"] ordinaryPage = .ok () ∧
      Listed [utf16 "Qt"] (.module (utf16 "Qt")) := by
  have haccepted : isAcceptable asciiLetterOrNumber [utf16 "Qt"] ordinaryPage = .ok () := by decide
  have hescape : ∀ e ∈ elements ordinaryPage, hidesPair e = false := by
    have hall : (elements ordinaryPage).all (!hidesPair ·) = true := by decide
    simpa using hall
  have hspace : (leftOf ((elements ordinaryPage).drop 6)).head? = some 0x20 := by decide
  refine ⟨haccepted, accepted_imports_listed asciiLetterOrNumber _ _ haccepted []
    ((elements ordinaryPage).drop 6) _ ⟨by decide, by decide, by decide, by decide⟩ (.inr ⟨hescape, by simp [leftOf], ?_, ?_⟩)⟩
  · rw [hspace]
    rintro c ⟨⟩
    decide
  · rintro - name hnamed
    obtain rfl := ImportTarget.module.inj hnamed
    decide

/-- A comment that leaves nothing runs the keyword into the name for the scan alone. -/
theorem accepted_import_unlisted :
    isAcceptable asciiLetterOrNumber [utf16 "QtQuick"] (utf16 "import/**/Evil") = .ok () ∧
      ∃ pre post target,
        ReadsImport asciiLetterOrNumber (elements (utf16 "import/**/Evil")) pre post target ∧
          ¬ Listed [utf16 "QtQuick"] target := by
  refine ⟨by decide, [], .comment 0 :: (utf16 "Evil").map .char, .module (utf16 "Evil"), ?_, ?_⟩
  · exact ⟨by decide, by decide, by decide, by decide⟩
  · rintro ⟨name, hname, htarget⟩
    obtain rfl := mem_singleton.mp hname
    exact absurd htarget (by decide)

end
end SynQt.QmlPalette
