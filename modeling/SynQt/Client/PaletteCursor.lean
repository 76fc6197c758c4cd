import SynQt.Client.PaletteSoundness

/-! Where the scan of a page stands when it comes to a place in the text, and what it accepts whatever the palette lists. -/
namespace SynQt.QmlPalette
open List
open Qml (lineFeed carriageReturn byteOrderMark quotation apostrophe backtick backslash slash asterisk semicolon isSpace isQuote)

/-- What the scan leaves of the unit it comes to, and how many units of the rest it takes with it. -/
def taken (c : QChar) (rest : Text) : Text × Nat :=
  if c == byteOrderMark then ([], 0)
  else if endsLine c then ([lineFeed], if c == carriageReturn && rest.head? == some lineFeed then 1 else 0)
  else if c == quotation || c == apostrophe || c == backtick then ([c, c], consumeString c 0 rest)
  else if c == slash && rest.head? == some slash then ([], 1 + (rest.tail.takeWhile (!endsLine ·)).length)
  else if c == slash && rest.head? == some asterisk then
    ((consumeBlockComment 0 rest.tail).1, 1 + (consumeBlockComment 0 rest.tail).2)
  else ([c], 0)

private theorem strippedFrom_cons (c : QChar) (rest : Text) :
    strippedFrom 0 (c :: rest) = (taken c rest).1 ++ strippedFrom (taken c rest).2 rest := by
  rw [strippedFrom, taken]
  split
  · rfl
  · split
    · rfl
    · split
      · rfl
      · split
        · rfl
        · split
          · rfl
          · rfl

/-- How many units after `before` are taken with one before. -/
def skipAt (skip : Nat) : Text → Text → Nat
  | [], _ => skip
  | c :: before, rest =>
    match skip with
    | skip + 1 => skipAt skip before rest
    | 0 => skipAt (taken c (before ++ rest)).2 before rest

/-- What is left of `before`. -/
def leftAt (skip : Nat) : Text → Text → Text
  | [], _ => []
  | c :: before, rest =>
    match skip with
    | skip + 1 => leftAt skip before rest
    | 0 => (taken c (before ++ rest)).1 ++ leftAt (taken c (before ++ rest)).2 before rest

theorem strippedFrom_append (skip : Nat) (before rest : Text) :
    strippedFrom skip (before ++ rest) = leftAt skip before rest ++ strippedFrom (skipAt skip before rest) rest := by
  induction before generalizing skip with
  | nil => rfl
  | cons c before ih =>
    cases skip with
    | succ skip => exact ih skip
    | zero => rw [cons_append, strippedFrom_cons, ih, leftAt, skipAt, append_assoc]

/-- A place no unit before takes with it: outside comments and literals. -/
def Outside (before rest : Text) : Prop := skipAt 0 before rest = 0
deriving Decidable

def isPlain (c : QChar) : Bool := c != byteOrderMark && !endsLine c && !isQuote c && c != slash

private theorem taken_plain {c : QChar} (h : isPlain c = true) (rest : Text) : taken c rest = ([c], 0) := by
  simp only [isPlain, Bool.and_eq_true, bne_iff_ne, Bool.not_eq_true', isQuote, Bool.or_eq_false_iff] at h
  obtain ⟨⟨⟨hmark, hends⟩, hquote⟩, hslash⟩ := h
  simp only [taken, beq_iff_eq, hmark, hends, hquote, Bool.false_and, Bool.false_eq_true, if_false, Bool.or_self,
    beq_eq_false_iff_ne.mpr hslash]

theorem strippedFrom_plain {text : Text} (h : ∀ c ∈ text, isPlain c = true) (rest : Text) :
    strippedFrom 0 (text ++ rest) = text ++ strippedFrom 0 rest := by
  induction text with
  | nil => rfl
  | cons c text ih =>
    rw [cons_append, strippedFrom_cons, taken_plain (h c (mem_cons_self ..)), ih fun d hd => h d (mem_cons_of_mem _ hd)]
    rfl

/-- What a unit takes with it ends in a quote or a slash, before a line end or the text's, or it is the LF of a pair. -/
def Closes (skip : Nat) (rest : Text) (left : Text) : Prop :=
  match skip with
  | 0 => True
  | n + 1 => (∀ c, rest[n]? = some c → isQuote c = true ∨ c = slash ∨ (c = lineFeed ∧ left.getLast? = some lineFeed)) ∨
      ∀ c, rest[n + 1]? = some c → endsLine c = true

private theorem closes_succ {skip : Nat} {c : QChar} {rest left : Text} (h : Closes (skip + 1) (c :: rest) left) : Closes skip rest left := by
  cases skip with
  | zero => trivial
  | succ n => exact h

private theorem consumeString_closes (quote : QChar) (hidden : Nat) (text : Text) :
    (∃ n, consumeString quote hidden text = n + 1 ∧ text[n]? = some quote) ∨
      ∀ c, text[consumeString quote hidden text]? = some c → endsLine c = true := by
  induction text generalizing hidden with
  | nil => exact .inr fun d hd => by cases hd
  | cons c rest ih =>
    have hlater (hidden' : Nat) : (∃ n, 1 + consumeString quote hidden' rest = n + 1 ∧ (c :: rest)[n]? = some quote) ∨
        ∀ d, (c :: rest)[1 + consumeString quote hidden' rest]? = some d → endsLine d = true := by
      rw [Nat.add_comm 1]
      refine (ih hidden').imp (fun ⟨n, hn, hquote⟩ => ⟨n + 1, by rw [hn], hquote⟩) fun hends d hd => hends d hd
    cases hidden with
    | succ hidden => exact hlater hidden
    | zero =>
      rw [consumeString]
      split
      · exact hlater 1
      · split
        · next hquote => exact .inl ⟨0, rfl, congrArg some (eq_of_beq hquote)⟩
        · split
          · next hends =>
            rw [Bool.and_eq_true] at hends
            exact .inr fun d hd => Option.some.inj hd ▸ hends.2
          · exact hlater 0

private theorem consumeBlockComment_closes (skip : Nat) (text : Text) :
    (∃ n, (consumeBlockComment skip text).2 = n + 1 ∧ text[n]? = some slash) ∨ text[(consumeBlockComment skip text).2]? = none := by
  induction text generalizing skip with
  | nil => exact .inr rfl
  | cons c rest ih =>
    have hlater (skip' : Nat) : (∃ n, 1 + (consumeBlockComment skip' rest).2 = n + 1 ∧ (c :: rest)[n]? = some slash) ∨
        (c :: rest)[1 + (consumeBlockComment skip' rest).2]? = none := by
      rw [Nat.add_comm 1]
      exact (ih skip').imp (fun ⟨n, hn, hslash⟩ => ⟨n + 1, by rw [hn], hslash⟩) id
    cases skip with
    | succ skip => exact hlater skip
    | zero =>
      rw [consumeBlockComment]
      split
      · exact hlater _
      · split
        · next hend =>
          rw [Bool.and_eq_true, beq_iff_eq, beq_iff_eq] at hend
          obtain ⟨rest', rfl⟩ := List.head?_eq_some_iff.mp hend.2
          exact .inl ⟨1, rfl, rfl⟩
        · exact hlater 0

private theorem endsLine_after (text : Text) {c : QChar} (h : text[(text.takeWhile (!endsLine ·)).length]? = some c) : endsLine c = true := by
  induction text with
  | nil => cases h
  | cons d text ih =>
    rw [takeWhile_cons] at h
    cases hends : endsLine d with
    | true =>
      rw [hends] at h
      exact Option.some.inj h ▸ hends
    | false =>
      rw [hends] at h
      exact ih h

theorem closes_taken (c : QChar) (rest left : Text) : Closes (taken c rest).2 rest (left ++ (taken c rest).1) := by
  unfold taken
  split
  · trivial
  · split
    · split
      · next hpair =>
        rw [Bool.and_eq_true, beq_iff_eq, beq_iff_eq] at hpair
        obtain ⟨rest', rfl⟩ := List.head?_eq_some_iff.mp hpair.2
        refine .inl fun d hd => .inr (.inr ⟨(Option.some.inj hd).symm, ?_⟩)
        rw [List.getLast?_concat]
      · trivial
    · split
      · next hquote =>
        dsimp only
        cases hlength : consumeString c 0 rest with
        | zero => trivial
        | succ n =>
          obtain ⟨n', hn, hends⟩ | hends := consumeString_closes c 0 rest
          · obtain rfl : n = n' := Nat.succ_inj.mp (hlength.symm.trans hn)
            refine .inl fun d hd => .inl ?_
            obtain rfl := Option.some.inj (hends.symm.trans hd)
            exact hquote
          · rw [hlength] at hends
            exact .inr hends
      · split
        · next hcomment =>
          rw [Bool.and_eq_true, beq_iff_eq, beq_iff_eq] at hcomment
          obtain ⟨rest', rfl⟩ := List.head?_eq_some_iff.mp hcomment.2
          dsimp only [tail_cons]
          rw [Nat.add_comm 1]
          refine .inr fun d hd => ?_
          rw [List.getElem?_cons_succ] at hd
          exact endsLine_after rest' hd
        · split
          · next hcomment =>
            rw [Bool.and_eq_true, beq_iff_eq, beq_iff_eq] at hcomment
            obtain ⟨rest', rfl⟩ := List.head?_eq_some_iff.mp hcomment.2
            dsimp only [tail_cons]
            rw [Nat.add_comm 1]
            obtain ⟨n, hn, hslash⟩ | hnone := consumeBlockComment_closes 0 rest'
            · rw [hn]
              refine .inl fun d hd => .inr (.inl ?_)
              exact (Option.some.inj (hslash.symm.trans hd)).symm
            · refine .inr fun d hd => ?_
              rw [List.getElem?_cons_succ, hnone] at hd
              cases hd
          · trivial

theorem left_last {skip : Nat} {before rest left : Text} (hcloses : Closes skip (before ++ rest) left)
    (houtside : skipAt skip before rest = 0) {last : QChar} (hlast : before.getLast? = some last)
    (hwhite : isQuote last = false ∧ last ≠ slash ∧ last ≠ byteOrderMark) (hrest : ∀ c ∈ rest.head?, endsLine c = false)
    (hne : rest ≠ []) : (left ++ leftAt skip before rest).getLast? = some last ∨ (left ++ leftAt skip before rest).getLast? = some lineFeed := by
  induction before generalizing skip left with
  | nil => cases hlast
  | cons c before ih =>
    cases hbefore : before with
    | nil =>
      subst hbefore
      obtain rfl : c = last := Option.some.inj hlast
      cases skip with
      | zero =>
        rw [leftAt, leftAt, append_nil, nil_append, taken]
        rw [if_neg (by rw [beq_iff_eq]; exact hwhite.2.2)]
        split
        · right
          rw [List.getLast?_concat]
        · rw [if_neg (by rw [← isQuote, hwhite.1]; decide)]
          rw [if_neg (by simp [hwhite.2.1]), if_neg (by simp [hwhite.2.1])]
          left
          rw [List.getLast?_concat]
      | succ skip =>
        rw [leftAt, leftAt, append_nil]
        rw [skipAt, skipAt] at houtside
        subst houtside
        obtain hclosed | hends := hcloses
        · obtain hquote | hslash | ⟨-, hleft⟩ := hclosed c rfl
          · exact absurd (hwhite.1.symm.trans hquote) (by decide)
          · exact absurd hslash hwhite.2.1
          · exact .inr hleft
        · obtain ⟨r, rest', rfl⟩ := exists_cons_of_ne_nil hne
          exact absurd ((hrest r rfl).symm.trans (hends r rfl)) (by decide)
    | cons d before' =>
      rw [← hbefore]
      have hlast' : before.getLast? = some last := by
        rw [hbefore] at hlast ⊢
        rw [List.getLast?_cons_cons] at hlast
        exact hlast
      cases skip with
      | succ skip => exact ih (closes_succ hcloses) houtside hlast'
      | zero =>
        rw [leftAt, ← append_assoc]
        exact ih (closes_taken c (before ++ rest) left) houtside hlast'

/-- The places of a page's imports and the modules they name, if it is refused for none of them by itself. -/
def header (headerEnded : Bool) : List Statement → Option (List (Nat × Text))
  | [] => some []
  | statement :: statements =>
    if matchesKeyword statement.text importKeyword true then
      let rest := trimmed (statement.text.drop importKeyword.length)
      if headerEnded || rest.isEmpty || rest.head? == some quotation || rest.head? == some apostrophe then none
      else (header headerEnded statements).map ((statement.offset, rest.takeWhile (!isSpace ·)) :: ·)
    else if matchesKeyword statement.text pragmaKeyword false then header headerEnded statements
    else header true statements

theorem checkStatements_iff {modules : List Text} {headerEnded : Bool} {approved approved' : List Nat} {statements : List Statement} :
    checkStatements modules headerEnded approved statements = .ok approved' ↔
      ∃ pairs, header headerEnded statements = some pairs ∧ (∀ p ∈ pairs, p.2 ∈ modules) ∧
        (pairs.map Prod.fst).reverse ++ approved = approved' := by
  induction statements generalizing headerEnded approved with
  | nil => simp [checkStatements, header]
  | cons statement statements ih =>
    rw [checkStatements, header]
    split
    · dsimp only
      generalize trimmed (statement.text.drop importKeyword.length) = rest
      cases headerEnded with
      | true => simp
      | false =>
        by_cases hempty : rest.isEmpty = true
        · simp [hempty]
        · by_cases hpath : (rest.head? == some quotation || rest.head? == some apostrophe) = true
          · simp [hempty, hpath]
          · have hnamed : (false || rest.isEmpty || rest.head? == some quotation || rest.head? == some apostrophe) = false := by
              rw [Bool.false_or, Bool.or_assoc, Bool.eq_false_iff.mpr hempty, Bool.eq_false_iff.mpr hpath, Bool.or_self]
            rw [hnamed, if_neg Bool.false_ne_true, if_neg Bool.false_ne_true, if_neg hempty, if_neg hpath]
            by_cases hlisted : rest.takeWhile (!isSpace ·) ∈ modules
            · rw [contains_iff_mem.mpr hlisted, if_neg (by decide), ih]
              constructor
              · rintro ⟨pairs, hheader, hall, rfl⟩
                exact ⟨_ :: pairs, by rw [hheader, Option.map_some], forall_mem_cons.mpr ⟨hlisted, hall⟩, by simp⟩
              · rintro ⟨pairs, hheader, hall, rfl⟩
                obtain ⟨later, hlater, rfl⟩ := Option.map_eq_some_iff.mp hheader
                exact ⟨later, hlater, (forall_mem_cons.mp hall).2, by simp⟩
            · rw [if_pos (by simpa using hlisted)]
              refine iff_of_false (fun h => by cases h) ?_
              rintro ⟨pairs, hheader, hall, -⟩
              obtain ⟨later, -, rfl⟩ := Option.map_eq_some_iff.mp hheader
              exact hlisted (forall_mem_cons.mp hall).1
    · split
      · exact ih
      · exact ih

section
variable (isLetterOrNumber : QChar → Bool)

/-- The imports stand in the page's header, each names a module, and the keyword is nowhere else. -/
def Readable (source : Text) (pairs : List (Nat × Text)) : Prop :=
  header false (statementsOf (stripped source)) = some pairs ∧
    scanKeyword isLetterOrNumber (pairs.map Prod.fst).reverse none 0 (stripped source) = .ok ()

theorem isAcceptable_iff {modules : List Text} {source : Text} : isAcceptable isLetterOrNumber modules source = .ok () ↔
    ∃ pairs, Readable isLetterOrNumber source pairs ∧ ∀ p ∈ pairs, p.2 ∈ modules := by
  rw [isAcceptable]
  cases hcheck : checkStatements modules false [] (statementsOf (stripped source)) with
  | error reason =>
    refine iff_of_false (fun h => by cases h) ?_
    rintro ⟨pairs, ⟨hheader, -⟩, hlisted⟩
    rw [checkStatements_iff.mpr ⟨pairs, hheader, hlisted, rfl⟩] at hcheck
    cases hcheck
  | ok approved =>
    obtain ⟨pairs, hheader, hlisted, rfl⟩ := checkStatements_iff.mp hcheck
    rw [append_nil]
    constructor
    · exact fun hscan => ⟨pairs, ⟨hheader, hscan⟩, hlisted⟩
    · rintro ⟨pairs', ⟨hheader', hscan⟩, -⟩
      obtain rfl := Option.some.inj (hheader.symm.trans hheader')
      exact hscan

theorem listed_of_outside {modules : List Text} {before post : Text} (houtside : Outside before (importKeyword ++ post))
    (hbefore : ∀ c ∈ before.getLast?, (isQuote c = false ∧ c ≠ slash ∧ c ≠ byteOrderMark) ∧
      isIdentifierChar isLetterOrNumber c = false)
    (hfeed : isIdentifierChar isLetterOrNumber lineFeed = false)
    (hafter : ∀ c ∈ (strippedFrom 0 post).head?, isIdentifierChar isLetterOrNumber c = false)
    (h : isAcceptable isLetterOrNumber modules (before ++ (importKeyword ++ post)) = .ok ()) :
    moduleAt (strippedFrom 0 post) ∈ modules := by
  have hplain : ∀ c ∈ importKeyword, isPlain c = true := all_eq_true.mp (by decide)
  have hstripped : stripped (before ++ (importKeyword ++ post)) =
      leftAt 0 before (importKeyword ++ post) ++ importKeyword ++ strippedFrom 0 post := by
    rw [stripped, strippedFrom_append, houtside, strippedFrom_plain hplain, append_assoc]
  have hlast : ∀ c ∈ (leftAt 0 before (importKeyword ++ post)).getLast?.or none, isIdentifierChar isLetterOrNumber c = false := by
    intro c hc
    rw [Option.or_none] at hc
    cases hprevious : before.getLast? with
    | none =>
      rw [List.getLast?_eq_none_iff.mp hprevious] at hc
      cases hc
    | some last =>
      obtain ⟨hwhite, hlast⟩ := hbefore last hprevious
      have hbegins : Closes 0 (before ++ (importKeyword ++ post)) [] := trivial
      obtain hleft | hleft := left_last hbegins houtside hprevious hwhite
        (fun d hd => Option.some.inj hd ▸ by decide) (by simp [importKeyword, utf16])
      · obtain rfl := Option.some.inj (hleft.symm.trans hc)
        exact hlast
      · obtain rfl := Option.some.inj (hleft.symm.trans hc)
        exact hfeed
  rw [isAcceptable, hstripped] at h
  split at h
  · cases h
  · next approved hcheck =>
    have happroved := approved_of_scanKeyword h hlast hafter
    obtain hnil | ⟨statement, hmem, hoffset, rest, himports⟩ := imports_of_checkStatements hcheck happroved
    · cases hnil
    · rw [moduleAt_of_imports hmem (by rw [hoffset, Nat.zero_add]) himports]
      exact himports.listed

end

end SynQt.QmlPalette
