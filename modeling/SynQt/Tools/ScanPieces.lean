import SynQt.Client.RemotePageLoader
import SynQt.Lib.Lines
import SynQt.Tools.QmlScan

/-! A page in the pieces the tooling reads it in, and what each of the two scans leaves of a piece. -/
namespace SynQt.QmlScan
open QmlPalette List

section
def unitsOf (c : Char) : Text :=
  if c.toNat < 0x10000 then [UInt16.ofNat c.toNat]
  else [UInt16.ofNat (0xD800 + (c.toNat - 0x10000) / 0x400), UInt16.ofNat (0xDC00 + (c.toNat - 0x10000) % 0x400)]

def units (text : List Char) : Text := text.flatMap unitsOf

theorem toUtf16_eq (text : QString) : toUtf16 text = units text.toList := rfl

def Surrogate (u : QChar) : Prop := 0xD800 ≤ u.toNat ∧ u.toNat ≤ 0xDFFF

/-- A character is a unit of its own number, or a pair of surrogates. -/
inductive Encoded (c : Char) : Text → Prop where
  | unit (u : QChar) : u.toNat = c.toNat → Encoded c [u]
  | pair (high low : QChar) : Surrogate high → Surrogate low →
      c.toNat = 0x10000 + 0x400 * (high.toNat - 0xD800) + (low.toNat - 0xDC00) → Encoded c [high, low]

theorem encoded (c : Char) : Encoded c (unitsOf c) := by
  have hbound : c.toNat < 0x110000 := by
    rcases c.valid with h | ⟨_, h⟩
    · exact Nat.lt_trans h (by decide)
    · exact h
  rw [unitsOf]
  split
  · next hbasic => exact .unit _ (UInt16.toNat_ofNat_of_lt' hbasic)
  · next hastral =>
    have hhigh : 0xD800 + (c.toNat - 0x10000) / 0x400 < 0xDC00 := by omega
    have hlow : 0xDC00 + (c.toNat - 0x10000) % 0x400 < 0xE000 := by omega
    have number (n : Nat) (hbelow : n < 0xE000) : (UInt16.ofNat n).toNat = n :=
      UInt16.toNat_ofNat_of_lt' (Nat.lt_trans hbelow (by decide))
    apply Encoded.pair
    · rw [Surrogate, number _ (by omega)]
      omega
    · rw [Surrogate, number _ hlow]
      omega
    · rw [number _ (by omega), number _ hlow]
      omega

private theorem not_surrogate {c : Char} {u : QChar} (h : u.toNat = c.toNat) : ¬ Surrogate u := by
  have hvalid : c.toNat < 0xD800 ∨ 0xDFFF < c.toNat ∧ c.toNat < 0x110000 := c.valid
  rintro ⟨hfrom, hto⟩
  omega

/-- Among the units of a character is the one unit of another only if the two are the same. -/
theorem beq_of_mem_unitsOf {c : Char} {u : QChar} (e : Char) (d : QChar) (hd : unitsOf e = [d]) (hu : u ∈ unitsOf c) :
    (u == d) = (c == e) := by
  have hde : d.toNat = e.toNat := by
    have hencoded := encoded e
    rw [hd] at hencoded
    cases hencoded with
    | unit _ h => exact h
  have hencoded := encoded c
  generalize unitsOf c = us at hu hencoded
  rw [Bool.eq_iff_iff, beq_iff_eq, beq_iff_eq]
  cases hencoded with
  | unit v hv =>
    obtain rfl := mem_singleton.mp hu
    rw [← UInt16.toNat_inj, ← Char.toNat_inj, hv, hde]
  | pair high low hhigh hlow hastral =>
    have hsurrogate : Surrogate u := by
      rcases mem_pair.mp hu with rfl | rfl
      · exact hhigh
      · exact hlow
    constructor
    · rintro rfl
      exact absurd hsurrogate (not_surrogate hde)
    · rintro rfl
      have hd' := d.toNat_lt
      omega

/-- A text begins with the units of one character only. -/
theorem unitsOf_append_inj {c d : Char} {rest rest' : Text} (h : unitsOf c ++ rest = unitsOf d ++ rest') :
    c = d ∧ rest = rest' := by
  have hc := encoded c
  have hd := encoded d
  generalize unitsOf c = us at h hc
  generalize unitsOf d = vs at h hd
  rw [← Char.toNat_inj]
  cases hc with
  | unit u hu => cases hd with
    | unit v hv =>
      obtain ⟨rfl, rfl⟩ : u = v ∧ rest = rest' := by simpa using h
      exact ⟨hu.symm.trans hv, rfl⟩
    | pair high low hhigh _ _ =>
      obtain ⟨rfl, -⟩ : u = high ∧ _ := by simpa using h
      exact absurd hhigh (not_surrogate hu)
  | pair high low hhigh _ hnumber => cases hd with
    | unit v hv =>
      obtain ⟨rfl, -⟩ : high = v ∧ _ := by simpa using h
      exact absurd hhigh (not_surrogate hv)
    | pair high' low' _ _ hnumber' =>
      obtain ⟨rfl, rfl, rfl⟩ : high = high' ∧ low = low' ∧ rest = rest' := by simpa using h
      exact ⟨hnumber.trans hnumber'.symm, rfl⟩

theorem unitsOf_ne_nil (c : Char) : unitsOf c ≠ [] := by
  have hencoded := encoded c
  generalize unitsOf c = us at hencoded
  cases hencoded with
  | unit u _ | pair high low _ _ _ => exact cons_ne_nil _ _

theorem units_cons (c : Char) (text : List Char) : units (c :: text) = unitsOf c ++ units text := flatMap_cons

theorem units_append (text rest : List Char) : units (text ++ rest) = units text ++ units rest := flatMap_append

private theorem head?_units (e : Char) (d : QChar) (hd : unitsOf e = [d]) (text : List Char) :
    ((units text).head? == some d) = (text.head? == some e) := by
  cases text with
  | nil => rfl
  | cons c text =>
    obtain ⟨u, us, hc⟩ := exists_cons_of_ne_nil (unitsOf_ne_nil c)
    have hu : u ∈ unitsOf c := by simp [hc]
    rw [units_cons, hc]
    simpa using beq_of_mem_unitsOf e d hd hu

private theorem drop_units_take (n : Nat) (text : List Char) :
    (units text).drop (units (text.take n)).length = units (text.drop n) := by
  calc (units text).drop (units (text.take n)).length
      = (units (text.take n) ++ units (text.drop n)).drop (units (text.take n)).length := by
        rw [← units_append, take_append_drop]
    _ = units (text.drop n) := drop_left

end

section
def lineSeparator : Char := Char.ofNat 0x2028
def paragraphSeparator : Char := Char.ofNat 0x2029

/-- The line ends of a page that the tooling knows only for spaces. -/
def isSeparator (c : Char) : Bool := c == lineSeparator || c == paragraphSeparator

def endsLine (c : Char) : Bool := c == lineFeed || c == carriageReturn || c == lineSeparator || c == paragraphSeparator

inductive Piece where
  | mark
  | lineEnd
  /-- `cut` is whether a line ends within it and it may not span lines. -/
  | literal (quote : Char) (cut : Bool)
  /-- `cut` is whether a separator ends its line. -/
  | lineComment (cut : Bool)
  | blockComment (lineEnds : Nat)
  | char (c : Char)
  deriving DecidableEq

def Piece.cut : Piece → Bool
  | .literal _ cut => cut
  | .lineComment cut => cut
  | _ => false

def cutWithin (quote : Char) (hidden : Bool) : List Char → Bool
  | [] => false
  | c :: rest =>
    if hidden then cutWithin quote false rest
    else if c == quote then false
    else (quote != backtick && endsLine c) || cutWithin quote (c == backslash) rest

/-- The line ends of a block comment, a CR LF pair one of them. -/
def lineEndsWithin (afterReturn : Bool) : List Char → Nat
  | [] => 0
  | c :: rest =>
    if afterReturn && c == lineFeed then lineEndsWithin false rest
    else if endsLine c then 1 + lineEndsWithin (c == carriageReturn) rest
    else if c == asterisk && rest.head? == some slash then 0
    else lineEndsWithin false rest

def commentedOut (c : Char) : Bool := c != lineFeed && c != carriageReturn

def piecesFrom (skip : Nat) : List Char → List Piece
  | [] => []
  | c :: rest =>
    match skip with
    | skip + 1 => piecesFrom skip rest
    | 0 =>
      if c == byteOrderMark then .mark :: piecesFrom 0 rest
      else if c == lineFeed || c == carriageReturn then
        .lineEnd :: piecesFrom (if c == carriageReturn && rest.head? == some lineFeed then 1 else 0) rest
      else if isQuote c then .literal c (cutWithin c false rest) :: piecesFrom (literalLength c false rest) rest
      else if c == slash && rest.head? == some slash then
        .lineComment ((rest.takeWhile commentedOut).any isSeparator) ::
          piecesFrom (rest.takeWhile commentedOut).length rest
      else if c == slash && rest.head? == some asterisk then
        .blockComment (lineEndsWithin false rest.tail) :: piecesFrom (1 + blockLength rest.tail) rest
      else .char c :: piecesFrom 0 rest

def pieces (source : List Char) : List Piece := piecesFrom 0 source

def Piece.wellFormed : Piece → Bool
  | .literal quote _ => isQuote quote
  | .char c => !isQuote c
  | _ => true

/-- A quote opens a literal, and nothing else does. -/
theorem wellFormed_of_mem {skip : Nat} {text : List Char} {piece : Piece} (h : piece ∈ piecesFrom skip text) :
    piece.wellFormed = true := by
  induction text generalizing skip with
  | nil => cases h
  | cons c rest ih =>
    cases skip with
    | succ skip => exact ih h
    | zero =>
      rw [piecesFrom] at h
      split at h
      · rcases mem_cons.mp h with rfl | h
        · rfl
        · exact ih h
      · split at h
        · rcases mem_cons.mp h with rfl | h
          · rfl
          · exact ih h
        · split at h
          · next hquote =>
            rcases mem_cons.mp h with rfl | h
            · exact hquote
            · exact ih h
          · next hquote =>
            split at h
            · rcases mem_cons.mp h with rfl | h
              · rfl
              · exact ih h
            · split at h
              · rcases mem_cons.mp h with rfl | h
                · rfl
                · exact ih h
              · rcases mem_cons.mp h with rfl | h
                · simpa [Piece.wellFormed] using hquote
                · exact ih h

def Piece.toolLeft : Piece → List Char
  | .lineEnd => [lineFeed]
  | .char c => [c]
  | _ => []

/-- What the palette's scan leaves of a piece it reads as one. -/
def Piece.paletteLeft : Piece → Text
  | .lineEnd => [Qml.lineFeed]
  | .literal quote _ => units [quote, quote]
  | .blockComment lineEnds => List.replicate lineEnds Qml.lineFeed
  | .char c => if isSeparator c then [Qml.lineFeed] else unitsOf c
  | _ => []

theorem strippedFrom_eq (skip : Nat) (text : List Char) :
    strippedFrom skip text = (piecesFrom skip text).flatMap Piece.toolLeft := by
  induction text generalizing skip with
  | nil => rfl
  | cons c rest ih =>
    cases skip with
    | succ skip => exact ih skip
    | zero =>
      rw [strippedFrom, piecesFrom]
      cases hmark : c == byteOrderMark with
      | true => exact ih 0
      | false => cases hreturn : c == carriageReturn with
        | true => simp [ih, Piece.toolLeft]
        | false => cases hfeed : c == lineFeed with
          | true =>
            obtain rfl := eq_of_beq hfeed
            have hquote : isQuote lineFeed = false := by decide
            have hslash : (lineFeed == slash) = false := by decide
            simp [hquote, hslash, ih, Piece.toolLeft]
          | false =>
            simp only [Bool.or_self, Bool.false_eq_true, reduceIte]
            split
            · exact ih _
            · split
              · exact ih _
              · split
                · exact ih _
                · simp [ih, Piece.toolLeft]

end

section
private theorem endsLine_of_mem_unitsOf {c : Char} {u : QChar} (hu : u ∈ unitsOf c) : QmlPalette.endsLine u = endsLine c := by
  have is (e : Char) (d : QChar) (hd : unitsOf e = [d]) : (u == d) = (c == e) := beq_of_mem_unitsOf e d hd hu
  rw [QmlPalette.endsLine, endsLine, is lineFeed Qml.lineFeed rfl,
    is carriageReturn Qml.carriageReturn rfl, is lineSeparator 0x2028 rfl, is paragraphSeparator 0x2029 rfl]

variable {u : QChar}

theorem isQuote_of_mem_unitsOf {c : Char} (hu : u ∈ unitsOf c) : Qml.isQuote u = isQuote c := by
  have is (e : Char) (d : QChar) (hd : unitsOf e = [d]) : (u == d) = (c == e) := beq_of_mem_unitsOf e d hd hu
  rw [Qml.isQuote, isQuote, is quotation Qml.quotation rfl, is apostrophe Qml.apostrophe rfl,
    is backtick Qml.backtick rfl]

private theorem strippedFrom_drop (skip : Nat) (text : Text) :
    QmlPalette.strippedFrom skip text = QmlPalette.strippedFrom 0 (text.drop skip) := by
  induction text generalizing skip with
  | nil => rw [drop_nil]; rfl
  | cons c text ih =>
    cases skip with
    | zero => rfl
    | succ skip => exact ih skip

/-- What no literal ends at is taken into it. -/
theorem consumeString_append {quote : QChar} {us : Text}
    (h : ∀ u ∈ us, (u == Qml.backslash) = false ∧ (u == quote) = false ∧
      (quote != Qml.backtick && QmlPalette.endsLine u) = false) (rest : Text) :
    consumeString quote 0 (us ++ rest) = us.length + consumeString quote 0 rest := by
  induction us with
  | nil => simp
  | cons u us ih =>
    obtain ⟨hescape, hquote, hstop⟩ := h u (mem_cons_self ..)
    rw [cons_append, consumeString, hescape, hquote, hstop, ih fun v hv => h v (mem_cons_of_mem _ hv),
      length_cons]
    simp only [Bool.false_eq_true, reduceIte]
    omega

private theorem consumeBlockComment_append {us : Text}
    (h : ∀ u ∈ us, QmlPalette.endsLine u = false ∧ (u == Qml.asterisk) = false) (rest : Text) :
    consumeBlockComment 0 (us ++ rest) =
      ((consumeBlockComment 0 rest).1, us.length + (consumeBlockComment 0 rest).2) := by
  induction us with
  | nil => simp
  | cons u us ih =>
    obtain ⟨hstop, hasterisk⟩ := h u (mem_cons_self ..)
    rw [cons_append, consumeBlockComment, hstop, hasterisk,
      ih fun v hv => h v (mem_cons_of_mem _ hv), length_cons]
    simp only [Bool.false_and, Bool.false_eq_true, reduceIte, Prod.mk.injEq, true_and]
    omega

private theorem length_units_cons (c : Char) (text : List Char) :
    (units (c :: text)).length = (unitsOf c).length + (units text).length := by rw [units_cons, length_append]

private theorem Surrogate.beq_eq_false {u d : QChar} (h : Surrogate u) (hd : d.toNat < 0xD800) : (u == d) = false := by
  apply beq_false_of_ne
  rintro rfl
  exact absurd h.1 (Nat.not_le_of_lt hd)

theorem Surrogate.endsLine (h : Surrogate u) : QmlPalette.endsLine u = false := by
  rw [QmlPalette.endsLine, h.beq_eq_false (by decide), h.beq_eq_false (by decide), h.beq_eq_false (by decide),
    h.beq_eq_false (by decide)]
  rfl

private theorem unitsOf_quote {quote : Char} (h : isQuote quote = true) :
    ∃ q, unitsOf quote = [q] ∧ q.toNat < 0xD800 ∧ (q == Qml.backslash) = false := by
  have hcases : (quote = quotation ∨ quote = apostrophe) ∨ quote = backtick := by simpa [isQuote] using h
  rcases hcases with (rfl | rfl) | rfl
  · exact ⟨Qml.quotation, rfl, by decide, by decide⟩
  · exact ⟨Qml.apostrophe, rfl, by decide, by decide⟩
  · exact ⟨Qml.backtick, rfl, by decide, by decide⟩

variable {text : List Char}

theorem consumeString_units {quote : Char} {hidden : Bool} {q : QChar}
    (hquote : isQuote quote = true) (hq : unitsOf quote = [q]) (hcut : cutWithin quote hidden text = false) :
    consumeString q hidden.toNat (units text) = (units (text.take (literalLength quote hidden text))).length := by
  obtain ⟨q', hq', hlow, hescape⟩ := unitsOf_quote hquote
  obtain rfl : q = q' := by simpa [hq] using hq'
  induction text generalizing hidden with
  | nil => rfl
  | cons c rest ih =>
    rw [literalLength]
    rw [cutWithin] at hcut
    cases hidden with
    | true =>
      rw [if_pos rfl] at hcut ⊢
      rw [Nat.add_comm 1, take_succ_cons, length_units_cons, units_cons, ← ih hcut]
      have hencoded := encoded c
      generalize unitsOf c = us at hencoded
      cases hencoded with
      | unit u hu => rfl
      | pair high low hhigh hlow' hastral =>
        -- the escape hides the first surrogate, and the second ends nothing
        have hinside : ∀ u ∈ [low], (u == Qml.backslash) = false ∧ (u == q) = false ∧
            (q != Qml.backtick && QmlPalette.endsLine u) = false := by
          intro u hu
          obtain rfl := mem_singleton.mp hu
          rw [hlow'.endsLine, Bool.and_false]
          exact ⟨hlow'.beq_eq_false (by decide), hlow'.beq_eq_false hlow, rfl⟩
        calc consumeString q 1 ([high, low] ++ units rest)
            = 1 + consumeString q 0 ([low] ++ units rest) := rfl
          _ = 1 + (1 + consumeString q 0 (units rest)) := by rw [consumeString_append hinside]; rfl
          _ = 2 + consumeString q 0 (units rest) := by omega
    | false =>
      simp only [Bool.false_eq_true, reduceIte] at hcut ⊢
      cases hend : c == quote with
      | true =>
        obtain rfl := eq_of_beq hend
        rw [if_pos rfl, take_succ_cons, take_zero, units_cons, hq, singleton_append, Bool.toNat_false,
          consumeString, hescape, beq_self_eq_true]
        simp [units, hq]
      | false =>
        rw [hend] at hcut
        simp only [Bool.false_eq_true, reduceIte, Bool.or_eq_false_iff] at hcut ⊢
        rw [Nat.add_comm 1, take_succ_cons, length_units_cons, units_cons]
        cases hback : c == backslash with
        | true =>
          obtain rfl := eq_of_beq hback
          have hhidden : cutWithin quote true rest = false := hcut.2
          rw [← ih hhidden]
          rfl
        | false =>
          rw [hback] at hcut
          have hinside : ∀ u ∈ unitsOf c, (u == Qml.backslash) = false ∧ (u == q) = false ∧
              (q != Qml.backtick && QmlPalette.endsLine u) = false := by
            intro u hu
            have hmem : q ∈ unitsOf quote := by simp [hq]
            have hkind : (q != Qml.backtick) = (quote != backtick) := by
              rw [bne, bne, beq_of_mem_unitsOf backtick Qml.backtick rfl hmem]
            rw [beq_of_mem_unitsOf backslash Qml.backslash rfl hu, beq_of_mem_unitsOf quote q hq hu, endsLine_of_mem_unitsOf hu, hkind]
            exact ⟨hback, hend, hcut.1⟩
          rw [Bool.toNat_false, consumeString_append hinside, ← ih hcut.2]
          rfl

private theorem unitsOf_of_endsLine {c : Char} (h : endsLine c = true) : ∃ u, unitsOf c = [u] := by
  have hmem : ∀ u ∈ unitsOf c, QmlPalette.endsLine u = true := fun u hu => (endsLine_of_mem_unitsOf hu).trans h
  have hencoded := encoded c
  generalize unitsOf c = us at hmem hencoded
  cases hencoded with
  | unit u _ => exact ⟨u, rfl⟩
  | pair high low hhigh _ _ => exact absurd (hmem high (mem_cons_self ..)) (by simp [hhigh.endsLine])

theorem consumeBlockComment_units (afterReturn : Bool) (text : List Char) :
    consumeBlockComment (if afterReturn && text.head? == some lineFeed then 1 else 0) (units text) =
      (List.replicate (lineEndsWithin afterReturn text) Qml.lineFeed, (units (text.take (blockLength text))).length) := by
  induction text generalizing afterReturn with
  | nil => rfl
  | cons c rest ih =>
    have hfirst : ((c :: rest).head? == some lineFeed) = (c == lineFeed) := by simp
    have hnext : consumeBlockComment 0 (units rest) =
        (List.replicate (lineEndsWithin false rest) Qml.lineFeed, (units (rest.take (blockLength rest))).length) := ih false
    rw [hfirst, lineEndsWithin, blockLength]
    cases hpair : afterReturn && c == lineFeed with
    | true =>
      obtain ⟨_, hfeed⟩ := Bool.and_eq_true_iff.mp hpair
      obtain rfl := eq_of_beq hfeed
      have hasterisk : (lineFeed == asterisk) = false := by decide
      have hunits : units (lineFeed :: rest) = Qml.lineFeed :: units rest := rfl
      rw [hasterisk, Bool.false_and, if_pos rfl, if_pos rfl, if_neg Bool.false_ne_true, hunits,
        consumeBlockComment, hnext, Nat.add_comm 1 (blockLength rest), take_succ_cons, length_units_cons]
      rfl
    | false =>
      rw [if_neg Bool.false_ne_true, if_neg Bool.false_ne_true]
      cases hline : endsLine c with
      | true =>
        obtain ⟨u, hu⟩ := unitsOf_of_endsLine hline
        have hmem : u ∈ unitsOf c := by simp [hu]
        have hasterisk : (c == asterisk) = false := by
          apply beq_false_of_ne
          rintro rfl
          exact absurd hline (by decide)
        rw [hasterisk, Bool.false_and, if_pos rfl, if_neg Bool.false_ne_true, Nat.add_comm 1 (blockLength rest),
          take_succ_cons, length_units_cons, units_cons, hu, singleton_append, consumeBlockComment,
          endsLine_of_mem_unitsOf hmem, hline, if_pos rfl,
          beq_of_mem_unitsOf carriageReturn Qml.carriageReturn rfl hmem, head?_units lineFeed Qml.lineFeed rfl, ih,
          Nat.add_comm 1, replicate_succ]
        rfl
      | false =>
        rw [if_neg Bool.false_ne_true]
        cases hasterisk : c == asterisk with
        | true =>
          obtain rfl := eq_of_beq hasterisk
          have hunits : units (asterisk :: rest) = Qml.asterisk :: units rest := rfl
          have hstop : QmlPalette.endsLine Qml.asterisk = false := by decide
          rw [Bool.true_and, hunits, consumeBlockComment, hstop, if_neg Bool.false_ne_true,
            beq_self_eq_true, Bool.true_and, head?_units slash Qml.slash rfl, hnext]
          cases hslash : rest.head? == some slash with
          | true =>
            obtain ⟨rest', rfl⟩ := List.head?_eq_some_iff.mp (eq_of_beq hslash)
            rfl
          | false =>
            rw [if_neg Bool.false_ne_true, if_neg Bool.false_ne_true, if_neg Bool.false_ne_true,
              Nat.add_comm 1 (blockLength rest), take_succ_cons, length_units_cons]
            rfl
        | false =>
          have hinside : ∀ u ∈ unitsOf c, QmlPalette.endsLine u = false ∧ (u == Qml.asterisk) = false := by
            intro u hu
            rw [endsLine_of_mem_unitsOf hu, beq_of_mem_unitsOf asterisk Qml.asterisk rfl hu]
            exact ⟨hline, hasterisk⟩
          rw [Bool.false_and, if_neg Bool.false_ne_true, if_neg Bool.false_ne_true, Nat.add_comm 1 (blockLength rest),
            take_succ_cons, length_units_cons, units_cons, consumeBlockComment_append hinside, hnext]

private theorem strippedFrom_of_endsLine (h : QmlPalette.endsLine u = true) (rest : Text) :
    QmlPalette.strippedFrom 0 (u :: rest) = Qml.lineFeed :: QmlPalette.strippedFrom
      (if u == Qml.carriageReturn && rest.head? == some Qml.lineFeed then 1 else 0) rest := by
  have hmark : (u == Qml.byteOrderMark) = false := by
    apply beq_false_of_ne
    rintro rfl
    exact absurd h (by decide)
  rw [QmlPalette.strippedFrom, hmark, h, if_neg Bool.false_ne_true, if_pos rfl]

private theorem strippedFrom_of_isQuote (h : Qml.isQuote u = true) (rest : Text) :
    QmlPalette.strippedFrom 0 (u :: rest) =
      u :: u :: QmlPalette.strippedFrom (QmlPalette.consumeString u 0 rest) rest := by
  have hcases : (u = Qml.quotation ∨ u = Qml.apostrophe) ∨ u = Qml.backtick := by simpa [Qml.isQuote] using h
  rcases hcases with (rfl | rfl) | rfl <;> rfl

theorem strippedFrom_append {us : Text}
    (h : ∀ u ∈ us, (u == Qml.byteOrderMark) = false ∧ QmlPalette.endsLine u = false ∧ Qml.isQuote u = false ∧
      (u == Qml.slash) = false) (rest : Text) :
    QmlPalette.strippedFrom 0 (us ++ rest) = us ++ QmlPalette.strippedFrom 0 rest := by
  induction us with
  | nil => rfl
  | cons u us ih =>
    obtain ⟨hmark, hline, hquote, hslash⟩ := h u (mem_cons_self ..)
    have hquote' : (u == Qml.quotation || u == Qml.apostrophe || u == Qml.backtick) = false := hquote
    rw [cons_append, QmlPalette.strippedFrom, hmark, hline, hquote', hslash,
      ih fun v hv => h v (mem_cons_of_mem _ hv)]
    rfl

private theorem strippedFrom_slash {rest : Text} (hslash : (rest.head? == some Qml.slash) = false)
    (hasterisk : (rest.head? == some Qml.asterisk) = false) :
    QmlPalette.strippedFrom 0 (Qml.slash :: rest) = Qml.slash :: QmlPalette.strippedFrom 0 rest := by
  rw [QmlPalette.strippedFrom, hslash, hasterisk]
  rfl

/-- A comment that no separator cuts is taken to its line end by both scans. -/
theorem commentedOut_units (hcut : (text.takeWhile commentedOut).any isSeparator = false) :
    (units text).takeWhile (!QmlPalette.endsLine ·) = units (text.takeWhile commentedOut) := by
  have hends (c : Char) : (!endsLine c) = (commentedOut c && !isSeparator c) := by
    rw [endsLine, commentedOut, isSeparator, bne, bne]
    cases c == lineFeed <;> cases c == carriageReturn <;> cases c == lineSeparator <;>
      cases c == paragraphSeparator <;> rfl
  have hkind : ∀ c, unitsOf c ≠ [] ∧ ∀ u ∈ unitsOf c, (!QmlPalette.endsLine u) = !endsLine c := by
    intro c
    refine ⟨unitsOf_ne_nil c, ?_⟩
    intro u hu
    rw [endsLine_of_mem_unitsOf hu]
  have hsame : text.takeWhile commentedOut = text.takeWhile (!endsLine ·) := by
    apply takeWhile_eq_takeWhile
    · intro c hc
      rw [hends] at hc
      exact (Bool.and_eq_true_iff.mp hc).1
    · intro c hc
      have hnot : isSeparator c = false := by simpa using any_eq_false.mp hcut c hc
      rw [hends, hnot, mem_takeWhile_imp hc]
      rfl
  rw [hsame]
  exact takeWhile_flatMap hkind text

private theorem strippedFrom_lineComment {rest : List Char}
    (hcut : ((slash :: rest).takeWhile commentedOut).any isSeparator = false) :
    QmlPalette.strippedFrom 0 (units (slash :: slash :: rest)) =
      QmlPalette.strippedFrom 0 (units ((slash :: rest).drop ((slash :: rest).takeWhile commentedOut).length)) := by
  have htake : (slash :: rest).take ((slash :: rest).takeWhile commentedOut).length = slash :: rest.takeWhile commentedOut :=
    (prefix_iff_eq_take.mp ( takeWhile_prefix commentedOut)).symm
  have hcut' : (rest.takeWhile commentedOut).any isSeparator = false := hcut
  calc QmlPalette.strippedFrom 0 (units (slash :: slash :: rest))
      = QmlPalette.strippedFrom (1 + ((units rest).takeWhile (!QmlPalette.endsLine ·)).length) (units (slash :: rest)) :=
        rfl
    _ = QmlPalette.strippedFrom (units (slash :: rest.takeWhile commentedOut)).length (units (slash :: rest)) := by
        rw [commentedOut_units hcut', length_units_cons]
        rfl
    _ = _ := by rw [strippedFrom_drop, ← htake, drop_units_take]

private theorem strippedFrom_blockComment (rest : List Char) :
    QmlPalette.strippedFrom 0 (units (slash :: asterisk :: rest)) =
      List.replicate (lineEndsWithin false rest) Qml.lineFeed ++
        QmlPalette.strippedFrom 0 (units ((asterisk :: rest).drop (1 + blockLength rest))) := by
  have hcomment : QmlPalette.consumeBlockComment 0 (units rest) =
      (List.replicate (lineEndsWithin false rest) Qml.lineFeed, (units (rest.take (blockLength rest))).length) :=
    consumeBlockComment_units false rest
  calc QmlPalette.strippedFrom 0 (units (slash :: asterisk :: rest))
      = (QmlPalette.consumeBlockComment 0 (units rest)).1 ++
          QmlPalette.strippedFrom (1 + (QmlPalette.consumeBlockComment 0 (units rest)).2) (units (asterisk :: rest)) :=
        rfl
    _ = List.replicate (lineEndsWithin false rest) Qml.lineFeed ++
          QmlPalette.strippedFrom (units ((asterisk :: rest).take (1 + blockLength rest))).length
            (units (asterisk :: rest)) := by
        rw [hcomment, Nat.add_comm 1 (blockLength rest), take_succ_cons, length_units_cons]
        rfl
    _ = _ := by rw [strippedFrom_drop, drop_units_take]

private theorem drop_lineFeed (afterReturn : Bool) (text : List Char) :
    (units text).drop (if afterReturn && text.head? == some lineFeed then 1 else 0) =
      units (text.drop (if afterReturn && text.head? == some lineFeed then 1 else 0)) := by
  cases hpair : afterReturn && text.head? == some lineFeed with
  | true =>
    obtain ⟨_, hfeed⟩ := Bool.and_eq_true_iff.mp hpair
    obtain ⟨rest, rfl⟩ := List.head?_eq_some_iff.mp (eq_of_beq hfeed)
    rfl
  | false => rfl

private theorem strippedFrom_lineEnd {c : Char} (hend : (c == lineFeed || c == carriageReturn) = true) (rest : List Char) :
    QmlPalette.strippedFrom 0 (units (c :: rest)) =
      Qml.lineFeed :: QmlPalette.strippedFrom 0
        (units (rest.drop (if c == carriageReturn && rest.head? == some lineFeed then 1 else 0))) := by
  have hline : endsLine c = true := by rw [endsLine, hend]; rfl
  obtain ⟨u, hu⟩ := unitsOf_of_endsLine hline
  have hmem : u ∈ unitsOf c := by simp [hu]
  rw [units_cons, hu, singleton_append, strippedFrom_of_endsLine ((endsLine_of_mem_unitsOf hmem).trans hline),
    beq_of_mem_unitsOf carriageReturn Qml.carriageReturn rfl hmem, head?_units lineFeed Qml.lineFeed rfl,
    strippedFrom_drop, drop_lineFeed]

/-- A literal that is not cut is left as its two quotes. -/
theorem strippedFrom_literal {quote : Char} (hquote : isQuote quote = true) {rest : List Char}
    (hcut : cutWithin quote false rest = false) :
    QmlPalette.strippedFrom 0 (units (quote :: rest)) =
      units [quote, quote] ++ QmlPalette.strippedFrom 0 (units (rest.drop (literalLength quote false rest))) := by
  obtain ⟨q, hq, _, _⟩ := unitsOf_quote hquote
  have hmem : q ∈ unitsOf quote := by simp [hq]
  have hlength := consumeString_units hquote hq hcut
  rw [Bool.toNat_false] at hlength
  rw [units_cons, hq, singleton_append, strippedFrom_of_isQuote ((isQuote_of_mem_unitsOf hmem).trans hquote),
    hlength, strippedFrom_drop, drop_units_take, units_cons, units_cons, hq]
  rfl

private theorem strippedFrom_char {c : Char} (hmark : (c == byteOrderMark) = false)
    (hend : (c == lineFeed || c == carriageReturn) = false) (hquote : isQuote c = false)
    (hslash : (c == slash) = false) (rest : List Char) :
    QmlPalette.strippedFrom 0 (units (c :: rest)) =
      (Piece.char c).paletteLeft ++ QmlPalette.strippedFrom 0 (units rest) := by
  have hline : endsLine c = isSeparator c := by
    rw [endsLine, Bool.or_assoc, hend, Bool.false_or, isSeparator]
  rw [Piece.paletteLeft]
  cases hsep : isSeparator c with
  | true =>
    obtain ⟨u, hu⟩ := unitsOf_of_endsLine (hline.trans hsep)
    have hmem : u ∈ unitsOf c := by simp [hu]
    have hreturn : (u == Qml.carriageReturn) = false := by
      rw [beq_of_mem_unitsOf carriageReturn Qml.carriageReturn rfl hmem]
      exact (Bool.or_eq_false_iff.mp hend).2
    rw [units_cons, hu, singleton_append,
      strippedFrom_of_endsLine ((endsLine_of_mem_unitsOf hmem).trans (hline.trans hsep)), hreturn]
    rfl
  | false =>
    rw [units_cons, if_neg Bool.false_ne_true]
    apply strippedFrom_append
    intro u hu
    rw [beq_of_mem_unitsOf byteOrderMark Qml.byteOrderMark rfl hu, endsLine_of_mem_unitsOf hu,
      isQuote_of_mem_unitsOf hu, beq_of_mem_unitsOf slash Qml.slash rfl hu]
    exact ⟨hmark, hline.trans hsep, hquote, hslash⟩

/-- The palette's scan leaves of each piece its part, where none is cut. -/
theorem strippedFrom_units {skip : Nat} (hwhole : ∀ piece ∈ piecesFrom skip text, piece.cut = false) :
    QmlPalette.strippedFrom 0 (units (text.drop skip)) = (piecesFrom skip text).flatMap Piece.paletteLeft := by
  induction text generalizing skip with
  | nil => rw [drop_nil]; rfl
  | cons c rest ih =>
    cases skip with
    | succ skip => exact ih hwhole
    | zero =>
      have later {piece : Piece} {skip : Nat} (h : ∀ p ∈ piece :: piecesFrom skip rest, p.cut = false) :
          QmlPalette.strippedFrom 0 (units (rest.drop skip)) = (piecesFrom skip rest).flatMap Piece.paletteLeft :=
        ih fun p hp => h p (mem_cons_of_mem _ hp)
      rw [piecesFrom] at hwhole ⊢
      rw [drop_zero]
      cases hmark : c == byteOrderMark with
      | true =>
        obtain rfl := eq_of_beq hmark
        rw [hmark, if_pos rfl] at hwhole
        exact later hwhole
      | false =>
        rw [hmark, if_neg Bool.false_ne_true] at hwhole
        rw [if_neg Bool.false_ne_true]
        cases hend : c == lineFeed || c == carriageReturn with
        | true =>
          rw [hend, if_pos rfl] at hwhole
          rw [if_pos rfl, flatMap_cons, ← later hwhole]
          exact strippedFrom_lineEnd hend rest
        | false =>
          rw [hend, if_neg Bool.false_ne_true] at hwhole
          rw [if_neg Bool.false_ne_true]
          cases hquote : isQuote c with
          | true =>
            rw [hquote, if_pos rfl] at hwhole
            rw [if_pos rfl, flatMap_cons, ← later hwhole]
            exact strippedFrom_literal hquote (hwhole _ (mem_cons_self ..))
          | false =>
            rw [hquote, if_neg Bool.false_ne_true] at hwhole
            rw [if_neg Bool.false_ne_true]
            cases hslash : c == slash with
            | true =>
              obtain rfl := eq_of_beq hslash
              rw [hslash, Bool.true_and, Bool.true_and] at hwhole
              rw [Bool.true_and, Bool.true_and]
              cases hline : rest.head? == some slash with
              | true =>
                obtain ⟨rest, rfl⟩ := List.head?_eq_some_iff.mp (eq_of_beq hline)
                rw [hline, if_pos rfl] at hwhole
                exact (strippedFrom_lineComment (hwhole _ (mem_cons_self ..))).trans (later hwhole)
              | false =>
                rw [hline, if_neg Bool.false_ne_true] at hwhole
                rw [if_neg Bool.false_ne_true]
                cases hblock : rest.head? == some asterisk with
                | true =>
                  obtain ⟨rest, rfl⟩ := List.head?_eq_some_iff.mp (eq_of_beq hblock)
                  rw [hblock, if_pos rfl] at hwhole
                  rw [if_pos rfl, flatMap_cons, ← later hwhole]
                  exact strippedFrom_blockComment rest
                | false =>
                  rw [hblock, if_neg Bool.false_ne_true] at hwhole
                  rw [if_neg Bool.false_ne_true, flatMap_cons, ← later hwhole]
                  have hline' := (head?_units slash Qml.slash rfl rest).trans hline
                  have hblock' := (head?_units asterisk Qml.asterisk rfl rest).trans hblock
                  exact strippedFrom_slash hline' hblock'
            | false =>
              rw [hslash, Bool.false_and, if_neg Bool.false_ne_true, Bool.false_and, if_neg Bool.false_ne_true] at hwhole
              rw [Bool.false_and, if_neg Bool.false_ne_true, Bool.false_and, if_neg Bool.false_ne_true,
                flatMap_cons, ← later hwhole]
              exact strippedFrom_char hmark hend hquote hslash rest

end
end SynQt.QmlScan
