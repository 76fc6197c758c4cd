import Mathlib.Data.List.DropRight
import SynQt.Tools.SynTokens

/-! The tokenizer line by line: the words of a line, and whether it leaves a block comment open for
the next. Where a word stands is left out. -/
namespace SynQt.Synqtc
open List hiding map_map
open Option

abbrev Line := List Char

def prepend (words : List Word) (read : List Word × Bool) : List Word × Bool := (words ++ read.1, read.2)

/-- The words of a text past `skip` characters of it, begun inside of a block comment or not, and
whether one is open at its end. -/
def lexFrom (isOpen : Bool) (skip : Nat) : List Char → Option (List Word × Bool)
  | [] => some ([], isOpen)
  | c :: rest =>
    match skip with
    | skip + 1 => lexFrom isOpen skip rest
    | 0 =>
      if isOpen then
        if c == '*' && rest.head? == some '/' then lexFrom false 1 rest else lexFrom true 0 rest
      else if isBlank c then lexFrom false 0 rest
      else if c == '/' && rest.head? == some '/' then lexFrom false (rest.takeWhile (· != '\n')).length rest
      else if c == '/' && rest.head? == some '*' then lexFrom true 0 rest
      else if marks.contains c then (lexFrom false 0 rest).map (prepend [mark c])
      else if isIdentStart c then
        let word := rest.takeWhile isIdentChar
        (lexFrom false word.length rest).map (prepend [ident (String.ofList (c :: word))])
      else if isDigit c then
        let word := rest.takeWhile isDigit
        (lexFrom false word.length rest).map (prepend [(.number, String.ofList (c :: word))])
      else none

def lexLines (isOpen : Bool) : List Line → Option (List Word × Bool)
  | [] => some ([], isOpen)
  | line :: lines => (lexFrom isOpen 0 line).bind fun read => (lexLines read.2 lines).map (prepend read.1)

private theorem prepend_prepend (words words' : List Word) (read : List Word × Bool) :
    prepend words (prepend words' read) = prepend (words ++ words') read := by
  rw [prepend, prepend, prepend, append_assoc]

private theorem lexFrom_open (text : List Char) :
    lexFrom true 0 text = match closing text with
      | none => some ([], true)
      | some place => lexFrom false (place + 2) text := by
  induction text with
  | nil => rfl
  | cons c rest ih =>
    rw [lexFrom, closing]
    simp only [if_true]
    split
    · rfl
    · rw [ih]
      cases closing rest <;> rfl

def wordsOf (read : Except Raised (List Token)) : Option (List Word) :=
  match read with
  | .ok tokens => some (tokens.map Token.word)
  | .error _ => none

/-- The end of a file, which no block comment may be open at. -/
def closed (read : List Word × Bool) : Option (List Word) := if read.2 then none else some (read.1 ++ [endWord])

private theorem wordsOf_token (token : Token) (read : Except Raised (List Token)) :
    wordsOf (do let tokens ← read; return token :: tokens) = (wordsOf read).map (token.word :: ·) := by
  cases read <;> rfl

private theorem bind_closed_prepend (w : Word) (read : Option (List Word × Bool)) :
    (read.map (prepend [w])).bind closed = (read.bind closed).map (w :: ·) := by
  cases read with
  | none => rfl
  | some read =>
    obtain ⟨words, isOpen⟩ := read
    cases isOpen <;> rfl

theorem wordsOf_tokenizeFrom (path : String) (text : List Char) (skip line col : Nat) :
    wordsOf (tokenizeFrom path skip line col text) = (lexFrom false skip text).bind closed := by
  induction text generalizing skip line col with
  | nil => cases skip <;> rfl
  | cons c rest ih =>
    cases skip with
    | succ skip =>
      rw [tokenizeFrom, lexFrom]
      exact ih skip _ _
    | zero =>
      rw [tokenizeFrom, lexFrom]
      simp only [Bool.false_eq_true, if_false]
      split
      · exact ih 0 _ _
      · split
        · exact ih _ _ _
        · split
          · rename_i hblock
            obtain ⟨hslash, -⟩ := Bool.and_eq_true_iff.mp hblock
            obtain rfl := beq_iff_eq.mp hslash
            rw [closing, if_neg (by simp), lexFrom_open]
            cases closing rest with
            | none => rfl
            | some place => exact ih (place + 2) _ _
          · split
            · rw [wordsOf_token, bind_closed_prepend, ih]
              rfl
            · split
              · rw [wordsOf_token, bind_closed_prepend, ih]
                rfl
              · split
                · rw [wordsOf_token, bind_closed_prepend, ih]
                  rfl
                · rfl

theorem words_of_tokenize {text path : String} {tokens : List Token} (h : tokenize text path = .ok tokens) :
    ∃ words, lexFrom false 0 text.toList = some (words, false) ∧ tokens.map Token.word = words ++ [endWord] := by
  have hwords := wordsOf_tokenizeFrom path text.toList 0 1 1
  rw [tokenize] at h
  rw [h, wordsOf, eq_comm, bind_eq_some_iff] at hwords
  obtain ⟨⟨words, isOpen⟩, hlex, hclosed⟩ := hwords
  cases isOpen with
  | true => cases hclosed
  | false => exact ⟨words, hlex, (Option.some.inj hclosed).symm⟩

/-- A text is read as these words exactly where it lexes to them and ends outside of a comment. -/
theorem tokenize_iff {text path : String} {words : List Word} :
    (∃ tokens, tokenize text path = .ok tokens ∧ tokens.map Token.word = words ++ [endWord]) ↔
      lexFrom false 0 text.toList = some (words, false) := by
  constructor
  · rintro ⟨tokens, hread, hspelled⟩
    obtain ⟨words', hlex, hwords⟩ := words_of_tokenize hread
    rw [hlex, append_cancel_right (hwords.symm.trans hspelled)]
  · intro hlex
    have hwords := wordsOf_tokenizeFrom path text.toList 0 1 1
    rw [hlex] at hwords
    rw [tokenize]
    cases hread : tokenizeFrom path 0 1 1 text.toList with
    | error e =>
      rw [hread] at hwords
      cases hwords
    | ok tokens =>
      rw [hread] at hwords
      exact ⟨tokens, rfl, Option.some.inj hwords⟩

private theorem isWord_prepend {w : Word} (hw : IsWord w) {read : Option (List Word × Bool)}
    (hread : ∀ later, read = some later → ∀ w ∈ later.1, IsWord w) :
    ∀ later, read.map (prepend [w]) = some later → ∀ w ∈ later.1, IsWord w := by
  intro later hlater
  obtain ⟨later, hread', rfl⟩ := map_eq_some_iff.mp hlater
  exact forall_mem_cons.mpr ⟨hw, hread later hread'⟩

theorem isWord_lexFrom (text : List Char) (isOpen : Bool) (skip : Nat) :
    ∀ read, lexFrom isOpen skip text = some read → ∀ w ∈ read.1, IsWord w := by
  induction text generalizing isOpen skip with
  | nil =>
    rintro read ⟨⟩
    exact forall_mem_nil _
  | cons c rest ih =>
    cases skip with
    | succ skip => exact ih isOpen skip
    | zero =>
      rw [lexFrom]
      simp only
      split
      · split
        · exact ih _ _
        · exact ih _ _
      · split
        · exact ih _ _
        · split
          · exact ih _ _
          · split
            · exact ih _ _
            · split
              · rename_i hmark
                exact isWord_prepend (w := mark c) ⟨contains_iff_mem.mp hmark, rfl⟩ (ih _ _)
              · split
                · rename_i hstart
                  apply isWord_prepend _ (ih _ _)
                  show identifier (String.ofList (c :: rest.takeWhile isIdentChar)).toList = true
                  rw [String.toList_ofList, identifier, hstart, all_takeWhile]
                  rfl
                · split
                  · rename_i hdigit
                    apply isWord_prepend _ (ih _ _)
                    refine ⟨by simp, ?_⟩
                    rw [String.toList_ofList, all_cons, hdigit, all_takeWhile]
                    rfl
                  · intro _ h
                    cases h

variable {text : List Char}

theorem takeWhile_append_stop {p : Char → Bool} (hstop : ∀ c ∈ text.head?, p c = false) (l : List Char) :
    (l ++ text).takeWhile p = l.takeWhile p := by
  induction l with
  | nil =>
    cases text with
    | nil => rfl
    | cons c text => rw [nil_append, takeWhile_cons, hstop c rfl]; rfl
  | cons c l ih => rw [cons_append, takeWhile_cons, takeWhile_cons, ih]

private theorem lexFrom_skip (isOpen : Bool) (chars text : List Char) :
    lexFrom isOpen chars.length (chars ++ text) = lexFrom isOpen 0 text := by
  induction chars with
  | nil => rfl
  | cons c chars ih => rw [length_cons, cons_append, lexFrom, ih]

theorem lexFrom_blanks {blanks : List Char} (hblanks : ∀ c ∈ blanks, isBlank c = true) (isOpen : Bool) (text : List Char) :
    lexFrom isOpen 0 (blanks ++ text) = lexFrom isOpen 0 text := by
  induction blanks with
  | nil => rfl
  | cons c blanks ih =>
    obtain ⟨hc, hblanks⟩ := forall_mem_cons.mp hblanks
    have hstar : (c == '*') = false := by
      rw [beq_eq_false_iff_ne]
      rintro rfl
      cases hc
    rw [cons_append, lexFrom]
    simp only [hc, hstar, Bool.false_and, Bool.false_eq_true, if_false, if_true]
    cases isOpen with
    | true => exact ih hblanks
    | false => exact ih hblanks

/-- A comment that is open goes on over what does not close it. -/
theorem lexFrom_within {chars text : List Char} (hcloses : ¬ ['*', '/'] <:+: chars) (hapart : text.head? ≠ some '/') :
    lexFrom true 0 (chars ++ text) = lexFrom true 0 text := by
  induction chars with
  | nil => rfl
  | cons c chars ih =>
    have hne : (c == '*' && (chars ++ text).head? == some '/') = false := by
      by_contra hboth
      simp only [Bool.not_eq_false, Bool.and_eq_true, beq_iff_eq] at hboth
      obtain ⟨rfl, hnext⟩ := hboth
      cases chars with
      | nil => exact hapart hnext
      | cons d chars =>
        obtain rfl : d = '/' := Option.some.inj hnext
        exact hcloses ⟨[], chars, rfl⟩
    rw [cons_append, lexFrom]
    simp only [hne, Bool.false_eq_true, if_false, if_true]
    exact ih fun hin => hcloses (hin.trans (suffix_cons c chars).isInfix)

theorem lexFrom_mark {c : Char} (hmark : c ∈ marks) (text : List Char) :
    lexFrom false 0 (c :: text) = (lexFrom false 0 text).map (prepend [mark c]) := by
  have hfirst : isBlank c = false ∧ (c == '/') = false := by
    simp only [marks, mem_cons, not_mem_nil, or_false] at hmark
    rcases hmark with rfl | rfl | rfl | rfl | rfl | rfl | rfl | rfl | rfl <;> decide
  rw [lexFrom]
  simp only [hfirst.1, hfirst.2, contains_iff_mem.mpr hmark, Bool.false_and, Bool.false_eq_true, if_false, if_true]

theorem lexFrom_ident {name : String} (hname : identifier name.toList = true)
    (hapart : ∀ c ∈ text.head?, isIdentChar c = false) :
    lexFrom false 0 (name.toList ++ text) = (lexFrom false 0 text).map (prepend [ident name]) := by
  cases hchars : name.toList with
  | nil =>
    rw [hchars] at hname
    cases hname
  | cons c word =>
    rw [hchars] at hname
    obtain ⟨hstart, hword⟩ := Bool.and_eq_true_iff.mp hname
    obtain ⟨hblank, hslash, hmark⟩ := first_of (by decide) hstart
    rw [cons_append, lexFrom]
    simp only [hblank, hslash, hmark, hstart, Bool.false_and, Bool.false_eq_true, if_false, if_true]
    rw [takeWhile_word hword hapart, lexFrom_skip, ← hchars, String.ofList_toList]

theorem lexFrom_number {digits : String} (hsome : digits.toList ≠ []) (hdigits : digits.toList.all isDigit = true)
    (hapart : ∀ c ∈ text.head?, isDigit c = false) :
    lexFrom false 0 (digits.toList ++ text) = (lexFrom false 0 text).map (prepend [(.number, digits)]) := by
  cases hchars : digits.toList with
  | nil => exact absurd hchars hsome
  | cons c word =>
    rw [hchars] at hdigits
    obtain ⟨hdigit, hword⟩ := Bool.and_eq_true_iff.mp (all_cons.symm.trans hdigits)
    obtain ⟨hblank, hslash, hmark⟩ := first_of (by decide) hdigit
    rw [cons_append, lexFrom]
    simp only [hblank, hslash, hmark, not_isIdentStart hdigit, hdigit, Bool.false_and, Bool.false_eq_true, if_false, if_true]
    rw [takeWhile_word hword hapart, lexFrom_skip, ← hchars, String.ofList_toList]

/-- Characters that are all skipped are not read. -/
theorem lexFrom_length (isOpen : Bool) (chars : List Char) : lexFrom isOpen chars.length chars = some ([], isOpen) := by
  have hskip := lexFrom_skip isOpen chars []
  rw [append_nil] at hskip
  rw [hskip, lexFrom]

theorem takeWhile_line {line : Line} (hline : '\n' ∉ line) : line.takeWhile (· != '\n') = line := by
  rw [takeWhile_eq_self_iff]
  intro c hc
  rw [bne_iff_ne]
  rintro rfl
  exact hline hc

theorem lexFrom_comment (htext : '\n' ∉ text) : lexFrom false 0 ('/' :: '/' :: text) = some ([], false) := by
  have hline : '\n' ∉ '/' :: text := fun hmem => htext ((mem_cons.mp hmem).resolve_left (by decide))
  rw [lexFrom]
  simp only [takeWhile_line hline, lexFrom_length]
  rfl

/-- What a text goes on to is put after what was read of it. -/
def continued (read : Option (List Word × Bool)) (rest : List Char) : Option (List Word × Bool) :=
  read.bind fun before => (lexFrom before.2 0 rest).map (prepend before.1)

private theorem continued_prepend (w : Word) (read : Option (List Word × Bool)) (rest : List Char) :
    continued (read.map (prepend [w])) rest = (continued read rest).map (prepend [w]) := by
  cases read with
  | none => rfl
  | some before =>
    rw [continued, continued, map_some, bind_some, bind_some, map_map]
    rfl

theorem lexFrom_newline (line rest : List Char) (isOpen : Bool) {skip : Nat} (hskip : skip ≤ line.length) (hline : '\n' ∉ line) :
    lexFrom isOpen skip (line ++ '\n' :: rest) = continued (lexFrom isOpen skip line) rest := by
  induction line generalizing isOpen skip with
  | nil =>
    obtain rfl : skip = 0 := Nat.le_zero.mp hskip
    have hsame : (lexFrom isOpen 0 rest).map (prepend []) = lexFrom isOpen 0 rest := by
      rw [show prepend [] = id from rfl, map_id_apply]
    cases isOpen with
    | true => exact hsame.symm
    | false => exact hsame.symm
  | cons c line ih =>
    have hline : '\n' ∉ line := fun hmem => hline (mem_cons_of_mem c hmem)
    cases skip with
    | succ skip => exact ih isOpen (Nat.le_of_succ_le_succ hskip) hline
    | zero =>
      have hhead (d : Char) (hd : d ≠ '\n') : ((line ++ '\n' :: rest).head? == some d) = (line.head? == some d) := by
        cases line with
        | nil => exact beq_eq_false_iff_ne.mpr fun heq => hd (Option.some.inj heq).symm
        | cons _ _ => rfl
      have htake (p : Char → Bool) (hp : p '\n' = false) : (line ++ '\n' :: rest).takeWhile p = line.takeWhile p :=
        takeWhile_append_stop (fun c hc => by cases hc; exact hp) line
      have hlength (p : Char → Bool) : (line.takeWhile p).length ≤ line.length := (takeWhile_sublist p).length_le
      rw [cons_append, lexFrom, lexFrom]
      simp only [hhead '/' (by decide), hhead '*' (by decide), htake (· != '\n') rfl,
        htake isIdentChar (by decide), htake isDigit (by decide)]
      split
      · split
        · rename_i hends
          apply ih false _ hline
          cases line with
          | nil => simp at hends
          | cons _ _ => exact Nat.succ_le_succ (Nat.zero_le _)
        · exact ih true (Nat.zero_le _) hline
      · split
        · exact ih false (Nat.zero_le _) hline
        · split
          · exact ih false (hlength _) hline
          · split
            · exact ih true (Nat.zero_le _) hline
            · split
              · rw [ih false (Nat.zero_le _) hline, continued_prepend]
              · split
                · rw [ih false (hlength _) hline, continued_prepend]
                · split
                  · rw [ih false (hlength _) hline, continued_prepend]
                  · rfl

/-- Lines written one under the other are read one after the other. -/
theorem lexFrom_lines {lines : List Line} (hlines : ∀ line ∈ lines, '\n' ∉ line) (isOpen : Bool) :
    lexFrom isOpen 0 (lines.flatMap (· ++ ['\n'])) = lexLines isOpen lines := by
  induction lines generalizing isOpen with
  | nil => rfl
  | cons line lines ih =>
    obtain ⟨hline, hlines⟩ := forall_mem_cons.mp hlines
    rw [flatMap_cons, append_assoc, singleton_append, lexFrom_newline line _ isOpen (Nat.zero_le _) hline,
      lexLines, continued]
    simp only [ih hlines]

theorem lexLines_append (lines later : List Line) (isOpen : Bool) :
    lexLines isOpen (lines ++ later) =
      (lexLines isOpen lines).bind fun read => (lexLines read.2 later).map (prepend read.1) := by
  induction lines generalizing isOpen with
  | nil =>
    rw [nil_append, lexLines, bind_some, show prepend [] = id from rfl, map_id_apply]
  | cons line lines ih =>
    rw [cons_append, lexLines, lexLines]
    cases lexFrom isOpen 0 line with
    | none => rfl
    | some read =>
      simp only [bind_some, ih]
      cases lexLines read.2 lines with
      | none => rfl
      | some read' =>
        simp only [bind_some, map_some, map_map]
        congr 1
        funext later
        exact prepend_prepend _ _ _

theorem lexLines_rdropWhile (lines : List Line) (isOpen : Bool) :
    lexLines isOpen (lines.rdropWhile List.isEmpty) = lexLines isOpen lines := by
  have hblank (blanks : List Line) : (∀ line ∈ blanks, line.isEmpty = true) →
      ∀ isOpen, lexLines isOpen blanks = some ([], isOpen) := by
    induction blanks with
    | nil => exact fun _ _ => rfl
    | cons line blanks ih =>
      intro hblanks isOpen
      obtain ⟨hline, htail⟩ := forall_mem_cons.mp hblanks
      obtain rfl := isEmpty_iff.mp hline
      rw [lexLines, lexFrom, bind_some, ih htail]
      rfl
  have hsplit := rdropWhile_append_rtakeWhile (p := List.isEmpty) (l := lines)
  have hdropped := hblank (lines.rtakeWhile List.isEmpty) fun _ => mem_rtakeWhile_imp
  conv_rhs => rw [← hsplit, lexLines_append]
  simp only [hdropped, map_some, prepend, append_nil]
  cases lexLines isOpen (lines.rdropWhile List.isEmpty) <;> rfl

end SynQt.Synqtc
