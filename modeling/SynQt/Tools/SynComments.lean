import SynQt.Tools.SynTokens
import Mathlib.Data.List.Infix

namespace SynQt.Synqtc
open List
variable (path : String)

def Unended (body : List Char) : Prop := ¬ ['*', '/'] <:+: body

/-- What may stand between two words: blanks, line comments up to their newline, and block comments,
whose bodies may begin with the characters `F` admits (`none` is an empty body). -/
inductive Gap (F : Option Char → Prop) : List Char → Prop
  | nil : Gap F []
  | blank {c : Char} {gap : List Char} (hblank : isBlank c = true) (hrest : Gap F gap) : Gap F (c :: gap)
  | line {body gap : List Char} (hbody : '\n' ∉ body) (hrest : Gap F ('\n' :: gap)) :
      Gap F ('/' :: '/' :: (body ++ '\n' :: gap))
  | block {body gap : List Char} (hbody : Unended body) (hfirst : F body.head?) (hrest : Gap F gap) :
      Gap F ('/' :: '*' :: (body ++ '*' :: '/' :: gap))

/-- Texts of those words, laid out with gaps. A line comment may also end the text. -/
inductive LaysOut (F : Option Char → Prop) : List Word → List Char → Prop
  | gap {gap : List Char} (hgap : Gap F gap) : LaysOut F [] gap
  | lastLine {gap body : List Char} (hgap : Gap F gap) (hbody : '\n' ∉ body) : LaysOut F [] (gap ++ '/' :: '/' :: body)
  | word {gap : List Char} {w : Word} {words : List Word} {text : List Char} (hgap : Gap F gap)
      (hapart : ∀ c ∈ text.head?, continues w.1 c = false) (hrest : LaysOut F words text) :
      LaysOut F (w :: words) (gap ++ (w.2.toList ++ text))

/-- Texts in which a block comment opens and is not closed. Outside of comments any characters may
stand before it. -/
inductive Unclosed (F : Option Char → Prop) : List Char → Prop
  | opens {body : List Char} (hbody : Unended body) (hfirst : F body.head?) : Unclosed F ('/' :: '*' :: body)
  | char {c : Char} {text : List Char} (hcode : ¬ (c = '/' ∧ (text.head? = some '/' ∨ text.head? = some '*')))
      (hrest : Unclosed F text) : Unclosed F (c :: text)
  | line {body text : List Char} (hbody : '\n' ∉ body) (hrest : Unclosed F ('\n' :: text)) :
      Unclosed F ('/' :: '/' :: (body ++ '\n' :: text))
  | block {body text : List Char} (hbody : Unended body) (hfirst : F body.head?) (hrest : Unclosed F text) :
      Unclosed F ('/' :: '*' :: (body ++ '*' :: '/' :: text))

variable {body : List Char}

private theorem unended_cons {c : Char} (h : Unended (c :: body)) :
    Unended body ∧ ¬ (c = '*' ∧ body.head? = some '/') := by
  constructor
  · exact fun hinfix => h ( hinfix.trans (infix_cons (infix_refl body)))
  · rintro ⟨rfl, hhead⟩
    apply h
    cases body with
    | nil => cases hhead
    | cons d body =>
      cases hhead
      exact ⟨[], body, rfl⟩

private theorem closing_body (h : Unended body) (text : List Char) :
    closing (body ++ '*' :: '/' :: text) = some body.length := by
  induction body with
  | nil => rfl
  | cons c body ih =>
    obtain ⟨hbody, hpair⟩ := unended_cons h
    have hnot : ¬ (c == '*' && (body ++ '*' :: '/' :: text).head? == some '/') = true := by
      simp only [Bool.and_eq_true, beq_iff_eq]
      rintro ⟨hstar, hslash⟩
      apply hpair
      refine ⟨hstar, ?_⟩
      cases body with
      | nil => exact absurd hslash (by simp)
      | cons d body => exact hslash
    rw [cons_append, closing, if_neg hnot, ih hbody]
    rfl

private theorem closing_unended (h : Unended body) : closing body = none := by
  induction body with
  | nil => rfl
  | cons c body ih =>
    obtain ⟨hbody, hpair⟩ := unended_cons h
    have hnot : ¬ (c == '*' && body.head? == some '/') = true := by
      simp only [Bool.and_eq_true, beq_iff_eq]
      exact hpair
    rw [closing, if_neg hnot, ih hbody]
    rfl

/-- The search starts at the opening, so the opening's own star is the end's when a slash follows. -/
theorem closing_opening (h : body.head? ≠ some '/') :
    closing ('/' :: '*' :: body) = (closing body).map (· + 2) := by
  have hnot : ¬ ('*' == '*' && body.head? == some '/') = true := by
    simp only [beq_self_eq_true, Bool.true_and, beq_iff_eq]
    exact h
  rw [closing, if_neg (by simp), closing, if_neg hnot, Option.map_map]
  rfl

private theorem head?_body {body text : List Char} (h : body.head? ≠ some '/') :
    (body ++ '*' :: '/' :: text).head? ≠ some '/' := by
  cases body with
  | nil => simp
  | cons c body => exact h

private theorem tokenizeFrom_block (hbody : Unended body) (hfirst : body.head? ≠ some '/') (text : List Char)
    (line col : Nat) :
    ∃ line' col', tokenizeFrom path 0 line col ('/' :: '*' :: (body ++ '*' :: '/' :: text)) =
      tokenizeFrom path 0 line' col' text := by
  have hclose : closing ('/' :: '*' :: (body ++ '*' :: '/' :: text)) = some (body.length + 2) := by
    rw [closing_opening (head?_body hfirst), closing_body hbody]
    rfl
  obtain ⟨line', col', hskip⟩ := tokenizeFrom_skip path ('*' :: (body ++ ['*', '/'])) text line (col + 1)
  refine ⟨line', col', ?_⟩
  have hlength : ('*' :: (body ++ ['*', '/'])).length = body.length + 2 + 1 := by
    rw [length_cons, length_append]
    rfl
  have happend : '*' :: (body ++ ['*', '/']) ++ text = '*' :: (body ++ '*' :: '/' :: text) := by
    rw [cons_append, append_assoc]
    rfl
  rw [hlength, happend] at hskip
  rw [tokenizeFrom]
  simp only [hclose]
  exact hskip

private theorem tokenizeFrom_line (hbody : '\n' ∉ body) (text : List Char)
    (hends : ∀ c ∈ text.head?, c = '\n') (line col : Nat) :
    ∃ line' col', tokenizeFrom path 0 line col ('/' :: '/' :: (body ++ text)) = tokenizeFrom path 0 line' col' text := by
  have hall : ('/' :: body).all (· != '\n') = true := by
    rw [all_eq_true]
    intro c hc
    rw [bne_iff_ne]
    rintro rfl
    rcases mem_cons.mp hc with heq | hmem
    · exact absurd heq (by decide)
    · exact hbody hmem
  have htake : ('/' :: (body ++ text)).takeWhile (· != '\n') = '/' :: body := by
    have happart : ∀ c ∈ text.head?, (c != '\n') = false := by
      intro c hc
      rw [hends c hc]
      rfl
    exact takeWhile_word hall happart
  obtain ⟨line', col', hskip⟩ := tokenizeFrom_skip path ('/' :: body) text line (col + 1)
  refine ⟨line', col', ?_⟩
  rw [tokenizeFrom]
  simp only [htake]
  exact hskip

variable {F : Option Char → Prop}

private theorem tokenizeFrom_gap (hF : ¬ F (some '/')) {gap : List Char} (hgap : Gap F gap)
    (text : List Char) (line col : Nat) :
    ∃ line' col', tokenizeFrom path 0 line col (gap ++ text) = tokenizeFrom path 0 line' col' text := by
  induction hgap generalizing line col with
  | nil => exact ⟨line, col, rfl⟩
  | @blank c gap hblank hrest ih =>
    obtain ⟨line', col', hfirst⟩ := tokenizeFrom_blanks path (forall_mem_singleton.mpr hblank) (gap ++ text) line col
    obtain ⟨line'', col'', hlater⟩ := ih line' col'
    exact ⟨line'', col'', hfirst.trans hlater⟩
  | @line body gap hbody hrest ih =>
    obtain ⟨line', col', hfirst⟩ := tokenizeFrom_line path hbody ('\n' :: gap ++ text)
      (fun c hc => (Option.some.inj hc).symm) line col
    obtain ⟨line'', col'', hlater⟩ := ih line' col'
    rw [cons_append, cons_append, append_assoc]
    exact ⟨line'', col'', hfirst.trans hlater⟩
  | @block body gap hbody hfirst hrest ih =>
    have hslash : body.head? ≠ some '/' := fun heq => hF (heq ▸ hfirst)
    obtain ⟨line', col', hstep⟩ := tokenizeFrom_block path hbody hslash (gap ++ text) line col
    obtain ⟨line'', col'', hlater⟩ := ih line' col'
    rw [cons_append, cons_append, append_assoc]
    exact ⟨line'', col'', hstep.trans hlater⟩

variable {text : List Char}

theorem tokenizeFrom_laysOut (hF : ¬ F (some '/')) {words : List Word}
    (hwords : ∀ w ∈ words, IsWord w) (hlays : LaysOut F words text) (line col : Nat) :
    ∃ tokens, tokenizeFrom path 0 line col text = .ok tokens ∧ tokens.map Token.word = words ++ [endWord] := by
  induction hlays generalizing line col with
  | @gap gap hgap =>
    obtain ⟨line', col', hskip⟩ := tokenizeFrom_gap path hF hgap [] line col
    rw [append_nil] at hskip
    rw [hskip]
    exact ⟨_, rfl, rfl⟩
  | @lastLine gap body hgap hbody =>
    obtain ⟨line', col', hskip⟩ := tokenizeFrom_gap path hF hgap ('/' :: '/' :: body) line col
    obtain ⟨line'', col'', hline⟩ := tokenizeFrom_line path hbody [] (fun c hc => (by cases hc)) line' col'
    rw [append_nil] at hline
    rw [hskip, hline]
    exact ⟨_, rfl, rfl⟩
  | @word gap w words text hgap hapart hrest ih =>
    obtain ⟨line', col', hskip⟩ := tokenizeFrom_gap path hF hgap (w.2.toList ++ text) line col
    obtain ⟨token, line'', col'', hword, hstep⟩ := tokenizeFrom_word (hwords w mem_cons_self) hapart line' col'
    obtain ⟨tokens, hread, hspelled⟩ := ih (fun w' hw' => hwords w' (mem_cons_of_mem w hw')) line'' col''
    rw [hskip, hstep, hread]
    refine ⟨token :: tokens, rfl, ?_⟩
    rw [map_cons, hword, hspelled, cons_append]

/-- Blanks are the gaps of a text that has no comments. -/
theorem Lays.out {words : List Word} (h : Lays words text) : LaysOut F words text := by
  have hgap {blanks : List Char} (hblanks : ∀ c ∈ blanks, isBlank c = true) : Gap F blanks := by
    induction blanks with
    | nil => exact .nil
    | cons c blanks ih => exact .blank (hblanks c mem_cons_self) (ih fun d hd => hblanks d (mem_cons_of_mem c hd))
  induction h with
  | blanks hblanks => exact .gap (hgap hblanks)
  | word hblanks hapart _ ih => exact .word (hgap hblanks) hapart ih

theorem Unclosed.after (word : List Char) (hword : ∀ c ∈ word, c ≠ '/')
    (h : Unclosed F (word ++ text)) : Unclosed F text := by
  induction word with
  | nil => exact h
  | cons c word ih =>
    obtain ⟨hc, hrest⟩ := forall_mem_cons.mp hword
    apply ih hrest
    rw [cons_append] at h
    generalize word ++ text = later at h
    cases h with
    | char _ hlater => exact hlater
    | opens => exact absurd rfl hc
    | line => exact absurd rfl hc
    | block => exact absurd rfl hc

private theorem ne_slash_of_mem_takeWhile {p : Char → Bool} (hp : p '/' = false) :
    ∀ c ∈ text.takeWhile p, c ≠ '/' := by
  rintro c hc rfl
  have hin := all_eq_true.mp (all_takeWhile (p := p) (l := text)) '/' hc
  rw [hp] at hin
  cases hin

private theorem error_of_rest {tokens : Except Raised (List Token)} {e : Raised} (h : tokens = .error e) (token : Token) :
    ∃ e, (do let tokens ← tokens
             return token :: tokens) = (.error e : Except Raised (List Token)) := by
  rw [h]
  exact ⟨e, rfl⟩

theorem tokenizeFrom_unclosed (hF : ¬ F (some '/')) (size : Nat)
    (hsize : text.length = size) (h : Unclosed F text) (line col : Nat) :
    ∃ e, tokenizeFrom path 0 line col text = .error e := by
  induction size using Nat.strong_induction_on generalizing text line col with
  | _ size ih =>
    cases h with
    | @opens body hbody hfirst =>
      have hslash : body.head? ≠ some '/' := fun heq => hF (heq ▸ hfirst)
      have hclose : closing ('/' :: '*' :: body) = none := by
        rw [closing_opening hslash, closing_unended hbody]
        rfl
      rw [tokenizeFrom]
      simp only [hclose]
      exact ⟨_, rfl⟩
    | @line body rest hbody hrest =>
      obtain ⟨line', col', hskip⟩ := tokenizeFrom_line path hbody ('\n' :: rest)
        (fun c hc => (Option.some.inj hc).symm) line col
      rw [hskip]
      apply ih ('\n' :: rest).length _ rfl hrest
      simp only [length_cons, length_append] at hsize ⊢
      omega
    | @block body rest hbody hfirst hrest =>
      have hslash : body.head? ≠ some '/' := fun heq => hF (heq ▸ hfirst)
      obtain ⟨line', col', hskip⟩ := tokenizeFrom_block path hbody hslash rest line col
      rw [hskip]
      apply ih rest.length _ rfl hrest
      simp only [length_cons, length_append] at hsize
      omega
    | @char c rest hcode hrest =>
      have hshort : rest.length < size := by
        rw [← hsize]
        exact Nat.lt_succ_self _
      -- Past a word the comment is still to come.
      have hword (p : Char → Bool) (hp : p '/' = false) (line col : Nat) :
          ∃ e, tokenizeFrom path (rest.takeWhile p).length line col rest = .error e := by
        have hsplit := takeWhile_append_dropWhile (p := p) (l := rest)
        obtain ⟨line', col', hskip⟩ := tokenizeFrom_skip path (rest.takeWhile p) (rest.dropWhile p) line col
        rw [hsplit] at hskip
        rw [hskip]
        have hafter : Unclosed F (rest.dropWhile p) := by
          apply Unclosed.after (rest.takeWhile p) (ne_slash_of_mem_takeWhile hp)
          rw [hsplit]
          exact hrest
        have hle : (rest.dropWhile p).length ≤ rest.length := (dropWhile_sublist p).length_le
        exact ih _ (Nat.lt_of_le_of_lt hle hshort) rfl hafter line' col'
      have hline : (c == '/' && rest.head? == some '/') = false := by
        rw [Bool.eq_false_iff]
        simp only [ne_eq, Bool.and_eq_true, beq_iff_eq]
        exact fun hslash => hcode ⟨hslash.1, .inl hslash.2⟩
      have hblock : (c == '/' && rest.head? == some '*') = false := by
        rw [Bool.eq_false_iff]
        simp only [ne_eq, Bool.and_eq_true, beq_iff_eq]
        exact fun hstar => hcode ⟨hstar.1, .inr hstar.2⟩
      rw [tokenizeFrom]
      simp only [hline, hblock, Bool.false_eq_true, if_false]
      split
      · exact ih _ hshort rfl hrest _ _
      · split
        · obtain ⟨e, he⟩ := ih _ hshort rfl hrest (if (c == '\n') = true then line + 1 else line)
            (if (c == '\n') = true then 1 else col + 1)
          exact error_of_rest he _
        · split
          · obtain ⟨e, he⟩ := hword isIdentChar (by decide) (if (c == '\n') = true then line + 1 else line)
              (if (c == '\n') = true then 1 else col + 1)
            exact error_of_rest he _
          · split
            · obtain ⟨e, he⟩ := hword isDigit (by decide) (if (c == '\n') = true then line + 1 else line)
                (if (c == '\n') = true then 1 else col + 1)
              exact error_of_rest he _
            · exact ⟨_, rfl⟩

/-- Comments are as blanks to the tokenizer, and one never closed is refused, exactly among comments
whose bodies do not begin with a slash. -/
theorem comments_insignificant_iff (F : Option Char → Prop) :
    (∀ path : String,
      (∀ words : List Word, (∀ w ∈ words, IsWord w) → ∀ text : String, LaysOut F words text.toList →
        ∃ tokens, tokenize text path = .ok tokens ∧ tokens.map Token.word = words ++ [endWord]) ∧
      ∀ text : String, Unclosed F text.toList → ∃ e, tokenize text path = .error e) ↔
      ¬ F (some '/') := by
  constructor
  · intro hreads hF
    have hempty : Unended ['/'] := by
      rw [Unended]
      decide
    have hlays : LaysOut F [] "/*/*/".toList := .gap (.block hempty hF .nil)
    obtain ⟨tokens, hread, -⟩ := (hreads "").1 [] (fun w hw => (by cases hw)) "/*/*/" hlays
    have hrefused : tokenize "/*/*/" "" = .error (.synError "unexpected character '*'" "" 1 4) := by decide +kernel
    rw [hrefused] at hread
    cases hread
  · intro hF path
    constructor
    · intro words hwords text hlays
      exact tokenizeFrom_laysOut path hF hwords hlays 1 1
    · intro text hunclosed
      exact tokenizeFrom_unclosed path hF _ rfl hunclosed 1 1

/-- A comment whose body begins with a slash ends at once, and what it says is read; a comment that
is never closed passes for one that is. -/
theorem slash_body_read :
    LaysOut (fun _ => True) [ident "contract"] "/*/ kept out */ contract".toList ∧
      tokenize "/*/ kept out */ contract" "a.syn" = .error (.synError "unexpected character '*'" "a.syn" 1 14) ∧
      Unclosed (fun _ => True) "/*/ contract".toList ∧
      tokenize "/*/ contract" "a.syn" = .ok [⟨.ident, "contract", 1, 5⟩, ⟨.eof, "", 1, 13⟩] := by
  have hclosed : Unended "/ kept out ".toList := by
    rw [Unended]
    decide
  have hopen : Unended "/ contract".toList := by
    rw [Unended]
    decide
  have hgap : Gap (fun _ => True) "/*/ kept out */ ".toList := .block hclosed trivial (.blank rfl .nil)
  refine ⟨.word (w := ident "contract") hgap (fun c hc => (by cases hc)) (.gap .nil), by decide +kernel, .opens hopen trivial,
    by decide +kernel⟩

end SynQt.Synqtc
