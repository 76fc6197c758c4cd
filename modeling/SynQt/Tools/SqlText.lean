import SynQt.Lib.Scanner
import SynQt.Tools.YamlEdit

/-! SQL as it is read: what of a text is comment and white space, and the unbroken text between them. -/
namespace SynQt.Sql
open Lib List
open YamlEdit (Str isSpace)

/-- What differs between engines: their white space, and which character closes what another opens. -/
structure Lexis where
  white : Char → Bool
  closing : Char → Option Char
  white_isSpace : ∀ c, white c = true → isSpace c = true
  white_lineFeed : white '\n' = true
  white_return : white '\r' = true
  opening_plain : ∀ c q, closing c = some q → isSpace c = false ∧ c ≠ ';' ∧ c ≠ '-' ∧ c ≠ '/'
  closing_plain : ∀ c q, closing c = some q → isSpace q = false ∧ q ≠ '-'

inductive Place where
  | code
  | line
  | opening
  | block
  | closing
  | quoted (close : Char)
deriving DecidableEq

/-- What the reader makes of a character: no mark for comments and white space. A quote that is doubled
closes the text and opens it again. -/
def next (sql : Lexis) (place : Place) (c : Char) (ahead : Option Char) : Place × Option Char :=
  match place with
  | .code =>
    if c = '-' ∧ ahead = some '-' then (.line, none)
    else if c = '/' ∧ ahead = some '*' then (.opening, none)
    else match sql.closing c with
      | some close => (.quoted close, some c)
      | none => (.code, if sql.white c then none else some c)
  | .line => (if c = '\n' then .code else .line, none)
  | .opening => (.block, none)
  | .block => (if c = '*' ∧ ahead = some '/' then .closing else .block, none)
  | .closing => (.code, none)
  | .quoted close => (if c = close then .code else .quoted close, some c)

section
variable (sql : Lexis)

def marksOf (text : Str) : List (Option Char) := marks (next sql) none .code text

/-- The unbroken runs of a text. What tokens a run is made of, its own text decides. -/
def runsOf (text : Str) : List Str := runs (marksOf sql text)

def endOf (text : Str) : Place := ends (next sql) none .code text

def Complete (text : Str) : Prop := endOf sql text = .code ∨ endOf sql text = .line
deriving Decidable

end

/-- How an engine divides an unbroken run into tokens: nothing is lost, and two dashes, which are in a
quoted text where they are no comment, are in one token. -/
structure Division where
  divide : Str → List Str
  flatten_divide : ∀ run, (divide run).flatten = run
  dashes : ∀ run, ['-', '-'] <:+: run → ∃ token ∈ divide run, ['-', '-'] <:+: token

section
variable (sql : Lexis) (division : Division)

def tokens (text : Str) : List Str := (runsOf sql text).flatMap division.divide

def statement (text : Str) : Option (List Str) := if Complete sql text then some (tokens sql division text) else none

end

variable {sql : Lexis}

theorem own_next (place : Place) (c : Char) (ahead : Option Char) : ∀ d ∈ (next sql place c ahead).2, d = c := by
  intro d hd
  cases place with
  | code =>
    simp only [next] at hd
    split at hd
    · cases hd
    · split at hd
      · cases hd
      · split at hd
        · exact (Option.some.inj hd).symm
        · dsimp only at hd
          split at hd
          · cases hd
          · exact (Option.some.inj hd).symm
  | quoted close => exact (Option.some.inj hd).symm
  | line | opening | block | closing => cases hd

private theorem own_marks (place : Place) (after : Option Char) (text : Str) : Own (marks (next sql) after place text) text := by
  induction text generalizing place with
  | nil => exact .nil
  | cons c text ih => exact .cons (own_next place c _) (ih _)

theorem infix_of_mem_tokens {division : Division} {text token : Str} (h : token ∈ tokens sql division text) : token <:+: text := by
  obtain ⟨run, hrun, htoken⟩ := mem_flatMap.mp h
  have hpart := infix_of_mem_flatten htoken
  rw [division.flatten_divide] at hpart
  exact hpart.trans ((infix_of_own (own_marks _ _ _)).1 run hrun)

/-- Outside literals and comments every blank that `strip` takes is white space, unless more than blanks follows. -/
def Tidy (sql : Lexis) : Place → Str → Prop
  | _, [] => True
  | place, c :: rest =>
    (place = .code → isSpace c = true → sql.white c = true ∨ ∃ d ∈ rest, isSpace d = false) ∧
      Tidy sql (next sql place c rest.head?).1 rest

section
variable {c : Char} (hc : isSpace c = true)
include hc

/-- The reader looks ahead for nothing that `strip` takes. -/
theorem next_space (place : Place) (d : Char) :
    next sql place d (some c) = next sql place d none := by
  have hdash : c ≠ '-' := fun h => absurd (h ▸ hc) (by decide)
  have hstar : c ≠ '*' := fun h => absurd (h ▸ hc) (by decide)
  have hslash : c ≠ '/' := fun h => absurd (h ▸ hc) (by decide)
  simp only [next, Option.some.injEq, hdash, hstar, hslash, reduceCtorEq]

theorem next_of_space (ahead : Option Char) :
    next sql .code c ahead = (.code, if sql.white c then none else some c) := by
  have hdash : c ≠ '-' := fun h => absurd (h ▸ hc) (by decide)
  have hslash : c ≠ '/' := fun h => absurd (h ▸ hc) (by decide)
  have hnone : sql.closing c = none := by
    cases hclosing : sql.closing c with
    | none => rfl
    | some q => exact absurd hc (Bool.eq_false_iff.mp (sql.opening_plain c q hclosing).1)
  simp only [next, hdash, hslash, false_and, if_false, hnone]

theorem next_code_space (hwhite : sql.white c = true) (ahead : Option Char) :
    next sql .code c ahead = (.code, none) := by
  rw [next_of_space hc, if_pos hwhite]

end

variable {text : Str}

private theorem runs_lstrip (hfront : ∀ c ∈ text.takeWhile isSpace, sql.white c = true) (h : Tidy sql .code text) :
    runsOf sql (YamlEdit.lstrip text) = runsOf sql text ∧ endOf sql (YamlEdit.lstrip text) = endOf sql text ∧
      Tidy sql .code (YamlEdit.lstrip text) := by
  induction text with
  | nil => exact ⟨rfl, rfl, trivial⟩
  | cons c text ih =>
    rw [YamlEdit.lstrip, dropWhile_cons]
    split
    · next hc =>
      rw [takeWhile_cons_of_pos hc] at hfront
      obtain ⟨hwhite, hfront⟩ := forall_mem_cons.mp hfront
      have hnext := next_code_space hc hwhite text.head?
      have htidy := h.2
      rw [hnext] at htidy
      obtain ⟨hruns, hends, hrest⟩ := ih hfront htidy
      rw [YamlEdit.lstrip] at hruns hends hrest
      refine ⟨?_, ?_, hrest⟩
      · rw [hruns, runsOf, runsOf, marksOf, marksOf, marks, Option.or_none, hnext]
        rfl
      · rw [hends, endOf, endOf, ends, Option.or_none, hnext]
    · exact ⟨rfl, rfl, h⟩

def Opened (sql : Lexis) (place : Place) : Prop := ∀ close, place = .quoted close → ∃ c, sql.closing c = some close

variable {place : Place}

theorem Opened.next (h : Opened sql place) (c : Char) (ahead : Option Char) :
    Opened sql (next sql place c ahead).1 := by
  intro close hclose
  cases place with
  | code =>
    simp only [Sql.next] at hclose
    split at hclose
    · cases hclose
    · split at hclose
      · cases hclose
      · split at hclose
        · next q hq => exact ⟨c, hq.trans (congrArg some (Place.quoted.inj hclose))⟩
        · cases hclose
  | line =>
    simp only [Sql.next] at hclose
    split at hclose <;> cases hclose
  | opening => cases hclose
  | block =>
    simp only [Sql.next] at hclose
    split at hclose <;> cases hclose
  | closing => cases hclose
  | quoted q =>
    simp only [Sql.next] at hclose
    split at hclose
    · cases hclose
    · exact h close hclose

theorem Opened.ends (h : Opened sql place) (text : Str) : Opened sql (ends (Sql.next sql) none place text) := by
  induction text generalizing place with
  | nil => exact h
  | cons c text ih => exact ih (h.next c _)

/-- Nothing comes behind a text, so its end is never between the two characters of a comment's mark. -/
theorem ends_ne_mark (h : text = [] → place ≠ .opening ∧ place ≠ .closing) :
    ends (next sql) none place text ≠ .opening ∧ ends (next sql) none place text ≠ .closing := by
  induction text generalizing place with
  | nil => exact h rfl
  | cons c text ih =>
    refine ih ?_
    rintro rfl
    cases place with
    | code =>
      simp only [next, List.head?_nil, Option.or_none, reduceCtorEq, and_false, if_false]
      split <;> exact ⟨nofun, nofun⟩
    | line =>
      simp only [next]
      split <;> exact ⟨nofun, nofun⟩
    | opening => exact ⟨nofun, nofun⟩
    | block =>
      simp only [next, List.head?_nil, Option.or_none, reduceCtorEq, and_false, if_false]
      exact ⟨nofun, nofun⟩
    | closing => exact ⟨nofun, nofun⟩
    | quoted close =>
      simp only [next]
      split <;> exact ⟨nofun, nofun⟩

private theorem tidy_concat {c : Char} (hc : isSpace c = true) (h : Tidy sql place (text ++ [c])) :
    Tidy sql place text ∧ (ends (next sql) none place text = .code → sql.white c = true) := by
  induction text generalizing place with
  | nil => exact ⟨trivial, fun hplace => (h.1 hplace hc).resolve_right fun ⟨_, hd, _⟩ => not_mem_nil hd⟩
  | cons d text ih =>
    rw [cons_append, Tidy] at h
    have hahead : next sql place d (text ++ [c]).head? = next sql place d text.head? := by
      cases text with
      | nil => exact next_space hc place d
      | cons e text => rfl
    rw [hahead] at h
    obtain ⟨htidy, hlast⟩ := ih h.2
    refine ⟨⟨fun hplace hd => (h.1 hplace hd).imp_right ?_, htidy⟩, ?_⟩
    · rintro ⟨e, hin, he⟩
      refine ⟨e, (mem_append.mp hin).resolve_right fun hlast => ?_, he⟩
      rw [mem_singleton.mp hlast, hc] at he
      cases he
    · rw [ends, Option.or_none]
      exact hlast

/-- A blank at the end of a text that leaves nothing open adds nothing to what is read. -/
theorem runs_concat {c : Char} (hc : isSpace c = true) (htidy : Tidy sql .code (text ++ [c]))
    (hcomplete : Complete sql (text ++ [c])) : runsOf sql (text ++ [c]) = runsOf sql text ∧ Complete sql text := by
  have hblank (place : Place) (d : Char) : next sql place d (some c) = next sql place d none := next_space hc place d
  have hcode : text = [] → Place.code ≠ .opening ∧ Place.code ≠ .closing := fun _ => ⟨nofun, nofun⟩
  obtain ⟨hmarks, hends⟩ := marks_congr hblank .code text
  obtain ⟨hopening, hclosing⟩ : ends (next sql) none .code text ≠ .opening ∧ ends (next sql) none .code text ≠ .closing :=
    ends_ne_mark hcode
  have hwhite := (tidy_concat hc htidy).2
  have hread : marksOf sql (text ++ [c]) = marksOf sql text ++ [(next sql (endOf sql text) c none).2] := by
    rw [marksOf, marks_append, List.head?_cons, Option.some_or, hmarks, hends]
    rfl
  have hend : endOf sql (text ++ [c]) = (next sql (endOf sql text) c none).1 := by
    rw [endOf, ends_append, List.head?_cons, Option.some_or, hends]
    rfl
  rw [Complete, hend] at hcomplete
  rw [runsOf, hread, Complete]
  rw [← endOf] at hopening hclosing hwhite
  cases hplace : endOf sql text with
  | code =>
    rw [next_code_space hc (hwhite hplace)]
    exact ⟨(runs_append_none _).1, .inl rfl⟩
  | line => exact ⟨(runs_append_none _).1, .inr rfl⟩
  | opening => exact absurd hplace hopening
  | block =>
    rw [hplace] at hcomplete
    simp only [next, reduceCtorEq, and_false, if_false, or_self] at hcomplete
  | closing => exact absurd hplace hclosing
  | quoted close =>
    have hopened : Opened sql .code := nofun
    obtain ⟨q, hq⟩ := hopened.ends text close hplace
    have hne : c ≠ close := fun h => Bool.eq_false_iff.mp (sql.closing_plain q close hq).1 (h ▸ hc)
    rw [hplace] at hcomplete
    simp only [next, hne, if_false, reduceCtorEq, or_self] at hcomplete

private theorem runs_rstrip (htidy : Tidy sql .code text) (hcomplete : Complete sql text) :
    runsOf sql (YamlEdit.rstrip text) = runsOf sql text ∧ Complete sql (YamlEdit.rstrip text) := by
  induction text using List.reverseRecOn with
  | nil => exact ⟨rfl, hcomplete⟩
  | append_singleton text c ih =>
    rw [YamlEdit.rstrip, rdropWhile_concat]
    split
    · next hc =>
      obtain ⟨hruns, hcomplete⟩ := runs_concat hc htidy hcomplete
      rw [hruns]
      exact ih (tidy_concat hc htidy).1 hcomplete
    · exact ⟨rfl, hcomplete⟩

theorem statement_strip (hfront : ∀ c ∈ text.takeWhile isSpace, sql.white c = true) (htidy : Tidy sql .code text)
    (hcomplete : Complete sql text) :
    runsOf sql (YamlEdit.strip text) = runsOf sql text ∧ Complete sql (YamlEdit.strip text) := by
  obtain ⟨hruns, hends, htidy⟩ := runs_lstrip hfront htidy
  have hcomplete : Complete sql (YamlEdit.lstrip text) := by
    rw [Complete, hends]
    exact hcomplete
  obtain ⟨hruns', hcomplete'⟩ := runs_rstrip htidy hcomplete
  exact ⟨hruns'.trans hruns, hcomplete'⟩

end SynQt.Sql
