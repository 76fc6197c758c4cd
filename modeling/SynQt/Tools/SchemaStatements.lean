import SynQt.Tools.SchemaSteps

namespace SynQt.TopologyWriter
open Lib Sql Option
open YamlEdit (Str isSpace endsLine isSpace_of_endsLine strip)

section
variable (sql : Lexis)

/-- What a character may be where it stands, so that neither the cut nor the split changes what is read.
`cut` is whether two dashes have been read on its line. -/
def Fair (place : Place) (cut : Bool) (c : Char) (ahead : Option Char) : Prop :=
  match place with
  | .code => (next sql .code c ahead).2.isSome = true → c ≠ ';' ∧ endsLine c = false
  | .line => endsLine c = true → c = '\n' ∨ c = '\r' ∧ ahead = some '\n'
  | .opening => c = '*'
  | .block => (cut = false → c ≠ ';') ∧ (c = '*' ∧ ahead = some '/' → cut = false)
  | .closing => c = '/'
  | .quoted _ => c ≠ ';' ∧ (endsLine c = true → c = '\n') ∧ ¬ (c = '-' ∧ ahead = some '-')

/-- Every character of the text is fair where it stands. -/
def Keeps : Place → Bool → Str → Prop
  | _, _, [] => True
  | place, cut, c :: rest =>
    Fair sql place cut c rest.head? ∧ Keeps (next sql place c rest.head?).1 (cutAfter cut c rest.head?) rest

def Quiet (place : Place) (cut : Bool) (c : Char) (ahead : Option Char) : Prop :=
  match place with
  | .code | .quoted _ => True
  | place => Fair sql place cut c ahead

def Hushed : Place → Bool → Str → Prop
  | _, _, [] => True
  | place, cut, c :: rest =>
    Quiet sql place cut c rest.head? ∧ Hushed (next sql place c rest.head?).1 (cutAfter cut c rest.head?) rest

instance (place : Place) (cut : Bool) (c : Char) (ahead : Option Char) : Decidable (Fair sql place cut c ahead) :=
  match place with
  | .code => inferInstanceAs (Decidable (_ → _))
  | .line => inferInstanceAs (Decidable (_ → _))
  | .opening => inferInstanceAs (Decidable (_ = _))
  | .block => inferInstanceAs (Decidable (_ ∧ _))
  | .closing => inferInstanceAs (Decidable (_ = _))
  | .quoted _ => inferInstanceAs (Decidable (_ ∧ _))

instance (place : Place) (cut : Bool) (c : Char) (ahead : Option Char) : Decidable (Quiet sql place cut c ahead) :=
  match place with
  | .code | .quoted _ => inferInstanceAs (Decidable True)
  | .line => inferInstanceAs (Decidable (Fair sql .line cut c ahead))
  | .opening => inferInstanceAs (Decidable (Fair sql .opening cut c ahead))
  | .block => inferInstanceAs (Decidable (Fair sql .block cut c ahead))
  | .closing => inferInstanceAs (Decidable (Fair sql .closing cut c ahead))

instance decidableHushed (place : Place) (cut : Bool) : ∀ text, Decidable (Hushed sql place cut text)
  | [] => inferInstanceAs (Decidable True)
  | c :: rest =>
    have := decidableHushed (next sql place c rest.head?).1 (cutAfter cut c rest.head?) rest
    inferInstanceAs (Decidable (_ ∧ _))

/-- Of a line comment, or a blank that `strip` takes. -/
def edge (place : Place) (c : Char) (ahead : Option Char) : Bool :=
  place == .line || place == .code && (isSpace c || decide (c = '-' ∧ ahead = some '-'))

/-- There are blanks and line comments and nothing else. -/
def blank : Place → Str → Bool
  | _, [] => true
  | place, c :: rest => edge place c rest.head? && blank (next sql place c rest.head?).1 rest

/-- The blanks that come before all but line comments are white space. -/
def FrontWhite : Place → Str → Prop
  | _, [] => True
  | place, c :: rest =>
    (place = .code → isSpace c = true → sql.white c = true) ∧
      (edge place c rest.head? = true → FrontWhite (next sql place c rest.head?).1 rest)

/-- The blanks behind which there are blanks and line comments and nothing else are white space. -/
def BackWhite : Place → Str → Prop
  | _, [] => True
  | place, c :: rest =>
    (place = .code → isSpace c = true → sql.white c = true ∨ blank sql .code rest = false) ∧
      BackWhite (next sql place c rest.head?).1 rest

instance decidableFrontWhite (place : Place) : ∀ text, Decidable (FrontWhite sql place text)
  | [] => inferInstanceAs (Decidable True)
  | c :: rest =>
    have := decidableFrontWhite (next sql place c rest.head?).1 rest
    inferInstanceAs (Decidable (_ ∧ _))

instance decidableBackWhite (place : Place) : ∀ text, Decidable (BackWhite sql place text)
  | [] => inferInstanceAs (Decidable True)
  | c :: rest =>
    have := decidableBackWhite (next sql place c rest.head?).1 rest
    inferInstanceAs (Decidable (_ ∧ _))

def hasBlock : Place → Str → Bool
  | _, [] => false
  | place, c :: rest =>
    (next sql place c rest.head?).1 == .opening || hasBlock (next sql place c rest.head?).1 rest

end

/-- Only in comments is the rest of a line cut. -/
def Cuts (place : Place) (cut : Bool) : Prop :=
  match place with
  | .line => cut = true
  | .block => True
  | _ => cut = false

/-- A line comment is gone from what is left. -/
def left (place : Place) : Place := if place = .line then .code else place

variable {sql : Lexis} {place : Place} {cut : Bool} {text : Str}

/-- What no step ever holds. -/
def Bare (token : Str) : Prop := ';' ∉ token ∧ ¬ ['-', '-'] <:+: token ∧ ∀ c ∈ token, endsLine c = true → c = '\n'

instance (token : Str) : Decidable (Bare token) :=
  have := List.decidableBAll (fun c => endsLine c = true → c = '\n') token
  inferInstanceAs (Decidable (_ ∧ _ ∧ _))

theorem Bare.part {token text : Str} (h : Bare text) (hpart : token <:+: text) : Bare token :=
  ⟨fun hin => h.1 (hpart.subset hin), fun hin => h.2.1 (hin.trans hpart), fun c hc => h.2.2 c (hpart.subset hc)⟩

variable {ahead : Option Char} {c : Char}

private theorem cutAfter_plain (h : ¬ (c = '-' ∧ ahead = some '-')) : cutAfter false c ahead = false := by
  rw [cutAfter, Bool.false_or, decide_eq_false h]
  split
  · rfl
  · split <;> rfl

private theorem next_code_of_fair (hfair : Fair sql .code cut c ahead) (hend : endsLine c = true) :
    next sql .code c ahead = (.code, none) := by
  have hc := isSpace_of_endsLine hend
  refine next_code_space hc ?_ ahead
  by_contra hwhite
  have hplain := (hfair (by rw [next_of_space hc, if_neg hwhite]; rfl)).2
  exact Bool.eq_false_iff.mp hplain hend

theorem Cuts.next (h : Cuts place cut) (hfair : Fair sql place cut c ahead) :
    Cuts (next sql place c ahead).1 (cutAfter cut c ahead) := by
  cases place with
  | code =>
    obtain rfl : cut = false := h
    simp only [Sql.next]
    split
    · next hdash =>
      obtain ⟨rfl, rfl⟩ := hdash
      rfl
    · next hdash =>
      have hcut := cutAfter_plain hdash
      split
      · exact hcut
      · split <;> exact hcut
  | line =>
    obtain rfl : cut = true := h
    simp only [Sql.next]
    split
    · next hc =>
      subst hc
      rfl
    · next hc =>
      show cutAfter true c ahead = true
      rw [cutAfter]
      split
      · rfl
      · next hpair =>
        split
        · next hend => exact ((hfair hend).elim hc hpair).elim
        · rfl
  | opening => trivial
  | block =>
    simp only [Sql.next]
    split
    · next hclose =>
      obtain rfl : cut = false := hfair.2 hclose
      refine cutAfter_plain fun h => ?_
      exact absurd (hclose.1.symm.trans h.1) (by decide)
    · trivial
  | closing =>
    obtain rfl : cut = false := h
    obtain rfl : c = '/' := hfair
    exact cutAfter_plain fun h => absurd h.1 (by decide)
  | quoted close =>
    obtain rfl : cut = false := h
    have hcut := cutAfter_plain hfair.2.2
    simp only [Sql.next]
    split <;> exact hcut

variable {rest : Str}

private theorem next_uncommented (hdash : ¬ (c = '-' ∧ rest.head? = some '-')) (place : Place) :
    next sql place c (uncommented false rest).head? = next sql place c rest.head? := by
  have hstar : (uncommented false rest).head? = some '*' ↔ rest.head? = some '*' :=
    ⟨head_of_uncommented (by decide), head_uncommented (by decide) (by decide)⟩
  have hslash : (uncommented false rest).head? = some '/' ↔ rest.head? = some '/' :=
    ⟨head_of_uncommented (by decide), head_uncommented (by decide) (by decide)⟩
  have hdash' : ¬ (c = '-' ∧ (uncommented false rest).head? = some '-') :=
    fun h => hdash ⟨h.1, head_of_uncommented (by decide) h.2⟩
  cases place with
  | code => simp only [next, hdash, hdash', hstar]
  | block => simp only [next, hslash]
  | line | opening | closing | quoted close => rfl

private theorem begins_comment (h : place = .line ∨ place = .block) (text : Str) : begins (marks (next sql) none place text) = false := by
  cases text with
  | nil => rfl
  | cons c text => obtain rfl | rfl := h <;> rfl

/-- What is left of a text is read as the text is. -/
structure Agrees (sql : Lexis) (place : Place) (cut : Bool) (text : Str) : Prop where
  runs : runs (marks (next sql) none (left place) (uncommented cut text)) = runs (marks (next sql) none place text)
  begins : begins (marks (next sql) none (left place) (uncommented cut text)) = begins (marks (next sql) none place text)
  ends : ends (next sql) none (left place) (uncommented cut text) = left (ends (next sql) none place text)
  tidy : Tidy sql (left place) (uncommented cut text)

section
variable {cut' : Bool} {place' : Place} (h : Agrees sql place' cut' rest)
include h

theorem Agrees.skip (hread : uncommented cut (c :: rest) = uncommented cut' rest) (hnext : next sql place c rest.head? = (place', none))
    (hleft : left place' = left place) (hbegins : Lib.begins (marks (next sql) none place' rest) = false) :
    Agrees sql place cut (c :: rest) := by
  have hmarks : marks (next sql) none place (c :: rest) = none :: marks (next sql) none place' rest := by
    rw [marks, or_none, hnext]
  constructor
  · rw [hread, ← hleft, h.runs, hmarks, Lib.runs]
  · rw [hread, ← hleft, h.begins, hbegins, hmarks]
    rfl
  · rw [hread, ← hleft, h.ends, Lib.ends, or_none, hnext]
  · rw [hread, ← hleft]
    exact h.tidy

theorem Agrees.keep {c d : Char} {mark : Option Char} (hread : uncommented cut (c :: rest) = d :: uncommented cut' rest) (hnext : next sql place c rest.head? = (place', mark))
    (hleft : next sql (left place) d (uncommented cut' rest).head? = (left place', mark))
    (htidy : left place = .code → isSpace d = true →
      sql.white d = true ∨ ∃ e ∈ uncommented cut' rest, isSpace e = false) : Agrees sql place cut (c :: rest) := by
  have hmarks : marks (next sql) none place (c :: rest) = mark :: marks (next sql) none place' rest := by
    rw [marks, or_none, hnext]
  have hmarks' : marks (next sql) none (left place) (d :: uncommented cut' rest) =
      mark :: marks (next sql) none (left place') (uncommented cut' rest) := by
    rw [marks, or_none, hleft]
  obtain ⟨hruns, hbegins⟩ := runs_cons_congr h.runs h.begins mark
  constructor
  · rw [hread, hmarks', hmarks, hruns]
  · rw [hread, hmarks', hmarks, hbegins]
  · rw [hread, Lib.ends, or_none, hleft, h.ends, Lib.ends, or_none, hnext]
  · rw [hread, Tidy, hleft]
    exact ⟨htidy, h.tidy⟩

end

private theorem next_comment (h : place = .line ∧ c ≠ '\n' ∨ place = .block ∧ ¬ (c = '*' ∧ ahead = some '/')) :
    next sql place c ahead = (place, none) := by
  obtain ⟨rfl, hc⟩ | ⟨rfl, hc⟩ := h
  · simp only [next, hc, if_false]
  · simp only [next, hc, if_false]

private theorem next_return (hfair : Fair sql place cut '\r' ahead) :
    next sql place '\r' ahead = (place, none) ∧ (place = .code ∨ place = .line ∨ place = .block) := by
  cases place with
  | code => exact ⟨next_code_of_fair hfair (by decide), .inl rfl⟩
  | line => exact ⟨next_comment (.inl ⟨rfl, by decide⟩), .inr (.inl rfl)⟩
  | opening =>
    have hstar : '\r' = '*' := hfair
    exact absurd hstar (by decide)
  | block => exact ⟨next_comment (.inr ⟨rfl, fun h => absurd h.1 (by decide)⟩), .inr (.inr rfl)⟩
  | closing =>
    have hslash : '\r' = '/' := hfair
    exact absurd hslash (by decide)
  | quoted close => exact absurd (hfair.2.1 (by decide)) (by decide)

private theorem begins_lineFeed (h : place = .code ∨ place = .line ∨ place = .block) (text : Str) :
    begins (marks (next sql) none place ('\n' :: text)) = false := by
  obtain rfl | h := h
  · rw [marks, next_code_space (by decide) sql.white_lineFeed]
    rfl
  · exact begins_comment h _

section
variable (hplace : place = .code ∨ place = .line)
include hplace

/-- Outside literals and block comments a character is taken or left for what it is at an edge. -/
theorem uncommented_edge (hcuts : Cuts place cut)
    (hfair : Fair sql place cut c rest.head?) :
    (edge place c rest.head? = true ∧
      ((next sql place c rest.head?).1 = .code ∨ (next sql place c rest.head?).1 = .line) ∧
      (uncommented cut (c :: rest) = uncommented (cutAfter cut c rest.head?) rest ∨
        uncommented cut (c :: rest) = '\n' :: uncommented (cutAfter cut c rest.head?) rest ∨
        place = .code ∧ isSpace c = true ∧ uncommented cut (c :: rest) = c :: uncommented (cutAfter cut c rest.head?) rest)) ∨
    (edge place c rest.head? = false ∧ isSpace c = false ∧
      uncommented cut (c :: rest) = c :: uncommented (cutAfter cut c rest.head?) rest) := by
  have hspace (hc : isSpace c = true) : (next sql .code c rest.head?).1 = .code := by rw [next_of_space hc]
  have hline : (next sql .line c rest.head?).1 = .code ∨ (next sql .line c rest.head?).1 = .line := by
    simp only [next]
    split
    · exact .inl rfl
    · exact .inr rfl
  obtain ⟨rfl, -, hcut, hread⟩ | ⟨-, hend, hcut, hread⟩ | ⟨-, hdash, hcut, hread⟩ | ⟨-, rfl, hdash, hcut, hread⟩ :=
    uncommented_cases cut c rest
  · rw [hcut]
    obtain rfl | rfl := hplace
    · exact .inl ⟨rfl, .inl (hspace (by decide)), .inl hread⟩
    · exact .inl ⟨rfl, hline, .inl hread⟩
  · rw [hcut]
    obtain rfl | rfl := hplace
    · have hc := isSpace_of_endsLine hend
      exact .inl ⟨by rw [edge, hc]; rfl, .inl (hspace hc), .inr (.inl hread)⟩
    · exact .inl ⟨rfl, hline, .inr (.inl hread)⟩
  · rw [hcut]
    obtain rfl | rfl := hplace
    · obtain rfl : cut = false := hcuts
      have hdash := hdash.resolve_left Bool.false_ne_true
      refine .inl ⟨by rw [edge, decide_eq_true hdash, Bool.or_true]; rfl, .inr ?_, .inl hread⟩
      simp only [next, hdash, and_self, if_true]
    · exact .inl ⟨rfl, hline, .inl hread⟩
  · rw [hcut]
    obtain rfl | rfl := hplace
    · by_cases hc : isSpace c = true
      · exact .inl ⟨by rw [edge, hc]; rfl, .inl (hspace hc), .inr (.inr ⟨rfl, hc, hread⟩)⟩
      · rw [Bool.not_eq_true] at hc
        exact .inr ⟨by rw [edge, hc, decide_eq_false hdash]; rfl, hc, hread⟩
    · cases hcuts

private theorem blank_eq (hcuts : Cuts place cut) (h : Keeps sql place cut text) :
    blank sql place text = (uncommented cut text).all isSpace := by
  induction text generalizing place cut with
  | nil => rfl
  | cons c rest ih =>
    obtain ⟨hfair, hrest⟩ := h
    obtain ⟨hedge, hnext, hread⟩ | ⟨hedge, hc, hread⟩ := uncommented_edge hplace hcuts hfair
    · rw [blank, hedge, Bool.true_and, ih hnext (hcuts.next hfair) hrest]
      obtain hread | hread | ⟨-, hc, hread⟩ := hread <;> rw [hread]
      · rw [List.all_cons, show isSpace '\n' = true by decide, Bool.true_and]
      · rw [List.all_cons, hc, Bool.true_and]
    · rw [blank, hedge, hread, List.all_cons, hc, Bool.false_and, Bool.false_and]

private theorem white_of_front (hcuts : Cuts place cut) (h : Keeps sql place cut text)
    (hfront : FrontWhite sql place text) : ∀ d ∈ (uncommented cut text).takeWhile isSpace, sql.white d = true := by
  induction text generalizing place cut with
  | nil => exact List.forall_mem_nil _
  | cons c rest ih =>
    obtain ⟨hfair, hrest⟩ := h
    obtain ⟨hedge, hnext, hread⟩ | ⟨-, hc, hread⟩ := uncommented_edge hplace hcuts hfair
    · have ih := ih hnext (hcuts.next hfair) hrest (hfront.2 hedge)
      obtain hread | hread | ⟨rfl, hc, hread⟩ := hread <;> rw [hread]
      · exact ih
      · rw [List.takeWhile_cons_of_pos (by decide)]
        exact List.forall_mem_cons.mpr ⟨sql.white_lineFeed, ih⟩
      · rw [List.takeWhile_cons_of_pos hc]
        exact List.forall_mem_cons.mpr ⟨hfront.1 rfl hc, ih⟩
    · rw [hread, List.takeWhile_cons_of_neg (by rw [hc]; exact Bool.false_ne_true)]
      exact List.forall_mem_nil _

end

theorem agrees (hcuts : Cuts place cut) (h : Keeps sql place cut text) (hback : BackWhite sql place text) :
    Agrees sql place cut text := by
  induction text generalizing place cut with
  | nil => exact ⟨rfl, rfl, rfl, trivial⟩
  | cons c rest ih =>
    obtain ⟨hfair, hrest⟩ := h
    have ih := ih (hcuts.next hfair) hrest hback.2
    obtain ⟨rfl, hahead, hcut, hread⟩ | ⟨hpair, hend, hcut, hread⟩ | ⟨hend, hdash, hcut, hread⟩ |
      ⟨hend, rfl, hdash, hcut, hread⟩ := uncommented_cases cut c rest
    · -- the first of a pair that ends a line
      obtain ⟨hnext, hplace⟩ := next_return hfair
      rw [hcut, hnext] at ih
      refine ih.skip hread hnext rfl ?_
      cases rest with
      | nil => cases hahead
      | cons d rest =>
        obtain rfl := Option.some.inj hahead
        exact begins_lineFeed hplace rest
    · -- the end of a line is left as a line feed
      rw [hcut] at ih
      have hfeed (ahead : Option Char) : next sql .code '\n' ahead = (.code, none) := next_code_space (by decide) sql.white_lineFeed ahead
      cases place with
      | code =>
        have hnext := next_code_of_fair hfair hend
        rw [hnext] at ih
        exact ih.keep hread hnext (hfeed _) fun _ _ => .inl sql.white_lineFeed
      | line =>
        obtain rfl : c = '\n' := (hfair hend).resolve_right hpair
        exact ih.keep hread rfl (hfeed _) fun _ _ => .inl sql.white_lineFeed
      | opening => exact absurd (hfair ▸ hend) (by decide)
      | block =>
        have hnext : next sql .block c rest.head? = (.block, none) :=
          next_comment (.inr ⟨rfl, fun h => absurd (h.1 ▸ hend) (by decide)⟩)
        rw [hnext] at ih
        exact ih.keep hread hnext (next_comment (.inr ⟨rfl, fun h => absurd h.1 (by decide)⟩)) fun h => by cases h
      | closing => exact absurd (hfair ▸ hend) (by decide)
      | quoted close =>
        obtain rfl := hfair.2.1 hend
        have hleft : left (next sql (.quoted close) '\n' rest.head?).1 = (next sql (.quoted close) '\n' rest.head?).1 := by
          simp only [next]
          split <;> rfl
        exact ih.keep hread rfl (by rw [hleft]; rfl) fun h => by cases h
    · -- a comment's character is cut
      rw [hcut] at ih
      have hfeed : c ≠ '\n' := fun h => absurd (h ▸ hend) (by decide)
      cases place with
      | code =>
        obtain rfl : cut = false := hcuts
        obtain ⟨rfl, hahead⟩ := hdash.resolve_left Bool.false_ne_true
        have hnext : next sql .code '-' rest.head? = (.line, none) := by simp only [next, hahead, and_self, if_true]
        rw [hnext] at ih
        exact ih.skip hread hnext rfl (begins_comment (.inl rfl) rest)
      | line =>
        have hnext : next sql .line c rest.head? = (.line, none) := next_comment (.inl ⟨rfl, hfeed⟩)
        rw [hnext] at ih
        exact ih.skip hread hnext rfl (begins_comment (.inl rfl) rest)
      | opening =>
        obtain rfl : cut = false := hcuts
        exact absurd ((hdash.resolve_left Bool.false_ne_true).1.symm.trans hfair) (by decide)
      | block =>
        have hstays : ¬ (c = '*' ∧ rest.head? = some '/') := by
          intro hclose
          obtain rfl := hfair.2 hclose
          exact absurd (hclose.1.symm.trans (hdash.resolve_left Bool.false_ne_true).1) (by decide)
        have hnext : next sql .block c rest.head? = (.block, none) := next_comment (.inr ⟨rfl, hstays⟩)
        rw [hnext] at ih
        exact ih.skip hread hnext rfl (begins_comment (.inr rfl) rest)
      | closing =>
        obtain rfl : cut = false := hcuts
        exact absurd ((hdash.resolve_left Bool.false_ne_true).1.symm.trans hfair) (by decide)
      | quoted close =>
        obtain rfl : cut = false := hcuts
        exact absurd (hdash.resolve_left Bool.false_ne_true) hfair.2.2
    · -- any other character stays
      rw [hcut] at ih
      have hplace : left place = place := by
        cases place with
        | line => cases hcuts
        | code | opening | block | closing | quoted close => rfl
      have hleft : left (next sql place c rest.head?).1 = (next sql place c rest.head?).1 := by
        cases place with
        | line => cases hcuts
        | code =>
          simp only [next, hdash, if_false]
          split
          · rfl
          · split <;> rfl
        | opening => rfl
        | block =>
          simp only [next]
          split <;> rfl
        | closing => rfl
        | quoted close =>
          simp only [next]
          split <;> rfl
      have hnext : next sql place c rest.head? = ((next sql place c rest.head?).1, (next sql place c rest.head?).2) := rfl
      refine ih.keep hread hnext ?_ fun hcode hspace => ?_
      · rw [hplace, next_uncommented hdash, hleft]
      · rw [hplace] at hcode
        subst hcode
        have hcuts := hcuts.next hfair
        rw [next_of_space hspace, hcut] at hcuts hrest
        refine (hback.1 rfl hspace).imp_right fun hblank => ?_
        rw [blank_eq (.inl rfl) hcuts hrest] at hblank
        simpa using hblank

theorem semicolon_notMem (hcuts : Cuts place cut) (h : Keeps sql place cut text) : ';' ∉ uncommented cut text := by
  induction text generalizing place cut with
  | nil => exact List.not_mem_nil
  | cons c rest ih =>
    obtain ⟨hfair, hrest⟩ := h
    have ih := ih (hcuts.next hfair) hrest
    obtain ⟨-, -, hcut, hread⟩ | ⟨-, -, hcut, hread⟩ | ⟨-, -, hcut, hread⟩ | ⟨-, rfl, hdash, hcut, hread⟩ :=
      uncommented_cases cut c rest
    · rw [hcut] at ih
      rw [hread]
      exact ih
    · rw [hcut] at ih
      rw [hread]
      exact List.not_mem_cons_of_ne_of_not_mem (by decide) ih
    · rw [hcut] at ih
      rw [hread]
      exact ih
    · rw [hcut] at ih
      rw [hread]
      refine List.not_mem_cons_of_ne_of_not_mem ?_ ih
      rintro rfl
      cases place with
      | code =>
        have hnone : sql.closing ';' = none := by
          cases hclosing : sql.closing ';' with
          | none => rfl
          | some q => exact absurd rfl (sql.opening_plain ';' q hclosing).2.1
        have hwhite : sql.white ';' = false := by
          rw [← Bool.not_eq_true]
          exact fun h => absurd (sql.white_isSpace ';' h) (by decide)
        refine (hfair ?_).1 rfl
        simp only [next, hnone, hwhite, Char.reduceEq, false_and, if_false, Bool.false_eq_true, isSome_some]
      | line => cases hcuts
      | opening =>
        have hstar : ';' = '*' := hfair
        exact absurd hstar (by decide)
      | block => exact hfair.1 rfl rfl
      | closing =>
        have hslash : ';' = '/' := hfair
        exact absurd hslash (by decide)
      | quoted close => exact hfair.1 rfl

theorem uncommented_append (hcuts : Cuts place cut) (h : Keeps sql place cut text) (hend : ends (next sql) none place text = .code)
    (more : Str) : uncommented cut (text ++ ';' :: more) = uncommented cut text ++ ';' :: uncommented false more := by
  induction text generalizing place cut with
  | nil =>
    obtain rfl : place = .code := hend
    obtain rfl : cut = false := hcuts
    rfl
  | cons c rest ih =>
    obtain ⟨hfair, hrest⟩ := h
    rw [ends, or_none] at hend
    have ih := ih (hcuts.next hfair) hrest hend
    have hahead (e : Char) (he : e ≠ ';') : (rest ++ ';' :: more).head? = some e ↔ rest.head? = some e := by
      cases rest with
      | nil => exact iff_of_false (fun h => he (Option.some.inj h).symm) fun h => by cases h
      | cons d rest => rfl
    rw [cutAfter] at ih
    rw [List.cons_append, uncommented, uncommented]
    simp only [hahead '\n' (by decide), hahead '-' (by decide)]
    split
    · next hpair =>
      rw [if_pos hpair] at ih
      exact ih
    · next hpair =>
      rw [if_neg hpair] at ih
      split
      · next hline =>
        rw [if_pos hline] at ih
        rw [ih, List.cons_append]
      · next hline =>
        rw [if_neg hline] at ih
        split
        · next hcut =>
          rw [hcut] at ih
          exact ih
        · next hcut =>
          rw [Bool.not_eq_true] at hcut
          rw [hcut] at ih
          rw [ih, List.cons_append]

/-- A text without tokens and without a block comment is of blanks and line comments. -/
theorem blank_of_runs (hplace : place = .code ∨ place = .line) (hruns : runs (marks (next sql) none place text) = [])
    (hblock : hasBlock sql place text = false) : blank sql place text = true := by
  induction text generalizing place with
  | nil => rfl
  | cons c rest ih =>
    rw [hasBlock, Bool.or_eq_false_iff, beq_eq_false_iff_ne] at hblock
    obtain ⟨hopening, hblock⟩ := hblock
    rw [marks, or_none] at hruns
    have hmark : (next sql place c rest.head?).2 = none := runs_eq_nil hruns _ List.mem_cons_self
    rw [hmark, Lib.runs] at hruns
    obtain ⟨hedge, hnext⟩ : edge place c rest.head? = true ∧
        ((next sql place c rest.head?).1 = .code ∨ (next sql place c rest.head?).1 = .line) := by
      obtain rfl | rfl := hplace
      · by_cases hdash : c = '-' ∧ rest.head? = some '-'
        · exact ⟨by rw [edge, decide_eq_true hdash, Bool.or_true]; rfl, .inr (by simp only [next, hdash, and_self, if_true])⟩
        · simp only [next, hdash, if_false] at hopening hmark ⊢
          split at hmark
          · next hopen => exact absurd (by rw [if_pos hopen]) hopening
          · next hopen =>
            rw [if_neg hopen]
            split at hmark
            · cases hmark
            · dsimp only at hmark
              split at hmark
              · next hwhite => exact ⟨by rw [edge, sql.white_isSpace c hwhite]; rfl, .inl rfl⟩
              · cases hmark
      · refine ⟨rfl, ?_⟩
        simp only [next]
        split
        · exact .inl rfl
        · exact .inr rfl
    rw [blank, hedge, ih hnext hruns hblock, Bool.true_and]

/-- A script: texts that leave nothing open between semicolons, and a last one behind them. -/
structure Script (sql : Lexis) where
  front : List Str
  last : Str
  closed : ∀ text ∈ front, endOf sql text = .code
  complete : Complete sql last

def Script.parts (script : Script sql) : List Str := script.front ++ [script.last]

def Script.file (script : Script sql) : Str := script.front.flatMap (· ++ [';']) ++ script.last

/-- The steps are the parts of the script that have tokens, in order and with these tokens. -/
def Yields (sql : Lexis) (division : Division) (script : Script sql) : Prop :=
  (schemaSteps none (some script.file)).map (statement sql division) =
    (script.parts.filter fun part => !(runsOf sql part).isEmpty).map fun part => some (tokens sql division part)

/-- The blanks at the ends of a part are white space, and a part without tokens has no block comment either. -/
def Trimmed (sql : Lexis) (part : Str) : Prop :=
  FrontWhite sql .code part ∧ BackWhite sql .code part ∧ (runsOf sql part = [] → hasBlock sql .code part = false)
deriving Decidable

/-- Every character is fair, and the ends can be stripped. -/
def Tame (sql : Lexis) (part : Str) : Prop := Keeps sql .code false part ∧ Trimmed sql part

private theorem splitOn_script {front : List Str} (hclosed : ∀ part ∈ front, endOf sql part = .code)
    (hkeeps : ∀ part ∈ front, Keeps sql .code false part) {last : Str} (hlast : Keeps sql .code false last) :
    (uncommented false (front.flatMap (· ++ [';']) ++ last)).splitOn ';' = (front ++ [last]).map (uncommented false) := by
  have hcode : Cuts .code false := rfl
  induction front with
  | nil => exact List.splitOn_eq_singleton (semicolon_notMem hcode hlast)
  | cons part front ih =>
    obtain ⟨hend, hclosed⟩ := List.forall_mem_cons.mp hclosed
    obtain ⟨hpart, hkeeps⟩ := List.forall_mem_cons.mp hkeeps
    rw [List.flatMap_cons, List.append_assoc, List.append_assoc, List.singleton_append, uncommented_append hcode hpart hend,
      List.splitOn_append_cons_self_of_not_mem (semicolon_notMem hcode hpart), ih hclosed hkeeps, List.cons_append, List.map_cons]

/-- Stripped, what is left of a tame part is its statement, or nothing where it has none. -/
theorem strip_part {part : Str} (h : Tame sql part) (hcomplete : Complete sql part) :
    runsOf sql (strip (uncommented false part)) = runsOf sql part ∧ Complete sql (strip (uncommented false part)) ∧
      (strip (uncommented false part)).isEmpty = (runsOf sql part).isEmpty := by
  have hcode : Cuts .code false := rfl
  obtain ⟨hkeeps, hfront, hback, hblock⟩ := h
  have hagrees := agrees hcode hkeeps hback
  have hleft : Complete sql (uncommented false part) := by
    refine .inl (hagrees.ends.trans ?_)
    rw [Complete, endOf] at hcomplete
    obtain hend | hend := hcomplete <;> rw [hend] <;> rfl
  obtain ⟨hruns, hstripped⟩ := statement_strip (white_of_front (.inl rfl) hcode hkeeps hfront) hagrees.tidy hleft
  have hsame : runsOf sql (strip (uncommented false part)) = runsOf sql part := hruns.trans hagrees.runs
  refine ⟨hsame, hstripped, ?_⟩
  rw [Bool.eq_iff_iff, List.isEmpty_iff, List.isEmpty_iff]
  constructor
  · intro hnil
    rw [← hsame, hnil]
    rfl
  · intro hnil
    have hblank := blank_of_runs (.inl rfl) hnil (hblock hnil)
    rw [blank_eq (.inl rfl) hcode hkeeps] at hblank
    rw [strip, trim, List.dropWhile_eq_nil_iff.mpr (List.all_eq_true.mp hblank)]
    rfl

private theorem yields_of_tame (division : Division) (script : Script sql) (h : ∀ part ∈ script.parts, Tame sql part) :
    Yields sql division script := by
  obtain ⟨hfront, hlast⟩ := List.forall_mem_append.mp h
  have hcomplete : ∀ part ∈ script.parts, Complete sql part := by
    refine List.forall_mem_append.mpr ⟨fun part hpart => .inl (script.closed part hpart), ?_⟩
    exact List.forall_mem_singleton.mpr script.complete
  rw [Yields, schemaSteps_eq, Script.file,
    splitOn_script script.closed (fun part hpart => (hfront part hpart).1) (List.forall_mem_singleton.mp hlast).1, ← Script.parts,
    List.map_map, List.filter_map, List.map_map]
  have hfilter : script.parts.filter ((!·.isEmpty) ∘ strip ∘ uncommented false) =
      script.parts.filter fun part => !(runsOf sql part).isEmpty := by
    refine List.filter_congr fun part hpart => ?_
    exact congrArg (! ·) (strip_part (h part hpart) (hcomplete part hpart)).2.2
  rw [hfilter]
  refine List.map_congr_left fun part hpart => ?_
  have hin := (List.mem_filter.mp hpart).1
  obtain ⟨hruns, hstripped, -⟩ := strip_part (h part hin) (hcomplete part hin)
  rw [Function.comp_apply, Function.comp_apply, statement, if_pos hstripped, tokens, tokens, hruns]

private theorem bare_step {file step : Str} (h : step ∈ schemaSteps none (some file)) : Bare step := by
  rw [schemaSteps_eq] at h
  obtain ⟨part, hpart, rfl⟩ := List.mem_map.mp (List.mem_filter.mp h).1
  have hwhole : part <:+: uncommented false file := by
    have hjoined : [';'].intercalate ((uncommented false file).splitOn ';') = uncommented false file :=
      List.intercalate_splitOn ';'
    rw [← hjoined]
    exact infix_intercalate ';' hpart
  have hbare : Bare part := by
    refine ⟨fun hin => ?_, fun hin => no_dashes false file (hin.trans hwhole), fun c hc hend => ?_⟩
    · rw [List.splitOn_eq_splitOnP] at hpart
      exact absurd (mem_splitOnP hpart ';' hin).1 (by decide)
    · refine (mem_uncommented (hwhole.subset hc)).resolve_right fun hplain => ?_
      rw [hend] at hplain
      cases hplain
  refine hbare.part ?_
  exact (List.rdropWhile_prefix _ _).isInfix.trans (List.dropWhile_suffix _).isInfix

private theorem bare_of_yields {division : Division} {script : Script sql}
    (h : Yields sql division script) {part : Str} (hpart : part ∈ script.parts) {token : Str}
    (htoken : token ∈ tokens sql division part) : Bare token := by
  have hruns : (!(runsOf sql part).isEmpty) = true := by
    rw [Bool.not_eq_true', ← Bool.not_eq_true, List.isEmpty_iff]
    intro hnil
    rw [tokens, hnil] at htoken
    cases htoken
  have hin : some (tokens sql division part) ∈ (schemaSteps none (some script.file)).map (statement sql division) := by
    rw [h]
    exact List.mem_map_of_mem (f := fun part => some (tokens sql division part)) (List.mem_filter.mpr ⟨hpart, hruns⟩)
  obtain ⟨step, hstep, hread⟩ := List.mem_map.mp hin
  rw [statement] at hread
  split at hread
  · rw [← Option.some.inj hread] at htoken
    exact (bare_step hstep).part (infix_of_mem_tokens htoken)
  · cases hread

theorem keeps_of_bare (hopened : Opened sql place) (hquiet : Hushed sql place cut text)
    (hbare : ∀ run ∈ runs (marks (next sql) none place text), Bare run) : Keeps sql place cut text := by
  induction text generalizing place cut with
  | nil => trivial
  | cons c rest ih =>
    obtain ⟨hhere, hrest⟩ := hquiet
    rw [marks, or_none] at hbare
    refine ⟨?_, ih (hopened.next c _) hrest fun run hrun => ?_⟩
    · have hfirst (mark : (next sql place c rest.head?).2 = some c) :
          ∃ run, Bare run ∧ [c] <+: run ∧
            ∀ d, (marks (next sql) none (next sql place c rest.head?).1 rest).head? = some (some d) → [c, d] <+: run := by
        rw [mark] at hbare
        obtain ⟨run, hrun, hpart⟩ := exists_run c (marks (next sql) none (next sql place c rest.head?).1 rest)
        exact ⟨run, hbare run hrun, hpart⟩
      cases place with
      | code =>
        intro hmark
        obtain ⟨d, hd⟩ := isSome_iff_exists.mp hmark
        obtain rfl : d = c := (own_next .code c rest.head?) d hd
        obtain ⟨run, hrun, hone, -⟩ := hfirst hd
        have hc := hone.subset List.mem_cons_self
        refine ⟨fun h => hrun.1 (h ▸ hc), ?_⟩
        by_contra hend
        obtain rfl := hrun.2.2 d hc (Bool.not_eq_false _ ▸ hend)
        rw [next_code_space (by decide) sql.white_lineFeed] at hd
        cases hd
      | quoted close =>
        obtain ⟨run, hrun, hone, htwo⟩ := hfirst rfl
        have hc := hone.subset List.mem_cons_self
        refine ⟨fun h => hrun.1 (h ▸ hc), hrun.2.2 c hc, ?_⟩
        rintro ⟨rfl, hahead⟩
        obtain ⟨q, hq⟩ := hopened close rfl
        have hne : '-' ≠ close := fun h => (sql.closing_plain q close hq).2 h.symm
        refine hrun.2.1 (htwo '-' ?_).isInfix
        cases rest with
        | nil => cases hahead
        | cons d rest =>
          obtain rfl := Option.some.inj hahead
          simp only [next, hne, if_false, marks, List.head?_cons]
      | line => exact hhere
      | opening => exact hhere
      | block => exact hhere
      | closing => exact hhere
    · obtain ⟨whole, hwhole, hpart⟩ := exists_run_of_mem (m := (next sql place c rest.head?).2) hrun
      exact (hbare whole hwhole).part hpart

/-- The comments of a part survive the cut, and its ends can be stripped. -/
def Calm (sql : Lexis) (part : Str) : Prop := Hushed sql .code false part ∧ Trimmed sql part
deriving Decidable

private theorem Calm.tame {division : Division} {part : Str} (h : Calm sql part) (htokens : ∀ token ∈ tokens sql division part, Bare token) :
    Tame sql part := by
  refine ⟨keeps_of_bare nofun h.1 fun run hrun => ?_, h.2⟩
  have htoken {token : Str} (hin : token ∈ division.divide run) : Bare token := htokens token (List.mem_flatMap.mpr ⟨run, hrun, hin⟩)
  have hchar {c : Char} (hc : c ∈ run) : ∃ token ∈ division.divide run, c ∈ token := by
    rw [← division.flatten_divide run] at hc
    exact List.mem_flatten.mp hc
  refine ⟨fun hin => ?_, fun hin => ?_, fun c hc => ?_⟩
  · obtain ⟨token, hdivided, hin⟩ := hchar hin
    exact (htoken hdivided).1 hin
  · obtain ⟨token, hdivided, hin⟩ := division.dashes run hin
    exact (htoken hdivided).2.1 hin
  · obtain ⟨token, hdivided, hin⟩ := hchar hc
    exact (htoken hdivided).2.2 c hin

/-- A script is split into its statements only where no token holds a semicolon, two dashes or a line end
that is not kept, and wherever that is so and its comments survive the cut. -/
theorem schemaSteps_yields (sql : Lexis) (division : Division) (script : Script sql) :
    (Yields sql division script → ∀ part ∈ script.parts, ∀ token ∈ tokens sql division part, Bare token) ∧
    ((∀ part ∈ script.parts, Calm sql part) →
      (Yields sql division script ↔ ∀ part ∈ script.parts, ∀ token ∈ tokens sql division part, Bare token)) := by
  have hnecessary (h : Yields sql division script) : ∀ part ∈ script.parts, ∀ token ∈ tokens sql division part, Bare token :=
    fun part hpart token htoken => bare_of_yields h hpart htoken
  refine ⟨hnecessary, fun hcalm => ⟨hnecessary, fun hbare => ?_⟩⟩
  exact yields_of_tame division script fun part hpart => (hcalm part hpart).tame (hbare part hpart)

def sqlite : Lexis where
  white c := [' ', '\t', '\n', '\x0c', '\r'].contains c
  closing c := if c = '\'' ∨ c = '"' ∨ c = '`' then some c else if c = '[' then some ']' else none
  white_isSpace c h := by
    rw [List.contains_iff_mem] at h
    simp only [List.mem_cons, List.not_mem_nil, or_false] at h
    obtain rfl | rfl | rfl | rfl | rfl := h <;> decide
  white_lineFeed := by decide
  white_return := by decide
  opening_plain c q h := by
    split at h
    · next hquote => obtain rfl | rfl | rfl := hquote <;> decide
    · split at h
      · next hbracket =>
        subst hbracket
        decide
      · cases h
  closing_plain c q h := by
    split at h
    · next hquote =>
      obtain rfl := Option.some.inj h
      obtain rfl | rfl | rfl := hquote <;> decide
    · split at h
      · obtain rfl := Option.some.inj h
        decide
      · cases h

/-- A character of a name, a keyword or a number. -/
def isWord (c : Char) : Bool := c.isAlphanum || c = '_' || c = '$' || decide (128 ≤ c.toNat)

/-- The token in hand. -/
inductive Lexeme where
  | word
  | quoted (close : Char)
  /-- Two dashes, and all that follows. -/
  | dashes
  | ended

/-- The token a character begins. -/
def begin (c : Char) (ahead : Option Char) : Lexeme :=
  if c = '-' ∧ ahead = some '-' then .dashes
  else if isWord c then .word
  else match sqlite.closing c with
    | some close => .quoted close
    | none => .ended

/-- The token in hand once it has taken the character, if it does. -/
def taken (c : Char) : Lexeme → Option Lexeme
  | .word => if isWord c then some .word else none
  | .quoted close => some (if c = close then .ended else .quoted close)
  | .dashes => some .dashes
  | .ended => none

/-- SQLite's tokens, of which it has some in one: a quoted text goes on over a quote that is doubled, an operator may be of
two characters or three, a number of more than digits, and a blob or a parameter of more than its name. -/
def divideFrom (token : Str) (lexeme : Lexeme) : Str → List Str
  | [] => [token]
  | c :: run =>
    match taken c lexeme with
    | some lexeme => divideFrom (token ++ [c]) lexeme run
    | none => token :: divideFrom [c] (begin c run.head?) run

def divide : Str → List Str
  | [] => []
  | c :: run => divideFrom [c] (begin c run.head?) run

private theorem flatten_divideFrom (token : Str) (lexeme : Lexeme) (run : Str) :
    (divideFrom token lexeme run).flatten = token ++ run := by
  induction run generalizing token lexeme with
  | nil => simp [divideFrom]
  | cons c run ih =>
    rw [divideFrom]
    split
    · rw [ih, List.append_assoc, List.singleton_append]
    · rw [List.flatten_cons, ih, List.singleton_append]

/-- A token that the first of two dashes ends takes the second as well, and no dash closes what it quotes. -/
structure Takes (token : Str) (ahead : Option Char) (lexeme : Lexeme) : Prop where
  second : token.getLast? = some '-' → ahead = some '-' → lexeme = .dashes ∨ ∃ close, lexeme = .quoted close
  closing : ∀ close, lexeme = .quoted close → close ≠ '-'

private theorem takes_begin (c : Char) (ahead : Option Char) : Takes [c] ahead (begin c ahead) := by
  rw [begin]
  refine ⟨fun hlast hahead => ?_, fun close hclose => ?_⟩
  · exact .inl (if_pos ⟨Option.some.inj hlast, hahead⟩)
  · split at hclose
    · cases hclose
    · split at hclose
      · cases hclose
      · split at hclose
        · next hq =>
          cases hclose
          exact (sqlite.closing_plain c close hq).2
        · cases hclose

theorem Takes.taken {token : Str} {c : Char} {ahead ahead' : Option Char} {lexeme lexeme' : Lexeme} (h : Takes token ahead' lexeme)
    (htaken : taken c lexeme = some lexeme') : Takes (token ++ [c]) ahead lexeme' := by
  have hlast (hdash : (token ++ [c]).getLast? = some '-') : c = '-' := by simpa using hdash
  cases lexeme with
  | word =>
    obtain ⟨hword, htaken⟩ := ite_none_right_eq_some.mp htaken
    cases htaken
    exact ⟨fun hdash => absurd (hlast hdash ▸ hword) (by decide), nofun⟩
  | quoted close =>
    have hclose := h.closing close rfl
    obtain rfl := Option.some.inj htaken
    split
    · next hc => exact ⟨fun hdash => absurd (hc ▸ hlast hdash) hclose, nofun⟩
    · exact ⟨fun _ _ => .inr ⟨close, rfl⟩, fun q hq => Lexeme.quoted.inj hq ▸ hclose⟩
  | dashes =>
    cases htaken
    exact ⟨fun _ _ => .inl rfl, nofun⟩
  | ended => cases htaken

/-- A pair within two texts is within one, or where they meet. -/
theorem pair_infix_append {a b : Char} {text text' : Str} (h : [a, b] <:+: text ++ text') :
    [a, b] <:+: text ∨ [a, b] <:+: text' ∨ text.getLast? = some a ∧ text'.head? = some b := by
  induction text with
  | nil => exact .inr (.inl h)
  | cons c text ih =>
    rw [List.cons_append, List.infix_cons_iff] at h
    rcases h with hfirst | hlater
    · obtain ⟨rfl, hrest⟩ := List.cons_prefix_cons.mp hfirst
      cases text with
      | nil =>
        cases text' with
        | nil => cases List.prefix_nil.mp hrest
        | cons d text' => exact .inr (.inr ⟨rfl, congrArg some (List.cons_prefix_cons.mp hrest).1.symm⟩)
      | cons d text =>
        obtain rfl := (List.cons_prefix_cons.mp hrest).1
        exact .inl ⟨[], text, rfl⟩
    · rcases ih hlater with hin | hin | ⟨hlast, hhead⟩
      · exact .inl (List.infix_cons hin)
      · exact .inr (.inl hin)
      · exact .inr (.inr ⟨by rw [List.getLast?_cons, hlast]; rfl, hhead⟩)

private theorem dashes_divideFrom {token run : Str} {lexeme : Lexeme} (htakes : Takes token run.head? lexeme)
    (h : ['-', '-'] <:+: token ++ run) : ∃ t ∈ divideFrom token lexeme run, ['-', '-'] <:+: t := by
  induction run generalizing token lexeme with
  | nil => exact ⟨token, List.mem_singleton_self token, by rwa [List.append_nil] at h⟩
  | cons c run ih =>
    rw [divideFrom]
    split
    · next lexeme' htaken =>
      exact ih (htakes.taken htaken) (by rwa [List.append_assoc, List.singleton_append])
    · next hnone =>
      rcases pair_infix_append h with hin | hin | ⟨hlast, hhead⟩
      · exact ⟨token, List.mem_cons_self, hin⟩
      · obtain ⟨t, ht, hdashes⟩ := ih (takes_begin c run.head?) hin
        exact ⟨t, List.mem_cons_of_mem _ ht, hdashes⟩
      · obtain rfl | ⟨close, rfl⟩ := htakes.second hlast hhead
        · cases hnone
        · cases hnone

def sqliteTokens : Division where
  divide := divide
  flatten_divide run := by
    cases run with
    | nil => rfl
    | cons c run => exact flatten_divideFrom [c] _ run
  dashes run h := by
    cases run with
    | nil => exact absurd (List.infix_nil.mp h) (by decide)
    | cons c run => exact dashes_divideFrom (takes_begin c run.head?) h

/-- A line comment with a semicolon, a block comment with two dashes and one behind them, and a last
statement that no semicolon follows. -/
def commented : Script sqlite where
  front := ["-- a; b\nCREATE TABLE t (/* -- ;\n */ x)".toList]
  last := "\nINSERT INTO t VALUES ('- -') -- c".toList
  closed := by decide +kernel
  complete := by decide +kernel

theorem schemaSteps_yields_commented : Yields sqlite sqliteTokens commented := by
  have hcalm : ∀ part ∈ commented.parts, Calm sqlite part := by decide +kernel
  have hbare : ∀ part ∈ commented.parts, ∀ token ∈ tokens sqlite sqliteTokens part, Bare token := by decide +kernel
  exact ((schemaSteps_yields sqlite sqliteTokens commented).2 hcalm).mpr hbare

def semicolonInLiteral : Script sqlite where
  front := ["INSERT INTO notes VALUES ('a;b')".toList]
  last := []
  closed := by decide
  complete := by decide

def triggerBody : Script sqlite where
  front := ["CREATE TRIGGER log AFTER INSERT ON items BEGIN DELETE FROM notes; END".toList]
  last := []
  closed := by decide +kernel
  complete := by decide

/-- A literal's semicolon, or a trigger's, divides the statement it is in. -/
theorem divided_statements : ¬ Yields sqlite sqliteTokens semicolonInLiteral ∧ ¬ Yields sqlite sqliteTokens triggerBody := by
  constructor
  · intro h
    have htoken : "'a;b'".toList ∈ tokens sqlite sqliteTokens "INSERT INTO notes VALUES ('a;b')".toList := by decide +kernel
    exact (bare_of_yields h List.mem_cons_self htoken).1 (by decide)
  · intro h
    have htoken : [';'] ∈
        tokens sqlite sqliteTokens "CREATE TRIGGER log AFTER INSERT ON items BEGIN DELETE FROM notes; END".toList := by decide +kernel
    exact (bare_of_yields h List.mem_cons_self htoken).1 (by decide)

end SynQt.TopologyWriter
