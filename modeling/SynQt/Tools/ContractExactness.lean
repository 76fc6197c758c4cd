import Mathlib.Data.List.ReduceOption
import SynQt.Tools.BlockWords
import SynQt.Tools.SynInversion

namespace SynQt.ContractGen
open List hiding any_eq_false
open Synqtc Option
open YamlEdit (lit splitlines strip lstrip)

section
variable {w : Word} {gate : List Word}

private theorem expand_none (gate : List Word) (marks : List (Option Word)) :
    expand gate (none :: marks) = gate ++ expand gate marks := rfl

private theorem expand_some (gate : List Word) (w : Word) (marks : List (Option Word)) :
    expand gate (some w :: marks) = w :: expand gate marks := rfl

theorem reduceOption_words (words : List Word) : (words.map some).reduceOption = words := by
  rw [List.reduceOption, filterMap_map]
  exact filterMap_some

private theorem expand_plain {words rest : List Word} {marks : List (Option Word)} (hwords : w ∉ words)
    (h : expand (w :: gate) marks = words ++ rest) :
    ∃ marks', marks = words.map some ++ marks' ∧ expand (w :: gate) marks' = rest := by
  induction words generalizing marks with
  | nil => exact ⟨marks, rfl, h⟩
  | cons v words ih =>
    obtain ⟨hv, hrest⟩ := not_or.mp (mt mem_cons.mpr hwords)
    match marks with
    | [] => cases h
    | none :: marks => exact absurd (List.cons.inj h).1 hv
    | some u :: marks =>
      obtain ⟨rfl, hmore⟩ := List.cons.inj h
      obtain ⟨marks', rfl, hmarks'⟩ := ih hrest hmore
      exact ⟨marks', rfl, hmarks'⟩

/-- Where the first word is the one gates begin with, so is the first once gates are put in. -/
theorem expand_head {marks : List (Option Word)} {words : List Word} (h : marks.reduceOption = w :: words) :
    ∃ rest, expand (w :: gate) marks = w :: rest := by
  match marks with
  | [] => cases h
  | none :: marks => exact ⟨_, rfl⟩
  | some u :: marks =>
    obtain ⟨rfl, -⟩ := List.cons.inj h
    exact ⟨_, rfl⟩

end

section
variable {name scope : String} {items : List (Record ⊕ Member)}

private theorem mark_ne_of_quiet {words : List Word} (h : ∀ w ∈ words, Quiet w) : mark '<' ∉ words := by
  intro hmem
  have hopens := (h _ hmem).2.2
  cases hopens

private theorem body_ne_mark {m : Member} (h : Exportable name scope items) (hm : m ∈ items.filterMap Sum.getRight?) :
    mark '<' ∉ m.bodyWords ∧ ∃ w rest, m.bodyWords = w :: rest ∧ w ≠ mark '<' := by
  obtain ⟨keyword, rest, hbody, -, hquiet⟩ := h.body_words hm
  have hne : ident keyword ≠ mark '<' := fun heq => by cases congrArg Prod.fst heq
  rw [hbody, mem_cons, not_or]
  exact ⟨⟨hne.symm, mark_ne_of_quiet hquiet⟩, _, _, rfl, hne⟩

/-- A gate that is written, and one that is put in before it, are not read alike. -/
theorem gated_apart {own body rest rest' : List Word} {s : Word} (hown : own ≠ []) (hbody : body ≠ [])
    (hmark : mark '<' ∉ own ++ (mark '>' :: body)) :
    own ++ (mark '>' :: body) ++ rest ≠ s :: mark '>' :: mark '<' :: rest' := by
  intro heq
  obtain ⟨a, own, rfl⟩ := exists_cons_of_ne_nil hown
  obtain ⟨b, body, rfl⟩ := exists_cons_of_ne_nil hbody
  apply hmark
  cases own with
  | nil =>
    simp only [cons_append, nil_append, List.cons.injEq] at heq
    simp [heq.2.2.1]
  | cons c own =>
    cases own with
    | nil =>
      simp only [cons_append, nil_append, List.cons.injEq] at heq
      exact absurd heq.2.2.1 (by decide)
    | cons d own =>
      simp only [cons_append, List.cons.injEq] at heq
      simp [heq.2.2.1]

private theorem gateWords_eq {own : List String} (hown : own ≠ []) : gateWords own = mark '<' :: gateRest own := by
  rw [gateWords, if_neg (by simpa using hown)]
  rfl

/-- Lines that read as the gated members, and whose words are the members' words, have their marks
where they should be. -/
theorem marks_eq (h : Exportable name scope items) {members : List Member} (hmembers : members ⊆ items.filterMap Sum.getRight?)
    {marks : List (Option Word)}
    (hread : expand (gateWords [scope]) marks = expand (gateWords [scope]) (members.flatMap (marked scope)))
    (hwords : marks.reduceOption = members.flatMap Member.words) : marks = members.flatMap (marked scope) := by
  have hgate : gateWords [scope] = mark '<' :: [ident scope, mark '>'] := rfl
  rw [hgate] at hread
  induction members generalizing marks with
  | nil =>
    cases marks with
    | nil => rfl
    | cons entry marks =>
      cases entry with
      | none => cases hread
      | some w => cases hread
  | cons m members ih =>
    obtain ⟨hm, hrest⟩ := cons_subset.mp hmembers
    obtain ⟨hplain, first, body, hbody, hfirst⟩ := body_ne_mark h hm
    rw [flatMap_cons] at hwords ⊢
    rw [flatMap_cons, expand_append] at hread
    have hdone (words : List Word) (hnone : mark '<' ∉ words) {marks : List (Option Word)}
        (hread : expand (mark '<' :: [ident scope, mark '>']) marks =
          words ++ expand (mark '<' :: [ident scope, mark '>']) (members.flatMap (marked scope)))
        (hwords : marks.reduceOption = words ++ members.flatMap Member.words) :
        marks = words.map some ++ members.flatMap (marked scope) := by
      obtain ⟨marks', rfl, hread'⟩ := expand_plain hnone hread
      rw [reduceOption_append, reduceOption_words] at hwords
      rw [ih hrest hread' (append_cancel_left hwords)]
    by_cases hbare : (m.scope.isEmpty && !scope.isEmpty) = true
    · -- a gate is put in: the words go on with a keyword
      have hown : m.words = m.bodyWords := by
        rw [Member.words, gateWords, if_pos (Bool.and_eq_true_iff.mp hbare).1, nil_append]
      rw [marked, if_pos hbare, expand_append, expand_words, hown] at hread
      rw [hown] at hwords
      rw [marked, if_pos hbare, hown]
      cases marks with
      | nil => cases hread
      | cons entry marks =>
        cases entry with
        | none =>
          rw [append_assoc] at hread
          have hmore := @List.append_cancel_left _ (mark '<' :: [ident scope, mark '>']) _ _ hread
          rw [hdone _ hplain hmore hwords]
          rfl
        | some w =>
          have hmark : w = mark '<' := (List.cons.inj hread).1
          rw [hbody] at hwords
          exact absurd ((List.cons.inj hwords).1.symm.trans hmark) hfirst
    · rw [marked, if_neg hbare, nil_append, expand_words] at hread
      rw [marked, if_neg hbare, nil_append]
      by_cases hown : m.scope = []
      · have hbody' : m.words = m.bodyWords := by rw [Member.words, hown]; rfl
        rw [hbody'] at hread hwords ⊢
        exact hdone _ hplain hread hwords
      · -- the gate is the member's own
        have hwords' : m.words = mark '<' :: (gateRest m.scope ++ m.bodyWords) := by
          rw [Member.words, gateWords_eq hown, cons_append]
        have hapart : mark '<' ∉ gateRest m.scope ++ m.bodyWords := by
          rw [mem_append, not_or]
          exact ⟨mark_ne_of_quiet (gate_words (h.members m hm).1), hplain⟩
        rw [hwords'] at hread hwords ⊢
        cases marks with
        | nil => cases hread
        | cons entry marks =>
          cases entry with
          | some w =>
            rw [expand_some, cons_append, List.cons.injEq] at hread
            obtain ⟨rfl, hread⟩ := hread
            obtain ⟨-, hwords⟩ := List.cons.inj hwords
            rw [hdone _ hapart hread hwords]
            rfl
          | none =>
            -- a gate cannot be put in where the member's own goes on
            obtain ⟨more, hmore⟩ := @expand_head _ [ident scope, mark '>'] marks _ hwords
            rw [expand_none, hmore] at hread
            have hsame : ident scope :: mark '>' :: mark '<' :: more = gateRest m.scope ++ m.bodyWords ++
                expand (mark '<' :: [ident scope, mark '>']) (members.flatMap (marked scope)) := (List.cons.inj hread).2
            rw [gateRest, append_assoc (commaWords _ _), singleton_append] at hsame hapart
            refine absurd hsame.symm (gated_apart ?_ ?_ hapart)
            · obtain ⟨s, more, hscope⟩ := exists_cons_of_ne_nil hown
              rw [hscope]
              exact cons_ne_nil _ _
            · rw [hbody]
              exact cons_ne_nil _ _

end

section
variable {alnum : Char → Bool} {scope : String}

/-- Every line is read, and one that begins with the word `record` begins and ends outside of a comment. -/
def RecordsWhole (alnum : Char → Bool) : Bool → List Line → Prop
  | _, [] => True
  | isOpen, line :: lines => ∃ read, lexFrom isOpen 0 line = some read ∧
      (isRecord alnum line = true → isOpen = false ∧ read.2 = false) ∧ RecordsWhole alnum read.2 lines

private theorem record_begins {line : Line} (h : isRecord alnum line = true) {read : List Word × Bool}
    (hread : lexFrom false 0 line = some read) : ∃ rest, read.1 = ident "record" :: rest := by
  obtain ⟨hstarts, hends⟩ := Bool.and_eq_true_iff.mp h
  obtain ⟨rest, hline⟩ := isPrefixOf_iff_prefix.mp hstarts
  rw [← hline, drop_left, Bool.not_eq_true', any_eq_false] at hends
  have hapart : ∀ c ∈ rest.head?, isIdentChar c = false := by
    intro c hc
    have hword := hends c hc
    rw [isWordChar, Bool.or_eq_false_iff] at hword
    exact hword.1
  have hlex := lexFrom_lstrip hread
  rw [← hline, show recordWord = "record".toList from rfl, lexFrom_ident (by decide) hapart] at hlex
  obtain ⟨more, -, rfl⟩ := map_eq_some_iff.mp hlex
  exact ⟨more.1, rfl⟩

/-- The records' lines are read by themselves, and the others as they are with the former between them. -/
theorem separated {lines : List Line} (hlines : ∀ line ∈ lines, '\n' ∉ line) {isOpen ends : Bool} {words : List Word}
    (hwhole : RecordsWhole alnum isOpen lines) (h : lexLines isOpen lines = some (words, ends)) :
    ∃ (read : List (Bool × List Word)) (marks : List (Option Word)), read.flatMap Prod.snd = words ∧
      lexLines false (recordLines alnum lines) = some ((read.filter Prod.fst).flatMap Prod.snd, false) ∧
      lexMarked isOpen (memberLines alnum scope lines) = some (marks, ends) ∧
      marks.reduceOption = (read.filter (!·.1)).flatMap Prod.snd ∧
      ∀ line ∈ read, line.1 = true → ∃ rest, line.2 = ident "record" :: rest := by
  induction lines generalizing isOpen words with
  | nil =>
    cases h
    exact ⟨[], [], rfl, rfl, rfl, rfl, forall_mem_nil _⟩
  | cons line lines ih =>
    obtain ⟨hline, hrest⟩ := forall_mem_cons.mp hlines
    obtain ⟨⟨here, isOpen'⟩, hread, hrecord, hwhole⟩ := hwhole
    rw [lexLines, hread, bind_some, map_eq_some_iff] at h
    obtain ⟨⟨more, ends'⟩, hmore, heq⟩ := h
    obtain ⟨rfl, rfl⟩ := Prod.mk.inj heq
    obtain ⟨read, marks, rfl, hrecords, hmembers, hmarks, hbegin⟩ := ih hrest hwhole hmore
    have hstripped := lexFrom_strip hline hread
    rw [recordLines, memberLines, filter_cons, filter_cons]
    cases hflag : isRecord alnum line with
    | true =>
      obtain ⟨rfl, rfl⟩ := hrecord hflag
      refine ⟨(true, here) :: read, marks, rfl, ?_, hmembers, hmarks, ?_⟩
      · rw [if_pos rfl, map_cons, lexLines, hstripped, bind_some]
        exact congrArg (Option.map (prepend here)) hrecords
      · rw [forall_mem_cons]
        exact ⟨fun _ => record_begins hflag hread, hbegin⟩
    | false =>
      refine ⟨(false, here) :: read,
        (if inherits alnum scope line && !isOpen then [none] else []) ++ (here.map some ++ marks), rfl, hrecords, ?_, ?_, ?_⟩
      · rw [Bool.not_false, if_pos rfl, map_cons, lexMarked, hstripped, bind_some]
        rw [memberLines] at hmembers
        rw [hmembers]
        rfl
      · have hnone : (if inherits alnum scope line && !isOpen then [none] else [] : List (Option Word)).reduceOption = [] := by
          split <;> rfl
        rw [reduceOption_append, reduceOption_append, hnone, reduceOption_words, hmarks]
        rfl
      · rw [forall_mem_cons]
        exact ⟨fun hnever => absurd hnever Bool.false_ne_true, hbegin⟩

end

section
variable {text path stem : String} {parsed : SynFile} (h : parseText text path stem = .ok parsed)
include h

theorem words_of_parse :
    ∃ decls : List Parser.Declaration, lexFrom false 0 text.toList = some (decls.flatMap Parser.declWords, false) ∧
      (∀ decl ∈ decls, Parser.DeclSpelled decl) ∧ parsed = Parser.declared { stem := stem } decls := by
  obtain ⟨tokens, htokens, h⟩ := Lib.bind_ok.mp h
  obtain ⟨⟨syn, tokens'⟩, hparse, h⟩ := Lib.bind_ok.mp h
  obtain ⟨-, -, h⟩ := Lib.bind_ok.mp h
  cases h
  obtain ⟨words, hlex, hwords⟩ := words_of_tokenize htokens
  obtain ⟨decls, rfl, hdecls, hsyn⟩ := Parser.parse_spells hwords (isWord_lexFrom _ _ _ _ hlex) hparse
  exact ⟨decls, hlex, hdecls, hsyn⟩

theorem valid_of_parse : parsed.Valid := by
  obtain ⟨tokens, -, h⟩ := Lib.bind_ok.mp h
  obtain ⟨⟨syn, tokens'⟩, -, h⟩ := Lib.bind_ok.mp h
  obtain ⟨⟨⟩, hvalid, h⟩ := Lib.bind_ok.mp h
  cases h
  exact validate_ok.mp hvalid

end

theorem commaWords_map {α β : Type} (words : β → List Word) (f : α → β) (l : List α) :
    commaWords words (l.map f) = commaWords (fun a => words (f a)) l := by
  cases l with
  | nil => rfl
  | cons a l => rw [map_cons, commaWords, commaWords, flatMap_map]

private theorem params_words_unplaced (params : List Param) : paramsWords (params.map Param.unplaced) = paramsWords params := by
  rw [paramsWords, paramsWords, commaWords_map]
  rfl

private theorem record_words_unplaced (r : Record) : r.unplaced.words = r.words :=
  congrArg (fun fields => ident "record" :: ident r.name :: fields) (params_words_unplaced r.fields)

private theorem member_words_unplaced (m : Member) : m.unplaced.words = m.words := by
  cases m with
  | prop p => rfl
  | model m =>
    have hroles : rolesWords (m.roles.map Role.unplaced) = rolesWords m.roles := by
      rw [rolesWords, rolesWords, commaWords_map]
      rfl
    exact congrArg (fun roles => gateWords m.scope ++ ident "model" :: ident m.name :: roles) hroles
  | signal s =>
    exact congrArg (fun params => gateWords s.scope ++ ident "signal" :: ident s.name :: params) (params_words_unplaced s.params)
  | slot s =>
    exact congrArg (fun params => gateWords s.scope ++ ident "slot" :: (s.headWords ++ params)) (params_words_unplaced s.params)

theorem contract_words_unplaced (c : Contract) : c.unplaced.words = c.words := by
  rw [Contract.words, Contract.unplaced, flatMap_map]
  simp only [member_words_unplaced]
  rfl

private theorem flatMap_words_unplaced {α : Type} {words : α → List Word} {unplaced : α → α} (h : ∀ a, words (unplaced a) = words a)
    {l l' : List α} (hsame : l.map unplaced = l'.map unplaced) : l.flatMap words = l'.flatMap words := by
  have hflat (l : List α) : (l.map unplaced).flatMap words = l.flatMap words := by
    rw [flatMap_map]
    simp only [h]
  rw [← hflat l, hsame, hflat]

private theorem flatMap_declWords {decls : List Parser.Declaration} (h : decls.filterMap Sum.getRight? = []) :
    decls.flatMap Parser.declWords = (decls.filterMap Sum.getLeft?).flatMap Record.words := by
  induction decls with
  | nil => rfl
  | cons decl decls ih =>
    cases decl with
    | inl r => exact congrArg (r.words ++ ·) (ih h)
    | inr c => cases h

/-- Of a file that ends in a brace with one contract in it, the contract stands last. -/
theorem contract_last {decls : List Parser.Declaration} {c : Contract} (hone : decls.filterMap Sum.getRight? = [c])
    {words : List Word} (hlast : decls.flatMap Parser.declWords = words ++ [mark closeBrace]) :
    decls.flatMap Parser.declWords = (decls.filterMap Sum.getLeft?).flatMap Record.words ++ c.words := by
  obtain rfl | ⟨before, decl, rfl⟩ := eq_nil_or_concat' decls
  · cases hone
  · rw [flatMap_append, flatMap_singleton] at hlast ⊢
    cases decl with
    | inl r =>
      have hends : Parser.declWords (.inl r) =
          (ident "record" :: ident r.name :: mark '(' :: commaWords Param.words r.fields) ++ [mark ')'] := rfl
      rw [hends, ← append_assoc] at hlast
      have hword := (append_inj' hlast rfl).2
      exact absurd (List.cons.inj hword).1 (by decide)
    | inr c' =>
      rw [filterMap_append] at hone
      obtain ⟨hnone, hsame⟩ := append_inj' (hone.trans (nil_append [c]).symm) rfl
      obtain rfl : c' = c := (List.cons.inj hsame).1
      rw [flatMap_declWords hnone]
      simp [Parser.declWords]

section
variable {alnum : Char → Bool} {header : List Comment} {path name : String} {point : Point} {owner : List (Line × Inferred)}
  {items : List (Record ⊕ Member)}

private theorem append_cons_inj {α : Type} {a : α} {l l' rest rest' : List α} (hl : a ∉ l) (hl' : a ∉ l')
    (h : l ++ a :: rest = l' ++ a :: rest') : l = l' ∧ rest = rest' := by
  induction l generalizing l' with
  | nil =>
    cases l' with
    | nil => exact ⟨rfl, (List.cons.inj h).2⟩
    | cons b l' => exact absurd (List.cons.inj h).1 fun heq => hl' (heq ▸ mem_cons_self)
  | cons b l ih =>
    cases l' with
    | nil => exact absurd (List.cons.inj h).1 fun heq => hl (heq ▸ mem_cons_self)
    | cons b' l' =>
      obtain ⟨rfl, hmore⟩ := List.cons.inj h
      obtain ⟨rfl, hrest⟩ := ih (fun hmem => hl (mem_cons_of_mem b hmem)) (fun hmem => hl' (mem_cons_of_mem b hmem)) hmore
      exact ⟨rfl, hrest⟩

def LaysOut (block : Line) (items : List (Record ⊕ Member)) : Prop :=
  ∃ tokens, tokenize (String.ofList block) "" = .ok tokens ∧ tokens.map Token.word = items.flatMap itemWords ++ [endWord]

/-- Its lines end at line feeds, each is a line of the contract as it stands, and none that begins with
the word `record` has a part in a comment over several lines. -/
structure WholeLines (alnum : Char → Bool) (owner : List (Line × Inferred)) (block : Line) : Prop where
  breaks : PlainBreaks block
  written : blockLines owner block = splitlines block
  records : RecordsWhole alnum false (splitlines block)

private theorem Exportable.record_mem (h : Exportable name point.scope items) {w : Word}
    (hw : w ∈ (items.filterMap Sum.getLeft?).flatMap Record.words) : w ≠ ident "contract" ∧ opensMember w = false := by
  obtain ⟨r, hr, hw⟩ := mem_flatMap.mp hw
  obtain ⟨item, hitem, hleft⟩ := mem_filterMap.mp hr
  obtain rfl : item = .inl r := by
    cases item with
    | inl r' =>
      cases hleft
      rfl
    | inr m => cases hleft
  obtain ⟨rest, hwords, hquiet⟩ := h.record_words hitem
  rw [hwords, mem_cons] at hw
  obtain rfl | hw := hw
  · decide
  · exact (hquiet w hw).2

private theorem Exportable.no_contract (h : Exportable name point.scope items) : ident "contract" ∉ items.flatMap itemWords := by
  intro hmem
  obtain ⟨item, hitem, hw⟩ := mem_flatMap.mp hmem
  cases item with
  | inl r =>
    have hr : r ∈ items.filterMap Sum.getLeft? := mem_filterMap.mpr ⟨_, hitem, rfl⟩
    exact (h.record_mem (mem_flatMap.mpr ⟨r, hr, hw⟩)).1 rfl
  | inr m =>
    have hm : m ∈ items.filterMap Sum.getRight? := mem_filterMap.mpr ⟨_, hitem, rfl⟩
    exact (member_declares_nothing (h.members m hm).1 (h.member_valid hm) h.recordNames _ hw).2 rfl

private theorem nameable_of_faithful (hused : ∃ m ∈ items.filterMap Sum.getRight?, m.scope = [])
    (hfaithful : Faithful alnum header path name point owner items) : point.scope = "" ∨ IsName point.scope := by
  by_cases hempty : point.scope = ""
  · exact .inl hempty
  · obtain ⟨m, hm, hbare⟩ := hused
    obtain ⟨parsed, hparsed, hwritten⟩ := hfaithful
    obtain ⟨decls, -, hspelled, rfl⟩ := words_of_parse hparsed
    have hcontracts := congrArg SynFile.contracts hwritten
    have hin : (inherited point.scope m).unplaced ∈
        ((Parser.declared { stem := name } decls).written.contracts.flatMap Contract.members) := by
      rw [hcontracts, declaredContract, SynFile.written, map_singleton, flatMap_singleton]
      exact mem_map_of_mem (mem_map_of_mem hm)
    obtain ⟨c, hc, hmember⟩ := mem_flatMap.mp hin
    obtain ⟨c, hdeclared, rfl⟩ := mem_map.mp hc
    obtain ⟨m', hm', hsame⟩ := mem_map.mp hmember
    obtain ⟨decl, hdecl, hright⟩ := mem_filterMap.mp hdeclared
    obtain rfl : decl = .inr c := by
      cases decl with
      | inl r => cases hright
      | inr c' =>
        cases hright
        rfl
    have hscope : m'.scope = [point.scope] := by
      have hkeeps (m : Member) : m.unplaced.scope = m.scope := by cases m <;> rfl
      rw [← hkeeps m', hsame, hkeeps, inherited, hbare, if_pos (by simpa using hempty)]
      cases m <;> rfl
    exact .inr (((hspelled _ hdecl).2 m' hm').2.1 point.scope (by rw [hscope]; exact mem_singleton_self _))

theorem kept_of_faithful (h : Exportable name point.scope items)
    (hgated : ∀ line ∈ memberLines alnum point.scope (blockLines owner point.block), line.1 = true → IsName point.scope)
    (howner : ∀ entry ∈ owner, '\n' ∉ rendered entry.2) (hlaid : LaysOut point.block items)
    (hwhole : WholeLines alnum owner point.block) (hfaithful : Faithful alnum header path name point owner items) :
    Kept alnum point.scope items (blockLines owner point.block) := by
  obtain ⟨parsed, hparsed, hwritten⟩ := hfaithful
  obtain ⟨decls, hlex, -, rfl⟩ := words_of_parse hparsed
  have hrecords : (decls.filterMap Sum.getLeft?).map Record.unplaced = (items.filterMap Sum.getLeft?).map Record.unplaced :=
    congrArg SynFile.records hwritten
  have hcontracts : (decls.filterMap Sum.getRight?).map Contract.unplaced = _ := congrArg SynFile.contracts hwritten
  obtain ⟨c, hone, hc⟩ := map_eq_singleton_iff.mp hcontracts
  have hblock : lexLines false (blockLines owner point.block) = some (items.flatMap itemWords, false) := by
    rw [hwhole.written, lexLines_splitlines hwhole.breaks, ← tokenize_iff.mp hlaid, String.toList_ofList]
  have hread := hwhole.records
  rw [← hwhole.written] at hread
  obtain ⟨read, marks, hread, hrecordLines, hmemberLines, hmarks, hbegin⟩ :=
    @separated alnum point.scope _ (newline_not_mem_blockLines howner point.block) _ _ _ hread hblock
  have hnewline (line : Bool × Line) (hline : line ∈ memberLines alnum point.scope (blockLines owner point.block))
      (hgate : line.1 = true) : '\n' ∉ point.scope.toList := newline_not_mem_name (hgated line hline hgate)
  rw [lexFrom_contractSource h.named hnewline howner, lexLines_append, hrecordLines, bind_some, lexLines,
    lexFrom_contractLine h.named, bind_some, lexLines_append, lexLines_gated hgated, hmemberLines] at hlex
  have hwords : (read.filter Prod.fst).flatMap Prod.snd ++ ident "contract" :: (ident name :: mark openBrace ::
      (expand (gateWords [point.scope]) marks ++ [mark closeBrace])) = decls.flatMap Parser.declWords :=
    (Prod.mk.inj (Option.some.inj hlex)).1
  -- the contract stands behind its records, as in what is declared
  have hends : decls.flatMap Parser.declWords = ((read.filter Prod.fst).flatMap Prod.snd ++ ident "contract" ::
      ident name :: mark openBrace :: expand (gateWords [point.scope]) marks) ++ [mark closeBrace] := by
    rw [← hwords, append_assoc]
    rfl
  have hsame : (read.filter Prod.fst).flatMap Prod.snd ++ ident "contract" :: (ident name :: mark openBrace ::
      (expand (gateWords [point.scope]) marks ++ [mark closeBrace])) =
        (items.filterMap Sum.getLeft?).flatMap Record.words ++ ident "contract" :: (ident name :: mark openBrace ::
          (((items.filterMap Sum.getRight?).map (inherited point.scope)).flatMap Member.words ++ [mark closeBrace])) := by
    rw [hwords, contract_last hone hends, flatMap_words_unplaced record_words_unplaced hrecords, ← contract_words_unplaced c, hc,
      contract_words_unplaced]
    rfl
  have hsub : ∀ w ∈ (read.filter Prod.fst).flatMap Prod.snd, w ∈ items.flatMap itemWords := by
    intro w hw
    obtain ⟨line, hline, hw⟩ := mem_flatMap.mp hw
    rw [← hread]
    exact mem_flatMap.mpr ⟨line, mem_of_mem_filter hline, hw⟩
  obtain ⟨hrecordWords, hmemberWords⟩ := append_cons_inj (fun hmem => h.no_contract (hsub _ hmem))
    (fun hmem => (h.record_mem hmem).1 rfl) hsame
  have hexpanded : expand (gateWords [point.scope]) marks =
      expand (gateWords [point.scope]) ((items.filterMap Sum.getRight?).flatMap (marked point.scope)) := by
    rw [expand_flatMap_marked]
    exact append_cancel_right (List.cons.inj (List.cons.inj hmemberWords).2).2
  -- so nothing of a record is left to the other lines
  have hbegins : ∀ line ∈ read, line.1 = true → ∃ rest, line.2 = ident "record" :: rest ∧ ∀ w ∈ rest, opensMember w = false := by
    intro line hline hrecord
    obtain ⟨rest, hrest⟩ := hbegin line hline hrecord
    refine ⟨rest, hrest, fun w hw => (h.record_mem (w := w) ?_).2⟩
    rw [← hrecordWords]
    refine mem_flatMap.mpr ⟨line, mem_filter.mpr ⟨hline, hrecord⟩, ?_⟩
    rw [hrest]
    exact mem_cons_of_mem _ hw
  have hapart := (part_lines hbegins false).2
  rw [hread, h.part_items, h.part_items, if_pos rfl, hrecordWords, if_neg Bool.false_ne_true, ← hmarks] at hapart
  have hmarked := marks_eq h (List.Subset.refl _) hexpanded (hapart rfl).symm
  exact ⟨by rw [hrecordLines, hrecordWords], by rw [hmemberLines, hmarked]⟩

/-- Whatever way a block is laid out in, the contract generated from it is its own where the scope can be
named in a gate and the lines keep the records and the members; and of blocks of whole lines, only there. -/
theorem faithful_iff_kept (path : String) (h : Exportable name point.scope items)
    (howner : ∀ entry ∈ owner, '\n' ∉ rendered entry.2) (hlaid : LaysOut point.block items) :
    (Nameable alnum point.scope items (blockLines owner point.block) ∧ Kept alnum point.scope items (blockLines owner point.block) →
      Faithful alnum header path name point owner items) ∧
    (WholeLines alnum owner point.block →
      ((∀ line ∈ memberLines alnum point.scope (blockLines owner point.block), line.1 = true → IsName point.scope) ∨
        ∃ m ∈ items.filterMap Sum.getRight?, m.scope = []) →
      (Faithful alnum header path name point owner items ↔
        Nameable alnum point.scope items (blockLines owner point.block) ∧
          Kept alnum point.scope items (blockLines owner point.block))) := by
  have hwhenever : Nameable alnum point.scope items (blockLines owner point.block) ∧
      Kept alnum point.scope items (blockLines owner point.block) → Faithful alnum header path name point owner items :=
    fun ⟨hscope, hkept⟩ => faithful_of_kept path h hscope howner hkept
  refine ⟨hwhenever, fun hwhole hused => ⟨fun hfaithful => ?_, hwhenever⟩⟩
  have hgated : ∀ line ∈ memberLines alnum point.scope (blockLines owner point.block), line.1 = true → IsName point.scope := by
    obtain hgated | hbare := hused
    · exact hgated
    · exact isName_of_gated (nameable_of_faithful hbare hfaithful) _
  exact ⟨.inl hgated, kept_of_faithful h hgated howner hlaid hwhole hfaithful⟩

end

def yard (block : String) : Point where
  owner := lit "yard"
  ownerLine := by decide
  scope := "admin"
  block := lit block

def yardItems : List (Record ⊕ Member) := [.inr (.prop { type := "int", name := "a" }), .inr (.prop { type := "int", name := "b" })]

private theorem exportable_yard : Exportable "Yard" "admin" yardItems where
  records := forall_mem_nil _
  members := by
    have htype : IsType "int" := .inl (by decide)
    have hprop (name : String) (hname : IsName name) :
        (Member.prop { type := "int", name := name }).Spelled ∧
          (Member.prop { type := "int", name := name }).readAs = .prop { type := "int", name := name } :=
      ⟨⟨hname, forall_mem_nil _, nodup_nil, htype⟩, rfl⟩
    exact forall_mem_cons.mpr ⟨hprop "a" ⟨by decide, by decide⟩,
      forall_mem_singleton.mpr (hprop "b" ⟨by decide, by decide⟩)⟩
  named := ⟨by decide, by decide⟩
  valid := (@validate_ok _ "").mp (by decide)

private theorem laysOut_yard : LaysOut (lit "prop int a\nprop int b") yardItems ∧ LaysOut (lit "prop int a prop int b") yardItems :=
  ⟨tokenize_iff.mpr (by decide +kernel), tokenize_iff.mpr (by decide +kernel)⟩

/-- A line for each. -/
theorem faithful_iff_kept_yard :
    (Nameable Char.isAlphanum "admin" yardItems (blockLines [] (lit "prop int a\nprop int b")) ∧
        Kept Char.isAlphanum "admin" yardItems (blockLines [] (lit "prop int a\nprop int b")) →
      Faithful Char.isAlphanum [] "Yard.syn" "Yard" (yard "prop int a\nprop int b") [] yardItems) ∧
    (WholeLines Char.isAlphanum [] (lit "prop int a\nprop int b") →
      ((∀ line ∈ memberLines Char.isAlphanum "admin" (blockLines [] (lit "prop int a\nprop int b")),
          line.1 = true → IsName "admin") ∨ ∃ m ∈ yardItems.filterMap Sum.getRight?, m.scope = []) →
      (Faithful Char.isAlphanum [] "Yard.syn" "Yard" (yard "prop int a\nprop int b") [] yardItems ↔
        Nameable Char.isAlphanum "admin" yardItems (blockLines [] (lit "prop int a\nprop int b")) ∧
          Kept Char.isAlphanum "admin" yardItems (blockLines [] (lit "prop int a\nprop int b")))) :=
  @faithful_iff_kept Char.isAlphanum [] "Yard" (yard "prop int a\nprop int b") [] yardItems "Yard.syn" exportable_yard
    (forall_mem_nil _) laysOut_yard.1

/-- Two on one line: the second is left without a gate. -/
theorem second_ungated :
    Exportable "Yard" "admin" yardItems ∧ LaysOut (yard "prop int a prop int b").block yardItems ∧
      ¬ Faithful Char.isAlphanum [] "Yard.syn" "Yard" (yard "prop int a prop int b") [] yardItems := by
  refine ⟨exportable_yard, laysOut_yard.2, fun hfaithful => ?_⟩
  have hunbroken : (lit "prop int a prop int b").all (!YamlEdit.endsLine ·) = true := by decide +kernel
  have hbreaks : PlainBreaks (lit "prop int a prop int b") := fun c hc hends =>
    absurd hends (Bool.eq_false_iff.mp (eq_false_of_all hunbroken c hc))
  have hwhole : WholeLines Char.isAlphanum [] (yard "prop int a prop int b").block :=
    ⟨hbreaks, by decide +kernel, ⟨_, rfl, by decide +kernel, trivial⟩⟩
  have hkept : Kept Char.isAlphanum "admin" yardItems (blockLines [] (lit "prop int a prop int b")) :=
    @kept_of_faithful _ _ _ _ (yard "prop int a prop int b") _ _ exportable_yard
      (isName_of_gated (.inr ⟨by decide, by decide⟩) _)
      (forall_mem_nil _) laysOut_yard.2 hwhole hfaithful
  exact absurd hkept.members (by decide +kernel)

end SynQt.ContractGen
