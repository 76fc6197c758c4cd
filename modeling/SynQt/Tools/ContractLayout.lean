import SynQt.Tools.ContractGen
import SynQt.Tools.SynRoundTrip

/-! What the generated contract is read as, line by line of the block it is generated from. -/
namespace SynQt.ContractGen
open List hiding filter_map map_map
open Synqtc Option
open YamlEdit (isSpace lit splitlines cutLines strip lstrip rstrip spaces)

def itemWords : Record ⊕ Member → List Word := Sum.elim Record.words Member.words

/-- A member gated with the scope of its point, where it names none of its own. -/
def inherited (scope : String) (m : Member) : Member :=
  if m.scope.isEmpty && !scope.isEmpty then m.withScope [scope] else m

def declaredContract (name scope : String) (items : List (Record ⊕ Member)) : SynFile where
  stem := name
  records := items.filterMap Sum.getLeft?
  contracts := [{ name := name, members := (items.filterMap Sum.getRight?).map (inherited scope) }]

structure Exportable (name scope : String) (items : List (Record ⊕ Member)) : Prop where
  records : ∀ r ∈ items.filterMap Sum.getLeft?, r.Spelled
  members : ∀ m ∈ items.filterMap Sum.getRight?, m.Spelled ∧ m.readAs = m
  named : IsName name
  valid : (declaredContract name scope items).Valid

section
variable (alnum : Char → Bool)

def blockLines (owner : List (Line × Inferred)) (block : Line) : List Line :=
  (splitlines block).map fun line => if owner.isEmpty then line else writtenOut owner line

def recordLines (lines : List Line) : List Line := (lines.filter (isRecord alnum)).map strip

def memberLines (scope : String) (lines : List Line) : List (Bool × Line) :=
  (lines.filter (!isRecord alnum ·)).map fun line => (inherits alnum scope line, strip line)

end

/-- The words of lines, with `none` for every scope that is written outside of a comment. -/
def lexMarked (isOpen : Bool) : List (Bool × Line) → Option (List (Option Word) × Bool)
  | [] => some ([], isOpen)
  | (gated, line) :: lines =>
    (lexFrom isOpen 0 line).bind fun read =>
      (lexMarked read.2 lines).map fun later =>
        ((if gated && !isOpen then [none] else []) ++ (read.1.map some ++ later.1), later.2)

def expand (gate : List Word) (marks : List (Option Word)) : List Word :=
  marks.flatMap fun | none => gate | some w => [w]

/-- The words of a member, with the mark it should have. -/
def marked (scope : String) (m : Member) : List (Option Word) :=
  (if m.scope.isEmpty && !scope.isEmpty then [none] else []) ++ m.words.map some

/-- The lines that begin with the word `record` are the records, and of the other lines those that
the scope is written on are the ones a member with no gate begins. -/
structure Kept (alnum : Char → Bool) (scope : String) (items : List (Record ⊕ Member)) (lines : List Line) : Prop where
  records : lexLines false (recordLines alnum lines) = some ((items.filterMap Sum.getLeft?).flatMap Record.words, false)
  members : lexMarked false (memberLines alnum scope lines) =
    some ((items.filterMap Sum.getRight?).flatMap (marked scope), false)

theorem not_mem_identifier {name : String} (hname : identifier name.toList = true) {c : Char} (hc : isIdentChar c = false) :
    c ∉ name.toList := by
  intro hmem
  cases hchars : name.toList with
  | nil =>
    rw [hchars] at hmem
    cases hmem
  | cons d word =>
    rw [hchars] at hname hmem
    obtain ⟨hstart, hword⟩ := Bool.and_eq_true_iff.mp hname
    obtain rfl | hmem := mem_cons.mp hmem
    · rw [isIdentChar, hstart] at hc
      cases hc
    · rw [all_eq_true.mp hword c hmem] at hc
      cases hc

private theorem strip_sublist (line : Line) : (strip line).Sublist line :=
  ( rdropWhile_prefix isSpace _).sublist.trans (dropWhile_sublist isSpace)

private theorem newline_not_mem_cutLines {chars acc : Line} (hacc : '\n' ∉ acc) : ∀ line ∈ cutLines acc chars, '\n' ∉ line := by
  fun_induction cutLines acc chars with
  | case1 acc hempty => exact forall_mem_nil _
  | case2 acc hempty =>
    rw [forall_mem_singleton, mem_reverse]
    exact hacc
  | case3 acc rest ih =>
    rw [forall_mem_cons, mem_reverse]
    exact ⟨hacc, ih not_mem_nil⟩
  | case4 acc c rest hpair hends ih =>
    rw [forall_mem_cons, mem_reverse]
    exact ⟨hacc, ih not_mem_nil⟩
  | case5 acc c rest hpair hends ih =>
    apply ih
    rw [mem_cons, not_or]
    refine ⟨?_, hacc⟩
    rintro rfl
    exact hends (by decide)

private theorem newline_not_mem_splitlines (block : Line) : ∀ line ∈ splitlines block, '\n' ∉ line :=
  newline_not_mem_cutLines not_mem_nil

theorem lexFrom_spaces (n : Nat) (isOpen : Bool) (text : Line) : lexFrom isOpen 0 (spaces n ++ text) = lexFrom isOpen 0 text := by
  apply lexFrom_blanks
  intro c hc
  rw [eq_of_mem_replicate hc]
  rfl

variable {alnum : Char → Bool} {scope : String}

/-- The blanks a line begins with, and the rest of it. -/
theorem indent_lstrip (line : Line) :
    line.take (line.length - (lstrip line).length) = line.takeWhile isSpace ∧ line.takeWhile isSpace ++ lstrip line = line := by
  have hsplit : line.takeWhile isSpace ++ lstrip line = line := takeWhile_append_dropWhile
  have hlength := congrArg List.length hsplit
  rw [length_append] at hlength
  refine ⟨?_, hsplit⟩
  rw [show line.length - (lstrip line).length = (line.takeWhile isSpace).length by omega]
  exact (prefix_iff_eq_take.mp ( takeWhile_prefix isSpace)).symm

section
variable {line : Line} (h : inherits alnum scope line = true)
include h

private theorem strip_ne_nil : strip line ≠ [] := by
  intro hnil
  have hcode : (splitComment line).1 = [] := by
    rw [splitComment, hnil]
    rfl
  rw [inherits, hcode] at h
  simp at h

private theorem lstrip_withInheritedGate :
    lstrip (withInheritedGate alnum line scope) = scopeGate scope ++ lstrip line := by
  rw [withInheritedGate, if_pos h, (indent_lstrip line).1, append_assoc, lstrip,
    dropWhile_append_of_pos fun c hc => mem_takeWhile_imp hc]
  rfl

private theorem strip_withInheritedGate :
    strip (withInheritedGate alnum line scope) = scopeGate scope ++ strip line := by
  have hsome : (lstrip line).reverse.dropWhile isSpace ≠ [] := by
    intro hnil
    apply strip_ne_nil h
    rw [strip, trim, List.rdropWhile]
    exact congrArg List.reverse hnil
  rw [strip, trim, ← lstrip, lstrip_withInheritedGate h, List.rdropWhile, reverse_append, dropWhile_append,
    if_neg (by simpa using hsome), reverse_append, reverse_reverse]
  rfl

end

private theorem isRecord_withInheritedGate (line : Line) : isRecord alnum (withInheritedGate alnum line scope) = isRecord alnum line := by
  by_cases h : inherits alnum scope line = true
  · have hplain : isRecord alnum line = false := by
      rw [inherits] at h
      simp only [Bool.and_eq_true, Bool.not_eq_true', Bool.or_eq_false_iff] at h
      exact h.2.1.2
    rw [hplain, isRecord, lstrip_withInheritedGate h]
    rfl
  · rw [withInheritedGate, if_neg h]

private theorem scopeGate_append (line : Line) : scopeGate scope ++ line = '<' :: (scope.toList ++ '>' :: ' ' :: line) := by
  simp [scopeGate, lit]

/-- Inside of a comment a scope says nothing that does not close it. -/
theorem lexFrom_gate_open (hcloses : ¬ ['*', '/'] <:+: scope.toList) (line : Line) :
    lexFrom true 0 (scopeGate scope ++ line) = lexFrom true 0 line := by
  have hstep {c : Char} (hc : (c == '*') = false) (text : Line) : lexFrom true 0 (c :: text) = lexFrom true 0 text := by
    rw [lexFrom]
    simp only [hc, Bool.false_and, Bool.false_eq_true, if_false, if_true]
  rw [scopeGate_append, hstep rfl, lexFrom_within hcloses (by simp), hstep rfl, hstep rfl]

private theorem lexFrom_gate (hscope : IsName scope) (isOpen : Bool) (line : Line) :
    lexFrom isOpen 0 (scopeGate scope ++ line) =
      (lexFrom isOpen 0 line).map (prepend (if isOpen then [] else gateWords [scope])) := by
  have hblank : lexFrom false 0 (' ' :: line) = lexFrom false 0 line := lexFrom_spaces 1 false line
  cases isOpen with
  | true =>
    have hcloses : ¬ ['*', '/'] <:+: scope.toList := fun hin =>
      not_mem_identifier hscope.1 (c := '*') (by decide) (hin.subset mem_cons_self)
    rw [lexFrom_gate_open hcloses, if_pos rfl, show prepend [] = id from rfl, map_id_apply]
  | false =>
    have hapart : ∀ c ∈ ('>' :: ' ' :: line).head?, isIdentChar c = false := by
      intro c hc
      cases hc
      decide
    rw [scopeGate_append, lexFrom_mark (by decide), lexFrom_ident hscope.1 hapart, lexFrom_mark (by decide), hblank, map_map,
      map_map]
    rfl

def gatedLine (scope : String) (line : Bool × Line) : Line := if line.1 then scopeGate scope ++ line.2 else line.2

theorem expand_append (gate : List Word) (marks marks' : List (Option Word)) :
    expand gate (marks ++ marks') = expand gate marks ++ expand gate marks' := flatMap_append

theorem expand_words (gate words : List Word) : expand gate (words.map some) = words := by
  rw [expand, flatMap_map]
  exact flatMap_singleton' words

variable {lines : List (Bool × Line)}

theorem lexLines_gated (hscope : ∀ line ∈ lines, line.1 = true → IsName scope) (isOpen : Bool) :
    lexLines isOpen (lines.map (gatedLine scope)) =
      (lexMarked isOpen lines).map fun read => (expand (gateWords [scope]) read.1, read.2) := by
  induction lines generalizing isOpen with
  | nil => rfl
  | cons line lines ih =>
    obtain ⟨hfirst, hrest⟩ := forall_mem_cons.mp hscope
    obtain ⟨gated, text⟩ := line
    have hline : lexFrom isOpen 0 (gatedLine scope (gated, text)) =
        (lexFrom isOpen 0 text).map (prepend (expand (gateWords [scope]) (if gated && !isOpen then [none] else []))) := by
      cases gated with
      | false =>
        rw [gatedLine, Bool.false_and, show expand _ _ = [] from rfl, show prepend [] = id from rfl, map_id_apply]
        rfl
      | true =>
        rw [gatedLine, if_pos rfl, lexFrom_gate (hfirst rfl)]
        cases isOpen <;> rfl
    rw [map_cons, lexLines, lexMarked, hline]
    cases lexFrom isOpen 0 text with
    | none => rfl
    | some read =>
      simp only [map_some, bind_some, prepend, ih hrest]
      cases lexMarked read.2 lines with
      | none => rfl
      | some later =>
        simp only [map_some, expand_append, expand_words, append_assoc, prepend]

/-- Where the scope is written inside of comments alone, the lines are read as they stand. -/
theorem lexLines_commented (hcloses : ¬ ['*', '/'] <:+: scope.toList) {isOpen : Bool}
    {read : List (Option Word) × Bool} (hread : lexMarked isOpen lines = some read) (hplain : none ∉ read.1) :
    lexLines isOpen (lines.map (gatedLine scope)) = some (expand (gateWords [scope]) read.1, read.2) := by
  induction lines generalizing isOpen read with
  | nil =>
    obtain rfl := Option.some.inj hread
    rfl
  | cons line lines ih =>
    obtain ⟨gated, text⟩ := line
    obtain ⟨here, hhere, hmore⟩ := bind_eq_some_iff.mp hread
    obtain ⟨later, hlater, rfl⟩ := map_eq_some_iff.mp hmore
    simp only [mem_append, not_or] at hplain
    have hline : lexFrom isOpen 0 (gatedLine scope (gated, text)) = some here := by
      rw [gatedLine]
      split
      · next hgated =>
        cases isOpen with
        | true => exact (lexFrom_gate_open hcloses text).trans hhere
        | false =>
          obtain rfl : gated = true := hgated
          exact absurd (mem_singleton_self _) hplain.1
      · exact hhere
    have hnone : (if gated && !isOpen then [none] else []) = ([] : List (Option Word)) := by
      split
      · next hboth =>
        rw [if_pos hboth] at hplain
        exact absurd (mem_singleton_self _) hplain.1
      · rfl
    rw [map_cons, lexLines, hline, bind_some, ih hlater hplain.2.2, map_some, hnone, nil_append,
      expand_append, expand_words]
    rfl

private theorem gated_of_mark {isOpen : Bool} {read : List (Option Word) × Bool}
    (hread : lexMarked isOpen lines = some read) (hmark : none ∈ read.1) : ∃ line ∈ lines, line.1 = true := by
  induction lines generalizing isOpen read with
  | nil =>
    obtain rfl := Option.some.inj hread
    cases hmark
  | cons line lines ih =>
    obtain ⟨gated, text⟩ := line
    obtain ⟨here, -, hmore⟩ := bind_eq_some_iff.mp hread
    obtain ⟨later, hlater, rfl⟩ := map_eq_some_iff.mp hmore
    rw [mem_append, mem_append] at hmark
    obtain hmark | hmark | hmark := hmark
    · split at hmark
      · next hboth => exact ⟨_, mem_cons_self, (Bool.and_eq_true_iff.mp hboth).1⟩
      · cases hmark
    · obtain ⟨w, -, hw⟩ := mem_map.mp hmark
      cases hw
    · obtain ⟨line, hline, hgated⟩ := ih hlater hmark
      exact ⟨line, mem_cons_of_mem _ hline, hgated⟩

def contractLine (name : String) : Line := lit "contract " ++ lit name ++ lit " \x7b"

theorem lexFrom_contractLine {name : String} (hname : IsName name) :
    lexFrom false 0 (contractLine name) = some ([ident "contract", ident name, mark openBrace], false) := by
  have hchars : contractLine name = "contract".toList ++ ' ' :: (name.toList ++ ' ' :: openBrace :: []) := by
    simp [contractLine, lit, openBrace]
  have hapart (text : Line) : ∀ c ∈ (' ' :: text).head?, isIdentChar c = false := by
    intro c hc
    cases hc
    decide
  have hblank (text : Line) : lexFrom false 0 (' ' :: text) = lexFrom false 0 text := lexFrom_spaces 1 false text
  rw [hchars, lexFrom_ident (by decide) (hapart _), hblank, lexFrom_ident hname.1 (hapart _), hblank, lexFrom_mark (by decide)]
  rfl

private theorem lexLines_comments (comments : List Comment) : lexLines false (comments.map Comment.line) = some ([], false) := by
  induction comments with
  | nil => rfl
  | cons comment comments ih =>
    rw [map_cons, lexLines, Comment.line, lexFrom_comment comment.oneLine, bind_some, ih]
    rfl

/-- Lines the reader comes out of as it went in, with nothing read. -/
theorem lexLines_silent {lines : List Line} {isOpen : Bool} (h : lexLines isOpen lines = some ([], isOpen)) (later : List Line) :
    lexLines isOpen (lines ++ later) = lexLines isOpen later := by
  rw [lexLines_append, h, bind_some, show prepend [] = id from rfl, map_id_apply]

section
variable {owner : List (Line × Inferred)} (howner : ∀ entry ∈ owner, '\n' ∉ rendered entry.2)
include howner

theorem newline_not_mem_writtenOut {line : Line} (hline : '\n' ∉ line) : '\n' ∉ writtenOut owner line := by
  have hstrip : '\n' ∉ strip line := fun hmem => hline ((strip_sublist line).subset hmem)
  have hcode : '\n' ∉ (splitComment line).1 := by
    rw [splitComment]
    split
    · exact hstrip
    · exact fun hmem => hstrip (take_subset _ _ (( rdropWhile_prefix isSpace _).subset hmem))
  have hcomment : '\n' ∉ (splitComment line).2.2 := by
    rw [splitComment]
    split
    · exact not_mem_nil
    · exact fun hmem => hstrip (drop_subset _ _ hmem)
  have hgate : '\n' ∉ (splitGate (splitComment line).1).1 := by
    unfold splitGate
    split
    · split
      · exact fun hmem => hcode (take_subset _ _ hmem)
      · exact not_mem_nil
    · exact not_mem_nil
  rw [writtenOut]
  split
  · exact hline
  · rename_i member hlookup
    obtain ⟨before, after, howner', -⟩ := lookup_eq_some_iff.mp hlookup
    have hmember : '\n' ∉ rendered member := howner (bareName line, member) (by rw [howner']; simp)
    split
    · exact hline
    · have hwritten : '\n' ∉ (if (splitGate (splitComment line).1).1.isEmpty then rendered member
          else (splitGate (splitComment line).1).1 ++ lit " " ++ rendered member) := by
        split
        · exact hmember
        · simp [hgate, hmember, lit]
      dsimp only
      generalize (if (splitGate (splitComment line).1).1.isEmpty then rendered member
          else (splitGate (splitComment line).1).1 ++ lit " " ++ rendered member) = code at hwritten
      split
      · exact hwritten
      · simp [hwritten, hcomment, spaces, mem_replicate]

theorem newline_not_mem_blockLines (block : Line) : ∀ line ∈ blockLines owner block, '\n' ∉ line := by
  rw [blockLines, List.forall_mem_map]
  intro line hline
  have hplain := newline_not_mem_splitlines block line hline
  split
  · exact hplain
  · exact newline_not_mem_writtenOut howner hplain

end

private theorem newline_not_mem_gatedLine {line : Bool × Line} (hscope : line.1 = true → '\n' ∉ scope.toList) (hline : '\n' ∉ line.2) :
    '\n' ∉ gatedLine scope line := by
  rw [gatedLine]
  split
  · rename_i hgated
    simp [scopeGate, lit, hscope hgated, hline]
  · exact hline

private theorem recordLines_eq (lines : List Line) :
    ((lines.map (withInheritedGate alnum · scope)).filter (isRecord alnum)).map strip = recordLines alnum lines := by
  have hkept : isRecord alnum ∘ (withInheritedGate alnum · scope) = isRecord alnum := funext isRecord_withInheritedGate
  rw [List.filter_map, hkept, List.map_map, recordLines]
  apply map_congr_left
  intro line hline
  have hrecord := (mem_filter.mp hline).2
  have hplain : inherits alnum scope line = false := by simp [inherits, hrecord]
  rw [Function.comp_apply, withInheritedGate, hplain, if_neg Bool.false_ne_true]

private theorem strip_eq_gatedLine (line : Line) :
    strip (withInheritedGate alnum line scope) = gatedLine scope (inherits alnum scope line, strip line) := by
  rw [gatedLine]
  split
  · rename_i h
    exact strip_withInheritedGate h
  · rename_i h
    rw [withInheritedGate, if_neg h]

private theorem lexLines_memberLines (lines : List Line) (isOpen : Bool) :
    lexLines isOpen ((lines.map (withInheritedGate alnum · scope)).filterMap (memberLine alnum)) =
      lexLines isOpen ((memberLines alnum scope lines).map (gatedLine scope)) := by
  induction lines generalizing isOpen with
  | nil => rfl
  | cons line lines ih =>
    rw [map_cons, filterMap_cons, memberLine, isRecord_withInheritedGate, memberLines, filter_cons]
    cases isRecord alnum line with
    | true => exact ih isOpen
    | false =>
      have hmember : lexFrom isOpen 0 (gatedLine scope (inherits alnum scope line, strip line)) =
          lexFrom isOpen 0 (spaces 4 ++ strip (withInheritedGate alnum line scope)) := by
        rw [lexFrom_spaces, strip_eq_gatedLine]
      have hrest (isOpen : Bool) := ih isOpen
      simp only [memberLines] at hrest
      simp only [Bool.false_eq_true, if_false, Bool.not_false, if_true, map_cons, lexLines, hmember, ← hrest]
      split
      · rename_i hblank hnone
        split at hnone
        · cases hnone
        · cases hnone
      · rename_i text hsome
        split at hsome
        · rename_i hempty
          cases hsome
          rw [isEmpty_iff.mp hempty, append_nil]
          rw [lexLines, show lexFrom isOpen 0 (spaces 4) = lexFrom isOpen 0 [] by simpa using lexFrom_spaces 4 isOpen []]
        · cases hsome
          rfl

variable {header : List Comment} {name : String} {point : Point} {owner : List (Line × Inferred)}

def generatedComment (point : Point) : Comment where
  text := lit " Generated by synqt from the connect point '" ++ point.owner ++ lit "' owns in synqt.yaml. Do not edit."
  oneLine := by simp [lit, point.ownerLine]

theorem contractLines_eq :
    contractLines alnum header name point owner true =
      (header ++ [generatedComment point]).map Comment.line ++
        ([] :: ((if (recordLines alnum (blockLines owner point.block)).isEmpty then []
            else recordLines alnum (blockLines owner point.block) ++ [[]]) ++
          contractLine name ::
            ((((blockLines owner point.block).map (withInheritedGate alnum · point.scope)).filterMap
              (memberLine alnum)).rdropWhile List.isEmpty ++ [[closeBrace]]))) := by
  rw [contractLines, ← @recordLines_eq alnum point.scope, blockLines, List.map_map]
  simp only [if_true, append_assoc, map_append, cons_append, nil_append]
  rfl

theorem newline_not_mem_contractLines (hname : IsName name)
    (hscope : ∀ line ∈ memberLines alnum point.scope (blockLines owner point.block), line.1 = true → '\n' ∉ point.scope.toList)
    (howner : ∀ entry ∈ owner, '\n' ∉ rendered entry.2) :
    ∀ line ∈ contractLines alnum header name point owner true, '\n' ∉ line := by
  have hblock := newline_not_mem_blockLines howner point.block
  have hstrip (line : Line) (hline : line ∈ blockLines owner point.block) : '\n' ∉ strip line :=
    fun hmem => hblock line hline ((strip_sublist line).subset hmem)
  have hrecords : ∀ line ∈ recordLines alnum (blockLines owner point.block), '\n' ∉ line := by
    rw [recordLines, List.forall_mem_map]
    exact fun line hline => hstrip line (mem_of_mem_filter hline)
  intro line hline
  rw [contractLines_eq, mem_append, mem_cons, mem_append, mem_cons, mem_append,
    mem_singleton] at hline
  obtain hline | rfl | hline | rfl | hline | rfl := hline
  · obtain ⟨comment, -, rfl⟩ := mem_map.mp hline
    have htext := comment.oneLine
    simp [Comment.line, htext]
  · exact not_mem_nil
  · split at hline
    · cases hline
    · obtain hline | hline := mem_append.mp hline
      · exact hrecords line hline
      · rw [mem_singleton.mp hline]
        exact not_mem_nil
  · have hplain := not_mem_identifier hname.1 (c := '\n') (by decide)
    simp [contractLine, lit, hplain]
  · obtain ⟨written, hwritten, hmember⟩ := mem_filterMap.mp (( rdropWhile_prefix _ _).subset hline)
    obtain ⟨raw, hraw, rfl⟩ := mem_map.mp hwritten
    rw [memberLine, isRecord_withInheritedGate] at hmember
    split at hmember
    · cases hmember
    · rename_i hrecord
      split at hmember
      · cases hmember
        exact not_mem_nil
      · cases hmember
        have hin : (inherits alnum point.scope raw, strip raw) ∈ memberLines alnum point.scope (blockLines owner point.block) :=
          mem_map_of_mem (mem_filter.mpr ⟨hraw, by simpa using hrecord⟩)
        rw [strip_eq_gatedLine, mem_append, not_or]
        refine ⟨fun hmem => ?_, newline_not_mem_gatedLine (hscope _ hin) (hstrip raw hraw)⟩
        cases eq_of_mem_replicate hmem
  · decide

/-- The generated file is read as the records, and inside of the contract the members. -/
theorem lexFrom_contractSource (hname : IsName name)
    (hscope : ∀ line ∈ memberLines alnum point.scope (blockLines owner point.block), line.1 = true → '\n' ∉ point.scope.toList)
    (howner : ∀ entry ∈ owner, '\n' ∉ rendered entry.2) :
    lexFrom false 0 (contractSource alnum header name point owner).toList =
      lexLines false (recordLines alnum (blockLines owner point.block) ++
        contractLine name :: ((memberLines alnum point.scope (blockLines owner point.block)).map (gatedLine point.scope) ++
          [[closeBrace]])) := by
  have hblank (isOpen : Bool) (later : List Line) : lexLines isOpen ([] :: later) = lexLines isOpen later :=
    @lexLines_silent [[]] isOpen rfl later
  rw [contractSource, String.toList_ofList, lexFrom_lines (newline_not_mem_contractLines hname hscope howner),
    contractLines_eq, lexLines_silent (lexLines_comments _), hblank]
  have hmembers (isOpen : Bool) :
      lexLines isOpen ((((blockLines owner point.block).map (withInheritedGate alnum · point.scope)).filterMap
          (memberLine alnum)).rdropWhile List.isEmpty ++ [[closeBrace]]) =
        lexLines isOpen ((memberLines alnum point.scope (blockLines owner point.block)).map (gatedLine point.scope) ++
          [[closeBrace]]) := by
    rw [lexLines_append, lexLines_rdropWhile, lexLines_memberLines, ← lexLines_append]
  have hcontract (isOpen : Bool) := congrArg
    (fun read => (lexFrom isOpen 0 (contractLine name)).bind fun before => (read before.2).map (prepend before.1))
    (funext hmembers)
  split
  · rename_i hempty
    rw [isEmpty_iff.mp hempty, nil_append, nil_append]
    exact hcontract false
  · rw [append_assoc, lexLines_append, lexLines_append]
    congr 1
    funext read
    rw [singleton_append, hblank]
    exact congrArg (Option.map (prepend read.1)) (hcontract read.2)

private theorem expand_marked (m : Member) : expand (gateWords [scope]) (marked scope m) = (inherited scope m).words := by
  rw [marked, inherited, expand_append, expand_words]
  split
  · rename_i hbare
    obtain ⟨hgate, -⟩ := Bool.and_eq_true_iff.mp hbare
    have hwords : m.words = m.bodyWords := by rw [Member.words, gateWords, if_pos hgate, nil_append]
    rw [hwords, Member.words]
    cases m <;> rfl
  · rfl

theorem expand_flatMap_marked (members : List Member) :
    expand (gateWords [scope]) (members.flatMap (marked scope)) = (members.map (inherited scope)).flatMap Member.words := by
  rw [expand, flatMap_assoc, flatMap_map]
  exact flatMap_congr fun m _ => expand_marked m

private theorem inherited_spelled {m : Member} (hm : m.Spelled) (hscope : m.scope = [] → scope = "" ∨ IsName scope) :
    (inherited scope m).Spelled := by
  rw [inherited]
  split
  · rename_i hbare
    obtain ⟨hgate, hsome⟩ := Bool.and_eq_true_iff.mp hbare
    have hname : IsName scope := (hscope (isEmpty_iff.mp hgate)).resolve_left (by simpa using hsome)
    obtain ⟨hcalled, -, -, hbody⟩ := hm
    cases m <;> exact ⟨hcalled, forall_mem_singleton.mpr hname, nodup_cons.mpr ⟨not_mem_nil, nodup_nil⟩, hbody⟩
  · exact hm

private theorem inherited_readAs {m : Member} (hm : m.readAs = m) : (inherited scope m).readAs = inherited scope m := by
  rw [inherited]
  split
  · cases m with
    | slot s =>
      have hs := Member.slot.inj hm
      rw [Slot.readAs] at hs
      split at hs
      · rename_i hmisread
        have hcapture := congrArg Slot.capture hs
        exact absurd (hmisread.1.symm.trans hcapture.symm) Bool.false_ne_true
      · rename_i hclear
        exact congrArg Member.slot (if_neg hclear)
    | _ => rfl
  · exact hm

section
variable {items : List (Record ⊕ Member)}

private theorem wellFormed_declared (h : Exportable name scope items)
    (hscope : ∀ m ∈ items.filterMap Sum.getRight?, m.scope = [] → scope = "" ∨ IsName scope) :
    (declaredContract name scope items).WellFormed where
  records := h.records
  contracts := by
    rw [declaredContract, forall_mem_singleton]
    refine ⟨h.named, ?_⟩
    rw [List.forall_mem_map]
    exact fun m hm => inherited_spelled (h.members m hm).1 (hscope m hm)
  valid _ := validate_ok.mpr h.valid

private theorem declared_readAs (h : Exportable name scope items) :
    (declaredContract name scope items).readAs = declaredContract name scope items := by
  rw [declaredContract, SynFile.readAs, map_singleton, Contract.readAs, List.map_map]
  congr 3
  exact map_congr_left fun m hm => inherited_readAs (h.members m hm).2

private theorem declared_words :
    (declaredContract name scope items).words =
      (items.filterMap Sum.getLeft?).flatMap Record.words ++ ([ident "contract", ident name, mark openBrace] ++
        (expand (gateWords [scope]) ((items.filterMap Sum.getRight?).flatMap (marked scope)) ++ [mark closeBrace])) := by
  rw [expand_flatMap_marked, declaredContract, SynFile.words, flatMap_singleton, Contract.words]
  rfl

theorem isName_of_gated (hscope : scope = "" ∨ IsName scope) (lines : List Line) :
    ∀ line ∈ memberLines alnum scope lines, line.1 = true → IsName scope := by
  rw [memberLines, List.forall_mem_map]
  intro line _ hgated
  apply hscope.resolve_left
  rintro rfl
  cases hgated

/-- The contract generated from a block is read as the records and the members of the block, each
with its own gate or gated with the point's scope. -/
def Faithful (alnum : Char → Bool) (header : List Comment) (path name : String) (point : Point)
    (owner : List (Line × Inferred)) (items : List (Record ⊕ Member)) : Prop :=
  ∃ parsed, parseText (contractSource alnum header name point owner) path name = .ok parsed ∧
    parsed.written = (declaredContract name point.scope items).written

/-- The scope can be named in a gate, or no line is written on with it; or no member takes it, and inside of a comment
it does no harm. -/
def Nameable (alnum : Char → Bool) (scope : String) (items : List (Record ⊕ Member)) (lines : List Line) : Prop :=
  (∀ line ∈ memberLines alnum scope lines, line.1 = true → IsName scope) ∨
    (∀ m ∈ items.filterMap Sum.getRight?, m.scope ≠ []) ∧ ¬ ['*', '/'] <:+: scope.toList ∧ '\n' ∉ scope.toList

theorem newline_not_mem_name {name : String} (h : IsName name) : '\n' ∉ name.toList := not_mem_identifier h.1 (by decide)

theorem faithful_of_kept (path : String) (h : Exportable name point.scope items)
    (hscope : Nameable alnum point.scope items (blockLines owner point.block)) (howner : ∀ entry ∈ owner, '\n' ∉ rendered entry.2)
    (hkept : Kept alnum point.scope items (blockLines owner point.block)) :
    Faithful alnum header path name point owner items := by
  obtain ⟨hnewline, hused, hmembers⟩ : (∀ line ∈ memberLines alnum point.scope (blockLines owner point.block), line.1 = true →
        '\n' ∉ point.scope.toList) ∧
      (∀ m ∈ items.filterMap Sum.getRight?, m.scope = [] → point.scope = "" ∨ IsName point.scope) ∧
      lexLines false ((memberLines alnum point.scope (blockLines owner point.block)).map (gatedLine point.scope)) =
        some (expand (gateWords [point.scope]) ((items.filterMap Sum.getRight?).flatMap (marked point.scope)), false) := by
    obtain hgated | ⟨hall, hcloses, hnewline⟩ := hscope
    · refine ⟨fun line hline hgate => newline_not_mem_name (hgated line hline hgate), fun m hm hbare => ?_, ?_⟩
      · by_cases hempty : point.scope = ""
        · exact .inl hempty
        · -- the mark of a member without a gate is that of a line
          have hmark : none ∈ (items.filterMap Sum.getRight?).flatMap (marked point.scope) :=
            mem_flatMap.mpr ⟨m, hm, by simp [marked, hbare, hempty]⟩
          obtain ⟨line, hline, hgate⟩ := gated_of_mark hkept.members hmark
          exact .inr (hgated line hline hgate)
      · rw [lexLines_gated hgated, hkept.members, map_some]
    · refine ⟨fun _ _ _ => hnewline, fun m hm hbare => absurd hbare (hall m hm), lexLines_commented hcloses hkept.members ?_⟩
      rw [mem_flatMap]
      rintro ⟨m, hm, hmark⟩
      simp [marked, hall m hm] at hmark
  have hread : lexFrom false 0 (contractSource alnum header name point owner).toList =
      some ((declaredContract name point.scope items).words, false) := by
    rw [lexFrom_contractSource h.named hnewline howner, lexLines_append, hkept.records, bind_some, lexLines,
      lexFrom_contractLine h.named, bind_some, lexLines_append, hmembers, declared_words]
    rfl
  obtain ⟨parsed, hparsed, hwritten⟩ := parseText_words (wellFormed_declared h hused) ((@tokenize_iff _ path _).mpr hread)
  exact ⟨parsed, hparsed, by rw [hwritten, declared_readAs h]⟩

end
end SynQt.ContractGen
