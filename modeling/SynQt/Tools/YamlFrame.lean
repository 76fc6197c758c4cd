import SynQt.Tools.YamlSpans

/-! What each edit of a project file leaves as it was. -/
namespace SynQt.YamlEdit
open Lib List Bool

private theorem isBlank_iff (line : Str) : isBlank line = true ↔ ∀ c ∈ line, isSpace c = true := by
  rw [isBlank, strip, trim, List.isEmpty_iff, List.rdropWhile_eq_nil_iff]
  constructor
  · intro h c hc
    rw [← List.takeWhile_append_dropWhile (p := isSpace) (l := line), List.mem_append] at hc
    exact hc.elim (fun hfront => List.mem_takeWhile_imp hfront) (h c)
  · intro h c hc
    exact h c ((List.dropWhile_suffix _).subset hc)

private theorem spaces_isSpace (n : Nat) : ∀ c ∈ spaces n, isSpace c = true := by
  intro c hc
  rw [eq_of_mem_replicate hc]
  decide

private theorem isBlank_spaces_append (n : Nat) (line : Str) : isBlank (spaces n ++ line) = isBlank line := by
  rw [Bool.eq_iff_iff, isBlank_iff, isBlank_iff, List.forall_mem_append]
  exact ⟨And.right, fun h => ⟨spaces_isSpace n, h⟩⟩

private theorem spaces_add (m n : Nat) : spaces (m + n) = spaces m ++ spaces n := replicate_add ..

private theorem le_indentOf_iff (indent : Nat) (line : Str) :
    indent ≤ indentOf line ↔ ∃ body, line = spaces indent ++ body := by
  constructor
  · intro h
    have hfront : line.takeWhile (· == ' ') = spaces (indentOf line) := by
      refine eq_replicate_of_mem fun c hc => ?_
      simpa using mem_takeWhile_imp hc
    refine ⟨spaces (indentOf line - indent) ++ line.dropWhile (· == ' '), ?_⟩
    rw [← append_assoc, ← spaces_add, Nat.add_sub_cancel' h, ← hfront, takeWhile_append_dropWhile]
  · rintro ⟨body, rfl⟩
    have hspaces : ∀ c ∈ spaces indent, (c == ' ') = true := by
      intro c hc
      rw [eq_of_mem_replicate hc]
      rfl
    rw [indentOf, takeWhile_append_of_pos hspaces, length_append, spaces, length_replicate]
    exact Nat.le_add_right _ _

/-- Where a line stands, the way to column zero and back leaves it: an empty line, a blank one of a
list at column zero, and any other that is indented as far as its item. -/
def KeepsPlace (indent : Nat) (line : Str) : Prop :=
  if isBlank line then line = [] ∨ indent = 0 else indent ≤ indentOf line
deriving Decidable

private theorem lstrip_spaces_append (n : Nat) (line : Str) : lstrip (spaces n ++ line) = lstrip line := by
  rw [lstrip, dropWhile_append_of_pos (spaces_isSpace n)]
  rfl

/-- A line whose dash stands right at the indent opens an item there. -/
theorem opensAt_of_dash {indent : Nat} {body : Str} (h : dash.isPrefixOf body = true) :
    opensAt indent (spaces indent ++ body) = true := by
  obtain ⟨rest, rfl⟩ := isPrefixOf_iff_prefix.mp h
  have hstrip : lstrip (dash ++ rest) = dash ++ rest := rfl
  have hblank : isBlank (dash ++ rest) = false := by
    rw [← not_eq_true, isBlank_iff]
    intro hall
    have hdash := hall '-' (by simp [dash])
    revert hdash
    decide
  have hindent : indentOf (spaces indent ++ (dash ++ rest)) = indent := by
    have hspaces : ∀ c ∈ spaces indent, (c == ' ') = true := by
      intro c hc
      rw [eq_of_mem_replicate hc]
      rfl
    rw [indentOf, takeWhile_append_of_pos hspaces]
    simp [dash, spaces]
  simp only [opensAt, isSkippable, isBlank_spaces_append, hblank, isComment, opensItem, lstrip_spaces_append, hstrip, hindent]
  simp [dash, List.isPrefixOf]

private theorem isBlank_of_indentOf {line : Str} (h : line.length ≤ indentOf line) : isBlank line = true := by
  obtain ⟨body, hline⟩ := (le_indentOf_iff line.length line).mp h
  have hbody : body = [] := by
    have hlength := congrArg List.length hline
    rw [length_append, spaces, length_replicate] at hlength
    exact length_eq_zero_iff.mp (by omega)
  rw [isBlank_iff, hline, hbody, append_nil]
  exact spaces_isSpace _

private theorem isBlank_reindent (indent : Nat) (line : Str) : isBlank (reindent indent line) = isBlank line := by
  unfold reindent
  split
  · exact isBlank_spaces_append indent line
  · rfl

private theorem drop_spaces (n : Nat) (line : Str) : (spaces n ++ line).drop n = line := by simp [spaces]

private theorem mem_dash : '-' ∈ dash := by simp [dash]

private theorem not_blank_of_dash {line : Str} (h : '-' ∈ line) : isBlank line = false := by
  rw [← not_eq_true, isBlank_iff]
  intro hall
  exact absurd (hall '-' h) (by decide)

/-- What stands at the indent of a line that begins with it. -/
theorem le_indentOf_iff_drop (indent : Nat) (line : Str) :
    indent ≤ indentOf line ↔ line = spaces indent ++ line.drop indent := by
  rw [le_indentOf_iff]
  constructor
  · rintro ⟨body, rfl⟩
    rw [drop_spaces]
  · exact fun h => ⟨_, h⟩

/-- A line that opens no item comes back as it was exactly where it keeps its place. -/
theorem reindent_deindent_iff {indent : Nat} {line : Str} (h : opensAt indent line = false) :
    reindent indent (deindent indent line) = line ↔ KeepsPlace indent line := by
  have hsame := isBlank_reindent indent (deindent indent line)
  have hput (hout : isBlank (deindent indent line) = false) :
      reindent indent (deindent indent line) = spaces indent ++ deindent indent line := by
    rw [reindent, hout]
    rfl
  by_cases hlong : line.length > indent
  · have hdeindent : deindent indent line =
        if dash.isPrefixOf (line.drop indent) then spaces 2 ++ (line.drop indent).drop 2 else line.drop indent := by
      simp only [deindent, if_pos hlong]
    by_cases hdash : dash.isPrefixOf (line.drop indent) = true
    · -- a dash that is not the item's: lost on the way, and the line has no place to keep
      rw [if_pos hdash] at hdeindent
      obtain ⟨rest, hrest⟩ := isPrefixOf_iff_prefix.mp hdash
      have hmem : '-' ∈ line := (drop_suffix indent line).subset (hrest ▸ mem_append_left rest mem_dash)
      have hblank := not_blank_of_dash hmem
      refine iff_of_false (fun heq => ?_) fun hkeeps => ?_
      · have hout : isBlank (deindent indent line) = false := by rw [← hsame, heq, hblank]
        have hdrop := congrArg (List.drop indent) ((hput hout).symm.trans heq)
        rw [drop_spaces, hdeindent, ← hrest] at hdrop
        simp [spaces, dash] at hdrop
      · rw [KeepsPlace, hblank, if_neg Bool.false_ne_true, le_indentOf_iff_drop] at hkeeps
        rw [hkeeps, opensAt_of_dash hdash] at h
        cases h
    · rw [if_neg hdash] at hdeindent
      by_cases hbody : isBlank (line.drop indent) = true
      · have hout : reindent indent (deindent indent line) = line.drop indent := by
          rw [hdeindent, reindent, hbody]
          rfl
        have hzero : line.drop indent = line ↔ indent = 0 := by
          refine ⟨fun heq => ?_, fun heq => by rw [heq, drop_zero]⟩
          have hlength := congrArg List.length heq
          rw [length_drop] at hlength
          omega
        rw [hout, KeepsPlace, hzero]
        cases hblank : isBlank line with
        | true =>
          have hne : line ≠ [] := ne_nil_of_length_pos (by omega)
          simp [hne]
        | false =>
          rw [if_neg Bool.false_ne_true]
          refine iff_of_false (fun heq => ?_) fun hle => ?_
          · rw [heq, drop_zero, hblank] at hbody
            cases hbody
          · rw [(le_indentOf_iff_drop indent line).mp hle, isBlank_spaces_append, hbody] at hblank
            cases hblank
      · rw [not_eq_true] at hbody
        have hblank : isBlank line = false := by
          rw [← not_eq_true, isBlank_iff] at hbody ⊢
          exact fun hall => hbody fun c hc => hall c ((drop_suffix indent line).subset hc)
        rw [hput (hdeindent ▸ hbody), hdeindent, KeepsPlace, hblank, if_neg Bool.false_ne_true, le_indentOf_iff_drop]
        exact eq_comm
  · cases hblank : isBlank line with
    | true =>
      have hstrip : strip line = [] := isEmpty_iff.mp hblank
      have hout : reindent indent (deindent indent line) = [] := by
        simp only [deindent, if_neg hlong, hstrip]
        rfl
      rw [hout, KeepsPlace, hblank, if_pos rfl]
      refine ⟨fun heq => .inl heq.symm, fun hkeeps => ?_⟩
      rcases hkeeps with rfl | rfl
      · rfl
      · exact (length_eq_zero_iff.mp (by omega)).symm
    | false =>
      refine iff_of_false (fun heq => ?_) fun hkeeps => ?_
      · have hout : isBlank (deindent indent line) = false := by rw [← hsame, heq, hblank]
        have hne : deindent indent line ≠ [] := by
          intro hnil
          rw [hnil] at hout
          cases hout
        have hlength := congrArg List.length ((hput hout).symm.trans heq)
        rw [length_append, spaces, length_replicate] at hlength
        have hpos := length_pos_of_ne_nil hne
        omega
      · rw [KeepsPlace, hblank, if_neg Bool.false_ne_true] at hkeeps
        rw [isBlank_of_indentOf (by omega)] at hblank
        cases hblank

/-- An item whose dash stands right at its indent and whose other lines keep their places. -/
def Aligned (indent : Nat) : List Str → Prop
  | [] => True
  | first :: rest => dash.isPrefixOf (first.drop indent) = true ∧ ∀ line ∈ rest, KeepsPlace indent line

private theorem map_eq_self_iff {α : Type} {f : α → α} {l : List α} : l.map f = l ↔ ∀ a ∈ l, f a = a := by
  induction l with
  | nil => simp
  | cons a l ih => rw [map_cons, List.cons.injEq, ih, forall_mem_cons]

/-- An item's lines, taken to column zero and back, are as they were exactly where it is aligned. -/
theorem reindented_deindented_iff {yaml : Yaml} {lines span : List Str} {listPath name : Str}
    {head indent start : Nat} (h : ItemSpan yaml lines listPath name head indent start span) :
    reindented (deindented span indent) indent = span ↔ Aligned indent span := by
  obtain ⟨first, rest, rfl, hopens, halone⟩ := h.opens
  have hindent : indentOf first = indent := by
    have hplace := (and_eq_true_iff.mp (and_eq_true_iff.mp hopens).2).1
    simpa using hplace
  have hfirst := (le_indentOf_iff_drop indent first).mp (Nat.le_of_eq hindent.symm)
  have hrest : (rest.map (deindent indent)).map (reindent indent) = rest ↔ ∀ line ∈ rest, KeepsPlace indent line := by
    rw [map_map, map_eq_self_iff]
    exact forall₂_congr fun line hline => reindent_deindent_iff (halone line hline)
  have hopening : spaces indent ++ dash ++ (deindent indent first).drop 2 = first ↔
      dash.isPrefixOf (first.drop indent) = true := by
    rw [ isPrefixOf_iff_prefix]
    constructor
    · intro heq
      rw [← heq, append_assoc, drop_spaces]
      exact prefix_append _ _
    · rintro ⟨body, hbody⟩
      have hlong : first.length > indent := by
        have hlength := congrArg List.length hbody
        rw [length_append, length_drop] at hlength
        simp only [dash, length_cons, length_nil] at hlength
        omega
      have hdash : dash.isPrefixOf (first.drop indent) = true := isPrefixOf_iff_prefix.mpr ⟨body, hbody⟩
      have hout : deindent indent first = spaces 2 ++ (first.drop indent).drop 2 := by
        simp only [deindent, if_pos hlong, if_pos hdash]
      rw [hout, drop_spaces, ← hbody, append_assoc]
      rw [← hbody] at hfirst
      exact hfirst.symm
  rw [deindented, map_cons, reindented, List.cons.injEq, hrest, hopening]
  rfl

end SynQt.YamlEdit
