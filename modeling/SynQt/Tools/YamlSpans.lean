import SynQt.Lib.Reading
import SynQt.Tools.YamlEdit

/-! The spans an edit finds in a text: the lines of a key, and the lines of a list's item. -/
namespace SynQt.YamlEdit
open Lib List
variable {lines : List Str} {start stop : Nat}

theorem take_slice_drop (lines : List Str) (h : start ≤ stop) :
    lines.take start ++ slice lines start stop ++ lines.drop stop = lines := by
  have hfront : lines.take start = (lines.take stop).take start := by rw [take_take, Nat.min_eq_left h]
  rw [hfront, slice, take_append_drop, take_append_drop]

theorem take_insert_drop (lines : List Str) (place : Nat) : lines.take place ++ [] ++ lines.drop place = lines := by
  rw [append_nil, take_append_drop]

private theorem lineAt_eq (h : start < lines.length) : lineAt lines start = lines[start] := by
  simp [lineAt, h]

theorem eq_take_cons_drop (h : start < lines.length) :
    lines = lines.take start ++ lineAt lines start :: lines.drop (start + 1) := by
  rw [lineAt_eq h, ← drop_eq_getElem_cons h, take_append_drop]

private theorem lineAt_drop (lines : List Str) (start index : Nat) :
    lineAt (lines.drop start) index = lineAt lines (start + index) := by
  simp [lineAt]

private theorem lineAt_take {n index : Nat} (h : index < n) : lineAt (lines.take n) index = lineAt lines index := by
  simp [lineAt, h]

private theorem lineAt_of_le (h : lines.length ≤ start) : lineAt lines start = [] := by
  simp [lineAt, h]

private theorem slice_cons (hlt : start < stop) (hlen : start < lines.length) :
    slice lines start stop = lineAt lines start :: slice lines (start + 1) stop := by
  have hin : start < (lines.take stop).length := by
    rw [length_take]
    omega
  rw [slice, slice, drop_eq_getElem_cons hin, getElem_take, lineAt_eq hlen]

theorem mem_slice {line : Str} (h : line ∈ slice lines start stop) :
    ∃ index, start ≤ index ∧ index < stop ∧ index < lines.length ∧ line = lineAt lines index := by
  obtain ⟨i, hi, rfl⟩ := mem_iff_getElem.mp h
  simp only [slice, length_drop, length_take] at hi
  have hlen : start + i < lines.length := by omega
  refine ⟨start + i, by omega, by omega, hlen, ?_⟩
  simp only [slice, getElem_drop, getElem_take, lineAt_eq hlen]

theorem slice_append (h : start ≤ stop) {last : Nat} (hstop : stop ≤ last) :
    slice lines start stop ++ slice lines stop last = slice lines start last := by
  have hfront : slice lines start stop = (slice lines start last).take (stop - start) := by
    rw [slice, slice, take_drop, Nat.add_sub_cancel' h, take_take, Nat.min_eq_left hstop]
  have hback : slice lines stop last = (slice lines start last).drop (stop - start) := by
    rw [slice, slice, drop_drop, Nat.add_sub_cancel' h]
  rw [hfront, hback, take_append_drop]

/-- A line that may stand under a key at `parentIndent`. -/
def BelongsTo (parentIndent : Nat) (line : Str) : Prop :=
  isSkippable line = true ∨ parentIndent < indentOf line ∨ (indentOf line = parentIndent ∧ opensItem line = true)

private theorem blockLength_cons {parentIndent : Nat} {line : Str} {rest : List Str} (h : BelongsTo parentIndent line) :
    blockLength parentIndent (line :: rest) = blockLength parentIndent rest + 1 := by
  rw [blockLength]
  rcases h with hskip | hdeep | ⟨heq, hopen⟩
  · rw [if_pos hskip]
  · rw [if_neg (by omega : ¬indentOf line < parentIndent)]
    simp [Nat.ne_of_gt hdeep]
  · rw [if_neg (by omega : ¬indentOf line < parentIndent)]
    simp [hopen]

private theorem blockLength_cons_of_not {parentIndent : Nat} {line : Str} {rest : List Str} (h : ¬BelongsTo parentIndent line) :
    blockLength parentIndent (line :: rest) = 0 := by
  rw [BelongsTo, not_or, not_or, not_and] at h
  obtain ⟨hskip, hdeep, hopen⟩ := h
  rw [blockLength, if_neg hskip]
  split
  · rfl
  · have heq : indentOf line = parentIndent := by omega
    simp [heq, hopen heq]

/-- A block goes on as long as its lines belong to its key. -/
theorem lt_blockLength_iff (parentIndent : Nat) (lines : List Str) (index : Nat) :
    index < blockLength parentIndent lines ↔
      index < lines.length ∧ ∀ i ≤ index, BelongsTo parentIndent (lineAt lines i) := by
  induction lines generalizing index with
  | nil => simp [blockLength]
  | cons line rest ih =>
    by_cases hline : BelongsTo parentIndent line
    · rw [blockLength_cons hline]
      cases index with
      | zero =>
        refine iff_of_true (Nat.succ_pos _) ⟨Nat.succ_pos _, fun i hi => ?_⟩
        rw [Nat.le_zero.mp hi]
        exact hline
      | succ index =>
        rw [Nat.succ_lt_succ_iff, ih, length_cons, Nat.succ_lt_succ_iff]
        refine and_congr_right fun _ => ⟨fun hrest i hi => ?_, fun hall i hi => hall (i + 1) (Nat.succ_le_succ hi)⟩
        cases i with
        | zero => exact hline
        | succ i => exact hrest i (Nat.le_of_succ_le_succ hi)
    · rw [blockLength_cons_of_not hline]
      exact iff_of_false (Nat.not_lt_zero _) fun h => hline (h.2 0 (Nat.zero_le _))

private theorem lt_endOfBlock_iff {parentIndent index : Nat} (h : start ≤ index) :
    index < endOfBlock lines start parentIndent ↔
      index < lines.length ∧ ∀ i, start ≤ i → i ≤ index → BelongsTo parentIndent (lineAt lines i) := by
  obtain ⟨offset, rfl⟩ := Nat.exists_eq_add_of_le h
  rw [endOfBlock, Nat.add_lt_add_iff_left, lt_blockLength_iff, length_drop, Nat.lt_sub_iff_add_lt']
  refine and_congr_right fun _ => ⟨fun hall i hlow hhigh => ?_, fun hall i hi => ?_⟩
  · obtain ⟨i, rfl⟩ := Nat.exists_eq_add_of_le hlow
    have hline := hall i (by omega)
    rwa [lineAt_drop] at hline
  · rw [lineAt_drop]
    exact hall _ (Nat.le_add_right _ _) (by omega)

private theorem trimmedEnd_le (lines : List Str) (start stop : Nat) : trimmedEnd lines start stop ≤ stop := by
  induction stop with
  | zero => exact Nat.le_refl _
  | succ stop ih =>
    unfold trimmedEnd
    split
    · exact Nat.le_succ_of_le ih
    · exact Nat.le_refl _

private theorem le_trimmedEnd (h : start ≤ stop) : start ≤ trimmedEnd lines start stop := by
  induction stop with
  | zero => exact h
  | succ stop ih =>
    unfold trimmedEnd
    split
    · rename_i hback
      exact ih (Nat.le_of_lt_succ hback.1)
    · exact h

/-- What is left ends in a line of its own, or nothing is left. -/
theorem trimmedEnd_last (h : start < trimmedEnd lines start stop) :
    isSkippable (lineAt lines (trimmedEnd lines start stop - 1)) = false := by
  induction stop with
  | zero => exact absurd h (Nat.not_lt_zero _)
  | succ stop ih =>
    unfold trimmedEnd at h ⊢
    split
    · rename_i hback
      rw [if_pos hback] at h
      exact ih h
    · rename_i hback
      rw [if_neg hback] at h
      simpa [h] using hback

/-- It does not go past a line that is neither blank nor a comment. -/
theorem lt_trimmedEnd {index : Nat} (hstop : index < stop)
    (h : isSkippable (lineAt lines index) = false) : index < trimmedEnd lines start stop := by
  induction stop with
  | zero => exact absurd hstop (Nat.not_lt_zero _)
  | succ stop ih =>
    unfold trimmedEnd
    split
    · rename_i hback
      refine ih (Nat.lt_of_le_of_ne (Nat.le_of_lt_succ hstop) ?_)
      rintro rfl
      rw [h] at hback
      cases hback.2
    · exact hstop

/-- The span is cut before the blanks and comments at its end. -/
def Trimmed (span : List Str) : Prop := ∀ line ∈ span.getLast?, isSkippable line = false

theorem lt_length_of_not_skippable (h : isSkippable (lineAt lines start) = false) : start < lines.length := by
  by_contra hout
  rw [lineAt_of_le (by omega)] at h
  cases h

private theorem trimmed_slice (hlt : start < stop) (hlast : isSkippable (lineAt lines (stop - 1)) = false) :
    Trimmed (slice lines start stop) := by
  intro line hline
  have hget : (slice lines start stop).getLast? = some (lineAt lines (stop - 1)) := by
    rw [← slice_append (Nat.le_sub_one_of_lt hlt) (Nat.sub_le stop 1),
      slice_cons (by omega) (lt_length_of_not_skippable hlast), Nat.sub_add_cancel (by omega)]
    simp [slice]
  rw [hget, Option.mem_some_iff] at hline
  exact hline ▸ hlast

private theorem matchKey_nil : matchKey [] = none := rfl

theorem lt_length_of_matchKey {m : KeyMatch} (h : matchKey (lineAt lines start) = some m) : start < lines.length := by
  by_contra hout
  rw [lineAt_of_le (by omega), matchKey_nil] at h
  cases h

variable {block : Block}

/-- Where the lines under the key line `head` start, or those of the whole text. -/
def firstBelow : Option Nat → Nat
  | none => 0
  | some head => head + 1

/-- A line under the key line `head`, or of the whole text. -/
structure Inside (lines : List Str) (head : Option Nat) (index : Nat) : Prop where
  after : firstBelow head ≤ index
  within : index < lines.length
  belongs : ∀ keyLine ∈ head, ∃ m, matchKey (lineAt lines keyLine) = some m ∧
    ∀ i, keyLine < i → i ≤ index → BelongsTo m.indent (lineAt lines i)

/-- The column of what stands under a key line: that of the first line there is. -/
def Column (lines : List Str) (head : Option Nat) (column : Nat) : Prop :=
  ∃ first, Inside lines head first ∧ isSkippable (lineAt lines first) = false ∧ indentOf (lineAt lines first) = column ∧
    ∀ i, firstBelow head ≤ i → i < first → isSkippable (lineAt lines i) = true

/-- The line `index` holds the key `key` of what stands under `head`. -/
structure Child (lines : List Str) (head : Option Nat) (key : Str) (index : Nat) : Prop where
  inside : Inside lines head index
  column : Column lines head (indentOf (lineAt lines index))
  named : ∃ m, matchKey (lineAt lines index) = some m ∧ m.key = key

/-- A key line that others stand under: nothing stands after its colon, or an empty flow. -/
def Opens (lines : List Str) (index : Nat) : Prop :=
  ∃ m, matchKey (lineAt lines index) = some m ∧ (isBlank m.rest = true ∨ isEmptyFlow m.rest = true)

/-- The keys of a path, one under the other, and the line of the last. -/
inductive Leads (lines : List Str) : Option Nat → List Str → Nat → Prop where
  | last {head : Option Nat} {key : Str} {index : Nat} (h : Child lines head key index) : Leads lines head [key] index
  | down {head : Option Nat} {key : Str} {keyLine index : Nat} {path : List Str} (h : Child lines head key keyLine)
      (hopens : Opens lines keyLine) (hrest : Leads lines (some keyLine) path index) : Leads lines head (key :: path) index

structure BlockOf (lines : List Str) (head : Option Nat) (block : Block) : Prop where
  inside : ∀ index, Inside lines head index ↔ block.start ≤ index ∧ index < block.stop
  start : block.start = firstBelow head
  indent : block.indent = childIndent lines block.start block.stop

private theorem rootBlock_of (lines : List Str) : BlockOf lines none (rootBlock lines) :=
  ⟨fun _ => ⟨fun h => ⟨h.after, h.within⟩, fun h => ⟨h.1, h.2, fun _ hnone => by cases hnone⟩⟩, rfl, rfl⟩

theorem blockAt_ok {index : Nat} (h : blockAt lines index = .ok block) :
    BlockOf lines (some index) block ∧ block.start ≤ block.stop ∧ block.keyLine = some index ∧
      ∃ m, matchKey (lineAt lines index) = some m ∧ block.inline = m.rest ∧ block.stop = endOfBlock lines (index + 1) m.indent := by
  unfold blockAt at h
  split at h
  · cases h
  · rename_i m hm
    cases h
    refine ⟨⟨fun i => ⟨fun hin => ?_, fun hin => ?_⟩, rfl, rfl⟩, Nat.le_add_right _ _, rfl, m, hm, rfl, rfl⟩
    · obtain ⟨m', hm', hbelongs⟩ := hin.belongs index rfl
      rw [hm] at hm'
      cases hm'
      exact ⟨hin.after, (lt_endOfBlock_iff hin.after).mpr ⟨hin.within, hbelongs⟩⟩
    · obtain ⟨hwithin, hbelongs⟩ := (lt_endOfBlock_iff hin.1).mp hin.2
      refine ⟨hin.1, hwithin, fun keyLine hkeyLine => ?_⟩
      cases hkeyLine
      exact ⟨m, hm, hbelongs⟩

variable {head : Option Nat}

/-- The first line of a block is the one its column is taken from. -/
theorem BlockOf.column {first column : Nat} (h : BlockOf lines head block) (hfirst : block.start ≤ first)
    (hstop : first < block.stop) (hskip : isSkippable (lineAt lines first) = false)
    (hbefore : ∀ i, block.start ≤ i → i < first → isSkippable (lineAt lines i) = true)
    (hcolumn : indentOf (lineAt lines first) = column) : Column lines head column :=
  ⟨first, (h.inside first).mpr ⟨hfirst, hstop⟩, hskip, hcolumn, h.start ▸ hbefore⟩

private theorem findKey_some {key : Str} {index : Nat} (hblock : BlockOf lines head block)
    (h : findKey lines block key = some index) : isSkippable (lineAt lines index) = false ∧ Child lines head key index := by
  unfold findKey at h
  split at h
  · cases h
  · rename_i column hcolumn
    have hmem := mem_of_find?_eq_some h
    rw [mem_range'_1] at hmem
    have hfound := List.find?_some h
    simp only [Bool.and_eq_true, Bool.not_eq_true', Bool.or_eq_false_iff, Option.any_eq_true, beq_iff_eq] at hfound
    obtain ⟨⟨hskip, hindent⟩, m, hm, hkey⟩ := hfound
    have hindent : indentOf (lineAt lines index) = column := by simpa using hindent
    rw [hblock.indent, childIndent, Option.map_eq_some_iff] at hcolumn
    obtain ⟨line, hline, hat⟩ := hcolumn
    obtain ⟨hkept, i, hi, hget, hearlier⟩ := List.find?_eq_some_iff_getElem.mp hline
    have hlength := hi
    rw [slice, length_drop, length_take] at hlength
    have hslice (j : Nat) (hj : j < (slice lines block.start block.stop).length) :
        (slice lines block.start block.stop)[j] = lineAt lines (block.start + j) := by
      rw [← lineAt_eq hj, slice, lineAt_drop, lineAt_take (by rw [slice, length_drop, length_take] at hj; omega)]
    rw [hslice i hi] at hget
    refine ⟨hskip, (hblock.inside index).mpr ⟨hmem.1, by omega⟩, ?_, m, hm, hkey⟩
    refine hblock.column (Nat.le_add_right _ i) (by omega) ?_ (fun j hlow hhigh => ?_) (hget ▸ hat.trans hindent.symm)
    · rw [hget]
      simpa using hkept
    · obtain ⟨j, rfl⟩ := Nat.exists_eq_add_of_le hlow
      have hskipped := hearlier j (by omega)
      rw [hslice j (by omega)] at hskipped
      simpa using hskipped

def names (path : Str) : List Str := path.splitOn '.'

private theorem locateFrom_ok {path segment key : Str} {rest : List Str} {found : Block} {keyLine : Option Nat}
    (hblock : BlockOf lines head block) (h : locateFrom lines path block segment rest = .ok (found, key, keyLine)) :
    keyLine = findKey lines found key ∧ (∃ above, BlockOf lines above found) ∧
      ∀ index ∈ keyLine, Leads lines head (segment :: rest) index := by
  induction rest generalizing block segment head with
  | nil =>
    rw [locateFrom] at h
    cases h
    exact ⟨rfl, ⟨head, hblock⟩, fun index hindex => .last (findKey_some hblock hindex).2⟩
  | cons next rest ih =>
    rw [locateFrom] at h
    split at h
    · cases h
    · rename_i index hfound
      obtain ⟨inner, hinner, h⟩ := bind_ok.mp h
      split at h
      · cases h
      · rename_i hinline
        obtain ⟨hin, -, -, m, hm, hrest, -⟩ := blockAt_ok hinner
        rw [hrest, Bool.and_eq_true, not_and_or] at hinline
        obtain ⟨hkey, habove, hleads⟩ := ih hin h
        exact ⟨hkey, habove, fun i hi =>
          .down (findKey_some hblock hfound).2 ⟨m, hm, by simpa using hinline⟩ (hleads i hi)⟩

theorem locate_ok {path key : Str} {keyLine : Option Nat} (h : locate lines path = .ok (block, key, keyLine)) :
    keyLine = findKey lines block key ∧ (∃ above, BlockOf lines above block) ∧
      ∀ index ∈ keyLine, Leads lines none (names path) index := by
  obtain ⟨segment, rest, hsplit⟩ := exists_cons_of_ne_nil (splitOn_ne_nil '.' path)
  rw [locate, hsplit] at h
  rw [names, hsplit]
  exact locateFrom_ok (rootBlock_of lines) h

/-- A key's own lines: its key line, and lines that belong to it. -/
def KeySpan : List Str → Prop
  | [] => False
  | line :: rest => ∃ m, matchKey line = some m ∧ ∀ below ∈ rest, BelongsTo m.indent below

/-- `lines` with what is in the place of a span of theirs. -/
structure Splices (lines out before span put after : List Str) : Prop where
  lines : lines = before ++ span ++ after
  out : out = before ++ put ++ after

private theorem splices_slice (put : List Str) (h : start ≤ stop) :
    Splices lines (lines.take start ++ put ++ lines.drop stop) (lines.take start) (slice lines start stop) put
      (lines.drop stop) :=
  ⟨(take_slice_drop lines h).symm, rfl⟩

/-- Lines put where there were none. -/
theorem splices_insert (lines put : List Str) (place : Nat) :
    Splices lines (lines.take place ++ put ++ lines.drop place) (lines.take place) [] put (lines.drop place) :=
  ⟨(take_insert_drop lines place).symm, rfl⟩

private theorem keySpan_slice {m : KeyMatch} (hm : matchKey (lineAt lines start) = some m) (hlt : start < stop)
    (hstop : stop ≤ endOfBlock lines (start + 1) m.indent) : KeySpan (slice lines start stop) := by
  rw [slice_cons hlt (lt_length_of_matchKey hm)]
  refine ⟨m, hm, fun line hline => ?_⟩
  obtain ⟨index, hlow, hhigh, -, rfl⟩ := mem_slice hline
  exact ((lt_endOfBlock_iff hlow).mp (Nat.lt_of_lt_of_le hhigh hstop)).2 index hlow (Nat.le_refl _)

variable {yaml : Yaml}

/-- A key that is set is set in its own lines, or in new ones. -/
theorem putKey_splices {key : Str} {value : Value} {out : List Str} (hblock : BlockOf lines head block)
    (h : putKey yaml lines block key value = .ok out) :
    ∃ before span put after, Splices lines out before span put after ∧
      (span = [] ∨ (findKey lines block key = some before.length ∧ KeySpan span ∧ Trimmed span)) := by
  obtain ⟨field, -, h⟩ := bind_ok.mp h
  simp only at h
  split at h
  · cases h
    exact ⟨_, [], _, _, splices_insert lines _ _, .inl rfl⟩
  · rename_i index hfound
    obtain ⟨existing, hexisting, h⟩ := bind_ok.mp h
    cases h
    obtain ⟨-, -, -, m, hm, -, hstop⟩ := blockAt_ok hexisting
    obtain ⟨hskip, -⟩ := findKey_some hblock hfound
    have hle : index + 1 ≤ existing.stop := hstop ▸ Nat.le_add_right _ _
    have hplace : index + 1 ≤ trimmedEnd lines (index + 1) existing.stop := le_trimmedEnd hle
    have hlength : (lines.take index).length = index :=
      length_take_of_le (Nat.le_of_lt (lt_length_of_matchKey hm))
    refine ⟨_, _, _, _, splices_slice _ (Nat.le_of_succ_le hplace),
      .inr ⟨hlength.symm ▸ hfound, keySpan_slice hm hplace (hstop ▸ trimmedEnd_le lines (index + 1) existing.stop), ?_⟩⟩
    refine trimmed_slice hplace ?_
    rcases Nat.eq_or_lt_of_le hplace with heq | hlt
    · rw [← heq]
      exact hskip
    · exact trimmedEnd_last hlt

section
variable {p : Nat → Bool}

private theorem filter_range'_head_le (p : Nat → Bool) (start count : Nat) :
    ((List.range' start count).filter p).headD (start + count) ≤ start + count := by
  induction count generalizing start with
  | zero => exact Nat.le_refl _
  | succ count ih =>
    rw [List.range'_succ, filter_cons]
    split
    · exact Nat.le_add_right _ _
    · have hrest := ih (start + 1)
      rw [Nat.add_assoc, Nat.add_comm 1 count] at hrest
      exact hrest

/-- Before the first index it keeps, a filter keeps none. -/
theorem filter_range'_gap (start count : Nat) {index : Nat} (hstart : start ≤ index)
    (h : index < ((List.range' start count).filter p).headD (start + count)) : p index = false := by
  induction count generalizing start with
  | zero =>
    have hlt : index < start := h
    omega
  | succ count ih =>
    rw [List.range'_succ, filter_cons] at h
    split at h
    · have hlt : index < start := h
      omega
    · rename_i hnot
      by_cases heq : index = start
      · rw [heq]
        simpa using hnot
      · have hend : start + (count + 1) = start + 1 + count := by omega
        rw [hend] at h
        exact ih (start + 1) (by omega) h

/-- After an index it keeps, a filter is the filter of what comes after. -/
theorem filter_range'_cons {start count first : Nat} {rest : List Nat}
    (h : (List.range' start count).filter p = first :: rest) :
    start ≤ first ∧ first < start + count ∧ p first = true ∧
      rest = (List.range' (first + 1) (start + count - (first + 1))).filter p := by
  induction count generalizing start with
  | zero => cases h
  | succ count ih =>
    rw [List.range'_succ, filter_cons] at h
    split at h
    · rename_i hkept
      cases h
      refine ⟨Nat.le_refl _, by omega, hkept, ?_⟩
      congr 2
      omega
    · obtain ⟨hle, hlt, hkept, hrest⟩ := ih h
      refine ⟨by omega, by omega, hkept, ?_⟩
      rw [hrest]
      congr 2
      omega

end

/-- The line opens an item at `indent`. -/
def opensAt (indent : Nat) (line : Str) : Bool := !isSkippable line && (indentOf line == indent && opensItem line)

/-- What the items of a list are found to be: each opens on a line of its own, and no other does on the
lines it occupies. -/
structure Found (yaml : Yaml) (lines : List Str) (start listEnd : Nat) (item : Item) : Prop where
  after : start ≤ item.start
  opens : opensAt item.indent (lineAt lines item.start) = true
  within : item.stop ≤ listEnd
  nonempty : item.start < item.stop
  trimmed : isSkippable (lineAt lines (item.stop - 1)) = false
  alone : ∀ index, item.start < index → index < item.stop → opensAt item.indent (lineAt lines index) = false
  value : itemValue yaml lines item.start item.stop item.indent = .ok (.dict item.value)

theorem Found.mono {start' listEnd : Nat} {item : Item} (h : Found yaml lines start' listEnd item)
    (hle : start ≤ start') : Found yaml lines start listEnd item :=
  ⟨Nat.le_trans hle h.after, h.opens, h.within, h.nonempty, h.trimmed, h.alone, h.value⟩

variable {items : List Item}

theorem itemsFrom_found {listPath : Str} {indent listEnd : Nat} {starts : List Nat}
    (hstarts : starts = (List.range' start (listEnd - start)).filter fun index => opensAt indent (lineAt lines index))
    (hle : start ≤ listEnd) (h : itemsFrom yaml lines listPath indent listEnd starts = .ok items) :
    ∀ item ∈ items, Found yaml lines start listEnd item := by
  induction starts generalizing start items with
  | nil =>
    cases h
    exact fun item hitem => absurd hitem not_mem_nil
  | cons first rest ih =>
    obtain ⟨hafter, hbefore, hopens, hrest⟩ := filter_range'_cons hstarts.symm
    rw [Nat.add_sub_cancel' hle] at hbefore hrest
    obtain ⟨value, hvalue, h⟩ := bind_ok.mp h
    split at h
    · rename_i entries
      obtain ⟨items', hitems, h⟩ := bind_ok.mp h
      cases h
      have hnext : rest.headD listEnd ≤ listEnd := by
        have hhead := filter_range'_head_le (fun index => opensAt indent (lineAt lines index)) (first + 1)
          (listEnd - (first + 1))
        rwa [← hrest, Nat.add_sub_cancel' hbefore] at hhead
      have hgap : ∀ index, first < index → index < rest.headD listEnd → opensAt indent (lineAt lines index) = false := by
        intro index hlow hhigh
        apply filter_range'_gap (p := fun index => opensAt indent (lineAt lines index)) (first + 1) (listEnd - (first + 1)) hlow
        rwa [← hrest, Nat.add_sub_cancel' hbefore]
      have hskip : isSkippable (lineAt lines first) = false := by
        simpa using (Bool.and_eq_true_iff.mp hopens).1
      have hplace : first < rest.headD listEnd := by
        cases rest with
        | nil => exact hbefore
        | cons next rest => exact (filter_range'_cons hrest.symm).1
      rw [forall_mem_cons]
      refine ⟨⟨hafter, hopens, (trimmedEnd_le _ _ _).trans hnext, lt_trimmedEnd hplace hskip, ?_, ?_, hvalue⟩, ?_⟩
      · exact trimmedEnd_last (lt_trimmedEnd hplace hskip)
      · exact fun index hlow hhigh => hgap index hlow (Nat.lt_of_lt_of_le hhigh (trimmedEnd_le _ _ _))
      · intro item hitem
        exact (ih hrest hbefore hitems item hitem).mono (by omega)
    · cases h

private theorem itemsFrom_map {listPath : Str} {indent listEnd : Nat} {starts : List Nat}
    (h : itemsFrom yaml lines listPath indent listEnd starts = .ok items) :
    items.map (fun item => (item.start, item.indent)) = starts.map (·, indent) := by
  induction starts generalizing items with
  | nil =>
    cases h
    rfl
  | cons first rest ih =>
    obtain ⟨value, -, h⟩ := bind_ok.mp h
    split at h
    · obtain ⟨items', hitems, h⟩ := bind_ok.mp h
      cases h
      rw [map_cons, map_cons, ih hitems]
    · cases h

/-- No other line under `head` opens an item at `indent`. -/
def Lone (lines : List Str) (head indent start : Nat) : Prop :=
  ∀ index, Inside lines (some head) index → opensAt indent (lineAt lines index) = true → index = start

/-- The items found under the key line `head` are those that open at the column of its first line. -/
structure Listed (yaml : Yaml) (lines : List Str) (head : Nat) (block : Block) (items : List Item) : Prop where
  found : ∀ item ∈ items, Found yaml lines block.start (trimmedEnd lines block.start block.stop) item
  column : ∀ item ∈ items, Column lines (some head) item.indent
  lone : ∀ item ∈ items, items.length = 1 ↔ Lone lines head item.indent item.start

/-- A list has one item exactly where no other line opens one. -/
private theorem length_eq_one_iff_lone {head indent : Nat} {item : Item} (hblock : BlockOf lines (some head) block)
    (hle : block.start ≤ block.stop)
    (hfound : ∀ item ∈ items, Found yaml lines block.start (trimmedEnd lines block.start block.stop) item)
    (hindent : ∀ item ∈ items, item.indent = indent)
    (hstarts : items.map Item.start = (range' block.start (trimmedEnd lines block.start block.stop - block.start)).filter
      fun index => opensAt indent (lineAt lines index)) (hitem : item ∈ items) :
    items.length = 1 ↔ Lone lines head item.indent item.start := by
  have hend := trimmedEnd_le lines block.start block.stop
  constructor
  · intro hone index hin hat
    have hskip : isSkippable (lineAt lines index) = false := by
      simpa using (Bool.and_eq_true_iff.mp hat).1
    have hrange := (hblock.inside index).mp hin
    have hother : index ∈ items.map Item.start := by
      rw [hstarts, mem_filter, mem_range'_1, Nat.add_sub_cancel' (le_trimmedEnd hle), ← hindent item hitem]
      exact ⟨⟨hrange.1, lt_trimmedEnd hrange.2 hskip⟩, hat⟩
    obtain ⟨only, rfl⟩ := length_eq_one_iff.mp hone
    rw [mem_singleton.mp hitem]
    simpa using hother
  · intro hlone
    have hsame : ∀ index ∈ items.map Item.start, index = item.start := by
      intro index hindex
      obtain ⟨other, hother, rfl⟩ := mem_map.mp hindex
      have hplace := hfound other hother
      have hwithin := Nat.lt_of_lt_of_le hplace.nonempty hplace.within
      refine hlone other.start ((hblock.inside _).mpr ⟨hplace.after, Nat.lt_of_lt_of_le hwithin hend⟩) ?_
      rw [hindent item hitem, ← hindent other hother]
      exact hplace.opens
    have hnodup : (items.map Item.start).Nodup := by
      rw [hstarts]
      exact (nodup_range' ..).filter _
    have hmap := eq_replicate_of_mem hsame
    rw [hmap, nodup_replicate, length_map] at hnodup
    have hpos := length_pos_of_mem hitem
    omega

theorem listItems_listed {listPath : Str} {head : Nat} (hblock : BlockOf lines (some head) block)
    (hle : block.start ≤ block.stop) (h : listItems yaml lines block listPath = .ok items) :
    (isBlank block.inline = true ∨ isEmptyFlow block.inline = true) ∧ Listed yaml lines head block items := by
  unfold listItems at h
  split at h
  · cases h
  · rename_i hinline
    rw [Bool.and_eq_true, not_and_or] at hinline
    refine ⟨by simpa using hinline, ?_⟩
    simp only at h
    split at h
    · cases h
      exact ⟨fun item hitem => absurd hitem not_mem_nil, fun item hitem => absurd hitem not_mem_nil,
        fun item hitem => absurd hitem not_mem_nil⟩
    · rename_i first hfirst
      split at h
      · cases h
      · obtain ⟨hopens, hmem, hbefore⟩ := List.find?_range'_eq_some.mp hfirst
        rw [mem_range'_1, Nat.add_sub_cancel' (le_trimmedEnd hle)] at hmem
        have hend := trimmedEnd_le lines block.start block.stop
        have hmap := itemsFrom_map h
        have hstart : ∀ item ∈ items, item.indent = indentOf (lineAt lines first) := by
          intro item hitem
          have hpair := mem_map_of_mem (f := fun item : Item => (item.start, item.indent)) hitem
          rw [hmap, mem_map] at hpair
          obtain ⟨index, -, heq⟩ := hpair
          exact (Prod.mk.inj heq).2.symm
        have hstarts := congrArg (List.map Prod.fst) hmap
        simp only [map_map, Function.comp_def, map_id'] at hstarts
        have hfound := itemsFrom_found rfl (le_trimmedEnd hle) h
        refine ⟨hfound, fun item hitem => ?_, fun item hitem => ?_⟩
        · exact hblock.column hmem.1 (Nat.lt_of_lt_of_le hmem.2 hend) (by simpa using hopens)
            (fun i hlow hhigh => by simpa using hbefore i hlow hhigh) (hstart item hitem).symm
        · exact length_eq_one_iff_lone hblock hle hfound hstart hstarts hitem

/-- The list a path leads to: its key line, and the items under it. -/
theorem listOf_listed {listPath : Str} (h : listOf yaml lines listPath = .ok (block, items)) :
    ∃ head, Leads lines none (names listPath) head ∧ Opens lines head ∧ block.keyLine = some head ∧
      BlockOf lines (some head) block ∧ Listed yaml lines head block items := by
  obtain ⟨⟨parent, key, keyLine⟩, hlocate, h⟩ := bind_ok.mp h
  obtain ⟨-, -, hleads⟩ := locate_ok hlocate
  simp only at h
  split at h
  · cases h
  · rename_i head
    obtain ⟨block', hblock, h⟩ := bind_ok.mp h
    obtain ⟨items', hitems, h⟩ := bind_ok.mp h
    cases h
    obtain ⟨hof, hle, hat, m, hm, hinline, -⟩ := blockAt_ok hblock
    obtain ⟨hempty, hlisted⟩ := listItems_listed hof hle hitems
    exact ⟨head, hleads head rfl, ⟨m, hm, hinline ▸ hempty⟩, hat, hof, hlisted⟩

private theorem itemNamed_ok {name listPath : Str} {item : Item}
    (h : itemNamed items name listPath = .ok item) :
    item ∈ items ∧ (item.value.lookup (itemKey listPath)).any (Value.isStr name) = true := by
  unfold itemNamed at h
  split at h
  · rename_i hfind
    cases h
    have hnamed := List.find?_some hfind
    exact ⟨mem_of_find?_eq_some hfind, hnamed⟩
  · cases h

/-- The lines of the item `name` of the list at a path: they stand under the list's key line, from `start`
on, and are a mapping that names the item, one dash at the list's column that opens it, and no blank or
comment at its end. -/
structure ItemSpan (yaml : Yaml) (lines : List Str) (listPath name : Str) (head indent start : Nat) (span : List Str) :
    Prop where
  leads : Leads lines none (names listPath) head
  under : Opens lines head
  column : Column lines (some head) indent
  inside : ∀ index, start ≤ index → index < start + span.length → Inside lines (some head) index
  named : ∃ entries, yaml.safeLoad (join (deindented span indent)) = .ok (.dict entries) ∧
    (entries.lookup (itemKey listPath)).any (Value.isStr name) = true
  opens : ∃ first rest, span = first :: rest ∧ opensAt indent first = true ∧
    ∀ line ∈ rest, opensAt indent line = false
  trimmed : Trimmed span

/-- The item an edit names, in the list it is found in. -/
theorem itemSpan_of {listPath name : Str} {item : Item} (hlist : listOf yaml lines listPath = .ok (block, items))
    (hitem : itemNamed items name listPath = .ok item) :
    ∃ head, block.keyLine = some head ∧ block.start = head + 1 ∧
      Found yaml lines block.start (trimmedEnd lines block.start block.stop) item ∧
      ItemSpan yaml lines listPath name head item.indent item.start (slice lines item.start item.stop) ∧
      (items.length = 1 ↔ Lone lines head item.indent item.start) := by
  obtain ⟨head, hleads, hunder, hat, hblock, hlisted⟩ := listOf_listed hlist
  obtain ⟨hmem, hname⟩ := itemNamed_ok hitem
  have hfound := hlisted.found item hmem
  have hskip : isSkippable (lineAt lines item.start) = false := by
    simpa using (Bool.and_eq_true_iff.mp hfound.opens).1
  refine ⟨head, hat, hblock.start, hfound, ⟨hleads, hunder, hlisted.column item hmem, fun index hlow hhigh => ?_,
    ⟨item.value, ?_, hname⟩, ?_, trimmed_slice hfound.nonempty hfound.trimmed⟩, hlisted.lone item hmem⟩
  · rw [slice, length_drop, length_take] at hhigh
    have hend := trimmedEnd_le lines block.start block.stop
    have hwithin := hfound.within
    exact (hblock.inside index).mpr ⟨Nat.le_trans hfound.after hlow, by omega⟩
  · have hvalue := hfound.value
    unfold itemValue at hvalue
    split at hvalue
    · cases hvalue
    · rename_i hload
      cases hvalue
      exact hload
  · refine ⟨_, _, slice_cons hfound.nonempty (lt_length_of_not_skippable hskip), hfound.opens, fun line hline => ?_⟩
    obtain ⟨index, hlow, hhigh, -, rfl⟩ := mem_slice hline
    exact hfound.alone index hlow hhigh

end SynQt.YamlEdit
