import SynQt.Tools.YamlFrame

namespace SynQt.YamlEdit
open Lib List

inductive Edit where
  | append (listPath : Str) (item : List (Str × Value)) (comment : Str)
  | patch (listPath name : Str) (fields : List (Str × Value))
  | removeField (listPath name field : Str)
  | remove (listPath name : Str)
  | setScalar (path : Str) (value : Value)

def Edit.apply (yaml : Yaml) (text : Str) : Edit → Except Error Str
  | .append listPath item comment => appendItem yaml text listPath item comment
  | .patch listPath name fields => patchItem yaml text listPath name fields
  | .removeField listPath name field => YamlEdit.removeField yaml text listPath name field
  | .remove listPath name => removeItem yaml text listPath name
  | .setScalar path value => YamlEdit.setScalar yaml text path value

/-- The lines of `text`, with `put` in the place of a span of theirs, are those of `out`. -/
structure Rewrites (text out : Str) (before span put after : List Str) : Prop where
  text : split text = before ++ span ++ after
  out : out = join (before ++ put ++ after)

/-- What an edit leaves of a text. An append puts lines in, and opens the key line of a list that was
written as empty; a patch and the removal of a field rewrite the item's own lines, and a patch with nothing
none of an item that is aligned; the removal of an item takes its lines, the comments directly above and
the blank lines directly below, and puts an empty list on the list's key line when the item stood alone;
a value that is set rewrites the key's own lines. -/
def Leaves (yaml : Yaml) (text out : Str) : Edit → Prop
  | .append listPath _ _ =>
    (∃ before put after, Rewrites text out before [] put after) ∨
    ∃ before line m put after, Rewrites text out before [line] (upToColon line :: put) after ∧
      Leads (split text) none (names listPath) before.length ∧ matchKey line = some m ∧ isEmptyFlow m.rest = true
  | .patch listPath name fields => ∃ before span put after head indent, Rewrites text out before span put after ∧
      ItemSpan yaml (split text) listPath name head indent before.length span ∧
      (fields = [] → Aligned indent span → out = text)
  | .removeField listPath name _ => out = text ∨ ∃ before span put after head indent,
      Rewrites text out before span put after ∧
      ItemSpan yaml (split text) listPath name head indent before.length span
  | .remove listPath name => ∃ before above span below after kept head indent,
      split text = before ++ above ++ span ++ below ++ after ∧ out = join (kept ++ after) ∧
      ItemSpan yaml (split text) listPath name head indent (before ++ above).length span ∧ head < before.length ∧
      (∀ line ∈ above, isComment line = true) ∧ (∀ line ∈ below, isBlank line = true) ∧
      (Lone (split text) head indent (before ++ above).length →
        kept = before.set head (upToColon (lineAt before head) ++ lit " []")) ∧
      (¬Lone (split text) head indent (before ++ above).length → kept = before)
  | .setScalar path _ => ∃ before span put after, Rewrites text out before span put after ∧
      (span = [] ∨ (Leads (split text) none (names path) before.length ∧ KeySpan span ∧ Trimmed span))

variable {yaml : Yaml} {text out : Str}

private theorem join_split (text : Str) : join (split text) = text := intercalate_splitOn '\n'

private theorem setScalar_leaves {path : Str} {value : Value} (h : setScalar yaml text path value = .ok out) :
    Leaves yaml text out (.setScalar path value) := by
  obtain ⟨⟨parent, key, keyLine⟩, hlocate, h⟩ := bind_ok.mp h
  obtain ⟨put, hput, h⟩ := bind_ok.mp h
  cases h
  obtain ⟨hkey, ⟨above, hblock⟩, hleads⟩ := locate_ok hlocate
  obtain ⟨before, span, put', after, hsplices, hspan⟩ := putKey_splices hblock hput
  refine ⟨before, span, put', after, ⟨hsplices.lines, by rw [hsplices.out]⟩, ?_⟩
  exact hspan.imp_right fun hown => ⟨hleads _ (hkey.trans hown.1), hown.2⟩

theorem Found.length_take {lines : List Str} {start listEnd : Nat} {item : Item} (h : Found yaml lines start listEnd item) :
    (lines.take item.start).length = item.start := by
  have hskip : isSkippable (lineAt lines item.start) = false := by
    simpa using (Bool.and_eq_true_iff.mp h.opens).1
  exact length_take_of_le (Nat.le_of_lt (lt_length_of_not_skippable hskip))

private theorem patchItem_leaves {listPath name : Str} {fields : List (Str × Value)}
    (h : patchItem yaml text listPath name fields = .ok out) : Leaves yaml text out (.patch listPath name fields) := by
  obtain ⟨⟨block, items⟩, hlist, h⟩ := bind_ok.mp h
  obtain ⟨item, hitem, h⟩ := bind_ok.mp h
  obtain ⟨fragment, hfragment, h⟩ := bind_ok.mp h
  cases h
  obtain ⟨head, -, -, hfound, hspan, -⟩ := itemSpan_of hlist hitem
  have hlines := take_slice_drop (split text) (Nat.le_of_lt hfound.nonempty)
  refine ⟨_, _, _, _, head, item.indent, ⟨hlines.symm, rfl⟩, hfound.length_take.symm ▸ hspan, fun hnothing haligned => ?_⟩
  subst hnothing
  cases hfragment
  rw [(reindented_deindented_iff hspan).mpr haligned, hlines, join_split]

private theorem removeField_leaves {listPath name field : Str} (h : removeField yaml text listPath name field = .ok out) :
    Leaves yaml text out (.removeField listPath name field) := by
  obtain ⟨⟨block, items⟩, hlist, h⟩ := bind_ok.mp h
  obtain ⟨item, hitem, h⟩ := bind_ok.mp h
  obtain ⟨head, -, -, hfound, hspan, -⟩ := itemSpan_of hlist hitem
  simp only at h
  split at h
  · cases h
    exact .inl rfl
  · cases h
  · obtain ⟨existing, -, h⟩ := bind_ok.mp h
    cases h
    have hlines := take_slice_drop (split text) (Nat.le_of_lt hfound.nonempty)
    exact .inr ⟨_, _, _, _, head, item.indent, ⟨hlines.symm, rfl⟩, hfound.length_take.symm ▸ hspan⟩

variable {lines : List Str} {first start : Nat}

private theorem commentsAbove_le (lines : List Str) (first start : Nat) : commentsAbove lines first start ≤ start := by
  induction start with
  | zero => exact Nat.le_refl _
  | succ start ih =>
    unfold commentsAbove
    split
    · exact Nat.le_succ_of_le ih
    · exact Nat.le_refl _

private theorem le_commentsAbove (h : first ≤ start) : first ≤ commentsAbove lines first start := by
  induction start with
  | zero => exact h
  | succ start ih =>
    unfold commentsAbove
    split
    · rename_i habove
      exact ih (Nat.le_of_lt_succ habove.1)
    · exact h

private theorem commentsAbove_comment {index : Nat} (hlow : commentsAbove lines first start ≤ index) (hhigh : index < start) :
    isComment (lineAt lines index) = true := by
  induction start with
  | zero => exact absurd hhigh (Nat.not_lt_zero _)
  | succ start ih =>
    unfold commentsAbove at hlow
    split at hlow
    · rename_i habove
      rcases Nat.eq_or_lt_of_le (Nat.le_of_lt_succ hhigh) with rfl | hlt
      · exact habove.2
      · exact ih hlow hlt
    · omega

/-- The seam takes blanks only, and only from below it. -/
theorem closeSeam_append (front back : List Str) :
    ∃ blanks after, back = blanks ++ after ∧ (∀ line ∈ blanks, isBlank line = true) ∧
      closeSeam (front ++ back) front.length = front ++ after := by
  unfold closeSeam
  split
  · refine ⟨back.takeWhile isBlank, back.dropWhile isBlank, takeWhile_append_dropWhile.symm,
      fun line hline => mem_takeWhile_imp hline, ?_⟩
    rw [take_left, drop_left]
  · exact ⟨[], back, rfl, fun line hline => absurd hline not_mem_nil, rfl⟩

private theorem slice_takeWhile (p : Str → Bool) (start stop : Nat) :
    slice lines start (start + ((slice lines start stop).takeWhile p).length) = (slice lines start stop).takeWhile p := by
  have hprefix := takeWhile_prefix p (l := slice lines start stop)
  have hlength : ((slice lines start stop).takeWhile p).length ≤ stop - start := by
    have hle := hprefix.length_le
    rw [slice, length_drop, length_take] at hle
    rw [slice]
    omega
  have hslice (stop : Nat) : slice lines start stop = (lines.drop start).take (stop - start) := drop_take ..
  calc slice lines start (start + ((slice lines start stop).takeWhile p).length)
      = (lines.drop start).take ((slice lines start stop).takeWhile p).length := by
        rw [hslice (start + _), Nat.add_sub_cancel_left]
    _ = (slice lines start stop).take ((slice lines start stop).takeWhile p).length := by
        conv_rhs => rw [hslice stop, take_take, ← hslice stop, Nat.min_eq_left hlength]
    _ = (slice lines start stop).takeWhile p := (prefix_iff_eq_take.mp hprefix).symm

private theorem lineAt_append {front back : List Str} {index : Nat} (h : index < front.length) :
    lineAt (front ++ back) index = lineAt front index := by
  rw [lineAt, getD_eq_getElem?_getD, List.getElem?_append_left h, ← getD_eq_getElem?_getD, lineAt]

theorem removeItem_leaves {listPath name : Str} (h : removeItem yaml text listPath name = .ok out) :
    Leaves yaml text out (.remove listPath name) := by
  obtain ⟨⟨block, items⟩, hlist, h⟩ := bind_ok.mp h
  obtain ⟨item, hitem, h⟩ := bind_ok.mp h
  obtain ⟨head, hat, hblock, hfound, hspan, hlone⟩ := itemSpan_of hlist hitem
  set lines := split text with hlines
  set listEnd := trimmedEnd lines block.start block.stop
  set start := commentsAbove lines block.start item.start
  set stop := item.stop + ((slice lines item.stop listEnd).takeWhile isBlank).length with hstop
  have hunder : head < start := Nat.lt_of_lt_of_le (hblock ▸ Nat.lt_succ_self head) (le_commentsAbove hfound.after)
  have habove : start ≤ item.start := commentsAbove_le lines block.start item.start
  have hitem := Nat.le_of_lt hfound.nonempty
  have hbelow : item.stop ≤ stop := Nat.le_add_right _ _
  have hplace := hfound.length_take
  have hlength : (lines.take start).length = start := by
    rw [length_take] at hplace ⊢
    omega
  have hfront : (lines.take start ++ slice lines start item.start).length = item.start := by
    rw [slice, length_append, length_drop, hlength, hplace, Nat.add_sub_cancel' habove]
  obtain ⟨blanks, after, hback, hblanks, hseam⟩ := closeSeam_append (lines.take start) (lines.drop stop)
  rw [hlength] at hseam
  have htext : lines = lines.take start ++ slice lines start item.start ++ slice lines item.start item.stop ++
      (slice lines item.stop stop ++ blanks) ++ after := by
    conv_lhs => rw [← take_slice_drop lines (Nat.le_trans (Nat.le_trans habove hitem) hbelow), hback,
      ← slice_append (Nat.le_trans habove hitem) hbelow, ← slice_append habove hitem]
    simp only [append_assoc]
  have hcomments : ∀ line ∈ slice lines start item.start, isComment line = true := by
    intro line hline
    obtain ⟨index, hlow, hhigh, -, rfl⟩ := mem_slice hline
    exact commentsAbove_comment hlow hhigh
  have hgap : ∀ line ∈ slice lines item.stop stop ++ blanks, isBlank line = true := by
    rw [hstop, slice_takeWhile, forall_mem_append]
    exact ⟨fun line hline => mem_takeWhile_imp hline, hblanks⟩
  simp only at h
  rw [hseam, hat] at h
  refine ⟨_, _, _, _, after, if items.length = 1 then _ else _, head, item.indent, htext, ?_, hfront.symm ▸ hspan,
    hlength.symm ▸ hunder, hcomments, hgap, fun halone => if_pos (hlone.mpr (hfront ▸ halone)),
    fun hnot => if_neg fun hone => hnot (hfront.symm ▸ hlone.mp hone)⟩
  split
  · rename_i hone
    rw [beq_iff_eq.mpr hone] at h
    simp only [Except.ok.injEq] at h
    rw [lineAt_append (hlength.symm ▸ hunder), set_append_left _ _ (hlength.symm ▸ hunder)] at h
    exact h.symm
  · rename_i hmore
    rw [beq_eq_false_iff_ne.mpr hmore] at h
    exact (Except.ok.inj h).symm

theorem appendItem_leaves {listPath comment : Str} {fields : List (Str × Value)}
    (h : appendItem yaml text listPath fields comment = .ok out) :
    Leaves yaml text out (.append listPath fields comment) := by
  obtain ⟨⟨parent, key, keyLine⟩, hlocate, h⟩ := bind_ok.mp h
  obtain ⟨-, -, hleads⟩ := locate_ok hlocate
  simp only at h
  split at h
  · obtain ⟨body, -, h⟩ := bind_ok.mp h
    cases h
    exact .inl ⟨_, _, _, ⟨(take_insert_drop (split text) _).symm, rfl⟩⟩
  · rename_i index
    obtain ⟨block, hblock, h⟩ := bind_ok.mp h
    obtain ⟨items, hitems, h⟩ := bind_ok.mp h
    obtain ⟨body, hbody, h⟩ := bind_ok.mp h
    obtain ⟨-, -, -, m, hm, hinline, -⟩ := blockAt_ok hblock
    split at h
    · rename_i hreopen
      have hempty : isEmptyFlow m.rest = true := hinline ▸ (Bool.and_eq_true_iff.mp hreopen).2
      have hlt := lt_length_of_matchKey hm
      set line := lineAt (split text) index
      have hreopened : (split text).set index (upToColon line) =
          ((split text).take index ++ [upToColon line]) ++ (split text).drop (index + 1) := by
        rw [set_eq_take_append_cons_drop, if_pos hlt, append_cons]
      have hlength : ((split text).take index ++ [upToColon line]).length = index + 1 := by
        rw [length_append, length_take, Nat.min_eq_left (Nat.le_of_lt hlt), length_singleton]
      have htext : split text = (split text).take index ++ [line] ++ (split text).drop (index + 1) := by
        rw [append_assoc, singleton_append]
        exact eq_take_cons_drop hlt
      rw [hreopened, take_left' hlength, drop_left' hlength] at h
      have hout := (Except.ok.inj h).symm
      rw [← append_cons] at hout
      have hplace : ((split text).take index).length = index := length_take_of_le (Nat.le_of_lt hlt)
      exact .inr ⟨_, line, m, _, _, ⟨htext, hout⟩, hplace.symm ▸ hleads index rfl, hm, hempty⟩
    · cases h
      exact .inl ⟨_, _, _, ⟨(take_insert_drop (split text) _).symm, rfl⟩⟩

/-- Whatever the text holds, an edit that is made leaves the lines outside what it names. -/
theorem edit_leaves {edit : Edit} (h : edit.apply yaml text = .ok out) : Leaves yaml text out edit := by
  cases edit with
  | append listPath item comment => exact appendItem_leaves h
  | patch listPath name fields => exact patchItem_leaves h
  | removeField listPath name field => exact removeField_leaves h
  | remove listPath name => exact removeItem_leaves h
  | setScalar path value => exact setScalar_leaves h

/-- A mapping of plain words, one pair a line, and what is written for words. -/
def plainWords : Yaml where
  safeLoad text := .ok (.dict ((split text).filterMap fun line =>
    if isSkippable line then none else (matchKey line).map fun m => (m.key, .str (strip m.rest))))
  dumpField
    | .str word => lit "v: " ++ word ++ ['\n']
    | _ => lit "v: null\n"
  dumpFlow words := ['['] ++ [',', ' '].intercalate (words.filterMap fun
    | .str word => some word
    | _ => none) ++ [']', '\n']

def edgeFile : Str := lit "entities:\n  # serves the pages\n  - name: web\n    type: edge\n"

theorem edit_leaves_edgeFile :
    Leaves plainWords edgeFile (lit "entities:\n  # serves the pages\n  - name: web\n    type: relay\n")
      (.patch (lit "entities") (lit "web") [(lit "type", .str (lit "relay"))]) :=
  edit_leaves (by decide +kernel)

/-- An edge whose lines stand around a blank one of four spaces. -/
def spacedFile : Str := lit "entities:\n  - name: web\n    \n    type: edge\n"

/-- An item goes with the comment above it, and its list's key line is written anew. A patch with nothing
cuts a blank line that holds more spaces than the item's indent. -/
theorem edits_reach_further :
    (Edit.remove (lit "entities") (lit "web")).apply plainWords edgeFile = .ok (lit "entities: []\n") ∧
    (Edit.patch (lit "entities") (lit "web") []).apply plainWords spacedFile =
      .ok (lit "entities:\n  - name: web\n  \n    type: edge\n") ∧
    lit "entities:\n  - name: web\n  \n    type: edge\n" ≠ spacedFile :=
  ⟨by decide +kernel, by decide +kernel, by decide +kernel⟩

end SynQt.YamlEdit
