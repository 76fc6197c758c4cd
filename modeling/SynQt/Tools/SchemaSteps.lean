import SynQt.Lib.Lines
import SynQt.Tools.SqlText

/-! The migration steps of a schema file: its lines cut at two dashes, and what is left cut at semicolons. -/
namespace SynQt.TopologyWriter
open Lib Sql List
open YamlEdit (Str isSpace endsLine strip splitlines cutLines cutLines_eq_nil join)

def universalNewlines : Str → Str
  | [] => []
  | c :: rest =>
    if c = '\r' then if rest.head? = some '\n' then universalNewlines rest else '\n' :: universalNewlines rest
    else c :: universalNewlines rest

/-- `line.split("--", 1)[0]` -/
def beforeDashes : Str → Str
  | [] => []
  | c :: rest => if c = '-' ∧ rest.head? = some '-' then [] else c :: beforeDashes rest

/-- The steps of an entity: the texts of its `schema` list, or else the statements of its `schema.sql`. -/
def schemaSteps (inline : Option (List Str)) (schemaFile : Option Str) : List Str :=
  match inline with
  | some steps => steps.filter fun step => !(strip step).isEmpty
  | none =>
    match schemaFile with
    | none => []
    | some file =>
      let code := join ((splitlines (universalNewlines file)).map beforeDashes)
      ((code.splitOn ';').filter fun statement => !(strip statement).isEmpty).map strip

/-- Whether the rest of the line is cut once the character is read. -/
def cutAfter (cut : Bool) (c : Char) (ahead : Option Char) : Bool :=
  if c = '\r' ∧ ahead = some '\n' then cut else if endsLine c then false else cut || decide (c = '-' ∧ ahead = some '-')

/-- What is left of a file, every line end a line feed. -/
def uncommented (cut : Bool) : Str → Str
  | [] => []
  | c :: rest =>
    if c = '\r' ∧ rest.head? = some '\n' then uncommented cut rest
    else if endsLine c then '\n' :: uncommented false rest
    else if cut || decide (c = '-' ∧ rest.head? = some '-') then uncommented true rest
    else c :: uncommented false rest

theorem uncommented_cases (cut : Bool) (c : Char) (rest : Str) :
    (c = '\r' ∧ rest.head? = some '\n' ∧ cutAfter cut c rest.head? = cut ∧ uncommented cut (c :: rest) = uncommented cut rest) ∨
    (¬ (c = '\r' ∧ rest.head? = some '\n') ∧ endsLine c = true ∧ cutAfter cut c rest.head? = false ∧
      uncommented cut (c :: rest) = '\n' :: uncommented false rest) ∨
    (endsLine c = false ∧ (cut = true ∨ c = '-' ∧ rest.head? = some '-') ∧ cutAfter cut c rest.head? = true ∧
      uncommented cut (c :: rest) = uncommented true rest) ∨
    (endsLine c = false ∧ cut = false ∧ ¬ (c = '-' ∧ rest.head? = some '-') ∧ cutAfter cut c rest.head? = false ∧
      uncommented cut (c :: rest) = c :: uncommented false rest) := by
  rw [cutAfter, uncommented]
  by_cases hpair : c = '\r' ∧ rest.head? = some '\n'
  · rw [if_pos hpair, if_pos hpair]
    exact .inl ⟨hpair.1, hpair.2, rfl, rfl⟩
  · rw [if_neg hpair, if_neg hpair]
    cases hend : endsLine c with
    | true => exact .inr (.inl ⟨hpair, rfl, rfl, rfl⟩)
    | false =>
      rw [if_neg Bool.false_ne_true, if_neg Bool.false_ne_true]
      by_cases hcut : cut = true ∨ c = '-' ∧ rest.head? = some '-'
      · have hcut' : (cut || decide (c = '-' ∧ rest.head? = some '-')) = true := by simpa using hcut
        rw [hcut', if_pos rfl]
        exact .inr (.inr (.inl ⟨rfl, hcut, rfl, rfl⟩))
      · have hcut' : (cut || decide (c = '-' ∧ rest.head? = some '-')) = false := by simpa using hcut
        rw [hcut', if_neg Bool.false_ne_true]
        rw [not_or, Bool.not_eq_true] at hcut
        exact .inr (.inr (.inr ⟨rfl, hcut.1, hcut.2, rfl, rfl⟩))

variable (text : Str)

private theorem head_uncommented_cut (e : Char) (h : (uncommented true text).head? = some e) : e = '\n' := by
  induction text with
  | nil => cases h
  | cons c text ih =>
    obtain ⟨-, -, -, he⟩ | ⟨-, -, -, he⟩ | ⟨-, -, -, he⟩ | ⟨-, hcut, -⟩ := uncommented_cases true c text
    · exact ih (he ▸ h)
    · rw [he] at h
      exact (Option.some.inj h).symm
    · exact ih (he ▸ h)
    · cases hcut

theorem head_of_uncommented {text : Str} {e : Char} (he : e ≠ '\n') (h : (uncommented false text).head? = some e) :
    text.head? = some e := by
  cases text with
  | nil => cases h
  | cons c text =>
    obtain ⟨-, hahead, -, hread⟩ | ⟨-, -, -, hread⟩ | ⟨-, -, -, hread⟩ | ⟨-, -, -, -, hread⟩ := uncommented_cases false c text
    · rw [hread] at h
      cases text with
      | nil => cases hahead
      | cons d text =>
        obtain rfl := Option.some.inj hahead
        obtain ⟨hd, -⟩ | ⟨-, -, -, hread⟩ | ⟨hend, -⟩ | ⟨hend, -⟩ := uncommented_cases false '\n' text
        · cases hd
        · rw [hread] at h
          exact absurd (Option.some.inj h).symm he
        · cases hend
        · cases hend
    · rw [hread] at h
      exact absurd (Option.some.inj h).symm he
    · rw [hread] at h
      exact absurd (head_uncommented_cut text e h) he
    · rw [hread] at h
      exact h

theorem head_uncommented {text : Str} {e : Char} (he : endsLine e = false) (hdash : e ≠ '-') (h : text.head? = some e) :
    (uncommented false text).head? = some e := by
  cases text with
  | nil => cases h
  | cons c text =>
    obtain rfl := Option.some.inj h
    obtain ⟨hc, -⟩ | ⟨-, hend, -⟩ | ⟨-, hcut, -⟩ | ⟨-, -, -, -, hread⟩ := uncommented_cases false c text
    · exact absurd (hc ▸ he) (by decide)
    · rw [he] at hend
      cases hend
    · exact hcut.elim nofun fun h => absurd h.1 hdash
    · rw [hread]
      rfl

theorem no_dashes (cut : Bool) (text : Str) : ¬ ['-', '-'] <:+: uncommented cut text := by
  induction text generalizing cut with
  | nil => exact fun h => absurd (List.infix_nil.mp h) (by decide)
  | cons c text ih =>
    obtain ⟨-, -, -, hread⟩ | ⟨-, -, -, hread⟩ | ⟨-, -, -, hread⟩ | ⟨-, -, hdash, -, hread⟩ := uncommented_cases cut c text
    · rw [hread]
      exact ih cut
    · rw [hread, List.infix_cons_iff, not_or]
      exact ⟨fun h => absurd (List.cons_prefix_cons.mp h).1 (by decide), ih false⟩
    · rw [hread]
      exact ih true
    · rw [hread, List.infix_cons_iff, not_or]
      refine ⟨fun h => ?_, ih false⟩
      obtain ⟨hc, hrest⟩ := List.cons_prefix_cons.mp h
      have hhead : (uncommented false text).head? = some '-' := by
        obtain ⟨more, hmore⟩ := hrest
        rw [← hmore]
        rfl
      exact hdash ⟨hc.symm, head_of_uncommented (by decide) hhead⟩

theorem mem_uncommented {cut : Bool} {text : Str} {c : Char} (h : c ∈ uncommented cut text) : c = '\n' ∨ endsLine c = false := by
  induction text generalizing cut with
  | nil => cases h
  | cons d text ih =>
    obtain ⟨-, -, -, hread⟩ | ⟨-, -, -, hread⟩ | ⟨-, -, -, hread⟩ | ⟨hend, -, -, -, hread⟩ := uncommented_cases cut d text
    · exact ih (hread ▸ h)
    · rw [hread] at h
      exact (mem_cons.mp h).elim .inl ih
    · exact ih (hread ▸ h)
    · rw [hread] at h
      exact (mem_cons.mp h).elim (fun he => .inr (he ▸ hend)) ih

private theorem head_universalNewlines : (universalNewlines text).head? = some '-' ↔ text.head? = some '-' := by
  cases text with
  | nil => rfl
  | cons c text =>
    rw [universalNewlines]
    split
    · next hc =>
      refine iff_of_false ?_ (by simp [hc])
      split
      · next hahead =>
        cases text with
        | nil => cases hahead
        | cons d text =>
          obtain rfl := Option.some.inj hahead
          rw [universalNewlines, if_neg (by decide)]
          exact fun h => absurd (Option.some.inj h) (by decide)
      · exact fun h => absurd (Option.some.inj h) (by decide)
    · rfl

private theorem return_notMem_universalNewlines : '\r' ∉ universalNewlines text := by
  induction text with
  | nil => exact not_mem_nil
  | cons c text ih =>
    rw [universalNewlines]
    split
    · split
      · exact ih
      · exact not_mem_cons_of_ne_of_not_mem (by decide) ih
    · next hc => exact not_mem_cons_of_ne_of_not_mem (Ne.symm hc) ih

private theorem uncommented_universalNewlines (cut : Bool) (text : Str) : uncommented cut (universalNewlines text) = uncommented cut text := by
  induction text generalizing cut with
  | nil => rfl
  | cons c text ih =>
    rw [universalNewlines]
    by_cases hc : c = '\r'
    · rw [if_pos hc]
      by_cases hahead : text.head? = some '\n'
      · rw [if_pos hahead, ih, uncommented, if_pos ⟨hc, hahead⟩]
      · have hend : endsLine c = true := hc ▸ rfl
        rw [if_neg hahead, uncommented, if_neg (by simp), if_pos (by rfl), ih, uncommented, if_neg fun h => hahead h.2, if_pos hend]
    · have hpair (ahead : Option Char) : ¬ (c = '\r' ∧ ahead = some '\n') := fun h => hc h.1
      rw [if_neg hc, uncommented, uncommented, if_neg (hpair _), if_neg (hpair _), ih, ih]
      simp only [head_universalNewlines]

section
variable {line : Str} (hline : ∀ c ∈ line, endsLine c = false)
include hline

private theorem uncommented_line :
    uncommented false line = beforeDashes line ∧ uncommented true line = [] := by
  induction line with
  | nil => exact ⟨rfl, rfl⟩
  | cons c line ih =>
    obtain ⟨hc, hrest⟩ := forall_mem_cons.mp hline
    obtain ⟨hwhole, hcut⟩ := ih hrest
    have hpair : ¬ (c = '\r' ∧ line.head? = some '\n') := fun h => absurd (h.1 ▸ hc) (by decide)
    constructor
    · rw [uncommented, if_neg hpair, hc, if_neg Bool.false_ne_true, Bool.false_or, beforeDashes, hwhole, hcut]
      simp only [decide_eq_true_eq]
    · rw [uncommented, if_neg hpair, hc, if_neg Bool.false_ne_true, Bool.true_or, if_pos rfl, hcut]

private theorem uncommented_line_append {e : Char} (he : endsLine e = true)
    (hreturn : e ≠ '\r') (rest : Str) :
    uncommented false (line ++ e :: rest) = beforeDashes line ++ '\n' :: uncommented false rest ∧
      uncommented true (line ++ e :: rest) = '\n' :: uncommented false rest := by
  induction line with
  | nil =>
    have hend (cut : Bool) : uncommented cut (e :: rest) = '\n' :: uncommented false rest := by
      rw [uncommented, if_neg fun h => hreturn h.1, if_pos he]
    exact ⟨hend false, hend true⟩
  | cons c line ih =>
    obtain ⟨hc, hrest⟩ := forall_mem_cons.mp hline
    obtain ⟨hwhole, hcut⟩ := ih hrest
    have hpair : ¬ (c = '\r' ∧ (line ++ e :: rest).head? = some '\n') := fun h => absurd (h.1 ▸ hc) (by decide)
    have hahead : (line ++ e :: rest).head? = some '-' ↔ line.head? = some '-' := by
      cases line with
      | nil => exact iff_of_false (fun h => absurd (Option.some.inj h ▸ he) (by decide)) nofun
      | cons d line => rfl
    constructor
    · rw [List.cons_append, uncommented, if_neg hpair, hc, if_neg Bool.false_ne_true, Bool.false_or, beforeDashes, hwhole, hcut]
      simp only [decide_eq_true_eq, hahead]
      split
      · rfl
      · rfl
    · rw [List.cons_append, uncommented, if_neg hpair, hc, if_neg Bool.false_ne_true, Bool.true_or, if_pos rfl, hcut]

end

theorem join_lines {acc text : Str} (hacc : ∀ c ∈ acc, endsLine c = false) (htext : '\r' ∉ text) :
    ∃ tail, (tail = [] ∨ tail = ['\n']) ∧
      uncommented false (acc.reverse ++ text) = join ((cutLines acc text).map beforeDashes) ++ tail := by
  have hline {acc : Str} (h : ∀ c ∈ acc, endsLine c = false) : ∀ c ∈ acc.reverse, endsLine c = false :=
    fun c hc => h c (mem_reverse.mp hc)
  fun_induction cutLines acc text with
  | case1 acc hempty =>
    rw [isEmpty_iff.mp hempty]
    exact ⟨[], .inl rfl, rfl⟩
  | case2 acc hempty =>
    refine ⟨[], .inl rfl, ?_⟩
    rw [append_nil, (uncommented_line (hline hacc)).1, map_cons, map_nil, join, intercalate_singleton,
      append_nil]
  | case3 acc rest ih => exact absurd mem_cons_self htext
  | case4 acc c rest hpair hends ih =>
    have hreturn : c ≠ '\r' := fun h => htext (h ▸ mem_cons_self)
    obtain ⟨tail, htail, hrest⟩ := ih (forall_mem_nil _) fun h => htext (mem_cons_of_mem _ h)
    rw [reverse_nil, nil_append] at hrest
    rw [(uncommented_line_append (hline hacc) hends hreturn rest).1, hrest, map_cons]
    by_cases hlast : cutLines [] rest = []
    · obtain ⟨-, rfl⟩ := cutLines_eq_nil hlast
      refine ⟨['\n'], .inr rfl, ?_⟩
      rw [← hrest, hlast]
      simp [join, uncommented]
    · refine ⟨tail, htail, ?_⟩
      rw [join, join, intercalate_cons_of_ne_nil (by simpa using hlast), append_assoc, append_assoc,
        singleton_append]
  | case5 acc c rest hpair hends ih =>
    obtain ⟨tail, htail, hrest⟩ := ih (forall_mem_cons.mpr ⟨Bool.eq_false_iff.mpr hends, hacc⟩)
      fun h => htext (mem_cons_of_mem _ h)
    refine ⟨tail, htail, ?_⟩
    rw [← hrest, reverse_cons, append_assoc, singleton_append]

private theorem strip_concat : strip (text ++ ['\n']) = strip text := by
  rw [strip, strip, trim, trim, dropWhile_append]
  split
  · next hempty =>
    rw [isEmpty_iff.mp hempty]
    rfl
  · rw [rdropWhile_concat_pos _ _ _ (by rfl)]

/-- Without its blanks a last part is the same with a line feed behind it. -/
theorem map_strip_splitOn_concat :
    ((text ++ ['\n']).splitOn ';').map strip = (text.splitOn ';').map strip := by
  obtain ⟨lines, last, first, rest, htext, hfeed, hboth⟩ := splitOnP_append (fun c : Char => c == ';') text ['\n']
  have hone : (['\n'] : Str).splitOnP (fun c : Char => c == ';') = [['\n']] := by rfl
  rw [hone] at hfeed
  obtain ⟨rfl, rfl⟩ := List.cons.inj hfeed
  rw [splitOn_eq_splitOnP, splitOn_eq_splitOnP, hboth, htext, map_append, map_append, map_singleton,
    map_singleton, strip_concat]

/-- The steps of a schema file are what is left between its semicolons. -/
theorem schemaSteps_eq (file : Str) :
    schemaSteps none (some file) = (((uncommented false file).splitOn ';').map strip).filter (!·.isEmpty) := by
  obtain ⟨tail, htail, hread⟩ := join_lines (forall_mem_nil _) (return_notMem_universalNewlines file)
  rw [reverse_nil, nil_append, uncommented_universalNewlines] at hread
  rw [hread, filter_map]
  have hsteps : ((join ((cutLines [] (universalNewlines file)).map beforeDashes) ++ tail).splitOn ';').map strip =
      ((join ((cutLines [] (universalNewlines file)).map beforeDashes)).splitOn ';').map strip := by
    obtain rfl | rfl := htail
    · rw [append_nil]
    · exact map_strip_splitOn_concat _
  rw [← filter_map, hsteps, filter_map]
  rfl

end SynQt.TopologyWriter
