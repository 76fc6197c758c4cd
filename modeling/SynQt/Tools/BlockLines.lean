import SynQt.Tools.ContractLayout

/-! What the lines of a block are read as, as they stand and once they are stripped. -/
namespace SynQt.ContractGen
open Synqtc List
open YamlEdit (isSpace endsLine splitlines cutLines strip lstrip rstrip)

variable {c : Char}

theorem toNat_of_isIdentChar (hc : isIdentChar c = true) : 33 ≤ c.toNat ∧ c.toNat ≤ 126 := by
  have hle (a b : Char) : a ≤ b ↔ a.toNat ≤ b.toNat := by rw [Char.le_def, UInt32.le_iff_toNat_le]; rfl
  have hupper : ('A').toNat = 65 ∧ ('Z').toNat = 90 := by decide
  have hlower : ('a').toNat = 97 ∧ ('z').toNat = 122 := by decide
  have hdigit : ('0').toNat = 48 ∧ ('9').toNat = 57 := by decide
  simp only [isIdentChar, isIdentStart, isDigit, Bool.or_eq_true, Bool.and_eq_true, decide_eq_true_eq, beq_iff_eq, hle] at hc
  obtain ((h | h) | rfl) | h := hc
  · omega
  · omega
  · decide
  · omega

private theorem toNat_of_isSpace (hc : isSpace c = true) : c.toNat < 33 ∨ 126 < c.toNat := by
  simp only [isSpace, Bool.or_eq_true, Bool.and_eq_true, decide_eq_true_eq, beq_iff_eq] at hc
  omega

private theorem ne_of_isSpace {c d : Char} (hc : isSpace c = true) (hd : 33 ≤ d.toNat ∧ d.toNat ≤ 126) : c ≠ d := by
  rintro rfl
  have hspace := toNat_of_isSpace hc
  omega

theorem isIdentChar_of_isSpace (hc : isSpace c = true) : isIdentChar c = false := by
  cases h : isIdentChar c with
  | false => rfl
  | true => exact absurd rfl (ne_of_isSpace hc (toNat_of_isIdentChar h))

private theorem lexFrom_space (hc : isSpace c = true) {isOpen : Bool} {rest : Line} {read : List Word × Bool}
    (h : lexFrom isOpen 0 (c :: rest) = some read) : lexFrom isOpen 0 rest = some read := by
  have hstar : (c == '*') = false := beq_eq_false_iff_ne.mpr (ne_of_isSpace hc (by decide))
  have hslash : (c == '/') = false := beq_eq_false_iff_ne.mpr (ne_of_isSpace hc (by decide))
  have hmark : marks.contains c = false := by
    rw [← Bool.not_eq_true, contains_iff_mem]
    intro hmem
    have hall : marks.all (fun d => decide (33 ≤ d.toNat ∧ d.toNat ≤ 126)) = true := by decide
    exact ne_of_isSpace hc (of_decide_eq_true (all_eq_true.mp hall c hmem)) rfl
  have hword := isIdentChar_of_isSpace hc
  rw [isIdentChar, Bool.or_eq_false_iff] at hword
  rw [lexFrom] at h
  simp only [hstar, hslash, hmark, hword.1, hword.2, Bool.false_and, Bool.false_eq_true, if_false] at h
  cases isOpen with
  | true => exact h
  | false =>
    simp only [Bool.false_eq_true, if_false] at h
    split at h
    · exact h
    · cases h

variable {line : Line}

theorem lexFrom_lstrip {isOpen : Bool} {read : List Word × Bool} (h : lexFrom isOpen 0 line = some read) :
    lexFrom isOpen 0 (lstrip line) = some read := by
  induction line with
  | nil => exact h
  | cons c line ih =>
    rw [lstrip, dropWhile_cons]
    split
    · rename_i hspace
      exact ih (lexFrom_space hspace h)
    · exact h

private theorem ite_imp {α : Type} {p : Prop} [Decidable p] {a b a' b' : Option α} {r : α} (hpos : p → a = some r → a' = some r)
    (hneg : b = some r → b' = some r) (h : (if p then a else b) = some r) : (if p then a' else b') = some r := by
  split at h
  · rename_i hp
    rw [if_pos hp]
    exact hpos hp h
  · rename_i hp
    rw [if_neg hp]
    exact hneg h

/-- A blank at the end of a line adds nothing to what is read of it. -/
theorem lexFrom_dropLast (hc : isSpace c = true) (hline : '\n' ∉ line ++ [c]) {isOpen : Bool} {skip : Nat}
    (hskip : skip ≤ line.length) {read : List Word × Bool} (h : lexFrom isOpen skip (line ++ [c]) = some read) :
    lexFrom isOpen skip line = some read := by
  induction line generalizing isOpen skip read with
  | nil =>
    obtain rfl := Nat.le_zero.mp hskip
    exact lexFrom_space hc h
  | cons d line ih =>
    have hrest : '\n' ∉ line ++ [c] := fun hmem => hline (mem_cons_of_mem d hmem)
    have ih := @ih hrest
    cases skip with
    | succ skip => exact ih (Nat.le_of_succ_le_succ hskip) h
    | zero =>
      have hhead (e : Char) (he : 33 ≤ e.toNat ∧ e.toNat ≤ 126) : ((line ++ [c]).head? == some e) = (line.head? == some e) := by
        cases line with
        | nil => exact beq_eq_false_iff_ne.mpr fun heq => ne_of_isSpace hc he (Option.some.inj heq)
        | cons _ _ => rfl
      have htake (p : Char → Bool) (hp : p c = false) : (line ++ [c]).takeWhile p = line.takeWhile p :=
        takeWhile_append_stop (fun e he => by cases he; exact hp) line
      have hlength (p : Char → Bool) : (line.takeWhile p).length ≤ line.length := (takeWhile_sublist p).length_le
      have hword := isIdentChar_of_isSpace hc
      have hdigit : isDigit c = false := (Bool.or_eq_false_iff.mp hword).2
      have hhere {isOpen : Bool} {n : Nat} (hn : n ≤ line.length) : lexFrom isOpen n (line ++ [c]) = some read →
          lexFrom isOpen n line = some read := ih hn
      have hprepend {n : Nat} (hn : n ≤ line.length) (w : Word)
          (hread : (lexFrom false n (line ++ [c])).map (prepend [w]) = some read) :
          (lexFrom false n line).map (prepend [w]) = some read := by
        obtain ⟨more, hmore, rfl⟩ := Option.map_eq_some_iff.mp hread
        rw [ih hn hmore, Option.map_some]
      rw [cons_append, lexFrom] at h
      rw [lexFrom]
      simp only [hhead '/' (by decide), hhead '*' (by decide), htake isIdentChar hword, htake isDigit hdigit,
        takeWhile_line hrest, takeWhile_line fun hmem => hrest (mem_append_left _ hmem), lexFrom_length] at h ⊢
      -- the same branch, whether the blank is there or not
      refine ite_imp (fun _ => ite_imp (fun hends => hhere ?_) (hhere (Nat.zero_le _))) ?_ h
      · cases line with
        | nil => simp at hends
        | cons _ _ => exact Nat.succ_le_succ (Nat.zero_le _)
      · refine ite_imp (fun _ => hhere (Nat.zero_le _)) (ite_imp (fun _ => id) (ite_imp (fun _ => hhere (Nat.zero_le _)) ?_))
        refine ite_imp (fun _ => hprepend (Nat.zero_le _) _) (ite_imp (fun _ => hprepend (hlength _) _) ?_)
        exact ite_imp (fun _ => hprepend (hlength _) _) id

private theorem lexFrom_rstrip {isOpen : Bool} (hline : '\n' ∉ line) {read : List Word × Bool}
    (h : lexFrom isOpen 0 line = some read) : lexFrom isOpen 0 (rstrip line) = some read := by
  induction line using List.reverseRecOn with
  | nil => exact h
  | append_singleton line c ih =>
    rw [rstrip, rdropWhile_concat]
    split
    · rename_i hspace
      exact ih (fun hmem => hline (mem_append_left _ hmem)) (lexFrom_dropLast hspace hline (Nat.zero_le _) h)
    · exact h

theorem lexFrom_strip {isOpen : Bool} (hline : '\n' ∉ line) {read : List Word × Bool}
    (h : lexFrom isOpen 0 line = some read) : lexFrom isOpen 0 (strip line) = some read :=
  lexFrom_rstrip (fun hmem => hline ((dropWhile_sublist isSpace).subset hmem)) (lexFrom_lstrip h)

def PlainBreaks (text : Line) : Prop := ∀ c ∈ text, endsLine c = true → c = '\n'

private theorem lexLines_cutLines {chars acc : Line} (hchars : PlainBreaks chars) (hacc : '\n' ∉ acc) (isOpen : Bool) :
    lexLines isOpen (cutLines acc chars) = lexFrom isOpen 0 (acc.reverse ++ chars) := by
  fun_induction cutLines acc chars generalizing isOpen with
  | case1 acc hempty =>
    rw [isEmpty_iff.mp hempty]
    rfl
  | case2 acc hempty =>
    rw [append_nil, lexLines]
    cases lexFrom isOpen 0 acc.reverse with
    | none => rfl
    | some read => simp [lexLines, prepend]
  | case3 acc rest ih =>
    cases hchars '\r' mem_cons_self (by decide)
  | case4 acc c rest hpair hends ih =>
    obtain rfl := hchars c mem_cons_self hends
    have hrest : PlainBreaks rest := fun d hd => hchars d (mem_cons_of_mem _ hd)
    have hline : '\n' ∉ acc.reverse := fun hmem => hacc (mem_reverse.mp hmem)
    rw [lexLines, lexFrom_newline acc.reverse rest isOpen (Nat.zero_le _) hline, continued]
    simp only [ih hrest not_mem_nil, reverse_nil, nil_append]
  | case5 acc c rest hpair hends ih =>
    have hrest : PlainBreaks rest := fun d hd => hchars d (mem_cons_of_mem _ hd)
    have hacc' : '\n' ∉ c :: acc := by
      rw [mem_cons, not_or]
      refine ⟨?_, hacc⟩
      rintro rfl
      exact hends (by decide)
    rw [ih hrest hacc', reverse_cons, append_assoc, singleton_append]

theorem lexLines_splitlines {block : Line} (hblock : PlainBreaks block) (isOpen : Bool) :
    lexLines isOpen (splitlines block) = lexFrom isOpen 0 block :=
  lexLines_cutLines hblock not_mem_nil isOpen

end SynQt.ContractGen
