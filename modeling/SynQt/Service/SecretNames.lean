import SynQt.Client.QmlLexis
import Mathlib.Data.List.Infix

/-! The names whose values are held back from a recorded event, and the letters that rule most names
out before they are searched. -/
namespace SynQt
open List

/-- How Qt folds the case of a unit, given the unit before it in a text. Of the units outside ASCII the long s and
the Kelvin sign are those whose folding is within it. -/
structure CaseFolding where
  foldCase : Option QChar → QChar → Nat
  ascii : ∀ before c, c < 0x80 → foldCase before c = if 0x41 ≤ c ∧ c ≤ 0x5A then c.toNat + 0x20 else c.toNat
  longS : ∀ before, foldCase before 0x17F = 0x73
  kelvin : ∀ before, foldCase before 0x212A = 0x6B
  others : ∀ before c, 0x80 ≤ c → c ≠ 0x17F → c ≠ 0x212A → 0x80 ≤ foldCase before c

namespace CaseFolding
variable (folding : CaseFolding)

def folded (before : Option QChar) : Text → List Nat
  | [] => []
  | c :: rest => folding.foldCase before c :: folded (some c) rest

/-- `QString::contains`, with the case left out of account. -/
def contains (name needle : Text) : Bool :=
  name.tails.any fun rest => folding.folded none (rest.take needle.length) == folding.folded none needle

private theorem mem_folded {before : Option QChar} {text : Text} {n : Nat} (h : n ∈ folding.folded before text) :
    ∃ previous, ∃ c ∈ text, folding.foldCase previous c = n := by
  induction text generalizing before with
  | nil => cases h
  | cons c rest ih =>
    rcases mem_cons.mp h with rfl | hrest
    · exact ⟨before, c, mem_cons_self, rfl⟩
    · obtain ⟨previous, d, hd, hfold⟩ := ih hrest
      exact ⟨previous, d, mem_cons_of_mem c hd, hfold⟩

private theorem folded_mem (before : Option QChar) {text : Text} {c : QChar} (h : c ∈ text) :
    ∃ previous, folding.foldCase previous c ∈ folding.folded before text := by
  induction text generalizing before with
  | nil => cases h
  | cons d rest ih =>
    rcases mem_cons.mp h with rfl | hrest
    · exact ⟨before, mem_cons_self⟩
    · obtain ⟨previous, hin⟩ := ih (some d) hrest
      exact ⟨previous, mem_cons_of_mem _ hin⟩

private theorem contains_mem {name needle : Text} (h : folding.contains name needle = true) {c : QChar} (hc : c ∈ needle) :
    ∃ before previous, ∃ d ∈ name, folding.foldCase before d = folding.foldCase previous c := by
  obtain ⟨rest, hrest, hsame⟩ := any_eq_true.mp h
  obtain ⟨previous, hin⟩ := folding.folded_mem none hc
  rw [← beq_iff_eq.mp hsame] at hin
  obtain ⟨before, d, hd, hfold⟩ := folding.mem_folded hin
  exact ⟨before, previous, d, ((mem_tails _ _).mp hrest).subset (mem_of_mem_take hd), hfold⟩

end CaseFolding

namespace Tracer

def lowerCase (c : QChar) : QChar := if 0x41 ≤ c ∧ c ≤ 0x5A then c + 0x20 else c

/-- The unit is a letter of ASCII, in lower case. -/
def IsLower (c : QChar) : Prop := 0x61 ≤ c ∧ c ≤ 0x7A
deriving Decidable

def letterMask (text : Text) : BitVec 32 :=
  text.foldl (fun mask character =>
    let code := lowerCase character
    if IsLower code then mask ||| 1#32 <<< (code - 0x61).toNat else mask) 0#32

def secretAttributeNames : List Text := [
  utf16 "password", utf16 "passphrase", utf16 "secret", utf16 "token", utf16 "authorization", utf16 "cookie",
  utf16 "credential", utf16 "apikey", utf16 "api_key", utf16 "api-key", utf16 "privatekey", utf16 "private_key",
  utf16 "private-key", utf16 "bearer"]

def secretMasks : List (BitVec 32) := secretAttributeNames.map letterMask

def isSecretAttributeName (folding : CaseFolding) (name : Text) : Bool :=
  (secretMasks.zip secretAttributeNames).any fun (mask, needle) =>
    letterMask name &&& mask == mask && folding.contains name needle

variable {c : QChar}

private theorem toNat_sub_lower (h : IsLower c) : (c - 0x61).toNat = c.toNat - 97 := UInt16.toNat_sub_of_le c 0x61 h.1

theorem IsLower.bounds (h : IsLower c) : 97 ≤ c.toNat ∧ c.toNat ≤ 122 :=
  ⟨UInt16.le_iff_toNat_le.mp h.1, UInt16.le_iff_toNat_le.mp h.2⟩

private theorem mem_letterMask (text : Text) (i : Nat) :
    (letterMask text).getLsbD i = true ↔ ∃ c ∈ text, IsLower (lowerCase c) ∧ i = (lowerCase c - 0x61).toNat := by
  have hfold (mask : BitVec 32) : (text.foldl (fun mask character =>
      let code := lowerCase character
      if IsLower code then mask ||| 1#32 <<< (code - 0x61).toNat else mask) mask).getLsbD i = true ↔
        mask.getLsbD i = true ∨ ∃ c ∈ text, IsLower (lowerCase c) ∧ i = (lowerCase c - 0x61).toNat := by
    induction text generalizing mask with
    | nil => simp
    | cons c rest ih =>
      rw [foldl_cons, ih, exists_mem_cons_iff]
      dsimp only
      by_cases hletter : IsLower (lowerCase c)
      · have hbelow : (lowerCase c - 0x61).toNat < 32 := by
          have hbounds := hletter.bounds
          rw [toNat_sub_lower hletter]
          omega
        rw [if_pos hletter, BitVec.getLsbD_or, Bool.or_eq_true, or_assoc, ← BitVec.twoPow_eq, BitVec.getLsbD_twoPow]
        simp only [hletter, true_and, Bool.and_eq_true, decide_eq_true_eq, hbelow, eq_comm (a := i)]
      · have hnone : ¬ (IsLower (lowerCase c) ∧ i = (lowerCase c - 0x61).toNat) := fun h => hletter h.1
        rw [if_neg hletter, or_iff_right hnone]
  rw [letterMask, hfold, BitVec.getLsbD_zero]
  simp

/-- A mask passes exactly where the name has every letter of the needle as a letter of ASCII. -/
theorem masked_iff (name needle : Text) :
    letterMask name &&& letterMask needle = letterMask needle ↔
      ∀ c ∈ needle, IsLower (lowerCase c) → ∃ d ∈ name, lowerCase d = lowerCase c := by
  constructor
  · intro h c hc hletter
    have hbit : (letterMask needle).getLsbD (lowerCase c - 0x61).toNat = true :=
      (mem_letterMask needle _).mpr ⟨c, hc, hletter, rfl⟩
    rw [← h, BitVec.getLsbD_and, Bool.and_eq_true] at hbit
    obtain ⟨d, hd, hlower, hsame⟩ := (mem_letterMask name _).mp hbit.1
    refine ⟨d, hd, UInt16.toNat_inj.mp ?_⟩
    rw [toNat_sub_lower hletter, toNat_sub_lower hlower] at hsame
    have hleft := hletter.bounds
    have hright := hlower.bounds
    omega
  · intro h
    refine BitVec.eq_of_getLsbD_eq fun i _ => ?_
    rw [BitVec.getLsbD_and]
    cases hbit : (letterMask needle).getLsbD i with
    | false => rw [Bool.and_false]
    | true =>
      obtain ⟨c, hc, hletter, hi⟩ := (mem_letterMask needle i).mp hbit
      obtain ⟨d, hd, hsame⟩ := h c hc hletter
      rw [(mem_letterMask name i).mpr ⟨d, hd, by rw [hsame]; exact hletter, by rw [hsame]; exact hi⟩, Bool.and_true]

/-- The letters that a unit outside ASCII folds to are written as letters of ASCII somewhere in the name. -/
def Spelt (name needle : Text) : Prop :=
  ∀ c, (c = 0x73 ∨ c = 0x6B) → c ∈ needle → ∃ d ∈ name, lowerCase d = c

theorem needle_ascii {needle : Text} (h : needle ∈ secretAttributeNames) (hc : c ∈ needle) :
    c < 0x80 ∧ lowerCase c = c := by
  have hall : (secretAttributeNames.all fun needle => needle.all fun c => decide (c < 0x80 ∧ lowerCase c = c)) = true := by
    decide
  exact decide_eq_true_eq.mp (all_eq_true.mp (all_eq_true.mp hall needle h) c hc)

variable (folding : CaseFolding)

theorem foldCase_ascii (before : Option QChar) (h : c < 0x80) :
    folding.foldCase before c = (lowerCase c).toNat := by
  rw [folding.ascii before c h, lowerCase]
  split
  · next hupper =>
    have hle := UInt16.le_iff_toNat_le.mp hupper.2
    have hbound : c.toNat ≤ 90 := hle
    rw [UInt16.toNat_add]
    exact (Nat.mod_eq_of_lt (Nat.lt_of_le_of_lt (Nat.add_le_add_right hbound 32) (by decide))).symm
  · rfl

/-- A unit that folds to a letter of ASCII is that letter, or a long s or a Kelvin sign. -/
theorem foldCase_letter {before : Option QChar} {c d : QChar} (hc : c < 0x80)
    (h : folding.foldCase before d = c.toNat) :
    lowerCase d = c ∨ (c = 0x73 ∧ d = 0x17F) ∨ (c = 0x6B ∧ d = 0x212A) := by
  by_cases hascii : d < 0x80
  · rw [foldCase_ascii folding before hascii] at h
    exact .inl (UInt16.toNat_inj.mp h)
  by_cases hlong : d = 0x17F
  · rw [hlong, folding.longS] at h
    exact .inr (.inl ⟨UInt16.toNat_inj.mp h.symm, hlong⟩)
  by_cases hkelvin : d = 0x212A
  · rw [hkelvin, folding.kelvin] at h
    exact .inr (.inr ⟨UInt16.toNat_inj.mp h.symm, hkelvin⟩)
  have hfar := folding.others before d (UInt16.not_lt.mp hascii) hlong hkelvin
  have hnear := UInt16.lt_iff_toNat_lt.mp hc
  rw [h] at hfar
  exact absurd hnear (Nat.not_lt.mpr hfar)

private theorem masked_spelt {name needle : Text} (hneedle : needle ∈ secretAttributeNames)
    (h : folding.contains name needle = true) :
    letterMask name &&& letterMask needle = letterMask needle ↔ Spelt name needle := by
  rw [masked_iff]
  constructor
  · intro hmasked c hletter hc
    obtain ⟨-, hlower⟩ := needle_ascii hneedle hc
    have hsmall : IsLower (lowerCase c) := by
      rw [hlower]
      rcases hletter with rfl | rfl
      · decide
      · decide
    obtain ⟨d, hd, hsame⟩ := hmasked c hc hsmall
    exact ⟨d, hd, hsame.trans hlower⟩
  · intro hspelt c hc _
    obtain ⟨hascii, hlower⟩ := needle_ascii hneedle hc
    obtain ⟨before, previous, d, hd, hfold⟩ := folding.contains_mem h hc
    rw [foldCase_ascii folding previous hascii, hlower] at hfold
    rw [hlower]
    rcases foldCase_letter folding hascii hfold with hsame | hfar
    · exact ⟨d, hd, hsame⟩
    · exact hspelt c (hfar.imp And.left And.left) hc

theorem isSecretAttributeName_eq (name : Text) :
    isSecretAttributeName folding name = true ↔
      ∃ needle ∈ secretAttributeNames, folding.contains name needle = true ∧ Spelt name needle := by
  have hpairs : secretMasks.zip secretAttributeNames = secretAttributeNames.map fun needle => (letterMask needle, needle) := by
    have hzip := @List.zip_map' _ _ _ letterMask id secretAttributeNames
    rwa [map_id] at hzip
  rw [isSecretAttributeName, hpairs, any_map, any_eq_true]
  constructor
  · rintro ⟨needle, hin, h⟩
    obtain ⟨hmasked, hcontains⟩ := Bool.and_eq_true_iff.mp h
    exact ⟨needle, hin, hcontains, (masked_spelt folding hin hcontains).mp (beq_iff_eq.mp hmasked)⟩
  · rintro ⟨needle, hin, hcontains, hspelt⟩
    exact ⟨needle, hin, Bool.and_eq_true_iff.mpr ⟨beq_iff_eq.mpr ((masked_spelt folding hin hcontains).mpr hspelt), hcontains⟩⟩

def Matched (folding : CaseFolding) (name : Text) : Prop :=
  ∃ needle ∈ secretAttributeNames, folding.contains name needle = true

/-- The filter changes no answer exactly where no needle occurs, or one does whose letters are spelt in ASCII. -/
theorem isSecretAttributeName_iff (folding : CaseFolding) (name : Text) :
    (isSecretAttributeName folding name = true ↔ Matched folding name) ↔
      ¬ Matched folding name ∨
        ∃ needle ∈ secretAttributeNames, folding.contains name needle = true ∧ Spelt name needle := by
  rw [isSecretAttributeName_eq]
  constructor
  · intro h
    by_cases hmatched : Matched folding name
    · exact .inr (h.mpr hmatched)
    · exact .inl hmatched
  · rintro (hnone | hspelt)
    · exact iff_of_false (fun hspelt => hnone (hspelt.imp fun _ h => ⟨h.1, h.2.1⟩)) hnone
    · exact iff_of_true hspelt (hspelt.imp fun _ h => ⟨h.1, h.2.1⟩)

/-- Folding that goes no further than ASCII and the two signs. -/
def plainFolding : CaseFolding where
  foldCase _ c :=
    if c = 0x17F then 0x73 else if c = 0x212A then 0x6B
    else if 0x41 ≤ c ∧ c ≤ 0x5A then c.toNat + 0x20 else c.toNat
  ascii _ c h := by
    have hlong : c ≠ 0x17F := by rintro rfl; exact absurd h (by decide)
    have hkelvin : c ≠ 0x212A := by rintro rfl; exact absurd h (by decide)
    rw [if_neg hlong, if_neg hkelvin]
  longS _ := rfl
  kelvin _ := rfl
  others _ c h hlong hkelvin := by
    rw [if_neg hlong, if_neg hkelvin]
    have hnat : 128 ≤ c.toNat := UInt16.le_iff_toNat_le.mp h
    split
    · exact Nat.le_add_right_of_le hnat
    · exact hnat

/-- `password` with both its s long: the search finds it, and the filter says it has no s. -/
def longPassword : Text := [0x70, 0x61, 0x17F, 0x17F, 0x77, 0x6F, 0x72, 0x64]

theorem longPassword_unfiltered :
    ¬ (isSecretAttributeName plainFolding longPassword = true ↔ Matched plainFolding longPassword) := by
  have hmissed : isSecretAttributeName plainFolding longPassword = false := by decide
  have hmatched : Matched plainFolding longPassword := ⟨utf16 "password", by decide, by decide⟩
  rw [hmissed]
  exact fun h => Bool.false_ne_true (h.mpr hmatched)

end Tracer
end SynQt
