import Mathlib.Data.List.Basic

/-! Values written one after another, and the reader that stops at the first that does not parse. -/
namespace SynQt.Lib
open List
universe u v

structure Codec (β : Type u) (α : Type v) where
  Fits : α → Prop
  encode : α → List β
  decode : List β → Option (α × List β)
  roundtrip : ∀ a, Fits a → ∀ rest, decode (encode a ++ rest) = some (a, rest)
  /-- A value cut short does not read as one. -/
  torn : ∀ a, Fits a → ∀ n, n < (encode a).length → decode ((encode a).take n) = none
  shrinks : ∀ input a rest, decode input = some (a, rest) → rest.length < input.length

namespace Codec
variable {β : Type u} {α : Type v} (codec : Codec β α)

def encodeAll (l : List α) : List β := l.flatMap codec.encode

def decodeUpTo : Nat → List β → List α
  | 0, _ => []
  | fuel + 1, input =>
    if input.isEmpty then []
    else match codec.decode input with
      | none => []
      | some (a, rest) => a :: decodeUpTo fuel rest

/-- Every value up to the end of the input, or to the first that does not parse. -/
def decodeAll (input : List β) : List α := codec.decodeUpTo input.length input

variable {codec}

private theorem decodeUpTo_nil (fuel : Nat) : codec.decodeUpTo fuel [] = [] := by
  cases fuel <;> rfl

private theorem decodeUpTo_congr (fuel fuel' : Nat) (input : List β) (h : input.length ≤ fuel) (h' : input.length ≤ fuel') :
    codec.decodeUpTo fuel input = codec.decodeUpTo fuel' input := by
  induction fuel generalizing fuel' input with
  | zero =>
    rw [length_eq_zero_iff.mp (Nat.le_zero.mp h), decodeUpTo_nil, decodeUpTo_nil]
  | succ fuel ih =>
    cases fuel' with
    | zero => rw [length_eq_zero_iff.mp (Nat.le_zero.mp h'), decodeUpTo_nil, decodeUpTo_nil]
    | succ fuel' =>
      rw [decodeUpTo, decodeUpTo]
      split
      · rfl
      · cases hdecode : codec.decode input with
        | none => rfl
        | some found =>
          have hshort := codec.shrinks input found.1 found.2 hdecode
          exact congrArg _ (ih fuel' found.2 (by omega) (by omega))

/-- The reader is its loop: it stops at the end, or reads one value and goes on. -/
theorem decodeAll_eq (input : List β) :
    codec.decodeAll input =
      if input.isEmpty then []
      else match codec.decode input with
        | none => []
        | some (a, rest) => a :: codec.decodeAll rest := by
  cases hinput : input with
  | nil => rfl
  | cons b tail =>
    rw [← hinput, decodeAll, decodeUpTo_congr input.length (tail.length + 1) input (Nat.le_refl _) (by simp [hinput]),
      decodeUpTo]
    split
    · rfl
    · cases hdecode : codec.decode input with
      | none => rfl
      | some found =>
        have hshort := codec.shrinks input found.1 found.2 hdecode
        rw [hinput, length_cons] at hshort
        exact congrArg _ (decodeUpTo_congr _ _ _ (by omega) (Nat.le_refl _))

private theorem encode_ne_nil {a : α} (h : codec.Fits a) : codec.encode a ≠ [] := by
  intro hnil
  have hread := codec.roundtrip a h []
  rw [hnil] at hread
  exact absurd (codec.shrinks _ _ _ hread) (Nat.not_lt_zero _)

@[simp] theorem encodeAll_nil : codec.encodeAll [] = [] := rfl

theorem encodeAll_cons (a : α) (l : List α) : codec.encodeAll (a :: l) = codec.encode a ++ codec.encodeAll l := rfl

theorem encodeAll_append (l l' : List α) : codec.encodeAll (l ++ l') = codec.encodeAll l ++ codec.encodeAll l' :=
  flatMap_append

theorem encodeAll_singleton (a : α) : codec.encodeAll [a] = codec.encode a := by
  rw [encodeAll_cons, encodeAll_nil, append_nil]

variable {l : List α}

private theorem decodeAll_encodeAll_append (h : ∀ a ∈ l, codec.Fits a) (tail : List β) :
    codec.decodeAll (codec.encodeAll l ++ tail) = l ++ codec.decodeAll tail := by
  induction l with
  | nil => rfl
  | cons a l ih =>
    have hfits := h a (.head _)
    have hread := codec.roundtrip a hfits (codec.encodeAll l ++ tail)
    rw [encodeAll_cons, append_assoc, decodeAll_eq, if_neg, hread]
    · exact congrArg _ (ih fun b hb => h b (.tail _ hb))
    · rw [List.isEmpty_iff, List.append_eq_nil_iff]
      exact fun hnil => encode_ne_nil hfits hnil.1

theorem decodeAll_encodeAll (h : ∀ a ∈ l, codec.Fits a) : codec.decodeAll (codec.encodeAll l) = l := by
  have hall := decodeAll_encodeAll_append h []
  rw [append_nil] at hall
  exact hall.trans (append_nil l)

/-- The part of a value at the end is not read. -/
theorem decodeAll_torn {a : α} (h : codec.Fits a) {m : Nat} (hm : m < (codec.encode a).length) :
    codec.decodeAll ((codec.encode a).take m) = [] := by
  rw [decodeAll_eq, codec.torn a h m hm]
  split <;> rfl

/-- The values that end within the first so many places of the stream. -/
def wholeWithin (codec : Codec β α) : Nat → List α → List α
  | _, [] => []
  | n, a :: l =>
    if (codec.encode a).length ≤ n then a :: wholeWithin codec (n - (codec.encode a).length) l else []

theorem wholeWithin_subset (n : Nat) (l : List α) : codec.wholeWithin n l ⊆ l := by
  induction l generalizing n with
  | nil => exact List.Subset.refl []
  | cons a l ih =>
    rw [wholeWithin]
    split
    · exact cons_subset_cons a (ih _)
    · exact nil_subset _

/-- A stream cut anywhere is the values that end before the cut, and then part of the next, if there is one. -/
theorem take_encodeAll (n : Nat) (l : List α) :
    ∃ part, (codec.encodeAll l).take n = codec.encodeAll (codec.wholeWithin n l) ++ part ∧
      (part = [] ∨ ∃ a ∈ l, ∃ m < (codec.encode a).length, part = (codec.encode a).take m) := by
  induction l generalizing n with
  | nil => exact ⟨[], take_nil, .inl rfl⟩
  | cons a l ih =>
    rw [wholeWithin]
    by_cases hn : (codec.encode a).length ≤ n
    · obtain ⟨part, htake, hpart⟩ := ih (n - (codec.encode a).length)
      rw [if_pos hn]
      refine ⟨part, ?_, hpart.imp_right fun ⟨b, hb, m, hm, heq⟩ => ⟨b, .tail _ hb, m, hm, heq⟩⟩
      rw [encodeAll_cons, encodeAll_cons, take_append, take_of_length_le hn, append_assoc, htake]
    · rw [if_neg hn]
      refine ⟨(codec.encode a).take n, ?_, .inr ⟨a, .head _, n, Nat.not_le.mp hn, rfl⟩⟩
      rw [encodeAll_cons, take_append_of_le_length (Nat.le_of_not_le hn)]
      rfl

theorem decodeAll_take (h : ∀ a ∈ l, codec.Fits a) (n : Nat) :
    codec.decodeAll ((codec.encodeAll l).take n) = codec.wholeWithin n l := by
  obtain ⟨part, htake, hpart⟩ := codec.take_encodeAll n l
  have hread : codec.decodeAll part = [] := by
    obtain rfl | ⟨a, ha, m, hm, rfl⟩ := hpart
    · rfl
    · exact decodeAll_torn (h a ha) hm
  rw [htake, decodeAll_encodeAll_append fun a ha => h a (wholeWithin_subset n l ha), hread, append_nil]

/-- A cut between two values leaves only whole ones. -/
theorem take_eq_encodeAll {n : Nat}
    (h : min n (codec.encodeAll l).length = (codec.encodeAll (codec.wholeWithin n l)).length) :
    (codec.encodeAll l).take n = codec.encodeAll (codec.wholeWithin n l) := by
  obtain ⟨part, htake, -⟩ := codec.take_encodeAll n l
  have hlength := congrArg List.length htake
  rw [length_take, length_append, h] at hlength
  have hnil : part = [] := eq_nil_of_length_eq_zero (by omega)
  rw [htake, hnil, append_nil]

/-- The same values, each behind a tag that is read and compared first. -/
def tagged [DecidableEq β] (tag : List β) (codec : Codec β α) : Codec β α where
  Fits := codec.Fits
  encode a := tag ++ codec.encode a
  decode input := if input.take tag.length = tag then codec.decode (input.drop tag.length) else none
  roundtrip a ha rest := by
    rw [append_assoc, take_left, if_pos rfl, drop_left]
    exact codec.roundtrip a ha rest
  torn a ha n hn := by
    by_cases hshort : n < tag.length
    · rw [if_neg]
      intro heq
      have hlength := congrArg List.length heq
      simp only [length_take, length_append] at hlength
      omega
    · rw [take_take, Nat.min_eq_left (Nat.not_lt.mp hshort), take_left, if_pos rfl, drop_take, drop_left]
      refine codec.torn a ha _ ?_
      rw [length_append] at hn
      omega
  shrinks input a rest h := by
    split at h
    · have hshort := codec.shrinks _ _ _ h
      rw [length_drop] at hshort
      omega
    · cases h

def decodeN (codec : Codec β α) : Nat → List β → Option (List α × List β)
  | 0, input => some ([], input)
  | n + 1, input =>
    match codec.decode input with
    | none => none
    | some (a, rest) => (codec.decodeN n rest).map fun read => (a :: read.1, read.2)

private theorem decodeN_encodeAll (h : ∀ a ∈ l, codec.Fits a) (rest : List β) :
    codec.decodeN l.length (codec.encodeAll l ++ rest) = some (l, rest) := by
  induction l with
  | nil => rfl
  | cons a l ih =>
    have hread := codec.roundtrip a (h a (.head _)) (codec.encodeAll l ++ rest)
    rw [encodeAll_cons, append_assoc, length_cons, decodeN, hread]
    simp only [ih fun b hb => h b (.tail _ hb), Option.map_some]

private theorem decodeN_torn (h : ∀ a ∈ l, codec.Fits a) {n : Nat} (hn : n < (codec.encodeAll l).length) :
    codec.decodeN l.length ((codec.encodeAll l).take n) = none := by
  induction l generalizing n with
  | nil => exact absurd hn (Nat.not_lt_zero n)
  | cons a l ih =>
    have hfits := h a (.head _)
    rw [encodeAll_cons, length_append] at hn
    rw [encodeAll_cons, length_cons, decodeN]
    by_cases hshort : n < (codec.encode a).length
    · rw [take_append_of_le_length (Nat.le_of_lt hshort), codec.torn a hfits n hshort]
    · rw [take_append, take_of_length_le (Nat.not_lt.mp hshort), codec.roundtrip a hfits]
      simp only [ih (fun b hb => h b (.tail _ hb)) (n := n - (codec.encode a).length) (by omega), Option.map_none]

private theorem decodeN_length_le (n : Nat) (input : List β) {read : List α × List β} (h : codec.decodeN n input = some read) :
    read.2.length ≤ input.length := by
  induction n generalizing input read with
  | zero => exact Option.some.inj h ▸ Nat.le_refl _
  | succ n ih =>
    rw [decodeN] at h
    cases hdecode : codec.decode input with
    | none =>
      rw [hdecode] at h
      cases h
    | some found =>
      rw [hdecode] at h
      obtain ⟨later, hlater, rfl⟩ := Option.map_eq_some_iff.mp h
      have hshort := codec.shrinks input found.1 found.2 hdecode
      have hle := ih found.2 hlater
      simp only
      omega

def word32 (n : Nat) : List UInt8 := [.ofNat (n / 16777216), .ofNat (n / 65536), .ofNat (n / 256), .ofNat n]

def readWord32 : List UInt8 → Option (Nat × List UInt8)
  | a :: b :: c :: d :: rest => some (a.toNat * 16777216 + b.toNat * 65536 + c.toNat * 256 + d.toNat, rest)
  | _ => none

private theorem readWord32_word32 {n : Nat} (h : n < 4294967296) (rest : List UInt8) :
    readWord32 (word32 n ++ rest) = some (n, rest) := by
  simp only [word32, readWord32, cons_append, nil_append, UInt8.toNat_ofNat', Option.some.injEq, Prod.mk.injEq,
    and_true]
  omega

def counted (item : Codec UInt8 α) : Codec UInt8 (List α) where
  Fits l := l.length < 4294967296 ∧ ∀ a ∈ l, item.Fits a
  encode l := word32 l.length ++ item.encodeAll l
  decode input := (readWord32 input).bind fun count => item.decodeN count.1 count.2
  roundtrip l hl rest := by
    rw [append_assoc, readWord32_word32 hl.1]
    exact decodeN_encodeAll hl.2 rest
  torn l hl n hn := by
    by_cases hshort : n < 4
    · obtain rfl | rfl | rfl | rfl : n = 0 ∨ n = 1 ∨ n = 2 ∨ n = 3 := by omega
      all_goals rfl
    · have hlength : (word32 l.length).length = 4 := rfl
      rw [length_append, hlength] at hn
      rw [take_append, take_of_length_le (by omega), readWord32_word32 hl.1]
      exact decodeN_torn hl.2 (by omega)
  shrinks input l rest h := by
    obtain ⟨count, hcount, hread⟩ := Option.bind_eq_some_iff.mp h
    have hle := decodeN_length_le _ _ hread
    rw [readWord32.eq_def] at hcount
    split at hcount
    · cases hcount
      simp only [length_cons] at hle ⊢
      omega
    · cases hcount

end Codec
end SynQt.Lib
