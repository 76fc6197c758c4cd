import SynQt.Lib.Url

/-! Percent-encoding: the bytes a text spells, how a text is written so that it spells given bytes, and how they are read back. -/
namespace SynQt.Lib.Percent
open List

def utf8 (text : List Char) : List UInt8 := text.flatMap String.utf8EncodeChar

def hexValue (c : Char) : Option Nat :=
  if 0x30 ≤ c.toNat ∧ c.toNat ≤ 0x39 then some (c.toNat - 0x30)
  else if 0x41 ≤ c.toNat ∧ c.toNat ≤ 0x46 then some (c.toNat - 0x37)
  else if 0x61 ≤ c.toNat ∧ c.toNat ≤ 0x66 then some (c.toNat - 0x57)
  else none

/-- A percent sign stands with two digits for a byte, and every other character for itself. -/
inductive Spells : List Char → List UInt8 → Prop
  | nil : Spells [] []
  | plain {c : Char} {text : List Char} {bytes : List UInt8} (hc : c ≠ '%') (htext : Spells text bytes) :
    Spells (c :: text) (String.utf8EncodeChar c ++ bytes)
  | escape {a b : Char} {high low : Nat} {text : List Char} {bytes : List UInt8} (ha : hexValue a = some high)
    (hb : hexValue b = some low) (htext : Spells text bytes) :
    Spells ('%' :: a :: b :: text) (UInt8.ofNat (16 * high + low) :: bytes)

/-- The byte of the escape that a character begins, if it begins one. -/
def escaped (c : Char) : List Char → Option UInt8
  | a :: b :: _ =>
    if c = '%' then (hexValue a).bind fun high => (hexValue b).map fun low => UInt8.ofNat (16 * high + low) else none
  | _ => none

/-- The bytes of a text, its escapes read and what is no escape kept as it is. A reading that is done with
an escape skips its digits. -/
def unescapeFrom : Nat → List Char → List UInt8
  | _, [] => []
  | skip + 1, _ :: rest => unescapeFrom skip rest
  | 0, c :: rest =>
    match escaped c rest with
    | some byte => byte :: unescapeFrom 2 rest
    | none => String.utf8EncodeChar c ++ unescapeFrom 0 rest

def unescape (text : List Char) : List UInt8 := unescapeFrom 0 text

/-- The text whose bytes are spelled; what is no text's bytes is left to `lossy`. -/
def decode (lossy : List UInt8 → List Char) (text : List Char) : List Char :=
  match (unescape text).toByteArray.utf8Decode? with
  | some chars => chars.toList
  | none => lossy (unescape text)

def encodeChar (plain : Char → Bool) (c : Char) : List Char :=
  if plain c then [c] else (String.utf8EncodeChar c).flatMap fun byte => Url.percentEncodeByte byte.toNat

def encode (plain : Char → Bool) (text : List Char) : List Char := text.flatMap (encodeChar plain)

private theorem utf8_append (text more : List Char) : utf8 (text ++ more) = utf8 text ++ utf8 more := flatMap_append

theorem Spells.append {text more : List Char} {bytes others : List UInt8} (h : Spells text bytes) (hmore : Spells more others) :
    Spells (text ++ more) (bytes ++ others) := by
  induction h with
  | nil => exact hmore
  | plain hc _ ih =>
    rw [cons_append, append_assoc]
    exact .plain hc ih
  | escape ha hb _ ih => exact .escape ha hb ih

variable {text : List Char}

theorem spells_self (h : '%' ∉ text) : Spells text (utf8 text) := by
  induction text with
  | nil => exact .nil
  | cons c text ih =>
    rw [mem_cons, not_or] at h
    exact .plain (Ne.symm h.1) (ih h.2)

theorem spells_intercalate (c : Char) (hc : c ≠ '%') {texts values : List (List Char)}
    (h : List.Forall₂ (fun text value => Spells text (utf8 value)) texts values) :
    Spells ([c].intercalate texts) (utf8 ([c].intercalate values)) := by
  induction h with
  | nil => exact .nil
  | cons hfirst hrest ih =>
    cases hrest with
    | nil =>
      rw [intercalate_singleton, intercalate_singleton]
      exact hfirst
    | cons hsecond hrest =>
      rw [intercalate_cons_of_ne_nil (cons_ne_nil _ _), intercalate_cons_of_ne_nil (cons_ne_nil _ _),
        utf8_append, utf8_append]
      exact (hfirst.append (spells_self (by simpa using hc.symm))).append ih

private theorem hexValue_hexDigit {n : Nat} (h : n < 16) : hexValue (Url.hexDigit n) = some n := by
  interval_cases n <;> decide

private theorem spells_percentEncodeByte (byte : UInt8) : Spells (Url.percentEncodeByte byte.toNat) [byte] := by
  have hlt := byte.toNat_lt
  have hspelled := Spells.escape (hexValue_hexDigit (n := byte.toNat / 16) (by omega))
    (hexValue_hexDigit (n := byte.toNat % 16) (by omega)) .nil
  rw [Nat.div_add_mod, UInt8.ofNat_toNat] at hspelled
  exact hspelled

private theorem spells_bytes (bytes : List UInt8) : Spells (bytes.flatMap fun byte => Url.percentEncodeByte byte.toNat) bytes := by
  induction bytes with
  | nil => exact .nil
  | cons byte bytes ih => exact (spells_percentEncodeByte byte).append ih

theorem spells_encode {plain : Char → Bool} (hplain : plain '%' = false) (text : List Char) :
    Spells (encode plain text) (utf8 text) := by
  induction text with
  | nil => exact .nil
  | cons c text ih =>
    refine Spells.append ?_ ih
    rw [encodeChar]
    split
    · next hc =>
      have hne : c ≠ '%' := fun he => Bool.eq_false_iff.mp hplain (he ▸ hc)
      simpa using Spells.plain hne .nil
    · exact spells_bytes _

private theorem hexDigit_plain {n : Nat} (h : n < 16) : (Url.hexDigit n).isAlphanum = true := by
  interval_cases n <;> decide

/-- What is written are the plain characters, percent signs, and letters and digits. -/
theorem mem_encode {plain : Char → Bool} {c : Char} (h : c ∈ encode plain text) :
    plain c = true ∨ c = '%' ∨ c.isAlphanum = true := by
  obtain ⟨d, -, hc⟩ := mem_flatMap.mp h
  rw [encodeChar] at hc
  split at hc
  · next hd => exact .inl (mem_singleton.mp hc ▸ hd)
  · obtain ⟨byte, -, hc⟩ := mem_flatMap.mp hc
    have hlt := byte.toNat_lt
    simp only [Url.percentEncodeByte, mem_cons, not_mem_nil, or_false] at hc
    obtain hc | hc | hc := hc
    · exact .inr (.inl hc)
    · exact .inr (.inr (hc ▸ hexDigit_plain (by omega)))
    · exact .inr (.inr (hc ▸ hexDigit_plain (by omega)))

private theorem escaped_of_ne {c : Char} (h : c ≠ '%') (rest : List Char) : escaped c rest = none := by
  cases rest with
  | nil => rfl
  | cons a rest =>
    cases rest with
    | nil => rfl
    | cons b rest => rw [escaped, if_neg h]

private theorem Spells.unescape {bytes : List UInt8} (h : Spells text bytes) : unescape text = bytes := by
  induction h with
  | nil => rfl
  | plain hc _ ih =>
    rw [Percent.unescape] at ih ⊢
    rw [unescapeFrom, escaped_of_ne hc, ih]
  | escape ha hb _ ih =>
    rw [Percent.unescape] at ih ⊢
    rw [unescapeFrom, escaped, if_pos rfl, ha, Option.bind_some, hb, Option.map_some]
    exact congrArg _ ih

/-- A text is read as the text whose bytes it spells. -/
theorem decode_of_spells (lossy : List UInt8 → List Char) {text value : List Char} (h : Spells text (utf8 value)) :
    decode lossy text = value := by
  have hbytes : (Percent.unescape text).toByteArray = value.utf8Encode := congrArg List.toByteArray h.unescape
  rw [decode, hbytes, List.utf8Decode?_utf8Encode]

end SynQt.Lib.Percent
