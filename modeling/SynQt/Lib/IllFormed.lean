import Mathlib.Algebra.Group.Nat.Defs
import Mathlib.Data.List.Basic

/-! Bytes that may not be UTF-8, read as the characters they spell and the stretches that spell none. A decoder that
replaces what is ill-formed puts a mark for each such stretch, or for each of its bytes. -/
namespace SynQt.Lib

inductive Piece where
  | char (c : Char)
  /-- So many bytes, of which the first begins no character with those after it. -/
  | ill (bytes : Nat)
deriving DecidableEq

/-- How many bytes come after the first byte of a character, and the range the next of them is in. -/
def lead (b : UInt8) : Option (Nat × UInt8 × UInt8) :=
  if b ≤ 0x7F then some (0, 0x80, 0xBF)
  else if 0xC2 ≤ b && b ≤ 0xDF then some (1, 0x80, 0xBF)
  else if b == 0xE0 then some (2, 0xA0, 0xBF)
  else if b == 0xED then some (2, 0x80, 0x9F)
  else if 0xE1 ≤ b && b ≤ 0xEF then some (2, 0x80, 0xBF)
  else if b == 0xF0 then some (3, 0x90, 0xBF)
  else if 0xF1 ≤ b && b ≤ 0xF3 then some (3, 0x80, 0xBF)
  else if b == 0xF4 then some (3, 0x80, 0x8F)
  else none

/-- Of so many bytes that are to come, those that are there. -/
def continuation : Nat → UInt8 → UInt8 → List UInt8 → List UInt8
  | 0, _, _, _ => []
  | _ + 1, _, _, [] => []
  | n + 1, low, high, b :: rest => if low ≤ b && b ≤ high then b :: continuation n 0x80 0xBF rest else []

def codePoint (first : UInt8) (others : List UInt8) : Nat :=
  let bits := if others.length = 0 then first.toNat else first.toNat % 2 ^ (6 - others.length)
  others.foldl (fun code b => code * 64 + b.toNat % 64) bits

/-- The piece that begins at a byte, and how many bytes of the rest belong to it. -/
def pieceAt (b : UInt8) (rest : List UInt8) : Piece × Nat :=
  match lead b with
  | none => (.ill 1, 0)
  | some (n, low, high) =>
    let others := continuation n low high rest
    (if others.length = n then .char (Char.ofNat (codePoint b others)) else .ill (1 + others.length), others.length)

def piecesFrom (skip : Nat) : List UInt8 → List Piece
  | [] => []
  | b :: rest =>
    match skip with
    | skip + 1 => piecesFrom skip rest
    | 0 => (pieceAt b rest).1 :: piecesFrom (pieceAt b rest).2 rest

def pieces (bytes : List UInt8) : List Piece := piecesFrom 0 bytes

def replacement : Char := Char.ofNat 0xFFFD

def markOf : Char := Char.ofNat 0xFEFF

/-- A byte order mark that is the first character is no part of the text. -/
def withoutMark : List Piece → List Piece
  | .char c :: rest => if c = markOf then rest else .char c :: rest
  | text => text

def Piece.toChar : Piece → Char
  | char c => c
  | ill _ => replacement

example : pieces [0x61, 0xC3, 0xA9, 0xF0, 0x9F, 0x98, 0x80] = [.char 'a', .char 'é', .char '😀'] := by decide

example : pieces [0xE2, 0x82, 0x41, 0xFF, 0xED, 0xA0, 0x80] = [.ill 2, .char 'A', .ill 1, .ill 1, .ill 1, .ill 1] := by decide

end SynQt.Lib
