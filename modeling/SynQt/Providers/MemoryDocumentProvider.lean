import Mathlib.Data.Rat.Defs
import SynQt.Lib.Dict
import SynQt.Lib.Nested

/-! Documents as maps of QML values, and the provider that keeps them in this process. -/
namespace SynQt.Documents
open Lib Dict

inductive Number where
  | finite (value : Rat)
  | infinity (negative : Bool)
  | nan
deriving DecidableEq

/-- A value of QML that is neither a list nor a map. -/
inductive Scalar where
  /-- `undefined`, the invalid `QVariant`. -/
  | invalid
  | null
  | bool (b : Bool)
  | number (n : Number)
  | string (text : String)
  /-- A date, a url: a value of another type, under its text. -/
  | other (typeName text : String)
deriving DecidableEq

/-- The fields of a nested map stand in the order of their keys. -/
abbrev QVariant := Nested Scalar

/-- The fields of a document, each key once; their order is no part of it. -/
abbrev QVariantMap := List (String × QVariant)

namespace QVariant

abbrev invalid : QVariant := .leaf .invalid
abbrev null : QVariant := .leaf .null
abbrev bool (b : Bool) : QVariant := .leaf (.bool b)
abbrev number (value : Rat) : QVariant := .leaf (.number (.finite value))
abbrev string (text : String) : QVariant := .leaf (.string text)

end QVariant

def Number.equals : Number → Number → Bool
  | .finite a, .finite b => a == b
  | .infinity a, .infinity b => a == b
  | _, _ => false

/-- What Qt makes of a text it compares with a number or with a truth value, and of a value asked for as
an integer. -/
structure Conversions where
  toDouble : String → Option Number
  toBool : String → Bool
  toInt : QVariant → Int

/-- `==` of two values that are no containers: numbers and truth values count as numbers, and a text
as what it reads as where the other is one of these. -/
def Conversions.scalarEquals (c : Conversions) : Scalar → Scalar → Bool
  | .number a, .number b => a.equals b
  | .number n, .bool b => n.equals (.finite (if b then 1 else 0))
  | .bool b, .number n => n.equals (.finite (if b then 1 else 0))
  | .number n, .string text => (c.toDouble text).any n.equals
  | .string text, .number n => (c.toDouble text).any n.equals
  | .bool b, .string text => c.toBool text == b
  | .string text, .bool b => c.toBool text == b
  | a, b => decide (a = b)

/-- `QVariant`'s `==`. -/
def Conversions.equals (c : Conversions) (a b : QVariant) : Bool := Nested.agree c.scalarEquals a b

def value (map : QVariantMap) (key : String) : QVariant := (lookup map key).getD .invalid

/-- The entries of the second written over those of the first. -/
def insertAll {α : Type} (map changes : List (String × α)) : List (String × α) :=
  changes.foldl (fun map change => put map change.1 change.2) map

structure MemoryDocumentProvider where
  nextId : Nat := 1
  collections : List (String × List QVariantMap) := []

namespace MemoryDocumentProvider
variable (c : Conversions)

def held (p : MemoryDocumentProvider) (collection : String) : List QVariantMap :=
  (lookup p.collections collection).getD []

def store (p : MemoryDocumentProvider) (collection : String) (documents : List QVariantMap) : MemoryDocumentProvider :=
  { p with collections := put p.collections collection documents }

/-- An empty filter matches every document. -/
def «matches» (document filter : QVariantMap) : Bool :=
  filter.all fun field => c.equals (value document field.1) field.2

def insert (p : MemoryDocumentProvider) (collection : String) (document : QVariantMap) :
    MemoryDocumentProvider × QVariant :=
  let id := QVariant.string (Nat.repr p.nextId)
  let stored := put document "_id" id
  ({ p.store collection (p.held collection ++ [stored]) with nextId := p.nextId + 1 }, id)

/-- The loop of `find`, with what it has found so far. -/
def findFrom (filter : QVariantMap) (limit : Int) : List QVariantMap → List QVariantMap → List QVariantMap
  | results, [] => results
  | results, document :: rest =>
    if «matches» c document filter then
      let results := results ++ [document]
      if 0 < limit ∧ limit ≤ results.length then results else findFrom filter limit results rest
    else findFrom filter limit results rest

def limitOf (options : QVariantMap) : Int := ((lookup options "limit").map c.toInt).getD 0

def find (p : MemoryDocumentProvider) (collection : String) (filter options : QVariantMap) : List QVariantMap :=
  findFrom c filter (limitOf c options) [] (p.held collection)

def update (p : MemoryDocumentProvider) (collection : String) (filter change : QVariantMap) :
    MemoryDocumentProvider × Nat :=
  let documents := p.held collection
  (p.store collection (documents.map fun document =>
      if «matches» c document filter then insertAll document change else document),
    documents.countP fun document => «matches» c document filter)

def remove (p : MemoryDocumentProvider) (collection : String) (filter : QVariantMap) : MemoryDocumentProvider × Nat :=
  let documents := p.held collection
  (p.store collection (documents.filter fun document => !«matches» c document filter),
    documents.countP fun document => «matches» c document filter)

end MemoryDocumentProvider

end SynQt.Documents
