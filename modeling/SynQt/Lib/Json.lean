import Mathlib.Data.List.Basic

/-! JSON values, with readers that are total: what a document does not hold reads as a default. -/
namespace SynQt.Lib

/-- A number is an integer here, or a double under the text of its value. -/
inductive Json where
  | null
  | bool (b : Bool)
  | int (n : Int)
  | double (text : String)
  | string (text : String)
  | array (items : List Json)
  | object (members : List (String × Json))

namespace Json

def toArray : Json → List Json
  | .array items => items
  | _ => []

def toObject : Json → List (String × Json)
  | .object members => members
  | _ => []

def toString : Json → String
  | .string text => text
  | _ => ""

def toInt : Json → Int
  | .int n => n
  | _ => 0

def value (members : List (String × Json)) (key : String) : Json := (members.lookup key).getD .null

@[simp] theorem toArray_array (items : List Json) : (array items).toArray = items := rfl

@[simp] theorem toObject_object (members : List (String × Json)) : (object members).toObject = members := rfl

@[simp] theorem toString_string (text : String) : (string text).toString = text := rfl

@[simp] theorem toInt_int (n : Int) : (int n).toInt = n := rfl

@[simp] theorem toArray_null : null.toArray = [] := rfl

@[simp] theorem toObject_null : null.toObject = [] := rfl

@[simp] theorem toString_null : null.toString = "" := rfl

@[simp] theorem toInt_null : null.toInt = 0 := rfl

@[simp] theorem value_nil (key : String) : value [] key = null := rfl

theorem value_cons (name key : String) (held : Json) (members : List (String × Json)) :
    value ((name, held) :: members) key = if key = name then held else value members key := by
  by_cases h : key = name
  · simp [value, h]
  · simp [value, List.lookup_cons, h, beq_eq_false_iff_ne.mpr h]

end SynQt.Lib.Json
