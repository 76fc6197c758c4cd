import Mathlib.Data.List.Basic

/-! The contract language: its tree, the types a contract may name, and the errors a malformed
contract is refused with. -/
namespace SynQt.Synqtc

structure Param where
  type : String
  name : String
  line : Nat := 0
  col : Nat := 0
deriving DecidableEq

/-- A record field is spelled exactly like a parameter. -/
abbrev Field := Param

/-- `prop <type> <name>`. -/
structure Property where
  type : String
  name : String
  line : Nat := 0
  col : Nat := 0
  scope : List String := []
deriving DecidableEq

structure Role where
  type : String
  name : String
  line : Nat := 0
  col : Nat := 0
deriving DecidableEq

structure Model where
  name : String
  roles : List Role
  line : Nat := 0
  col : Nat := 0
  scope : List String := []
deriving DecidableEq

structure Signal where
  name : String
  params : List Param
  line : Nat := 0
  col : Nat := 0
  scope : List String := []
deriving DecidableEq

/-- `slot [capture] [<return>] <name>(<params>)`. -/
structure Slot where
  name : String
  params : List Param
  returnType : Option String := none
  line : Nat := 0
  col : Nat := 0
  scope : List String := []
  capture : Bool := false
deriving DecidableEq

inductive Member where
  | prop (prop : Property)
  | model (model : Model)
  | signal (signal : Signal)
  | slot (slot : Slot)
deriving DecidableEq

structure Contract where
  name : String
  members : List Member := []
  line : Nat := 0
  col : Nat := 0
deriving DecidableEq

structure Record where
  name : String
  fields : List Field := []
  line : Nat := 0
  col : Nat := 0
deriving DecidableEq

structure SynFile where
  stem : String
  records : List Record := []
  contracts : List Contract := []
  forwardsSession : Bool := false
deriving DecidableEq

namespace Member

def name : Member → String
  | .prop p => p.name | .model m => m.name | .signal s => s.name | .slot s => s.name

def line : Member → Nat
  | .prop p => p.line | .model m => m.line | .signal s => s.line | .slot s => s.line

def col : Member → Nat
  | .prop p => p.col | .model m => m.col | .signal s => s.col | .slot s => s.col

def scope : Member → List String
  | .prop p => p.scope | .model m => m.scope | .signal s => s.scope | .slot s => s.scope

def withScope (scope : List String) : Member → Member
  | .prop p => .prop { p with scope := scope }
  | .model m => .model { m with scope := scope }
  | .signal s => .signal { s with scope := scope }
  | .slot s => .slot { s with scope := scope }

end Member

namespace Contract

def props (c : Contract) : List Property := c.members.filterMap fun | .prop p => some p | _ => none
def models (c : Contract) : List Model := c.members.filterMap fun | .model m => some m | _ => none
def signals (c : Contract) : List Signal := c.members.filterMap fun | .signal s => some s | _ => none
def slots (c : Contract) : List Slot := c.members.filterMap fun | .slot s => some s | _ => none

end Contract

def SynFile.recordNames (syn : SynFile) : List String := syn.records.map (·.name)

def Param.unplaced (p : Param) : Param := { p with line := 0, col := 0 }
def Role.unplaced (r : Role) : Role := { r with line := 0, col := 0 }

def Member.unplaced : Member → Member
  | .prop p => .prop { p with line := 0, col := 0 }
  | .model m => .model { m with roles := m.roles.map Role.unplaced, line := 0, col := 0 }
  | .signal s => .signal { s with params := s.params.map Param.unplaced, line := 0, col := 0 }
  | .slot s => .slot { s with params := s.params.map Param.unplaced, line := 0, col := 0 }

def Contract.unplaced (c : Contract) : Contract :=
  { c with members := c.members.map Member.unplaced, line := 0, col := 0 }

def Record.unplaced (r : Record) : Record := { r with fields := r.fields.map Param.unplaced, line := 0, col := 0 }

/-- What of a tree its file says: all but where the nodes stand, and how the build asked for it. -/
def SynFile.written (syn : SynFile) : SynFile where
  stem := syn.stem
  records := syn.records.map Record.unplaced
  contracts := syn.contracts.map Contract.unplaced

/-- What the generator stops with: its own error, or a `ValueError` of `int`. -/
inductive Raised where
  | synError (message path : String) (line col : Nat)
  | valueError
  | stalled
deriving DecidableEq

def isIdentStart (c : Char) : Bool := ('A' ≤ c && c ≤ 'Z') || ('a' ≤ c && c ≤ 'z') || c == '_'
def isDigit (c : Char) : Bool := '0' ≤ c && c ≤ '9'
def isIdentChar (c : Char) : Bool := isIdentStart c || isDigit c

/-- What `[A-Za-z_][A-Za-z0-9_]*` matches at the head of a text. -/
def identPrefix : List Char → List Char
  | [] => []
  | c :: rest => if isIdentStart c then c :: rest.takeWhile isIdentChar else []

def builtinTypes : List (String × String) := [
  ("bool", "bool"), ("date", "QDateTime"), ("double", "double"), ("int", "int"), ("list", "QVariantList"),
  ("real", "double"), ("string", "QString"), ("url", "QUrl"), ("var", "QVariant"), ("variant", "QVariant")]

/-- The types that accept a bracketed size, and what one of that size is. -/
def sizedTypes : List (String × String) := [
  ("string", "characters"), ("url", "characters"), ("list", "elements"), ("var", "bytes"), ("variant", "bytes")]

/-- Spelled by QML but not declarable, with what the error advises. -/
def notADeclaration : List (String × String) := [
  ("void", "a slot with no return type is already void, so write 'slot <name>(...)'"),
  ("enumeration", "an enumeration is not a value a contract can carry; send the 'int' or the 'string' it stands for")]

structure TypeRef where
  base : String
  size : Option Nat := none
deriving DecidableEq

/-- `^([A-Za-z_][A-Za-z0-9_]*)(?:\[([0-9]+)\])?$`, where `$` also stands before a last line feed. -/
def matchType (spelling : List Char) : Option (List Char × Option (List Char)) :=
  let base := identPrefix spelling
  if base.isEmpty then none
  else
    match spelling.drop base.length with
    | [] | ['\n'] => some (base, none)
    | '[' :: rest =>
      let size := rest.takeWhile isDigit
      if size.isEmpty then none
      else
        match rest.drop size.length with
        | [']'] | [']', '\n'] => some (base, some size)
        | _ => none
    | _ => none

/-- `int` of decimal digits, of which it takes no more than so many. -/
def maxStrDigits : Nat := 4300

def intOf (digits : List Char) : Except Raised Nat :=
  if digits.length > maxStrDigits then .error .valueError
  else .ok (digits.foldl (fun n c => 10 * n + (c.toNat - '0'.toNat)) 0)

def parseType (spelling path : String) (line col : Nat) : Except Raised TypeRef :=
  match matchType spelling.toList with
  | none => .error (.synError ("'" ++ spelling ++ "' is not a type") path line col)
  | some (base, none) => .ok { base := String.ofList base }
  | some (base, some size) => do
    let bound ← intOf size
    if bound = 0 then
      .error (.synError ("'" ++ spelling ++ "' bounds the value at " ++ toString bound ++
        "; a bound is a positive number of " ++ (sizedTypes.lookup (String.ofList base)).getD "units") path line col)
    else .ok { base := String.ofList base, size := some bound }

/-- An `if` that raises. -/
def refuse (condition : Bool) (raised : Raised) : Except Raised Unit := if condition then .error raised else .ok ()

def cppType (synType : String) (recordNames : List String) (path : String) (line col : Nat) : Except Raised String := do
  let reference ← parseType synType path line col
  let known := builtinTypes.map (·.1) ++ recordNames.mergeSort (fun a b => decide (a ≤ b))
  let bounded := (sizedTypes.mergeSort fun a b => decide (a.1 ≤ b.1)).map fun entry => entry.1 ++ "[n] (" ++ entry.2 ++ ")"
  let advice := notADeclaration.lookup reference.base
  refuse (advice.isSome && !recordNames.contains reference.base)
    (.synError ("'" ++ reference.base ++ "' is not a type a contract declares; " ++ advice.getD "") path line col)
  refuse ((builtinTypes.lookup reference.base).isNone && !recordNames.contains reference.base)
    (.synError ("unknown type '" ++ reference.base ++ "' (known types: " ++ ", ".intercalate known ++ ")") path line col)
  refuse (reference.size.isSome && (sizedTypes.lookup reference.base).isNone)
    (.synError ("'" ++ reference.base ++ "' takes no bound in brackets; the types that do are " ++
      ", ".intercalate bounded) path line col)
  return (builtinTypes.lookup reference.base).getD reference.base

end SynQt.Synqtc
