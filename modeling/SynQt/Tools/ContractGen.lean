import SynQt.Tools.SynLexing
import SynQt.Tools.YamlEdit

/-! The contract generated from the `export:` block of a connect point: its lines, each with the
point's own scope where it names none, inside of a contract, and the records above it. -/
namespace SynQt.ContractGen
open Synqtc
open YamlEdit (isSpace lit splitlines strip lstrip rstrip spaces)

/-- A line of a file that says nothing to the compiler. -/
structure Comment where
  text : Line
  oneLine : '\n' ∉ text

def Comment.line (comment : Comment) : Line := '/' :: '/' :: comment.text

/-- What of a connect point goes into its contract: its owner's name, which is written into a comment, and its `scope`
without the blanks around it. -/
structure Point where
  owner : Line
  ownerLine : '\n' ∉ owner
  scope : String := ""
  block : Line

section
-- `str.isalnum` past the ASCII characters.
variable (alnum : Char → Bool)

def isWordChar (c : Char) : Bool := isIdentChar c || (decide (128 ≤ c.toNat) && alnum c)

def recordWord : Line := lit "record"

/-- `_RECORD`: blanks, and `record` as a word of its own. -/
def isRecord (line : Line) : Bool :=
  let code := lstrip line
  recordWord.isPrefixOf code && !(code.drop recordWord.length).head?.any (isWordChar alnum)

def findSlashes : Line → Option Nat
  | [] => none
  | c :: rest => if c == '/' && rest.head? == some '/' then some 0 else (findSlashes rest).map (· + 1)

def splitComment (line : Line) : Line × Nat × Line :=
  let stripped := strip line
  match findSlashes stripped with
  | none => (stripped, 0, [])
  | some column => (rstrip (stripped.take column), column, stripped.drop column)

/-- What is left after a gate that opens here, past its `<`: names with commas between them. -/
def afterScopes : Nat → Line → Option Line
  | 0, _ => none
  | fuel + 1, text =>
    let text := text.dropWhile isSpace
    let name := identPrefix text
    if name.isEmpty then none
    else
      match (text.drop name.length).dropWhile isSpace with
      | '>' :: rest => some rest
      | ',' :: rest => afterScopes fuel rest
      | _ => none

/-- `code` as its scope gate, empty when it opens with none, and what follows it. -/
def splitGate (code : Line) : Line × Line :=
  match code with
  | '<' :: text =>
    match afterScopes text.length text with
    | some rest => (code.take (code.length - rest.length), rest.dropWhile isSpace)
    | none => ([], code)
  | _ => ([], code)

structure Inferred where
  kind : String
  name : String
  type : String := ""
  params : List Param := []
  roles : List Param := []
  certain : Bool := true

def pairs (items : List Param) : Line := lit (", ".intercalate (items.map fun item => item.type ++ " " ++ item.name))

def rendered (member : Inferred) : Line :=
  if member.kind = "prop" then
    lit "prop " ++ lit (if member.type.isEmpty then "var" else member.type) ++ lit " " ++ lit member.name
  else if member.kind = "model" then lit "model " ++ lit member.name ++ lit "(" ++ pairs member.roles ++ lit ")"
  else if member.kind = "signal" then lit "signal " ++ lit member.name ++ lit "(" ++ pairs member.params ++ lit ")"
  else
    lit "slot " ++ lit (if member.type.isEmpty then "" else member.type ++ " ") ++ lit member.name ++
      lit "(" ++ pairs member.params ++ lit ")"

/-- The name a line exports by name alone, or nothing when it spells a whole member. -/
def bareName (line : Line) : Line :=
  let rest := (splitGate (splitComment line).1).2
  if !rest.isEmpty && identPrefix rest == rest then rest else []

/-- `line`, with a name-only export replaced by the member the owner implements. -/
def writtenOut (owner : List (Line × Inferred)) (line : Line) : Line :=
  match owner.lookup (bareName line) with
  | none => line
  | some member =>
    if (bareName line).isEmpty || !member.certain then line
    else
      let (written, column, comment) := splitComment line
      let gate := (splitGate written).1
      let code := if gate.isEmpty then rendered member else gate ++ lit " " ++ rendered member
      if comment.isEmpty then code else code ++ spaces (max 1 (column - code.length)) ++ comment

def inherits (scope : String) (line : Line) : Bool :=
  let code := (splitComment line).1
  !scope.isEmpty && !(code.isEmpty || isRecord alnum line || !(splitGate code).1.isEmpty)

def scopeGate (scope : String) : Line := lit "<" ++ lit scope ++ lit "> "

def withInheritedGate (line : Line) (scope : String) : Line :=
  if inherits alnum scope line then
    line.take (line.length - (lstrip line).length) ++ scopeGate scope ++ lstrip line
  else line

/-- One line of the block as it is written into the contract, if it is no record. -/
def memberLine (line : Line) : Option Line :=
  if isRecord alnum line then none
  else if (strip line).isEmpty then some []
  else some (spaces 4 ++ strip line)

def contractLines (header : List Comment) (name : String) (point : Point) (owner : List (Line × Inferred))
    (inherit : Bool) : List Line :=
  let inherited := if inherit then point.scope else ""
  let written := (splitlines point.block).map fun line =>
    withInheritedGate alnum (if owner.isEmpty then line else writtenOut owner line) inherited
  let records := (written.filter (isRecord alnum)).map strip
  let members := (written.filterMap (memberLine alnum)).rdropWhile List.isEmpty
  header.map Comment.line ++
    [lit "// Generated by synqt from the connect point '" ++ point.owner ++ lit "' owns in synqt.yaml. Do not edit.", []] ++
    (if records.isEmpty then [] else records ++ [[]]) ++
    [lit "contract " ++ lit name ++ lit " \x7b"] ++ members ++ [lit "\x7d"]

def contractSource (header : List Comment) (name : String) (point : Point) (owner : List (Line × Inferred))
    (inherit : Bool := true) : String :=
  String.ofList ((contractLines alnum header name point owner inherit).flatMap (· ++ ['\n']))

end
end SynQt.ContractGen
