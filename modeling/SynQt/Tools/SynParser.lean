import SynQt.Tools.SynModel

/-! The tokenizer and the recursive-descent parser of the contract language. -/
namespace SynQt.Synqtc

def openBrace : Char := Char.ofNat 0x7B
def closeBrace : Char := Char.ofNat 0x7D

inductive Kind where
  | ident | number | mark (c : Char) | eof
deriving DecidableEq

structure Token where
  kind : Kind
  value : String
  line : Nat
  col : Nat
deriving DecidableEq

/-- `KEYWORDS`. -/
def keywords : List String := ["contract", "record", "prop", "model", "signal", "slot"]

/-- `MAX_SIGNAL_PARAMS`. -/
def maxSignalParams : Nat := 8

def isBlank (c : Char) : Bool := c == ' ' || c == '\t' || c == '\r' || c == '\n'

def marks : List Char := [openBrace, closeBrace, '(', ')', ',', '[', ']', '<', '>']

/-- Where `find` comes upon the end of a block comment. -/
def closing : List Char → Option Nat
  | [] => none
  | c :: rest => if c == '*' && rest.head? == some '/' then some 0 else (closing rest).map (· + 1)

/-- The loop of `tokenize`, past `skip` characters of what it has just read. -/
def tokenizeFrom (path : String) (skip line col : Nat) : List Char → Except Raised (List Token)
  | [] => .ok [⟨.eof, "", line, col⟩]
  | c :: rest =>
    let line' := if c == '\n' then line + 1 else line
    let col' := if c == '\n' then 1 else col + 1
    match skip with
    | skip + 1 => tokenizeFrom path skip line' col' rest
    | 0 =>
      if isBlank c then tokenizeFrom path 0 line' col' rest
      else if c == '/' && rest.head? == some '/' then
        tokenizeFrom path (rest.takeWhile (· != '\n')).length line' col' rest
      else if c == '/' && rest.head? == some '*' then
        match closing (c :: rest) with
        | none => .error (.synError "unterminated /* comment" path line col)
        | some place => tokenizeFrom path (place + 1) line' col' rest
      else if marks.contains c then do
        let tokens ← tokenizeFrom path 0 line' col' rest
        return ⟨.mark c, String.ofList [c], line, col⟩ :: tokens
      else if isIdentStart c then do
        let word := rest.takeWhile isIdentChar
        let tokens ← tokenizeFrom path word.length line' col' rest
        return ⟨.ident, String.ofList (c :: word), line, col⟩ :: tokens
      else if isDigit c then do
        let word := rest.takeWhile isDigit
        let tokens ← tokenizeFrom path word.length line' col' rest
        return ⟨.number, String.ofList (c :: word), line, col⟩ :: tokens
      else .error (.synError ("unexpected character '" ++ String.ofList [c] ++ "'") path line col)

def tokenize (text path : String) : Except Raised (List Token) := tokenizeFrom path 0 1 1 text.toList

abbrev Parse := StateT (List Token) (Except Raised)

def endToken : Token := ⟨.eof, "", 0, 0⟩

namespace Parser

def peek (ahead : Nat := 0) : Parse Token := do
  let tokens ← get
  return tokens[ahead]?.getD (tokens.getLastD endToken)

def next : Parse Token := do
  let token ← peek
  if token.kind != .eof then
    modify List.tail
    return token
  else return token

/-- How many tokens are left, which bounds the rounds of a loop that takes one a round. -/
def remaining : Parse Nat := do
  let tokens ← get
  return tokens.length

variable (path : String)

def error {α : Type} (message : String) (token : Token) : Parse α :=
  throw (.synError message path token.line token.col)

def expect (kind : Kind) (what : String) : Parse Token := do
  let token ← peek
  if token.kind != kind then
    let got := if token.kind = .eof then "end of file" else "'" ++ token.value ++ "'"
    error path ("expected " ++ what ++ ", got " ++ got) token
  else next

def expectName (what : String) : Parse Token := do
  let token ← expect path .ident what
  if keywords.contains token.value then
    error path ("'" ++ token.value ++ "' is a reserved keyword and cannot be a " ++ what) token
  else return token

def commaLoop {α : Type} (item : Parse α) : Nat → List α → Parse (List α)
  | 0, _ => throw .stalled
  | fuel + 1, items => do
    let token ← peek
    if token.kind = .mark ',' then
      let _ ← next
      let another ← item
      commaLoop item fuel (items ++ [another])
    else return items

def oneOrMore {α : Type} (item : Parse α) : Parse (List α) := do
  let first ← item
  let fuel ← remaining
  commaLoop item fuel [first]

/-- Nothing, or one or more, before a closing parenthesis. -/
def untilParen {α : Type} (item : Parse α) : Parse (List α) := do
  let token ← peek
  if token.kind = .mark ')' then return []
  else oneOrMore item

def parseType (what : String) : Parse Token := do
  let token ← expect path .ident what
  let bracket ← peek
  if bracket.kind != .mark '[' then return token
  else
    let _ ← next
    let bound ← expect path .number ("the bound of a " ++ what ++ ", as in string[64]")
    let _ ← expect path (.mark ']') "']' to close the bound"
    return ⟨.ident, token.value ++ "[" ++ bound.value ++ "]", token.line, token.col⟩

def parseParam : Parse Param := do
  let type ← parseType path "a parameter type"
  let name ← expectName path "parameter name"
  return { type := type.value, name := name.value, line := type.line, col := type.col }

def parseParams : Parse (List Param) := do
  let _ ← expect path (.mark '(') "'(' to open the parameter list"
  let params ← untilParen (parseParam path)
  let _ ← expect path (.mark ')') "')' to close the parameter list"
  return params

def parseRole : Parse Role := do
  let type ← parseType path "a model role type"
  let name ← expectName path "a model role name"
  return { type := type.value, name := name.value, line := type.line, col := type.col }

def repeatedScope : List String → List String → Option String
  | _, [] => none
  | seen, name :: scopes => if seen.contains name then some name else repeatedScope (name :: seen) scopes

def parseScope : Parse String := do
  let name ← expectName path "a scope name"
  return name.value

def parseGate : Parse (List String) := do
  let token ← peek
  if token.kind != .mark '<' then return []
  else
    let _ ← next
    let scopes ← oneOrMore (parseScope path)
    let _ ← expect path (.mark '>') "'>' to close the scope gate"
    match repeatedScope [] scopes with
    | none => return scopes
    | some name =>
      let token ← peek
      error path ("scope '" ++ name ++ "' is named twice in one gate") token

def parseProp (keyword : Token) : Parse Member := do
  let type ← parseType path "a property type"
  let name ← expectName path "property name"
  return .prop { type := type.value, name := name.value, line := keyword.line, col := keyword.col }

def parseModel (keyword : Token) : Parse Member := do
  let name ← expectName path "model name"
  let _ ← expect path (.mark '(') "'(' to open the model's role list"
  let roles ← untilParen (parseRole path)
  let _ ← expect path (.mark ')') "')' to close the role list"
  if roles.isEmpty then error path ("model '" ++ name.value ++ "' must declare at least one role") name
  else return .model { name := name.value, roles := roles, line := keyword.line, col := keyword.col }

def parseSignal (keyword : Token) : Parse Member := do
  let name ← expectName path "signal name"
  let params ← parseParams path
  return .signal { name := name.value, params := params, line := keyword.line, col := keyword.col }

/-- `capture` after `slot`, unless a parameter list follows and it is the slot's name. -/
def parseCapture : Parse Bool := do
  let token ← peek
  if token.kind != .ident || token.value != "capture" then return false
  else
    let after ← peek 1
    if after.kind = .mark '(' then return false
    else
      let _ ← next
      return true

/-- The slot's name and return type: a word that a parameter list follows is the name. -/
def parseSlotHead : Parse (String × Option String) := do
  let first ← parseType path "a slot name or return type"
  let token ← peek
  if token.kind = .mark '(' then
    if keywords.contains first.value then
      error path ("'" ++ first.value ++ "' is a reserved keyword and cannot be a slot name") first
    else if first.value.toList.contains '[' then
      error path ("'" ++ first.value ++ "' bounds a slot name; a bound belongs on a type, so either this is " ++
        "the return type and the slot still needs a name, or the brackets do not belong here") first
    else return (first.value, none)
  else
    let second ← expectName path "slot name"
    return (second.value, some first.value)

def parseSlot (keyword : Token) : Parse Member := do
  let capture ← parseCapture
  let head ← parseSlotHead path
  let params ← parseParams path
  return .slot {
    name := head.1, params := params, returnType := head.2, line := keyword.line, col := keyword.col,
    capture := capture }

def memberWords : List String := ["prop", "model", "signal", "slot"]

def parseBody (keyword : Token) : Parse Member :=
  if keyword.value = "prop" then parseProp path keyword
  else if keyword.value = "model" then parseModel path keyword
  else if keyword.value = "signal" then parseSignal path keyword
  else parseSlot path keyword

def parseMember : Parse Member := do
  let scope ← parseGate path
  let token ← peek
  if token.kind != .ident || !memberWords.contains token.value then
    error path ("expected a member ('prop', 'model', 'signal', or 'slot'), got '" ++ token.value ++ "'") token
  else
    let keyword ← next
    let member ← parseBody path keyword
    return member.withScope scope

def memberLoop : Nat → List Member → Parse (List Member)
  | 0, _ => throw .stalled
  | fuel + 1, members => do
    let token ← peek
    if token.kind = .mark closeBrace then return members
    else if token.kind = .eof then error path "unterminated contract: expected '\x7d'" token
    else
      let member ← parseMember path
      memberLoop fuel (members ++ [member])

def parseContract : Parse Contract := do
  let keyword ← next
  let name ← expectName path "contract name"
  let _ ← expect path (.mark openBrace) "'\x7b' to open the contract body"
  let fuel ← remaining
  let members ← memberLoop path fuel []
  let _ ← next
  return { name := name.value, members := members, line := keyword.line, col := keyword.col }

def parseRecord : Parse Record := do
  let keyword ← next
  let name ← expectName path "record name"
  let params ← parseParams path
  if params.isEmpty then error path ("record '" ++ name.value ++ "' must declare at least one field") name
  else return { name := name.value, fields := params, line := keyword.line, col := keyword.col }

def fileLoop : Nat → SynFile → Parse SynFile
  | 0, _ => throw .stalled
  | fuel + 1, syn => do
    let token ← peek
    if token.kind = .eof then return syn
    else if token.kind != .ident then
      error path ("expected 'contract' or 'record', got '" ++ token.value ++ "'") token
    else if token.value = "contract" then
      let contract ← parseContract path
      fileLoop fuel { syn with contracts := syn.contracts ++ [contract] }
    else if token.value = "record" then
      let record ← parseRecord path
      fileLoop fuel { syn with records := syn.records ++ [record] }
    else error path ("expected 'contract' or 'record' at top level, got '" ++ token.value ++ "'") token

def parse (stem : String) : Parse SynFile := do
  let fuel ← remaining
  fileLoop path fuel { stem := stem }

end Parser

/-- No name is there a second time; the names seen are the answer. -/
def rejectDuplicates (message : String → String) (path : String) :
    List String → List (String × Nat × Nat) → Except Raised (List String)
  | seen, [] => .ok seen
  | seen, (name, line, col) :: rest =>
    if seen.contains name then .error (.synError (message name) path line col)
    else rejectDuplicates message path (name :: seen) rest

def validateContract (resolve : String → Nat → Nat → Except Raised Unit) (path : String) (contract : Contract) :
    Except Raised Unit := do
  let _ ← rejectDuplicates (fun name => "duplicate member '" ++ name ++ "' in contract '" ++ contract.name ++ "'") path []
    (contract.members.map fun member => (member.name, member.line, member.col))
  contract.props.forM fun prop => resolve prop.type prop.line prop.col
  contract.models.forM fun model => model.roles.forM fun role => resolve role.type role.line role.col
  contract.signals.forM fun signal => do
    refuse (decide (signal.params.length > maxSignalParams))
      (.synError ("signal '" ++ signal.name ++ "' takes " ++ toString signal.params.length ++
        " parameters; the most a signal may carry to one caller is " ++ toString maxSignalParams ++
        ". Group the extra ones into a record and send that.") path signal.line signal.col)
    signal.params.forM fun param => resolve param.type param.line param.col
  contract.slots.forM fun slot => do
    slot.returnType.toList.forM fun type => resolve type slot.line slot.col
    slot.params.forM fun param => resolve param.type param.line param.col

/-- Reject duplicate names and unresolved types. -/
def validate (syn : SynFile) (path : String) : Except Raised Unit := do
  let duplicate (name : String) := "duplicate record or contract name '" ++ name ++ "'"
  let seen ← rejectDuplicates duplicate path [] (syn.records.map fun record => (record.name, record.line, record.col))
  let _ ← rejectDuplicates duplicate path seen
    (syn.contracts.map fun contract => (contract.name, contract.line, contract.col))
  let resolve (type : String) (line col : Nat) : Except Raised Unit := do
    let _ ← cppType type syn.recordNames path line col
  syn.records.forM fun record => record.fields.forM fun field => resolve field.type field.line field.col
  syn.contracts.forM (validateContract resolve path)

def parseText (text path stem : String) : Except Raised SynFile := do
  let tokens ← tokenize text path
  let parsed ← (Parser.parse path stem).run tokens
  validate parsed.1 path
  return parsed.1

end SynQt.Synqtc
