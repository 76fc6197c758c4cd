import SynQt.Lib.Words

/-! Edits of a project file as text: the lines an edit belongs to are found, new ones are put in their
place, and the text is joined again. -/
namespace SynQt.YamlEdit

abbrev Str := List Char

instance : LawfulBEq Str := inferInstance

def lit (s : String) : Str := s.toList

/-- What a document loads to, and what an edit is given to write. A float is the text of its value,
and anything the editor does not write has a type name only. -/
inductive Value where
  | none
  | bool (b : Bool)
  | int (n : Int)
  | float (text : Str)
  | str (s : Str)
  | list (items : List Value)
  | dict (entries : List (Str × Value))
  | other (typeName : Str)

/-- The YAML library: `safe_load`, `safe_dump` of one value under the key `v`, and `safe_dump` of a
list in flow style. -/
structure Yaml where
  safeLoad : Str → Except Str Value
  dumpField : Value → Str
  dumpFlow : List Value → Str

inductive Error where
  | edit (message : Str)
  | load (message : Str)
  /-- An index past the end, or an assertion. -/
  | bug
deriving DecidableEq

/-- What `strip` takes off. -/
def isSpace (c : Char) : Bool :=
  let n := c.toNat
  (9 ≤ n && n ≤ 13) || (28 ≤ n && n ≤ 32) || n == 0x85 || n == 0xA0 || n == 0x1680 ||
    (0x2000 ≤ n && n ≤ 0x200A) || n == 0x2028 || n == 0x2029 || n == 0x202F || n == 0x205F || n == 0x3000

/-- What `splitlines` cuts at. -/
def endsLine (c : Char) : Bool :=
  let n := c.toNat
  (10 ≤ n && n ≤ 13) || (28 ≤ n && n ≤ 30) || n == 0x85 || n == 0x2028 || n == 0x2029

theorem isSpace_of_endsLine {c : Char} (h : endsLine c = true) : isSpace c = true := by
  simp only [endsLine, isSpace, Bool.or_eq_true, Bool.and_eq_true, decide_eq_true_eq, beq_iff_eq] at h ⊢
  omega

def strip (s : Str) : Str := trim isSpace s

def lstrip (s : Str) : Str := s.dropWhile isSpace

def rstrip (s : Str) : Str := s.rdropWhile isSpace

def spaces (n : Nat) : Str := List.replicate n ' '

def cutLines : Str → Str → List Str
  | line, [] => if line.isEmpty then [] else [line.reverse]
  | line, '\r' :: '\n' :: rest => line.reverse :: cutLines [] rest
  | line, c :: rest => if endsLine c then line.reverse :: cutLines [] rest else cutLines (c :: line) rest

def splitlines (s : Str) : List Str := cutLines [] s

theorem cutLines_eq_nil {acc text : Str} (h : cutLines acc text = []) : acc = [] ∧ text = [] := by
  fun_induction cutLines acc text with
  | case1 acc hempty => exact ⟨List.isEmpty_iff.mp hempty, rfl⟩
  | case2 acc hempty | case3 acc rest ih | case4 acc c rest hpair hends ih => cases h
  | case5 acc c rest hpair hends ih => exact absurd (ih h).1 (List.cons_ne_nil _ _)

def split (text : Str) : List Str := text.splitOn '\n'

def join (lines : List Str) : Str := [ '\n' ].intercalate lines

/-- The lines from `start` up to `stop`. -/
def slice (lines : List Str) (start stop : Nat) : List Str := (lines.take stop).drop start

def lineAt (lines : List Str) (index : Nat) : Str := lines.getD index []

def indentOf (line : Str) : Nat := (line.takeWhile (· == ' ')).length

def isBlank (line : Str) : Bool := (strip line).isEmpty

def isComment (line : Str) : Bool := ['#'].isPrefixOf (lstrip line)

/-- Blank lines and comments belong to no block in particular. -/
def isSkippable (line : Str) : Bool := isBlank line || isComment line

def dash : Str := ['-', ' ']

def opensItem (line : Str) : Bool := dash.isPrefixOf (lstrip line)

def isEmptyFlow (inline : Str) : Bool := strip inline == ['[', ']'] || strip inline == ['{', '}']

structure KeyMatch where
  indent : Nat
  key : Str
  rest : Str

def isKeyStart (c : Char) : Bool := c.isAlpha || c == '_'

def isKeyChar (c : Char) : Bool := c.isAlphanum || c == '_' || c == '.' || c == '-'

/-- `_KEY`: an indent, a key, a colon, and what is left of the line. -/
def matchKey (line : Str) : Option KeyMatch :=
  let indent := indentOf line
  let named := line.drop indent
  if !named.head?.any isKeyStart then none
  else
    let key := named.takeWhile isKeyChar
    match (named.drop key.length).dropWhile (· == ' ') with
    | ':' :: after =>
      let rest := after.takeWhile (· != '\n')
      if after.drop rest.length == [] || after.drop rest.length == ['\n'] then some ⟨indent, key, rest⟩ else none
    | _ => none

structure Block where
  /-- Nothing for the whole text. -/
  keyLine : Option Nat
  keyIndent : Int
  inline : Str
  start : Nat
  stop : Nat
  /-- The column the children sit at, when there are any. -/
  indent : Option Nat

def Block.childIndent (block : Block) : Nat := block.indent.getD (block.keyIndent + 2).toNat

/-- How many of the lines belong to a key at `parentIndent`: the deeper ones, and a sequence entry at
the key's own indent. -/
def blockLength (parentIndent : Nat) : List Str → Nat
  | [] => 0
  | line :: rest =>
    if isSkippable line then blockLength parentIndent rest + 1
    else if indentOf line < parentIndent then 0
    else if indentOf line == parentIndent && !opensItem line then 0
    else blockLength parentIndent rest + 1

def endOfBlock (lines : List Str) (start parentIndent : Nat) : Nat :=
  start + blockLength parentIndent (lines.drop start)

/-- `stop` walked back over the blanks and comments that introduce whatever comes next. -/
def trimmedEnd (lines : List Str) (start : Nat) : Nat → Nat
  | 0 => 0
  | stop + 1 => if start < stop + 1 ∧ isSkippable (lineAt lines stop) then trimmedEnd lines start stop else stop + 1

def childIndent (lines : List Str) (start stop : Nat) : Option Nat :=
  ((slice lines start stop).find? (!isSkippable ·)).map indentOf

def rootBlock (lines : List Str) : Block := ⟨none, -2, [], 0, lines.length, childIndent lines 0 lines.length⟩

def blockAt (lines : List Str) (keyLine : Nat) : Except Error Block :=
  match matchKey (lineAt lines keyLine) with
  | none => .error .bug
  | some key =>
    let start := keyLine + 1
    let stop := endOfBlock lines start key.indent
    .ok ⟨some keyLine, key.indent, key.rest, start, stop, childIndent lines start stop⟩

def findKey (lines : List Str) (block : Block) (key : Str) : Option Nat :=
  match block.indent with
  | none => none
  | some indent =>
    (List.range' block.start (block.stop - block.start)).find? fun index =>
      let line := lineAt lines index
      !(isSkippable line || indentOf line != indent) && (matchKey line).any (·.key == key)

def locateFrom (lines : List Str) (path : Str) : Block → Str → List Str → Except Error (Block × Str × Option Nat)
  | block, segment, [] => .ok (block, segment, findKey lines block segment)
  | block, segment, next :: rest =>
    match findKey lines block segment with
    | none => .error (.edit (lit "'" ++ path ++ lit "': there is no '" ++ segment ++ lit "' section to edit"))
    | some keyLine => do
      let inner ← blockAt lines keyLine
      if !isBlank inner.inline && !isEmptyFlow inner.inline then
        .error (.edit (lit "'" ++ path ++ lit "': '" ++ segment ++ lit "' is a value, not a section"))
      else locateFrom lines path inner next rest

/-- The block the last segment of the path lives in, its key, and its line if it is there. -/
def locate (lines : List Str) (path : Str) : Except Error (Block × Str × Option Nat) :=
  let segments := path.splitOn '.'
  locateFrom lines path (rootBlock lines) (segments.headD []) segments.tail

/-- One `- name: ...` entry: the lines it occupies and what it parses to. -/
structure Item where
  start : Nat
  stop : Nat
  indent : Nat
  value : List (Str × Value)

/-- A line of an item at column zero, its dash turned into the two spaces it stands for. -/
def deindent (indent : Nat) (line : Str) : Str :=
  let body := if line.length > indent then line.drop indent else strip line
  if dash.isPrefixOf body then spaces 2 ++ body.drop 2 else body

def deindented (itemLines : List Str) (indent : Nat) : List Str := itemLines.map (deindent indent)

def reindent (indent : Nat) (line : Str) : Str := if !isBlank line then spaces indent ++ line else line

def reindented (itemLines : List Str) (indent : Nat) : List Str :=
  match itemLines with
  | [] => []
  | first :: rest => (spaces indent ++ dash ++ first.drop 2) :: rest.map (reindent indent)

section
variable (yaml : Yaml)

def itemValue (lines : List Str) (start stop indent : Nat) : Except Error Value :=
  match yaml.safeLoad (join (deindented (slice lines start stop) indent)) with
  | .error message => .error (.load message)
  | .ok value => .ok value

/-- The items that open at these lines, the last of them before `listEnd`. -/
def itemsFrom (lines : List Str) (listPath : Str) (indent listEnd : Nat) : List Nat → Except Error (List Item)
  | [] => .ok []
  | start :: rest => do
    let stop := trimmedEnd lines start (rest.headD listEnd)
    let value ← itemValue yaml lines start stop indent
    match value with
    | .dict entries => do
      let items ← itemsFrom lines listPath indent listEnd rest
      .ok (⟨start, stop, indent, entries⟩ :: items)
    | _ => .error (.edit (lit "'" ++ listPath ++ lit "' holds plain values; these edits address items by name"))

/-- Every item in the list. Refuses any shape a text edit cannot reach. -/
def listItems (lines : List Str) (block : Block) (listPath : Str) : Except Error (List Item) :=
  if !isBlank block.inline && !isEmptyFlow block.inline then
    .error (.edit (lit "'" ++ listPath ++ lit "' is written on one line; rewrite it as a block list " ++
      lit "(one '- name: ...' per line) before editing it here"))
  else
    let listEnd := trimmedEnd lines block.start block.stop
    let within := List.range' block.start (listEnd - block.start)
    match within.find? fun index => !isSkippable (lineAt lines index) with
    | none => .ok []
    | some first =>
      if !opensItem (lineAt lines first) then
        .error (.edit (lit "'" ++ listPath ++ lit "' is not a list; it holds '" ++ strip (lineAt lines first) ++ lit "'"))
      else
        let indent := indentOf (lineAt lines first)
        let starts := within.filter fun index =>
          let line := lineAt lines index
          !isSkippable line && (indentOf line == indent && opensItem line)
        itemsFrom yaml lines listPath indent listEnd starts

def listOf (lines : List Str) (listPath : Str) : Except Error (Block × List Item) := do
  let (_, _, keyLine) ← locate lines listPath
  match keyLine with
  | none => .error (.edit (lit "'" ++ listPath ++ lit "': there is no such list in this file"))
  | some keyLine => do
    let block ← blockAt lines keyLine
    let items ← listItems yaml lines block listPath
    .ok (block, items)

/-- The key that identifies one item of a list. A connect point has no name; its owner says which. -/
def itemKey (listPath : Str) : Str := if listPath == lit "connect_points" then lit "owner" else lit "name"

def Value.isStr (name : Str) : Value → Bool
  | .str s => s == name
  | _ => false

def itemNamed (items : List Item) (name listPath : Str) : Except Error Item :=
  match items.find? fun item => (item.value.lookup (itemKey listPath)).any (Value.isStr name) with
  | some item => .ok item
  | none => .error (.edit (lit "'" ++ listPath ++ lit "' has no item named '" ++ name ++ lit "'"))

def Value.isScalar : Value → Bool
  | .none | .str _ | .int _ | .float _ | .bool _ => true
  | _ => false

def scalarText (value : Value) : Str :=
  ((yaml.dumpField value).rdropWhile (· == '\n')).drop (lit "v: ").length

mutual

/-- `key: value` as lines at column zero, in the style the project writes. -/
def renderField (key : Str) : Value → Except Error (List Str)
  | .str s =>
    let body := trim (· == '\n') s
    if body.contains '\n' then
      .ok ((key ++ lit ": |") :: ((splitlines body).map rstrip).map fun line =>
        if line.isEmpty then [] else spaces 2 ++ line)
    else .ok [key ++ lit ": " ++ scalarText yaml (.str s)]
  | .list items =>
    if items.isEmpty then .ok [key ++ lit ": []"]
    else if items.all Value.isScalar then .ok [key ++ lit ": " ++ strip (yaml.dumpFlow items)]
    else do
      let lines ← renderItems 2 items
      .ok ((key ++ lit ":") :: lines)
  | .dict entries =>
    if entries.isEmpty then .ok [key ++ [':', ' ', '{', '}']]
    else do
      let lines ← renderMapping entries
      .ok ((key ++ lit ":") :: lines.map (spaces 2 ++ ·))
  | .other typeName => .error (.edit (lit "'" ++ key ++ lit "': " ++ typeName ++ lit " is not something to write here"))
  | .none => .ok [key ++ lit ": " ++ scalarText yaml .none]
  | .bool b => .ok [key ++ lit ": " ++ scalarText yaml (.bool b)]
  | .int n => .ok [key ++ lit ": " ++ scalarText yaml (.int n)]
  | .float text => .ok [key ++ lit ": " ++ scalarText yaml (.float text)]

def renderMapping : List (Str × Value) → Except Error (List Str)
  | [] => .ok []
  | (key, value) :: rest => do
    let lines ← renderField key value
    let others ← renderMapping rest
    .ok (lines ++ others)

/-- One list entry: its dash and its body, all of it at `indent`. -/
def renderItem (indent : Nat) : Value → Except Error (List Str)
  | .dict entries => do
    let body ← renderMapping entries
    match body with
    | [] => .error .bug
    | first :: rest => .ok ((spaces indent ++ dash ++ first) :: rest.map (spaces (indent + 2) ++ ·))
  | value => .ok [spaces indent ++ dash ++ scalarText yaml value]

def renderItems (indent : Nat) : List Value → Except Error (List Str)
  | [] => .ok []
  | item :: rest => do
    let lines ← renderItem indent item
    let others ← renderItems indent rest
    .ok (lines ++ others)

end

/-- A blank line before a new top-level section, the way the rest of the file reads. -/
def spaced (lines : List Str) (at_ indent : Nat) (rendered : List Str) : List Str :=
  if indent == 0 && decide (at_ > 0) && !isBlank (lineAt lines (at_ - 1)) then [] :: rendered else rendered

def putKey (lines : List Str) (block : Block) (key : Str) (value : Value) : Except Error (List Str) := do
  let indent := block.childIndent
  let field ← renderField yaml key value
  let rendered := field.map (spaces indent ++ ·)
  match findKey lines block key with
  | none =>
    let at_ := trimmedEnd lines block.start block.stop
    .ok (lines.take at_ ++ spaced lines at_ indent rendered ++ lines.drop at_)
  | some keyLine => do
    let existing ← blockAt lines keyLine
    let stop := trimmedEnd lines (keyLine + 1) existing.stop
    .ok (lines.take keyLine ++ rendered ++ lines.drop stop)

def upToColon (line : Str) : Str := line.takeWhile (· != ':') ++ [':']

def commented (indent : Nat) (comment : Str) : List Str :=
  if comment.isEmpty then [] else [spaces indent ++ lit "# " ++ comment]

/-- `item` added to the block list at `listPath`, which is made when the text has none. -/
def appendItem (text listPath : Str) (item : List (Str × Value)) (comment : Str) : Except Error Str := do
  let lines := split text
  let (parent, key, keyLine) ← locate lines listPath
  match keyLine with
  | none => do
    let indent := parent.childIndent
    let body ← renderItem yaml (indent + 2) (.dict item)
    let rendered := commented indent comment ++ [spaces indent ++ key ++ [':']] ++ body
    let at_ := trimmedEnd lines parent.start parent.stop
    .ok (join (lines.take at_ ++ spaced lines at_ indent rendered ++ lines.drop at_))
  | some keyLine => do
    let block ← blockAt lines keyLine
    let items ← listItems yaml lines block listPath
    let indent := match items with
      | first :: _ => first.indent
      | [] => block.childIndent
    let body ← renderItem yaml indent (.dict item)
    let rendered := commented indent comment ++ body
    if items.isEmpty && isEmptyFlow block.inline then
      let reopened := lines.set keyLine (upToColon (lineAt lines keyLine))
      .ok (join (reopened.take (keyLine + 1) ++ rendered ++ reopened.drop (keyLine + 1)))
    else
      let at_ := trimmedEnd lines block.start block.stop
      .ok (join (lines.take at_ ++ rendered ++ lines.drop at_))

/-- The fields put into an item's lines one after the other. -/
def putKeys (fragment : List Str) : List (Str × Value) → Except Error (List Str)
  | [] => .ok fragment
  | (key, value) :: fields => do
    let put ← putKey yaml fragment (rootBlock fragment) key value
    putKeys put fields

/-- `fields` set on the item named `name`. -/
def patchItem (text listPath name : Str) (fields : List (Str × Value)) : Except Error Str := do
  let lines := split text
  let (_, items) ← listOf yaml lines listPath
  let item ← itemNamed items name listPath
  let fragment ← putKeys yaml (deindented (slice lines item.start item.stop) item.indent) fields
  .ok (join (lines.take item.start ++ reindented fragment item.indent ++ lines.drop item.stop))

/-- `field` gone from the item named `name`. -/
def removeField (text listPath name field : Str) : Except Error Str := do
  let lines := split text
  let (_, items) ← listOf yaml lines listPath
  let item ← itemNamed items name listPath
  let fragment := deindented (slice lines item.start item.stop) item.indent
  match findKey fragment (rootBlock fragment) field with
  | none => .ok text
  | some 0 => .error (.edit (lit "'" ++ listPath ++ lit "': '" ++ field ++ lit "' opens the item '" ++ name ++
      lit "' and cannot be removed alone"))
  | some keyLine => do
    let existing ← blockAt fragment keyLine
    let stop := trimmedEnd fragment (keyLine + 1) existing.stop
    let cut := fragment.take keyLine ++ fragment.drop stop
    .ok (join (lines.take item.start ++ reindented cut item.indent ++ lines.drop item.stop))

def commentsAbove (lines : List Str) (first : Nat) : Nat → Nat
  | 0 => 0
  | start + 1 =>
    if first < start + 1 ∧ isComment (lineAt lines start) then commentsAbove lines first start else start + 1

/-- Where lines were taken out, a blank line against blank lines is closed to one. -/
def closeSeam (lines : List Str) (start : Nat) : List Str :=
  if start > 0 ∧ isBlank (lineAt lines (start - 1)) then lines.take start ++ (lines.drop start).dropWhile isBlank
  else lines

/-- The item named `name` gone, along with the comment written above it. -/
def removeItem (text listPath name : Str) : Except Error Str := do
  let lines := split text
  let (block, items) ← listOf yaml lines listPath
  let item ← itemNamed items name listPath
  let listEnd := trimmedEnd lines block.start block.stop
  let start := commentsAbove lines block.start item.start
  let stop := item.stop + ((slice lines item.stop listEnd).takeWhile isBlank).length
  let closed := closeSeam (lines.take start ++ lines.drop stop) start
  match items.length == 1, block.keyLine with
  | true, some keyLine => .ok (join (closed.set keyLine (upToColon (lineAt closed keyLine) ++ lit " []")))
  | _, _ => .ok (join closed)

/-- `path` set to `value`, the key added when the parent does not have it. -/
def setScalar (text path : Str) (value : Value) : Except Error Str := do
  let lines := split text
  let (parent, key, _) ← locate lines path
  let put ← putKey yaml lines parent key value
  .ok (join put)

end
end SynQt.YamlEdit
