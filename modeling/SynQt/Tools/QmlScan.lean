import SynQt.Lib.Words

/-! How the tooling reads QML without compiling it: what a page is stripped to, and the modules its
graphics scan finds imported in the rest. Texts are lists of characters. -/
namespace SynQt.QmlScan

def lineFeed : Char := '\n'
def carriageReturn : Char := '\r'
def byteOrderMark : Char := Char.ofNat 0xFEFF
def quotation : Char := Char.ofNat 0x22
def apostrophe : Char := Char.ofNat 0x27
def backtick : Char := Char.ofNat 0x60
def backslash : Char := Char.ofNat 0x5C
def slash : Char := '/'
def asterisk : Char := '*'
def semicolon : Char := ';'

def isQuote (c : Char) : Bool := c == quotation || c == apostrophe || c == backtick

/-- `str.isspace` of one character. -/
def isSpace (c : Char) : Bool :=
  c.toNat == 0x20 || (0x09 ≤ c.toNat && c.toNat ≤ 0x0D) || (0x1C ≤ c.toNat && c.toNat ≤ 0x1F) || c.toNat == 0x85 ||
    c.toNat == 0xA0 || c.toNat == 0x1680 || (0x2000 ≤ c.toNat && c.toNat ≤ 0x200A) || c.toNat == 0x2028 ||
    c.toNat == 0x2029 || c.toNat == 0x202F || c.toNat == 0x205F || c.toNat == 0x3000

def literalLength (quote : Char) (hidden : Bool) : List Char → Nat
  | [] => 0
  | c :: rest =>
    if hidden then 1 + literalLength quote false rest
    else if c == quote then 1
    else 1 + literalLength quote (c == backslash) rest

/-- How many characters of the text after its opening a block comment takes. -/
def blockLength : List Char → Nat
  | [] => 0
  | c :: rest => if c == asterisk && rest.head? == some slash then 2 else 1 + blockLength rest

/-- The loop of `stripped`, past `skip` characters it has consumed. -/
def strippedFrom (skip : Nat) : List Char → List Char
  | [] => []
  | c :: rest =>
    match skip with
    | skip + 1 => strippedFrom skip rest
    | 0 =>
      if c == byteOrderMark then strippedFrom 0 rest
      else if c == carriageReturn then
        lineFeed :: strippedFrom (if rest.head? == some lineFeed then 1 else 0) rest
      else if isQuote c then strippedFrom (literalLength c false rest) rest
      else if c == slash && rest.head? == some slash then
        strippedFrom (rest.takeWhile fun d => d != lineFeed && d != carriageReturn).length rest
      else if c == slash && rest.head? == some asterisk then strippedFrom (1 + blockLength rest.tail) rest
      else c :: strippedFrom 0 rest

def stripped (source : List Char) : List Char := strippedFrom 0 source

end SynQt.QmlScan

namespace SynQt.Graphics
open QmlScan (isSpace lineFeed semicolon)

def importWord : List Char := "import".toList

def endsStatement (c : Char) : Bool := c == lineFeed || c == semicolon

/-- The trimmed chunks of the body, those with nothing in them left out. -/
def statements (body : List Char) : List (List Char) :=
  ((body.splitOnP endsStatement).map (trim isSpace)).filter (!·.isEmpty)

section
variable (isalnum : Char → Bool)

def isIdentifierCharacter (c : Char) : Bool := isalnum c || c == '_' || c == '$'

def importedModule (statement : List Char) : Option (List Char) :=
  if !importWord.isPrefixOf statement then none
  else
    let rest := statement.drop importWord.length
    if rest.head?.any (isIdentifierCharacter isalnum) then none
    else if (firstWord isSpace rest).isEmpty then none
    else some (firstWord isSpace rest)

def importedModules (body : List Char) : List (List Char) := (statements body).filterMap (importedModule isalnum)

end
end SynQt.Graphics
