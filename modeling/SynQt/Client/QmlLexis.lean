import Mathlib.Data.List.Basic

/-! How QML's grammar reads the text of a page: its lexical elements, and the import statements
among them. Texts are lists of UTF-16 units. -/
namespace SynQt

abbrev QChar := UInt16
abbrev Text := List QChar

def utf16 (text : String) : Text := text.toList.map fun c => UInt16.ofNat c.toNat

namespace Qml

def lineFeed : QChar := 0x0A
def carriageReturn : QChar := 0x0D
def byteOrderMark : QChar := 0xFEFF
def quotation : QChar := 0x22
def apostrophe : QChar := 0x27
def backtick : QChar := 0x60
def backslash : QChar := 0x5C
def slash : QChar := 0x2F
def asterisk : QChar := 0x2A
def semicolon : QChar := 0x3B
def dot : QChar := 0x2E

def isTerminator (c : QChar) : Bool := c == lineFeed || c == carriageReturn || c == 0x2028 || c == 0x2029

/-- `QChar::isSpace`. -/
def isSpace (c : QChar) : Bool :=
  c == 0x20 || (0x09 ≤ c && c ≤ 0x0D) || c == 0x85 || c == 0xA0 || c == 0x1680 || (0x2000 ≤ c && c ≤ 0x200A) ||
    c == 0x2028 || c == 0x2029 || c == 0x202F || c == 0x205F || c == 0x3000

def isQuote (c : QChar) : Bool := c == quotation || c == apostrophe || c == backtick

inductive Element where
  | terminator
  | blank (c : QChar)
  | comment (terminators : Nat)
  /-- `continued` is whether a CR LF pair is escaped in it. -/
  | literal (quote : QChar) (continued : Bool)
  | char (c : QChar)
  deriving DecidableEq

/-- How many units a literal takes after its opening quote, and whether a CR LF pair is escaped
in it. An escape hides the next character, and CR LF is one; only a template literal may hold a
terminator. `hidden` units are under an escape. -/
def literalEnd (quote : QChar) (hidden : Nat) : Text → Nat × Bool
  | [] => (0, false)
  | c :: rest =>
    match hidden with
    | hidden + 1 => (1 + (literalEnd quote hidden rest).1, (literalEnd quote hidden rest).2)
    | 0 =>
      if c == backslash then
        if rest.take 2 == [carriageReturn, lineFeed] then (1 + (literalEnd quote 2 rest).1, true)
        else (1 + (literalEnd quote 1 rest).1, (literalEnd quote 1 rest).2)
      else if c == quote then (1, false)
      else if quote != backtick && isTerminator c then (0, false)
      else (1 + (literalEnd quote 0 rest).1, (literalEnd quote 0 rest).2)

/-- The terminators in a block comment, and how many units it takes after it has opened. -/
def commentEnd (skip : Nat) : Text → Nat × Nat
  | [] => (0, 0)
  | c :: rest =>
    match skip with
    | skip + 1 => ((commentEnd skip rest).1, 1 + (commentEnd skip rest).2)
    | 0 =>
      if isTerminator c then
        let next := commentEnd (if c == carriageReturn && rest.head? == some lineFeed then 1 else 0) rest
        (1 + next.1, 1 + next.2)
      else if c == asterisk && rest.head? == some slash then (0, 2)
      else ((commentEnd 0 rest).1, 1 + (commentEnd 0 rest).2)

/-- `skip` units have been read with the element before. -/
def elementsFrom (skip : Nat) : Text → List Element
  | [] => []
  | c :: rest =>
    match skip with
    | skip + 1 => elementsFrom skip rest
    | 0 =>
      if isTerminator c then
        .terminator :: elementsFrom (if c == carriageReturn && rest.head? == some lineFeed then 1 else 0) rest
      else if isSpace c then .blank c :: elementsFrom 0 rest
      else if isQuote c then
        .literal c (literalEnd c 0 rest).2 :: elementsFrom (literalEnd c 0 rest).1 rest
      else if c == slash && rest.head? == some slash then
        .comment 0 :: elementsFrom (1 + (rest.tail.takeWhile (!isTerminator ·)).length) rest
      else if c == slash && rest.head? == some asterisk then
        .comment (commentEnd 0 rest.tail).1 :: elementsFrom (1 + (commentEnd 0 rest.tail).2) rest
      else .char c :: elementsFrom 0 rest

/-- A leading byte order mark is skipped. -/
def elements (text : Text) : List Element :=
  if text.head? == some byteOrderMark then elementsFrom 0 text.tail else elementsFrom 0 text

namespace Element

def separates : Element → Bool
  | .terminator | .blank _ | .comment _ => true
  | _ => false

/-- What is left of an element when comments go and literals are emptied. -/
def left : Element → Text
  | .terminator => [lineFeed]
  | .blank c => [c]
  | .comment terminators => List.replicate terminators lineFeed
  | .literal quote _ => [quote, quote]
  | .char c => if c == byteOrderMark then [] else [c]

end Element

def leftOf (es : List Element) : Text := es.flatMap Element.left

section
variable (isLetterOrNumber : QChar → Bool)

def isIdentifierChar (c : QChar) : Bool := isLetterOrNumber c || c == 0x5F || c == 0x24

/-- An element that goes on with the identifier before it. -/
def Element.continues : Element → Bool
  | .char c => isIdentifierChar isLetterOrNumber c
  | _ => false

inductive NamePlace where
  | inside | after | afterDot

/-- The rest of a module name: identifiers joined by dots, with any separators around them. -/
def nameFrom (place : NamePlace) : List Element → Text
  | [] => []
  | e :: rest =>
    if e.separates then
      nameFrom (match place with | .inside => .after | other => other) rest
    else match e, place with
      | .char c, .inside =>
        if isIdentifierChar isLetterOrNumber c then c :: nameFrom .inside rest
        else if c == dot then nameFrom .afterDot rest
        else []
      | .char c, .after => if c == dot then nameFrom .afterDot rest else []
      | .char c, .afterDot =>
        if isIdentifierChar isLetterOrNumber c then dot :: c :: nameFrom .inside rest else []
      | _, _ => []

inductive ImportTarget where
  | path
  | module (name : Text)
  deriving DecidableEq

/-- What the tokens after the keyword import, where they import something. -/
def targetOf : List Element → Option ImportTarget
  | [] => none
  | e :: rest =>
    if e.separates then targetOf rest
    else match e with
      | .literal quote _ => if quote == quotation || quote == apostrophe then some .path else none
      | .char c =>
        if isIdentifierChar isLetterOrNumber c then
          some (.module (c :: nameFrom isLetterOrNumber .inside rest))
        else none
      | _ => none

def importKeyword : List Element := (utf16 "import").map .char

/-- The keyword token with `pre` before it, and what it imports from `post`. -/
structure ReadsImport (es pre post : List Element) (target : ImportTarget) : Prop where
  split : es = pre ++ importKeyword ++ post
  starts : ∀ e ∈ pre.getLast?, e.continues isLetterOrNumber = false
  ends : ∀ e ∈ post.head?, e.continues isLetterOrNumber = false
  target : targetOf isLetterOrNumber post = some target

end
end Qml
end SynQt
