import SynQt.Client.QmlLexis
import SynQt.Lib.Words

/-! What a delivered page may import: the scan a client makes of its text before it builds it. -/
namespace SynQt.QmlPalette
open Qml (lineFeed carriageReturn byteOrderMark quotation apostrophe backtick backslash slash asterisk semicolon
  isSpace)

/-- The four characters that end a line for QML's lexer. -/
def endsLine (c : QChar) : Bool := c == lineFeed || c == carriageReturn || c == 0x2028 || c == 0x2029

def importKeyword : Text := utf16 "import"
def pragmaKeyword : Text := utf16 "pragma"

/-- How many units of the text after the opening quote belong to the literal; `hidden` of them
are under an escape. -/
def consumeString (quote : QChar) (hidden : Nat) : Text → Nat
  | [] => 0
  | c :: rest =>
    match hidden with
    | hidden + 1 => 1 + consumeString quote hidden rest
    | 0 =>
      if c == backslash then 1 + consumeString quote 1 rest
      else if c == quote then 1
      else if quote != backtick && endsLine c then 0
      else 1 + consumeString quote 0 rest

/-- What a block comment leaves, and how many units of the text after its opening it takes. -/
def consumeBlockComment (skip : Nat) : Text → Text × Nat
  | [] => ([], 0)
  | c :: rest =>
    match skip with
    | skip + 1 => ((consumeBlockComment skip rest).1, 1 + (consumeBlockComment skip rest).2)
    | 0 =>
      if endsLine c then
        let next := consumeBlockComment (if c == carriageReturn && rest.head? == some lineFeed then 1 else 0) rest
        (lineFeed :: next.1, 1 + next.2)
      else if c == asterisk && rest.head? == some slash then ([], 2)
      else ((consumeBlockComment 0 rest).1, 1 + (consumeBlockComment 0 rest).2)

/-- The loop of `stripped`, past `skip` units it has consumed. -/
def strippedFrom (skip : Nat) : Text → Text
  | [] => []
  | c :: rest =>
    match skip with
    | skip + 1 => strippedFrom skip rest
    | 0 =>
      if c == byteOrderMark then strippedFrom 0 rest
      else if endsLine c then
        lineFeed :: strippedFrom (if c == carriageReturn && rest.head? == some lineFeed then 1 else 0) rest
      else if c == quotation || c == apostrophe || c == backtick then
        c :: c :: strippedFrom (consumeString c 0 rest) rest
      else if c == slash && rest.head? == some slash then
        strippedFrom (1 + (rest.tail.takeWhile (!endsLine ·)).length) rest
      else if c == slash && rest.head? == some asterisk then
        (consumeBlockComment 0 rest.tail).1 ++ strippedFrom (1 + (consumeBlockComment 0 rest.tail).2) rest
      else c :: strippedFrom 0 rest

def stripped (source : Text) : Text := strippedFrom 0 source

structure Statement where
  offset : Nat
  text : Text
  deriving DecidableEq

def trimmed (text : Text) : Text := trim isSpace text

def withinStatement (c : QChar) : Bool := c != lineFeed && c != semicolon

/-- The statement between `begin_` and the boundary after `pending`. -/
def closeStatement (begin_ : Nat) (pending : Text) : List Statement :=
  if (trimmed pending).isEmpty then []
  else [⟨begin_ + (pending.takeWhile isSpace).length, trimmed pending⟩]

def statementsFrom (begin_ : Nat) (pending : Text) : Text → List Statement
  | [] => closeStatement begin_ pending
  | c :: rest =>
    if withinStatement c then statementsFrom begin_ (pending ++ [c]) rest
    else closeStatement begin_ pending ++ statementsFrom (begin_ + pending.length + 1) [] rest

def statementsOf (body : Text) : List Statement := statementsFrom 0 [] body

def matchesKeyword (line keyword : Text) (quoteEndsKeyword : Bool) : Bool :=
  if !keyword.isPrefixOf line then false
  else match line.drop keyword.length with
    | [] => true
    | next :: _ => isSpace next || (quoteEndsKeyword && (next == quotation || next == apostrophe))

/-- The statements in order: where each import the palette allows begins, or why the page is refused. -/
def checkStatements (modules : List Text) (headerEnded : Bool) (approved : List Nat) :
    List Statement → Except Text (List Nat)
  | [] => .ok approved
  | statement :: statements =>
    let line := statement.text
    if matchesKeyword line importKeyword true then
      if headerEnded then .error (utf16 "import below the header: " ++ line)
      else
        let rest := trimmed (line.drop importKeyword.length)
        if rest.isEmpty then .error (utf16 "malformed import: " ++ line)
        else if rest.head? == some quotation || rest.head? == some apostrophe then
          .error (utf16 "path import is not allowed: " ++ line)
        else
          let module := rest.takeWhile (!isSpace ·)
          if !modules.contains module then .error (utf16 "module not in the palette: " ++ module)
          else checkStatements modules headerEnded (statement.offset :: approved) statements
    else if matchesKeyword line pragmaKeyword false then checkStatements modules headerEnded approved statements
    else checkStatements modules true approved statements

section
variable (isLetterOrNumber : QChar → Bool)

def isIdentifierChar (c : QChar) : Bool := isLetterOrNumber c || c == 0x5F || c == 0x24

/-- Every occurrence of the keyword the scan did not approve, when nothing runs into it. -/
def scanKeyword (approved : List Nat) (previous : Option QChar) (index : Nat) : Text → Except Text Unit
  | [] => .ok ()
  | c :: rest =>
    let startsToken := !previous.any (isIdentifierChar isLetterOrNumber)
    let endsToken := !((c :: rest).drop importKeyword.length).head?.any (isIdentifierChar isLetterOrNumber)
    if importKeyword.isPrefixOf (c :: rest) && !approved.contains index && startsToken && endsToken then
      .error (utf16 "import outside the page header: " ++ trimmed ((c :: rest).take 40))
    else scanKeyword approved (some c) (index + 1) rest

def isAcceptable (modules : List Text) (source : Text) : Except Text Unit :=
  match checkStatements modules false [] (statementsOf (stripped source)) with
  | .error reason => .error reason
  | .ok approved => scanKeyword isLetterOrNumber approved none 0 (stripped source)

end
end SynQt.QmlPalette
