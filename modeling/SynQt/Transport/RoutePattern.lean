import SynQt.Service.SessionManager

/-! Route patterns: how a declared path is read, and how the segments of a request match it. -/
namespace SynQt

/-- What the pattern code asks of Qt about text. -/
structure QtText where
  isLetter : Char → Bool
  isLetterOrNumber : Char → Bool
  fromPercentEncoding : QString → QString
  /-- The decoded pairs of a query string. -/
  queryItems : QString → List (QString × QString)

def slash : Char := '/'
def colon : Char := ':'
def questionMark : Char := '?'

def splitKeepEmpty (separator : Char) : List Char → List (List Char)
  | [] => [[]]
  | c :: rest =>
    if c == separator then [] :: splitKeepEmpty separator rest
    else match splitKeepEmpty separator rest with
      | [] => [[c]]
      | part :: parts => (c :: part) :: parts

def startsWith (text : QString) (c : Char) : Bool := text.toList.head? == some c

def splitSegments (path : QString) : List QString :=
  ((splitKeepEmpty slash path.toList).filter (!·.isEmpty)).map String.ofList

/-- A map by key, in the order of its keys. -/
def insertVariant (map : QVariantMap) (key value : QString) : QVariantMap :=
  match map with
  | [] => [(key, value)]
  | (k, v) :: rest =>
    if key = k then (key, value) :: rest
    else if key < k then (key, value) :: (k, v) :: rest
    else (k, v) :: insertVariant rest key value

def isIdentifier (qt : QtText) (name : List Char) : Bool :=
  match name with
  | [] => false
  | c :: _ => (qt.isLetter c || c == '_') && name.all fun c => qt.isLetterOrNumber c || c == '_'

structure RoutePattern where
  pattern : QString
  segments : List QString
  literalSegments : Nat
  valid : Bool

namespace RoutePattern

/-- The literal segments counted, or nothing where a placeholder is no name of its own. -/
def countLiterals (qt : QtText) (names : List QString) (literals : Nat) : List QString → Option Nat
  | [] => some literals
  | segment :: segments =>
    if startsWith segment colon then
      let name := segment.toList.tail
      if !isIdentifier qt name || names.contains (String.ofList name) then none
      else countLiterals qt (String.ofList name :: names) literals segments
    else countLiterals qt names (literals + 1) segments

def make (qt : QtText) (pattern : QString) : RoutePattern :=
  if startsWith pattern slash then
    match countLiterals qt [] 0 (splitSegments pattern) with
    | some literals => ⟨pattern, splitSegments pattern, literals, true⟩
    | none => ⟨pattern, splitSegments pattern, 0, false⟩
  else ⟨pattern, [], 0, false⟩

def isValid (pattern : RoutePattern) : Bool := pattern.valid

def literalSegmentCount (pattern : RoutePattern) : Nat := pattern.literalSegments

/-- One trailing slash is tolerated, and no other empty segment. -/
def splitPath (path : QString) : Option (List QString) :=
  if startsWith path slash then
    let actual := (splitKeepEmpty slash path.toList).tail
    let actual := if actual.getLast? == some [] then actual.dropLast else actual
    if actual.any (·.isEmpty) then none else some (actual.map String.ofList)
  else none

/-- A placeholder captures its segment decoded; a literal is compared with it as it is. -/
def capture (qt : QtText) (captured : QVariantMap) : List QString → List QString → Option QVariantMap
  | [], [] => some captured
  | segment :: segments, actual :: actuals =>
    if startsWith segment colon then
      capture qt (insertVariant captured (String.ofList segment.toList.tail) (qt.fromPercentEncoding actual)) segments actuals
    else if segment = actual then capture qt captured segments actuals
    else none
  | _, _ => none

def matchesSegments (qt : QtText) (pattern : RoutePattern) (actual : List QString) : Option QVariantMap :=
  if pattern.valid ∧ actual.length = pattern.segments.length then capture qt [] pattern.segments actual else none

def firstMatch {α : Type} (qt : QtText) (pattern : α → RoutePattern) (segments : List QString) (table : List α) :
    Option (α × QVariantMap) :=
  table.findSome? fun entry => ((pattern entry).matchesSegments qt segments).map fun parameters => (entry, parameters)

/-- The path without its query, and the query's pairs, the last of one name standing. -/
def splitQuery (qt : QtText) (pathWithQuery : QString) : QString × QVariantMap :=
  let text := pathWithQuery.toList
  match text.dropWhile (· != questionMark) with
  | [] => (pathWithQuery, [])
  | _ :: query =>
    (String.ofList (text.takeWhile (· != questionMark)),
      (qt.queryItems (String.ofList query)).foldl (fun parsed pair => insertVariant parsed pair.1 pair.2) [])

end RoutePattern

/-- An entry of the route table the edge pushes, a member it lacks read as the empty string. -/
structure RouteEntry where
  path : QString
  scope : QString
  graphics : QString

end SynQt
