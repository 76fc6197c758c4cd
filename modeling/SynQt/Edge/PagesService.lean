import SynQt.Lib.Ranked
import SynQt.Lib.Run
import SynQt.Transport.RoutePattern

/-! The edge's pages: the store that declares them and pushes their routes, and the service that
finds the one a request is for. -/
namespace SynQt
open Lib

structure Page where
  file : QString
  scope : QString
  hash : QString
  source : QString
  graphics : QString

def Page.unset : Page := ⟨"", "", "", "", ""⟩

/-- The page files, as they are when one is read. -/
structure PageFiles where
  /-- Nothing where the file cannot be opened. -/
  read : QString → Option QByteArray
  fromUtf8 : QByteArray → QString
  sha256 : QByteArray → QString

/-- The order a hash is iterated in once it has grown, which nothing fixes. -/
structure Arrangement where
  arrange : List (QString × Page) → List (QString × Page)
  perm : ∀ pages, (arrange pages).Perm pages

/-- The pages, in the order their hash is iterated in. -/
structure PageStore where
  pages : List (QString × Page)

namespace PageStore

def declaredRoutes (store : PageStore) : List QString := store.pages.map (·.1)

def routeCount (store : PageStore) : Nat := store.pages.length

def value (store : PageStore) (route : QString) : Page :=
  match store.pages.find? (·.1 == route) with
  | some (_, page) => page
  | none => Page.unset

def scopeFor (store : PageStore) (route : QString) : QString := (store.value route).scope

def hashFor (store : PageStore) (route : QString) : QString := (store.value route).hash

def sourceFor (store : PageStore) (route : QString) : QString := (store.value route).source

/-- A page that is there keeps its place. -/
def setPage (pages : List (QString × Page)) (route : QString) (page : Page) : List (QString × Page) :=
  pages.map fun entry => if entry.1 = route then (route, page) else entry

def insertPage (arrangement : Arrangement) (store : PageStore) (route : QString) (page : Page) : PageStore :=
  if store.declaredRoutes.contains route then ⟨setPage store.pages route page⟩
  else ⟨arrangement.arrange (store.pages ++ [(route, page)])⟩

def reload (files : PageFiles) (store : PageStore) (route : QString) : PageStore :=
  if store.declaredRoutes.contains route then
    match files.read (store.value route).file with
    | none => store
    | some bytes =>
      ⟨setPage store.pages route
        { store.value route with source := files.fromUtf8 bytes, hash := files.sha256 bytes }⟩
  else store

def addPage (files : PageFiles) (arrangement : Arrangement) (store : PageStore) (route file scope graphics : QString) :
    PageStore :=
  (store.insertPage arrangement route ⟨file, scope, "", "", graphics⟩).reload files route

/-- The pushed table, as the array of objects its text is. -/
def routeTableJson (store : PageStore) : List RouteEntry :=
  store.pages.map fun entry => ⟨entry.1, entry.2.scope, entry.2.graphics⟩

end PageStore

/-- A declared route paired with its compiled pattern. -/
structure Candidate where
  route : QString
  pattern : RoutePattern

structure PageResponse where
  status : QString
  qml : QString
  hash : QString
  seed : QString
  deriving DecidableEq

def refusal (status : QString) : PageResponse := ⟨status, "", "", ""⟩

structure PageCaller where
  hasScope : QString → Bool

abbrev SeedProvider := QString → QVariantMap → Option PageCaller → QString

structure PagesService where
  store : PageStore
  seedProvider : Option SeedProvider
  compiled : List Candidate
  compiledRoutes : Int

namespace PagesService
variable (qt : QtText)

/-- Malformed patterns are left out, and the rest are ranked by their literal segments. -/
def compile (declared : List QString) : List Candidate :=
  ranked (·.pattern.literalSegmentCount) (declared.filterMap fun route =>
    if (RoutePattern.make qt route).isValid then some ⟨route, RoutePattern.make qt route⟩ else none)

/-- Compiled again only when the count of routes has moved. -/
def candidates (s : PagesService) : PagesService :=
  if s.compiledRoutes = s.store.routeCount then s
  else { s with compiled := compile qt s.store.declaredRoutes, compiledRoutes := s.store.declaredRoutes.length }

/-- The route a request is for, as the table compiled last has it. -/
def matched (s : PagesService) (requestPath : QString) : Option (QString × QVariantMap) :=
  match RoutePattern.splitPath (RoutePattern.splitQuery qt requestPath).1 with
  | none => none
  | some segments =>
    (RoutePattern.firstMatch qt Candidate.pattern segments s.compiled).map fun found => (found.1.route, found.2)

def respond (s : PagesService) (route : QString) (parameters : QVariantMap) (haveHash : QString)
    (caller : Option PageCaller) : PageResponse :=
  let scope := s.store.scopeFor route
  if scope ≠ "" ∧ ¬ caller.any (·.hasScope scope) then refusal "forbidden"
  else
    let hash := s.store.hashFor route
    let alreadyHeld := haveHash ≠ "" ∧ haveHash = hash
    { status := if alreadyHeld then "notModified" else "ok"
      qml := if alreadyHeld then "" else s.store.sourceFor route
      hash := hash
      seed := match s.seedProvider with
        | some provider => provider route parameters caller
        | none => "" }

/-- The table is compiled only for a path that can match at all. -/
def fetchPageFor (s : PagesService) (requestPath haveHash : QString) (caller : Option PageCaller) :
    PagesService × PageResponse :=
  let s := if (RoutePattern.splitPath (RoutePattern.splitQuery qt requestPath).1).isSome then s.candidates qt else s
  match s.matched qt requestPath with
  | none => (s, refusal "notFound")
  | some (route, parameters) =>
    if route = "" then (s, refusal "notFound") else (s, s.respond route parameters haveHash caller)

inductive PageOp where
  | addPage (files : PageFiles) (arrangement : Arrangement) (route file scope graphics : QString)
  /-- A page's file has changed and is read again. -/
  | reload (files : PageFiles) (route : QString)
  | setSeedProvider (provider : Option SeedProvider)
  | fetch (requestPath haveHash : QString) (caller : Option PageCaller)

def step (s : PagesService) : PageOp → PagesService
  | .addPage files arrangement route file scope graphics =>
    { s with store := s.store.addPage files arrangement route file scope graphics }
  | .reload files route => { s with store := s.store.reload files route }
  | .setSeedProvider provider => { s with seedProvider := provider }
  | .fetch requestPath haveHash caller => (s.fetchPageFor qt requestPath haveHash caller).1

def start : PagesService := ⟨⟨[]⟩, none, [], -1⟩

end PagesService
end SynQt
