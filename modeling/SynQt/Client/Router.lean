import SynQt.Client.RemotePageLoader
import SynQt.Edge.PagesService

/-! The client's router: which page a path shows, with what seed, and why not. A step is a navigation, a
reply, or a signal with all that is called from it. -/
namespace SynQt
open Lib

/-- A session's scope, as the list of strings it reads as, and the order of the scopes where they have one. -/
structure ClientSession where
  scopesHierarchical : Bool
  scopeOrder : List QString
  scope : List QString

namespace ClientSession

def held (session : ClientSession) : QString :=
  match session.scope with
  | [name] => name
  | _ => ""

def hasScope (session : ClientSession) (name : QString) : Bool :=
  if ¬ session.scopesHierarchical then session.scope.contains name
  else match session.scopeOrder.idxOf? session.held, session.scopeOrder.idxOf? name with
    | some heldRank, some wantedRank => wantedRank ≤ heldRank
    | _, _ => session.held = name

end ClientSession

namespace ResumePath

def MaximumLength : Nat := 2048

def hasRewritingCharacter (candidate : QString) : Bool :=
  candidate.toList.any fun c => c.toNat < 0x20 || c.toNat == 0x7F || c == '\\' || c == ':' || c == '#'

def containsFolded (part text : List Char) : Bool := (text.map Char.toLower).tails.any part.isPrefixOf

def hasUnsafeSegment (path : QString) : Bool :=
  (splitKeepEmpty slash path.toList).any fun segment =>
    segment == ['.'] || segment == ['.', '.'] || containsFolded ['%', '2', 'f'] segment ||
      containsFolded ['%', '5', 'c'] segment || containsFolded ['%', '2', 'e'] segment

def isAcceptable (qt : QtText) (candidate : QString) (declaredPaths : List QString) : Bool :=
  if candidate = "" ∨ MaximumLength < (toUtf16 candidate).length then false
  else if ¬ startsWith candidate slash then false
  else if ['/', '/'].isPrefixOf candidate.toList then false
  else if hasRewritingCharacter candidate then false
  else
    let path := (RoutePattern.splitQuery qt candidate).1
    if hasUnsafeSegment path then false
    else match RoutePattern.splitPath path with
      | none => false
      | some segments => declaredPaths.any fun declared => ((RoutePattern.make qt declared).matchesSegments qt segments).isSome

end ResumePath

inductive PageStatus where
  | loading
  | ready
  | forbidden
  | notFound
  | error
  | unsupported
  deriving DecidableEq

inductive ViewState where
  | loading
  | built
  | broken
  deriving DecidableEq

structure SynClientConfig where
  routes : List RouteConfig
  routerFallback : QString

structure Router where
  config : SynClientConfig
  session : Option ClientSession
  engine : Bool
  views : QString → ViewState
  loader : Option RemotePageLoader
  routes : List Route
  path : QString
  params : QVariantMap
  query : QVariantMap
  pageComponent : Option ComponentId
  /-- Where the page was loaded from, unset when it did not come from a url. -/
  pageUrl : Option QString
  pageStatus : PageStatus
  pageComponentIsLoaderOwned : Bool
  pageSeed : QVariantMap
  pendingRoute : QString
  pendingConcretePath : QString
  /-- The path `ResumePath` stored last, if it was not taken since. -/
  resumePath : QString
  components : Nat
  requested : List QString
  /-- The seed of the last reply taken up for each path. -/
  delivered : QString → Option QVariantMap
  /-- The last answer for the current path was that it is not to be shown: by a guard, by the edge, or because
  nothing is there or the device cannot draw it. -/
  refused : Bool

namespace Router
variable (env : ClientEnv)

def loadStatus (view : Option ViewState) (status : PageStatus) : PageStatus :=
  match view with
  | some .broken => .error
  | some .loading => .loading
  | _ => status

def setPageComponent (s : Router) (component : Option ComponentId) (status : PageStatus) (loaderOwned : Bool) : Router :=
  if s.pageComponent = component ∧ s.pageStatus = status then s
  else { s with
    pageUrl := none
    pageComponent := component
    pageStatus := status
    pageComponentIsLoaderOwned := loaderOwned }

def setPageUrl (s : Router) (componentUrl : QString) (status : PageStatus) : Router :=
  if componentUrl ≠ "" ∧ ¬ s.engine then s.setPageComponent none .error false
  else
    let s := { s with pageSeed := [] }
    if s.pageComponent ≠ none ∧ s.pageUrl = some componentUrl then
      { s with pageStatus := loadStatus (some (s.views componentUrl)) status }
    else
      let shown :=
        if componentUrl = "" then s.setPageComponent none status false
        else { s with components := s.components + 1 }.setPageComponent (some s.components)
          (loadStatus (some (s.views componentUrl)) status) false
      { shown with pageUrl := some componentUrl }

def clearPendingRemoteFetch (s : Router) : Router := { s with pendingRoute := "", pendingConcretePath := "" }

/-- No session means no scope, never every scope. -/
def isReachable (s : Router) (route : RouteConfig) : Bool :=
  route.scope = "" || s.session.any fun session => session.hasScope route.scope

/-- Show what is held of the page, and ask for it all the same. -/
def resolveRemote (s : Router) (loader : RemotePageLoader) (path : QString) (route : RouteConfig) : Router :=
  let s := { s with pendingRoute := route.path, pendingConcretePath := path }
  let s := match loader.componentFor route.path with
    | some cached => s.setPageComponent (some cached) .ready true
    | none => s.setPageComponent none .loading false
  { s with requested := s.requested ++ [path] }

def fallbackUrl (s : Router) : QString :=
  match lookup env.qt s.routes s.config.routerFallback with
  | none => ""
  | some (fallback, _) => fallback.config.componentUrl

/-- A path that is not to be shown leads to the fallback, and leaves its query behind. -/
def steerToFallback (s : Router) (status : PageStatus) : Router :=
  let s := { s with
    query := []
    path := s.config.routerFallback
    params := ((lookup env.qt s.routes s.config.routerFallback).map Prod.snd).getD []
    refused := true }
  s.clearPendingRemoteFetch.setPageUrl (s.fallbackUrl env) status

/-- A route the edge delivers leaves its scope to the edge, where there is a loader for it. -/
def isRemoteRoute (s : Router) (route : RouteConfig) : Bool := route.componentUrl = "" && s.loader.isSome

def resolve (s : Router) (path : QString) : Router :=
  match lookup env.qt s.routes path with
  | none => s.steerToFallback env .notFound
  | some (route, parameters) =>
    if ¬ s.isRemoteRoute route.config ∧ ¬ s.isReachable route.config then
      { s with resumePath := path }.steerToFallback env .forbidden
    else
      let s := { s with path := path, params := parameters, refused := false }
      if route.config.graphics = .accelerated ∧ env.softwareRendered then
        { s.clearPendingRemoteFetch with refused := true, components := s.components + 1 }.setPageComponent
          (if s.engine then some s.components else none) .unsupported false
      else if route.config.componentUrl = "" then
        match s.loader with
        | some loader => s.resolveRemote loader path route.config
        | none => s.clearPendingRemoteFetch.setPageComponent none .error false
      else s.clearPendingRemoteFetch.setPageUrl route.config.componentUrl .ready

/-- `go`, `replace`, `start` and a history entry that is landed on differ only in what they do to the history. -/
def navigate (s : Router) (pathWithQuery : QString) : Router :=
  let split := RoutePattern.splitQuery env.qt pathWithQuery
  { s with query := split.2 }.resolve env split.1

def resumeTarget (s : Router) : Option QString :=
  if ResumePath.isAcceptable env.qt s.resumePath (s.routes.map (·.config.path)) then
    match lookup env.qt s.routes (RoutePattern.splitQuery env.qt s.resumePath).1 with
    | none => none
    | some (route, _) => if s.isReachable route.config then some s.resumePath else none
  else none

def resumeAfterLogin (s : Router) : Router :=
  let taken := { s with resumePath := "" }
  match s.resumeTarget env with
  | none => taken
  | some intended => taken.navigate env intended

/-- What was delivered under one scope is not shown under another. -/
def scopeChanged (s : Router) (scope : List QString) : Router :=
  match s.session with
  | none => s
  | some session =>
    let s := { s with
      session := some { session with scope := scope }
      loader := s.loader.map RemotePageLoader.clear
      pageSeed := [] }
    (s.resolve env s.path).resumeAfterLogin env

def takesUp (s : Router) (route : QString) : Bool := route = s.pendingRoute || route = s.pendingConcretePath

def onPageDelivered (s : Router) (route : QString) (page : PageResponse) : Router :=
  if ¬ s.takesUp route then s
  else if page.status = "forbidden" then { s with refused := true }.setPageComponent none .forbidden false
  else if page.status = "notFound" then { s with refused := true }.setPageComponent none .notFound false
  else match s.loader with
    | none => s.setPageComponent none .error false
    | some loader =>
      let (outcome, loader) := loader.deliver env s.components s.pendingRoute page.qml page.hash
      if outcome = .rejected ∨ outcome = .failed then s.setPageComponent none .error false
      else
        let newSeed := if page.seed = "" then [] else env.jsonObject page.seed
        let s := { s with
          loader := some loader
          components := s.components + 1
          pageSeed := newSeed
          delivered := Function.update s.delivered route (some newSeed)
          refused := false }
        s.setPageComponent (loader.componentFor s.pendingRoute) .ready true

/-- The edge says a page changed: it is forgotten, and asked for again if it is the one that is shown. -/
def onPageChanged (s : Router) (route : QString) : Router :=
  match s.loader with
  | none => s
  | some loader =>
    let isOnScreen := route = s.pendingRoute
    let s := if isOnScreen then s.setPageComponent none .loading false else s
    let s := { s with loader := some (loader.invalidate route) }
    if isOnScreen then { s with requested := s.requested ++ [s.pendingConcretePath] } else s

inductive RouterOp where
  | navigate (pathWithQuery : QString)
  | resumeAfterLogin
  | applyRemoteRouteTable (table : List RouteEntry)
  | scopeChanged (scope : List QString)
  /-- The reply to one of the requests that are not answered yet. -/
  | pageDelivered (request : Nat) (page : PageResponse)
  | pageChanged (route : QString)
  | view (url : QString) (state : ViewState)

def step (s : Router) : RouterOp → Router
  | .navigate pathWithQuery => s.navigate env pathWithQuery
  | .resumeAfterLogin => s.resumeAfterLogin env
  | .applyRemoteRouteTable table => { s with routes := SynQt.Router.applyRemoteRouteTable env.qt s.config.routes table }
  | .scopeChanged scope => s.scopeChanged env scope
  | .pageDelivered request page =>
    match s.requested[request]? with
    | none => s
    | some route => { s with requested := s.requested.eraseIdx request }.onPageDelivered env route page
  | .pageChanged route => s.onPageChanged route
  | .view url state => { s with views := Function.update s.views url state }

def start (config : SynClientConfig) (session : Option ClientSession) (engine : Bool) (views : QString → ViewState)
    (modules : Option (List Text)) : Router where
  config := config
  session := session
  engine := engine
  views := views
  loader := modules.map fun modules => ⟨modules, fun _ => none⟩
  routes := applyRoutes (compiledRoutes env.qt config.routes)
  path := config.routerFallback
  params := []
  query := []
  pageComponent := none
  pageUrl := none
  pageStatus := .notFound
  pageComponentIsLoaderOwned := false
  pageSeed := []
  pendingRoute := ""
  pendingConcretePath := ""
  resumePath := ""
  components := 0
  requested := []
  delivered _ := none
  refused := false

end Router
end SynQt
