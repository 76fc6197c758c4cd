import SynQt.Client.Router

/-! A visitor's browsing on the desktop: the router with the history it moves through. -/
namespace SynQt
open Lib

/-- The entries of the desktop history, and the one the visitor is on. -/
structure BrowserHistory where
  stack : List QString := ["/"]
  index : Nat := 0
deriving DecidableEq

namespace BrowserHistory

def currentPath (history : BrowserHistory) : QString := history.stack.getD history.index "/"

/-- A new entry takes the place of all that were ahead. -/
def push (history : BrowserHistory) (path : QString) : BrowserHistory where
  stack := history.stack.take (history.index + 1) ++ [path]
  index := (history.stack.take (history.index + 1)).length

def replace (history : BrowserHistory) (path : QString) : BrowserHistory :=
  if history.stack.isEmpty then ⟨[path], 0⟩ else { history with stack := history.stack.set history.index path }

end BrowserHistory

namespace Router
variable (env : ClientEnv)

def refuses (s : Router) (path : QString) : Bool :=
  match lookup env.qt s.routes path with
  | none => false
  | some (route, _) => !s.isRemoteRoute route.config && !s.isReachable route.config

def landing (s : Router) (path : QString) : QString :=
  if (lookup env.qt s.routes path).isNone || s.refuses env path then s.config.routerFallback else path

/-- A login may go back to the path: it is one that is accepted, and its guard is satisfied. -/
def honours (s : Router) (path : QString) : Bool :=
  ResumePath.isAcceptable env.qt path (s.routes.map (·.config.path)) &&
    match lookup env.qt s.routes (RoutePattern.splitQuery env.qt path).1 with
    | none => false
    | some (route, _) => s.isReachable route.config

def rescoped (s : Router) (scope : List QString) : Router :=
  { s with
    session := s.session.map fun session => { session with scope := scope }
    loader := s.loader.map RemotePageLoader.clear
    pageSeed := [] }

end Router

/-- The router and its history, beside what a visitor would remember: the paths that were refused
since the scope last changed, the latest first, and the route table the page was found in. -/
structure Browsing where
  router : Router
  history : BrowserHistory
  refusals : List QString
  table : List Route

inductive BrowsingOp where
  | start
  | go (path : QString)
  | replace (path : QString)
  | back
  | forward
  | applyRemoteRouteTable (table : List RouteEntry)
  | scopeChanged (scope : List QString)
  | pageDelivered (request : Nat) (page : PageResponse)
  | pageChanged (route : QString)
  | view (url : QString) (state : ViewState)

namespace Browsing
variable (env : ClientEnv)

def navigate (s : Browsing) (pathWithQuery : QString) : Browsing :=
  let path := (RoutePattern.splitQuery env.qt pathWithQuery).1
  { s with
    router := s.router.navigate env pathWithQuery
    refusals := if s.router.refuses env path then path :: s.refusals else s.refusals
    table := s.router.routes }

/-- The entry that history landed on is corrected when a guard led away from it. -/
def popped (s : Browsing) (path : QString) : Browsing :=
  let landed := (RoutePattern.splitQuery env.qt path).1
  let s := s.navigate env path
  if landed ≠ s.router.path ∧ s.history.currentPath = path then
    { s with history := s.history.replace s.router.path }
  else s

/-- The page is looked at again where it stands, which pushes no entry, and then the path that
was refused before is gone to, which does. -/
def scopeChanged (s : Browsing) (scope : List QString) : Browsing :=
  if s.router.session.isSome then
    let settled := (s.router.rescoped scope).resolve env s.router.path
    let history := if settled.path ≠ s.router.path then s.history.replace settled.path else s.history
    let router := settled.resumeAfterLogin env
    { router := router
      history := if (settled.resumeTarget env).isSome then history.push router.path else history
      refusals := []
      table := s.router.routes }
  else s

def step (s : Browsing) : BrowsingOp → Browsing
  | .start => s.navigate env s.history.currentPath
  | .go path =>
    let s := s.navigate env path
    { s with history := s.history.push s.router.path }
  | .replace path =>
    let s := s.navigate env path
    { s with history := s.history.replace s.router.path }
  | .back =>
    if 0 < s.history.index then
      { s with history := { s.history with index := s.history.index - 1 } }.popped env
        (s.history.stack.getD (s.history.index - 1) "")
    else s
  | .forward =>
    if s.history.index + 1 < s.history.stack.length then
      { s with history := { s.history with index := s.history.index + 1 } }.popped env
        (s.history.stack.getD (s.history.index + 1) "")
    else s
  | .applyRemoteRouteTable table => { s with router := s.router.step env (.applyRemoteRouteTable table) }
  | .scopeChanged scope => s.scopeChanged env scope
  | .pageDelivered request page => { s with router := s.router.step env (.pageDelivered request page) }
  | .pageChanged route => { s with router := s.router.step env (.pageChanged route) }
  | .view url state => { s with router := s.router.step env (.view url state) }

def make (router : Router) : Browsing := ⟨router, {}, [], router.routes⟩

theorem scopeChanged_router (s : Browsing) (scope : List QString) :
    (s.scopeChanged env scope).router = s.router.scopeChanged env scope := by
  unfold scopeChanged Router.scopeChanged Router.rescoped
  cases s.router.session with
  | none => rfl
  | some session => rfl

end Browsing

namespace Router
variable (env : ClientEnv)

/-- What a navigation leaves of the router besides the page: the configuration, the session, the
table, the pages held, the path and the path kept for a login. -/
def ground (s : Router) :
    SynClientConfig × Option ClientSession × List Route × Option RemotePageLoader × QString × QString :=
  (s.config, s.session, s.routes, s.loader, s.path, s.resumePath)

variable (s : Router)

theorem setPageComponent_ground (component : Option ComponentId) (status : PageStatus) (loaderOwned : Bool) :
    (s.setPageComponent component status loaderOwned).ground = s.ground := by
  rw [setPageComponent]
  split <;> rfl

private theorem setPageUrl_ground (componentUrl : QString) (status : PageStatus) :
    (s.setPageUrl componentUrl status).ground = s.ground := by
  rw [setPageUrl]
  split
  · exact setPageComponent_ground s none .error false
  · dsimp only
    split
    · rfl
    · split
      · exact setPageComponent_ground _ none status false
      · exact setPageComponent_ground _ _ _ false

private theorem steerToFallback_ground (status : PageStatus) :
    (s.steerToFallback env status).ground =
      (s.config, s.session, s.routes, s.loader, s.config.routerFallback, s.resumePath) := by
  rw [steerToFallback]
  exact setPageUrl_ground _ _ _

def showRoute (s : Router) (path : QString) (route : RouteConfig) (parameters : QVariantMap) : Router :=
  let s := { s with path := path, params := parameters, refused := false }
  if route.graphics = .accelerated ∧ env.softwareRendered then
    { s.clearPendingRemoteFetch with refused := true, components := s.components + 1 }.setPageComponent
      (if s.engine then some s.components else none) .unsupported false
  else if route.componentUrl = "" then
    match s.loader with
    | some loader => s.resolveRemote loader path route
    | none => s.clearPendingRemoteFetch.setPageComponent none .error false
  else s.clearPendingRemoteFetch.setPageUrl route.componentUrl .ready

theorem resolve_eq (path : QString) :
    s.resolve env path =
      match lookup env.qt s.routes path with
      | none => s.steerToFallback env .notFound
      | some (route, parameters) =>
        if s.refuses env path then { s with resumePath := path }.steerToFallback env .forbidden
        else s.showRoute env path route.config parameters := by
  rw [resolve, refuses]
  cases lookup env.qt s.routes path with
  | none => rfl
  | some found =>
    obtain ⟨route, parameters⟩ := found
    have hguard : (¬ s.isRemoteRoute route.config ∧ ¬ s.isReachable route.config) ↔
        (!s.isRemoteRoute route.config && !s.isReachable route.config) = true := by simp
    simp only [hguard]
    rfl

theorem resolveRemote_ground (loader : RemotePageLoader) (path : QString) (route : RouteConfig) :
    (s.resolveRemote loader path route).ground = s.ground := by
  rw [resolveRemote]
  split
  · exact setPageComponent_ground { s with pendingRoute := route.path, pendingConcretePath := path } _ .ready true
  · exact setPageComponent_ground { s with pendingRoute := route.path, pendingConcretePath := path } none .loading false

theorem showRoute_ground (path : QString) (route : RouteConfig) (parameters : QVariantMap) :
    (s.showRoute env path route parameters).ground = { s with path := path }.ground := by
  rw [showRoute]
  dsimp only
  split
  · exact setPageComponent_ground _ _ .unsupported false
  · split
    · split
      · exact resolveRemote_ground _ _ path route
      · exact setPageComponent_ground _ none .error false
    · exact setPageUrl_ground _ _ .ready

/-- A path is shown, or leads to the fallback; and it is kept for a login when the guard refused it. -/
theorem resolve_ground (path : QString) :
    (s.resolve env path).ground =
      (s.config, s.session, s.routes, s.loader, s.landing env path,
        if s.refuses env path then path else s.resumePath) := by
  rw [resolve_eq, landing]
  cases hlookup : lookup env.qt s.routes path with
  | none =>
    have hrefuses : s.refuses env path = false := by rw [refuses, hlookup]
    rw [hrefuses]
    exact steerToFallback_ground env s .notFound
  | some found =>
    obtain ⟨route, parameters⟩ := found
    cases hrefuses : s.refuses env path with
    | true => exact steerToFallback_ground env { s with resumePath := path } .forbidden
    | false => exact showRoute_ground env s path route.config parameters

end Router
end SynQt
