import SynQt.Lib.Ranked
import SynQt.Transport.RoutePattern

/-! The client's route table: the routes its bundle declares, the ones the edge delivers beside
them, and which of them a path resolves to. -/
namespace SynQt
open Lib

inductive GraphicsRequirement where
  | any
  | accelerated
  deriving DecidableEq

structure RouteConfig where
  path : QString
  /-- Empty: reachable by any session. -/
  scope : QString
  /-- Where the compiled-in view lives, or empty for a route delivered by the edge. -/
  componentUrl : QString
  graphics : GraphicsRequirement
  deriving DecidableEq

structure Route where
  pattern : RoutePattern
  config : RouteConfig

namespace Router
variable (qt : QtText)

def compiledRoutes (routes : List RouteConfig) : List Route :=
  routes.filterMap fun config =>
    if (RoutePattern.make qt config.path).isValid then some ⟨RoutePattern.make qt config.path, config⟩ else none

def remoteConfig (entry : RouteEntry) : RouteConfig where
  path := entry.path
  scope := entry.scope
  componentUrl := ""
  graphics := if entry.graphics = "accelerated" then .accelerated else .any

def remoteRoutes (table : List RouteEntry) : List Route := compiledRoutes qt (table.map remoteConfig)

/-- Most literal segments first, so precedence is a property of the table rather than of its order. -/
def applyRoutes (routes : List Route) : List Route := ranked (·.pattern.literalSegmentCount) routes

/-- The routes of the edge that the bundle does not own. -/
def offeredRoutes (routes : List RouteConfig) (table : List RouteEntry) : List Route :=
  (remoteRoutes qt table).filter fun route =>
    !((compiledRoutes qt routes).map (·.config.path)).contains route.config.path

def applyRemoteRouteTable (routes : List RouteConfig) (table : List RouteEntry) : List Route :=
  applyRoutes (compiledRoutes qt routes ++ offeredRoutes qt routes table)

def lookup (routes : List Route) (path : QString) : Option (Route × QVariantMap) :=
  match RoutePattern.splitPath path with
  | none => none
  | some segments => RoutePattern.firstMatch qt Route.pattern segments routes

end Router

namespace RoutePattern
variable {α : Type}

def matchesEntry (qt : QtText) (pattern : α → RoutePattern) (segments : List QString) (entry : α) : Bool :=
  ((pattern entry).matchesSegments qt segments).isSome

private theorem firstMatch_eq (qt : QtText) (pattern : α → RoutePattern) (segments : List QString) (table : List α) :
    firstMatch qt pattern segments table =
      (table.find? (matchesEntry qt pattern segments)).bind fun entry =>
        ((pattern entry).matchesSegments qt segments).map fun parameters => (entry, parameters) := by
  induction table with
  | nil => rfl
  | cons entry table ih =>
    rw [firstMatch, List.findSome?_cons, List.find?_cons, matchesEntry]
    cases hmatch : (pattern entry).matchesSegments qt segments with
    | none =>
      simp only [Option.map_none, Option.isSome_none]
      exact ih
    | some parameters => simp [hmatch]

/-- Whatever order a table came in, its first match is the first of those with most literals. -/
theorem firstMatch_ranked (qt : QtText) (pattern : α → RoutePattern) (segments : List QString) (table : List α) :
    firstMatch qt pattern segments (ranked (fun entry => (pattern entry).literalSegmentCount) table) =
      (firstRanked (fun entry => (pattern entry).literalSegmentCount) (matchesEntry qt pattern segments) table).bind
        fun entry => ((pattern entry).matchesSegments qt segments).map fun parameters => (entry, parameters) := by
  rw [firstMatch_eq, find?_ranked]

end RoutePattern

namespace Router
variable {qt : QtText}

theorem lookup_applyRoutes (qt : QtText) (routes : List Route) {path : QString} {segments : List QString}
    (hpath : RoutePattern.splitPath path = some segments) :
    (lookup qt (applyRoutes routes) path).map (·.1) =
      firstRanked (·.pattern.literalSegmentCount) (RoutePattern.matchesEntry qt Route.pattern segments) routes := by
  rw [lookup, hpath]
  simp only [applyRoutes, RoutePattern.firstMatch_ranked]
  cases hfound : firstRanked (·.pattern.literalSegmentCount) (RoutePattern.matchesEntry qt Route.pattern segments) routes with
  | none => rfl
  | some route =>
    obtain ⟨-, hmatch, -⟩ := firstRanked_spec hfound
    obtain ⟨parameters, hsome⟩ := Option.isSome_iff_exists.mp hmatch
    simp [hsome]

theorem not_mem_offeredRoutes {routes : List RouteConfig} {table : List RouteEntry} {route : Route}
    (h : route ∈ compiledRoutes qt routes) : route ∉ offeredRoutes qt routes table := by
  intro hoffered
  have howned : ((compiledRoutes qt routes).map (·.config.path)).contains route.config.path = true :=
    List.contains_iff_mem.mpr (List.mem_map_of_mem h)
  have hfree := (List.mem_filter.mp hoffered).2
  rw [howned] at hfree
  exact absurd hfree (by simp)

/-- What the edge offers of its table: the valid patterns that no route of the bundle is declared by. -/
theorem mem_offeredRoutes {routes : List RouteConfig} {table : List RouteEntry} {route : Route} :
    route ∈ offeredRoutes qt routes table ↔
      ∃ entry ∈ table, (RoutePattern.make qt entry.path).isValid = true ∧
        (∀ owned ∈ compiledRoutes qt routes, owned.config.path ≠ entry.path) ∧
        route = ⟨RoutePattern.make qt entry.path, remoteConfig entry⟩ := by
  have hremote : route ∈ remoteRoutes qt table ↔ ∃ entry ∈ table, (RoutePattern.make qt entry.path).isValid = true ∧
      route = ⟨RoutePattern.make qt entry.path, remoteConfig entry⟩ := by
    simp only [remoteRoutes, compiledRoutes, List.mem_filterMap, List.mem_map, Option.ite_none_right_eq_some,
      Option.some.injEq]
    constructor
    · rintro ⟨-, ⟨entry, hmem, rfl⟩, hvalid, rfl⟩
      exact ⟨entry, hmem, hvalid, rfl⟩
    · rintro ⟨entry, hmem, hvalid, rfl⟩
      exact ⟨_, ⟨entry, hmem, rfl⟩, hvalid, rfl⟩
  rw [offeredRoutes, List.mem_filter, hremote]
  simp only [Bool.not_eq_true', ← Bool.not_eq_true, List.contains_iff_mem, List.mem_map, not_exists, not_and]
  constructor
  · rintro ⟨⟨entry, hmem, hvalid, rfl⟩, hfree⟩
    exact ⟨entry, hmem, hvalid, hfree, rfl⟩
  · rintro ⟨entry, hmem, hvalid, hfree, rfl⟩
    exact ⟨⟨entry, hmem, hvalid, rfl⟩, hfree⟩

/-- A path of the bundle stays with the route it resolved to exactly while no route the edge offers
matches it with more literal segments. An empty earlier table is the bundle alone. -/
theorem keeps_compiled_iff (qt : QtText) (routes : List RouteConfig) (earlier table : List RouteEntry) (path : QString)
    (route : Route) (hroute : route ∈ compiledRoutes qt routes)
    (hbefore : (lookup qt (applyRemoteRouteTable qt routes earlier) path).map (·.1) = some route) :
    (lookup qt (applyRemoteRouteTable qt routes table) path).map (·.1) = some route ↔
      ∀ entry ∈ table, (RoutePattern.make qt entry.path).isValid = true →
        (∀ owned ∈ compiledRoutes qt routes, owned.config.path ≠ entry.path) →
        (∃ segments, RoutePattern.splitPath path = some segments ∧
          ((RoutePattern.make qt entry.path).matchesSegments qt segments).isSome = true) →
        (RoutePattern.make qt entry.path).literalSegmentCount ≤ route.pattern.literalSegmentCount := by
  cases hpath : RoutePattern.splitPath path with
  | none =>
    rw [lookup, hpath] at hbefore
    cases hbefore
  | some segments =>
    rw [applyRemoteRouteTable, lookup_applyRoutes qt _ hpath,
      firstRanked_append_eq_some (not_mem_offeredRoutes hroute)] at hbefore
    rw [applyRemoteRouteTable, lookup_applyRoutes qt _ hpath,
      firstRanked_append_eq_some (not_mem_offeredRoutes hroute)]
    constructor
    · rintro ⟨-, hoffered⟩ entry hmem hvalid hfree ⟨segments', hsegments, hmatch⟩
      obtain rfl := Option.some.inj hsegments
      exact hoffered _ (mem_offeredRoutes.mpr ⟨entry, hmem, hvalid, hfree, rfl⟩) hmatch
    · intro hall
      refine ⟨hbefore.1, fun offered hoffered hmatch => ?_⟩
      obtain ⟨entry, hmem, hvalid, hfree, rfl⟩ := mem_offeredRoutes.mp hoffered
      exact hall entry hmem hvalid hfree ⟨segments, rfl, hmatch⟩

/-- Letters are the ASCII ones, and nothing is encoded. -/
def plainText : QtText where
  isLetter c := c.isAlpha
  isLetterOrNumber c := c.isAlphanum
  fromPercentEncoding := id
  queryItems _ := []

def campaignRoute : RouteConfig := ⟨"/c/:campaign", "", "qrc:/Campaign.qml", .any⟩

theorem keeps_compiled_iff_campaign :
    (lookup plainText (applyRemoteRouteTable plainText [campaignRoute] [⟨"/c/:name", "", ""⟩]) "/c/summary").map (·.1) =
        some ⟨RoutePattern.make plainText "/c/:campaign", campaignRoute⟩ ↔
      ∀ entry ∈ [(⟨"/c/:name", "", ""⟩ : RouteEntry)], (RoutePattern.make plainText entry.path).isValid = true →
        (∀ owned ∈ compiledRoutes plainText [campaignRoute], owned.config.path ≠ entry.path) →
        (∃ segments, RoutePattern.splitPath "/c/summary" = some segments ∧
          ((RoutePattern.make plainText entry.path).matchesSegments plainText segments).isSome = true) →
        (RoutePattern.make plainText entry.path).literalSegmentCount ≤
          (RoutePattern.make plainText "/c/:campaign").literalSegmentCount :=
  keeps_compiled_iff plainText [campaignRoute] [] [⟨"/c/:name", "", ""⟩] "/c/summary"
    ⟨RoutePattern.make plainText "/c/:campaign", campaignRoute⟩ (.head _) rfl

/-- A literal of the edge's table against a capture of the bundle's. -/
theorem edge_shadows_compiled :
    ¬ ∀ (qt : QtText) (routes : List RouteConfig) (table : List RouteEntry) (path : QString) (route : Route),
      route ∈ compiledRoutes qt routes →
      (lookup qt (applyRoutes (compiledRoutes qt routes)) path).map (·.1) = some route →
      (lookup qt (applyRemoteRouteTable qt routes table) path).map (·.1) = some route := by
  intro h
  have hkept := h plainText [campaignRoute] [⟨"/c/summary", "", ""⟩] "/c/summary"
    ⟨RoutePattern.make plainText "/c/:campaign", campaignRoute⟩ (.head _) rfl
  have hurl := congrArg (Option.map fun route : Route => route.config.componentUrl) hkept
  exact absurd hurl (by decide)

end Router
end SynQt
