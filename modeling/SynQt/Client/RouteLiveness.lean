import SynQt.Client.RouteTable
import SynQt.Transport.RouteShape

/-! Which routes of a table are chosen for some path: those whose literals no earlier route has at the same places. -/
namespace SynQt
open Lib Option List

namespace Router
open RoutePattern
variable {qt : QtText}

def routeOf (qt : QtText) (config : RouteConfig) : Route := ⟨RoutePattern.make qt config.path, config⟩

/-- The route is the one chosen for a path, with its placeholders bound to what the path has there. -/
def Live (qt : QtText) (routes : List Route) (config : RouteConfig) : Prop :=
  ∃ path segments parameters, splitPath path = some segments ∧ lookup qt routes path = some (routeOf qt config, parameters) ∧
    ∀ entry, entry ∈ parameters ↔ entry ∈ bindings qt (splitSegments config.path) segments

def shapeOf (config : RouteConfig) : List (Option QString) := shape (splitSegments config.path)

/-- A table every pattern of which is read, no two declared alike. -/
structure Declared (qt : QtText) (configs : List RouteConfig) : Prop where
  valid : ∀ config ∈ configs, (RoutePattern.make qt config.path).valid = true
  distinct : (configs.map (·.path)).Nodup

variable {configs : List RouteConfig}

private theorem compiledRoutes_declared (h : Declared qt configs) :
    compiledRoutes qt configs = configs.map (routeOf qt) := by
  rw [compiledRoutes, ← filterMap_eq_map]
  refine filterMap_congr fun config hin => ?_
  exact if_pos (h.valid config hin)

private theorem routeOf_inj {config other : RouteConfig} (h : routeOf qt config = routeOf qt other) : config = other :=
  congrArg Route.config h

variable {config : RouteConfig}

section
variable (hvalid : (RoutePattern.make qt config.path).valid = true)
include hvalid

private theorem matchesEntry_iff (segments : List QString) :
    matchesEntry qt Route.pattern segments (routeOf qt config) = true ↔ Fits (splitSegments config.path) segments := by
  rw [matchesEntry, routeOf, isSome_matchesSegments, (make_valid hvalid).1, and_iff_right hvalid]

private theorem literalSegmentCount_routeOf :
    (routeOf qt config).pattern.literalSegmentCount = literals (splitSegments config.path) :=
  (make_valid hvalid).2.1

end

theorem plain_fill {fresh : QString} (hfresh : Plain fresh) (path : QString) :
    ∀ segment ∈ fill fresh (splitSegments path), Plain segment := by
  intro segment hin
  obtain ⟨declared, hdeclared, rfl⟩ := mem_map.mp hin
  split
  · exact hfresh
  · exact plain_of_mem_splitSegments hdeclared

/-- What fits the path that a route is filled in to has no more literals than it, and with as many has them where it does. -/
theorem le_of_matches_fill {config other : RouteConfig} (hvalid : (RoutePattern.make qt config.path).valid = true)
    (hother : (RoutePattern.make qt other.path).valid = true) {fresh : QString} (hfresh : fresh ∉ splitSegments other.path)
    (hmatch : matchesEntry qt Route.pattern (fill fresh (splitSegments config.path)) (routeOf qt other) = true) :
    (routeOf qt other).pattern.literalSegmentCount ≤ (routeOf qt config).pattern.literalSegmentCount ∧
      ((routeOf qt config).pattern.literalSegmentCount ≤ (routeOf qt other).pattern.literalSegmentCount →
        shapeOf other = shapeOf config) := by
  rw [literalSegmentCount_routeOf hvalid, literalSegmentCount_routeOf hother]
  exact literals_le_of_fits hfresh ((matchesEntry_iff hother _).mp hmatch)

private theorem matchesSegments_of_lookup {routes : List Route} {path : QString} {segments : List QString} {route : Route}
    {parameters : QVariantMap} (hpath : splitPath path = some segments) (h : lookup qt routes path = some (route, parameters)) :
    route.pattern.matchesSegments qt segments = some parameters := by
  rw [lookup, hpath] at h
  obtain ⟨found, -, hfound⟩ := exists_of_findSome?_eq_some h
  obtain ⟨captured, hcaptured, he⟩ := map_eq_some_iff.mp hfound
  obtain ⟨rfl, rfl⟩ := Prod.mk.inj he
  exact hcaptured

theorem live_of_distinct (hdeclared : Declared qt configs) (hshapes : (configs.map shapeOf).Nodup)
    (table : List RouteEntry) (hin : config ∈ configs) :
    Live qt (applyRemoteRouteTable qt configs table) config := by
  have hvalid := hdeclared.valid config hin
  obtain ⟨fresh, hplain, hfresh⟩ := exists_fresh
    ((configs.flatMap fun other => splitSegments other.path) ++ table.flatMap fun entry => splitSegments entry.path)
  have hcompiled := compiledRoutes_declared hdeclared
  have hown : routeOf qt config ∈ compiledRoutes qt configs := hcompiled ▸ mem_map_of_mem hin
  have hself : matchesEntry qt Route.pattern (fill fresh (splitSegments config.path)) (routeOf qt config) = true :=
    (matchesEntry_iff hvalid _).mpr (fits_fill _ _)
  have hpath := splitPath_joined (plain_fill hplain config.path)
  have hfirst : firstRanked (·.pattern.literalSegmentCount) (matchesEntry qt Route.pattern (fill fresh (splitSegments config.path)))
      (compiledRoutes qt configs ++ offeredRoutes qt configs table) = some (routeOf qt config) := by
    rw [firstRanked_append_eq_some (not_mem_offeredRoutes hown)]
    constructor
    · cases hfound : firstRanked (·.pattern.literalSegmentCount)
          (matchesEntry qt Route.pattern (fill fresh (splitSegments config.path))) (compiledRoutes qt configs) with
      | none => exact absurd ((firstRanked_eq_none.mp hfound _ hown).symm.trans hself) Bool.false_ne_true
      | some route =>
        obtain ⟨hroute, hmatch, hmax⟩ := firstRanked_spec hfound
        rw [hcompiled] at hroute
        obtain ⟨other, hother, rfl⟩ := mem_map.mp hroute
        have hfree : fresh ∉ splitSegments other.path := fun h => Nat.lt_irrefl _
          (hfresh fresh (mem_append_left _ (mem_flatMap.mpr ⟨other, hother, h⟩)))
        obtain ⟨-, hshape⟩ := le_of_matches_fill hvalid (hdeclared.valid other hother) hfree hmatch
        rw [inj_on_of_nodup_map hshapes hother hin (hshape (hmax _ hown hself))]
    · intro route hroute hmatch
      obtain ⟨entry, hentry, hentryvalid, -, rfl⟩ := mem_offeredRoutes.mp hroute
      have hremote : (RoutePattern.make qt (remoteConfig entry).path).valid = true := hentryvalid
      have hfree : fresh ∉ splitSegments (remoteConfig entry).path := fun h => Nat.lt_irrefl _
        (hfresh fresh (mem_append_right _ (mem_flatMap.mpr ⟨entry, hentry, h⟩)))
      exact (le_of_matches_fill hvalid hremote hfree hmatch).1
  have hlookup := lookup_applyRoutes qt (compiledRoutes qt configs ++ offeredRoutes qt configs table) hpath
  rw [hfirst] at hlookup
  obtain ⟨⟨route, parameters⟩, hsome, rfl⟩ := map_eq_some_iff.mp hlookup
  exact ⟨_, _, parameters, hpath, hsome, mem_matched hvalid (matchesSegments_of_lookup hpath hsome)⟩

/-- A route behind one of the same shape is never chosen. -/
theorem not_live_of_shape {configs front behind : List RouteConfig} (hdeclared : Declared qt configs)
    (hconfigs : configs = front ++ behind) {first later : RouteConfig} (hfirst : first ∈ front) (hlater : later ∈ behind)
    (hshape : shapeOf first = shapeOf later) (table : List RouteEntry) :
    ¬ Live qt (applyRemoteRouteTable qt configs table) later := by
  intro hlive
  obtain ⟨path, segments, parameters, hpath, hlookup, -⟩ := hlive
  have hin : first ∈ configs := hconfigs ▸ mem_append_left _ hfirst
  have hlaterin : later ∈ configs := hconfigs ▸ mem_append_right _ hlater
  have hapart : later ∉ front := by
    intro hboth
    have hnodup := hdeclared.distinct.of_map
    rw [hconfigs] at hnodup
    exact disjoint_of_nodup_append hnodup hboth hlater
  have hmatch : matchesEntry qt Route.pattern segments (routeOf qt first) = true := by
    have hfits := (matchesEntry_iff (hdeclared.valid later hlaterin) segments).mp
      (isSome_iff_exists.mpr ⟨_, matchesSegments_of_lookup hpath hlookup⟩)
    exact (matchesEntry_iff (hdeclared.valid first hin) segments).mpr (fits_of_shape hshape.symm hfits)
  have hfound := lookup_applyRoutes qt (compiledRoutes qt configs ++ offeredRoutes qt configs table) hpath
  rw [← applyRemoteRouteTable, hlookup, map_some, compiledRoutes_declared hdeclared, hconfigs, map_append,
    append_assoc] at hfound
  refine firstRanked_append_ne (mem_map_of_mem hfirst) hmatch ?_ (fun hboth => ?_) _ hfound.symm
  · rw [literalSegmentCount_routeOf (hdeclared.valid later hlaterin), literalSegmentCount_routeOf (hdeclared.valid first hin),
      literals_eq_of_shape hshape]
  · obtain ⟨other, hother, he⟩ := mem_map.mp hboth
    exact hapart (routeOf_inj he ▸ hother)

section
variable (hdeclared : Declared qt configs)
include hdeclared

/-- Every route of a table is chosen for some path exactly where no two have their literals at the same places. -/
theorem live_iff (table : List RouteEntry) :
    (∀ config ∈ configs, Live qt (applyRemoteRouteTable qt configs table) config) ↔ (configs.map shapeOf).Nodup := by
  refine ⟨fun hlive => ?_, fun hshapes config hin => live_of_distinct hdeclared hshapes table hin⟩
  refine pairwise_map.mpr (pairwise_iff_forall_sublist.mpr fun {first later} hsub hshape => ?_)
  obtain ⟨front, behind, rfl, hfirst, hlater⟩ := cons_sublist_iff.mp hsub
  have hin := singleton_sublist.mp hlater
  exact not_live_of_shape hdeclared rfl hfirst hin hshape table (hlive later (mem_append_right _ hin))

theorem fits_of_lookup {table : List RouteEntry} {path : QString}
    {segments : List QString} (hpath : splitPath path = some segments) {route : Route} {parameters : QVariantMap}
    (h : lookup qt (applyRemoteRouteTable qt configs table) path = some (route, parameters)) :
    Fits (splitSegments route.config.path) segments := by
  have hlookup := lookup_applyRoutes qt (compiledRoutes qt configs ++ offeredRoutes qt configs table) hpath
  rw [← applyRemoteRouteTable, h, map_some] at hlookup
  obtain ⟨hroute, hmatch, -⟩ := firstRanked_spec hlookup.symm
  obtain hcompiled | hoffered := mem_append.mp hroute
  · rw [compiledRoutes_declared hdeclared] at hcompiled
    obtain ⟨config, hin, rfl⟩ := mem_map.mp hcompiled
    exact (matchesEntry_iff (hdeclared.valid config hin) segments).mp hmatch
  · obtain ⟨entry, -, hentryvalid, -, rfl⟩ := mem_offeredRoutes.mp hoffered
    have hremote : (RoutePattern.make qt (remoteConfig entry).path).valid = true := hentryvalid
    exact (matchesEntry_iff hremote segments).mp hmatch

theorem lookup_declared (table : List RouteEntry)
    (hin : config ∈ configs) {path : QString} (hpath : splitPath path = some (splitSegments config.path)) :
    ∃ route parameters, lookup qt (applyRemoteRouteTable qt configs table) path = some (route, parameters) ∧
      route.config ∈ configs := by
  have hvalid := hdeclared.valid config hin
  have hcompiled := compiledRoutes_declared hdeclared
  have hown : routeOf qt config ∈ compiledRoutes qt configs := hcompiled ▸ mem_map_of_mem hin
  have hself : matchesEntry qt Route.pattern (splitSegments config.path) (routeOf qt config) = true :=
    (matchesEntry_iff hvalid _).mpr (fits_self _)
  have hlookup := lookup_applyRoutes qt (compiledRoutes qt configs ++ offeredRoutes qt configs table) hpath
  cases hfound : firstRanked (·.pattern.literalSegmentCount) (matchesEntry qt Route.pattern (splitSegments config.path))
      (compiledRoutes qt configs ++ offeredRoutes qt configs table) with
  | none =>
    exact absurd ((firstRanked_eq_none.mp hfound _ (mem_append_left _ hown)).symm.trans hself) Bool.false_ne_true
  | some route =>
    rw [hfound] at hlookup
    obtain ⟨⟨chosen, parameters⟩, hsome, rfl⟩ := map_eq_some_iff.mp hlookup
    refine ⟨chosen, parameters, hsome, ?_⟩
    obtain ⟨hroute, hmatch, -⟩ := firstRanked_spec hfound
    obtain hcompiledin | hoffered := mem_append.mp hroute
    · rw [hcompiled] at hcompiledin
      obtain ⟨other, hother, rfl⟩ := mem_map.mp hcompiledin
      exact hother
    · obtain ⟨entry, -, hentryvalid, -, rfl⟩ := mem_offeredRoutes.mp hoffered
      have hremote : (RoutePattern.make qt (remoteConfig entry).path).valid = true := hentryvalid
      refine absurd hfound (firstRanked_append_ne hown hself ?_ (fun h => not_mem_offeredRoutes h hoffered) _)
      have hle := literals_le_of_fits_self ((matchesEntry_iff hremote _).mp hmatch)
      exact (literalSegmentCount_routeOf hremote).trans_le
        (hle.trans (literalSegmentCount_routeOf hvalid).ge)

end

end Router
end SynQt
