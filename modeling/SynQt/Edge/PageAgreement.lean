import SynQt.Client.RouteTable
import SynQt.Edge.PagesService

namespace SynQt
open List hiding map_map
open Lib RoutePattern Option

namespace PageStore
variable {store : PageStore}

theorem declaredRoutes_setPage (pages : List (QString × Page)) (route : QString) (page : Page) :
    (setPage pages route page).map (·.1) = pages.map (·.1) := by
  rw [setPage, List.map_map]
  apply map_congr_left
  intro entry _
  simp only [Function.comp_apply]
  split
  · rename_i hroute
    exact hroute.symm
  · rfl

private theorem declaredRoutes_reload (files : PageFiles) (store : PageStore) (route : QString) :
    (store.reload files route).declaredRoutes = store.declaredRoutes := by
  rw [reload]
  split
  · split
    · rfl
    · exact declaredRoutes_setPage _ _ _
  · rfl

/-- A page that is new moves the count, and one that is not leaves the order as it is. -/
theorem declaredRoutes_addPage (files : PageFiles) (arrangement : Arrangement) (store : PageStore)
    (route file scope graphics : QString) :
    (store.addPage files arrangement route file scope graphics).declaredRoutes = store.declaredRoutes ∨
    route ∉ store.declaredRoutes ∧
      (store.addPage files arrangement route file scope graphics).declaredRoutes.Perm (store.declaredRoutes ++ [route]) := by
  rw [addPage, declaredRoutes_reload, insertPage]
  split
  · exact .inl (declaredRoutes_setPage _ _ _)
  · rename_i hnew
    refine .inr ⟨fun hmem => hnew (contains_iff_mem.mpr hmem), ?_⟩
    have hperm := (arrangement.perm (store.pages ++ [(route, ⟨file, scope, "", "", graphics⟩)])).map (·.1)
    rwa [map_append] at hperm

theorem value_of_mem (h : store.declaredRoutes.Nodup) {route : QString} {page : Page} (hmem : (route, page) ∈ store.pages) :
    store.value route = page := by
  rw [value]
  cases hfound : store.pages.find? (·.1 == route) with
  | none =>
    have hnone := List.find?_eq_none.mp hfound _ hmem
    exact absurd (beq_self_eq_true route) hnone
  | some entry =>
    have hroute := List.find?_some hfound
    rw [beq_iff_eq] at hroute
    have hentry := mem_of_find?_eq_some hfound
    have hsame : entry = (route, page) := inj_on_of_nodup_map h hentry hmem hroute
    rw [hsame]

end PageStore

namespace PagesService
variable {qt : QtText} {s : PagesService}

/-- The table that was compiled last is the store's, unless the count says otherwise. -/
structure Compiled (qt : QtText) (s : PagesService) : Prop where
  nodup : s.store.declaredRoutes.Nodup
  count : s.compiledRoutes ≤ s.store.declaredRoutes.length
  compiled : s.compiledRoutes = s.store.declaredRoutes.length → s.compiled = compile qt s.store.declaredRoutes

private theorem routeCount_eq (store : PageStore) : store.routeCount = store.declaredRoutes.length := by
  rw [PageStore.routeCount, PageStore.declaredRoutes, length_map]

private theorem candidates_store (s : PagesService) : (s.candidates qt).store = s.store := by
  rw [candidates]
  split <;> rfl

private theorem candidates_seedProvider (s : PagesService) : (s.candidates qt).seedProvider = s.seedProvider := by
  rw [candidates]
  split <;> rfl

namespace Compiled

theorem candidates (h : Compiled qt s) :
    Compiled qt (s.candidates qt) ∧ (s.candidates qt).compiled = compile qt s.store.declaredRoutes := by
  rw [PagesService.candidates]
  split
  · rename_i hcount
    rw [routeCount_eq] at hcount
    exact ⟨h, h.compiled hcount⟩
  · exact ⟨⟨h.nodup, Int.le_refl _, fun _ => rfl⟩, rfl⟩

theorem fetchPageFor (h : Compiled qt s) (requestPath haveHash : QString) (caller : Option PageCaller) :
    Compiled qt (s.fetchPageFor qt requestPath haveHash caller).1 := by
  have hready : Compiled qt
      (if (splitPath (splitQuery qt requestPath).1).isSome then s.candidates qt else s) := by
    split
    · exact h.candidates.1
    · exact h
  unfold PagesService.fetchPageFor
  dsimp only
  split
  · exact hready
  · split <;> exact hready

theorem step (h : Compiled qt s) (op : PageOp) : Compiled qt (s.step qt op) := by
  cases op with
  | addPage files arrangement route file scope graphics =>
    obtain hsame | ⟨hnew, hperm⟩ := PageStore.declaredRoutes_addPage files arrangement s.store route file scope graphics
    · refine ⟨?_, ?_, ?_⟩
      · simpa only [PagesService.step, hsame] using h.nodup
      · simpa only [PagesService.step, hsame] using h.count
      · simpa only [PagesService.step, hsame] using h.compiled
    · have hlength := hperm.length_eq
      rw [length_append, length_singleton] at hlength
      have hcount := h.count
      refine ⟨?_, ?_, fun heq => ?_⟩
      · refine hperm.nodup_iff.mpr (nodup_append.mpr ⟨h.nodup, nodup_singleton _, ?_⟩)
        rintro declared hmem added hadded rfl
        exact hnew (mem_singleton.mp hadded ▸ hmem)
      · simp only [PagesService.step]
        omega
      · -- the count has moved past anything compiled before
        simp only [PagesService.step] at heq
        omega
  | reload files route =>
    have hsame := PageStore.declaredRoutes_reload files s.store route
    refine ⟨?_, ?_, ?_⟩
    · simpa only [PagesService.step, hsame] using h.nodup
    · simpa only [PagesService.step, hsame] using h.count
    · simpa only [PagesService.step, hsame] using h.compiled
  | setSeedProvider provider => exact ⟨h.nodup, h.count, h.compiled⟩
  | fetch requestPath haveHash caller => exact h.fetchPageFor requestPath haveHash caller

theorem start : Compiled qt PagesService.start := by
  refine ⟨nodup_nil, ?_, fun hcount => ?_⟩
  · decide
  · exact absurd hcount (by decide)

end Compiled

def toCandidate (route : Route) : Candidate := ⟨route.config.path, route.pattern⟩

/-- The client reads off the pushed table the patterns the edge reads off the store. -/
theorem remoteRoutes_routeTableJson (qt : QtText) (store : PageStore) :
    (Router.remoteRoutes qt store.routeTableJson).map toCandidate =
      store.declaredRoutes.filterMap fun route =>
        if (make qt route).isValid then some ⟨route, make qt route⟩ else none := by
  rw [Router.remoteRoutes, Router.compiledRoutes, PageStore.routeTableJson, PageStore.declaredRoutes]
  induction store.pages with
  | nil => rfl
  | cons entry pages ih =>
    by_cases hvalid : (make qt entry.1).isValid = true
    · simp only [map_cons, Router.remoteConfig, filterMap_cons, hvalid, if_true]
      exact congrArg _ ih
    · simp only [map_cons, Router.remoteConfig, filterMap_cons, hvalid, if_false, Bool.false_eq_true]
      exact ih

/-- One store, two rankings: whatever the path, the first match is the same. -/
theorem matched_eq_lookup (qt : QtText) (store : PageStore) (s : PagesService)
    (h : s.compiled = compile qt store.declaredRoutes) (requestPath : QString) :
    s.matched qt requestPath =
      (Router.lookup qt (Router.applyRemoteRouteTable qt [] store.routeTableJson)
        (splitQuery qt requestPath).1).map fun found => (found.1.config.path, found.2) := by
  have hoffered : Router.compiledRoutes qt [] ++ Router.offeredRoutes qt [] store.routeTableJson =
      Router.remoteRoutes qt store.routeTableJson := by
    rw [Router.offeredRoutes, Router.compiledRoutes, filterMap_nil, nil_append, filter_eq_self]
    exact fun _ _ => rfl
  rw [matched, Router.lookup]
  cases splitPath (splitQuery qt requestPath).1 with
  | none => rfl
  | some segments =>
    simp only [Router.applyRemoteRouteTable, hoffered, Router.applyRoutes, h, compile, firstMatch_ranked,
      ← remoteRoutes_routeTableJson]
    rw [firstRanked_map]
    have hrank : (fun candidate : Candidate => candidate.pattern.literalSegmentCount) ∘ toCandidate =
        fun route => route.pattern.literalSegmentCount := rfl
    have hmatches : matchesEntry qt Candidate.pattern segments ∘ toCandidate =
        matchesEntry qt Route.pattern segments := rfl
    rw [hrank, hmatches]
    cases firstRanked (fun route : Route => route.pattern.literalSegmentCount)
        (matchesEntry qt Route.pattern segments) (Router.remoteRoutes qt store.routeTableJson) with
    | none => rfl
    | some route =>
      simp only [map_some, bind_some, map_map, toCandidate]
      rfl

private theorem scope_of_remote {store : PageStore} (h : store.declaredRoutes.Nodup) {route : Route}
    (hmem : route ∈ Router.remoteRoutes qt store.routeTableJson) :
    (make qt route.config.path).isValid = true ∧ route.config.scope = store.scopeFor route.config.path := by
  rw [Router.remoteRoutes, Router.compiledRoutes, mem_filterMap] at hmem
  obtain ⟨config, hconfig, hroute⟩ := hmem
  obtain ⟨entry, hentry, rfl⟩ := mem_map.mp hconfig
  obtain ⟨⟨path, page⟩, hpage, rfl⟩ := mem_map.mp hentry
  obtain ⟨hvalid, hsome⟩ := ite_none_right_eq_some.mp hroute
  obtain rfl := Option.some.inj hsome
  refine ⟨hvalid, ?_⟩
  have hvalue := PageStore.value_of_mem h hpage
  simp only [PageStore.scopeFor, Router.remoteConfig, hvalue]

theorem mem_of_lookup {store : PageStore} {path : QString} {route : Route} {parameters : QVariantMap}
    (h : Router.lookup qt (Router.applyRemoteRouteTable qt [] store.routeTableJson) path = some (route, parameters)) :
    route ∈ Router.remoteRoutes qt store.routeTableJson := by
  cases hpath : splitPath path with
  | none =>
    rw [Router.lookup, hpath] at h
    cases h
  | some segments =>
    have hfirst := Router.lookup_applyRoutes qt (Router.compiledRoutes qt [] ++
      Router.offeredRoutes qt [] store.routeTableJson) hpath
    rw [Router.applyRemoteRouteTable] at h
    rw [h] at hfirst
    obtain ⟨hmem, -, -⟩ := firstRanked_spec hfirst.symm
    obtain hcompiled | hoffered := mem_append.mp hmem
    · exact absurd hcompiled not_mem_nil
    · exact (mem_filter.mp hoffered).1

private theorem respond_candidates (s : PagesService) : (s.candidates qt).respond = s.respond := by
  funext route parameters haveHash caller
  rw [respond, respond, candidates_store, candidates_seedProvider]

/-- A path that splits into no segments is not looked for at all. -/
theorem fetchPageFor_response (s : PagesService) (requestPath haveHash : QString) (caller : Option PageCaller) :
    (s.fetchPageFor qt requestPath haveHash caller).2 =
      match (s.candidates qt).matched qt requestPath with
      | none => refusal "notFound"
      | some (route, parameters) =>
        if route = "" then refusal "notFound" else s.respond route parameters haveHash caller := by
  unfold fetchPageFor
  dsimp only
  cases hpath : splitPath (splitQuery qt requestPath).1 with
  | none => simp [matched, hpath]
  | some segments =>
    simp only [isSome_some, if_true]
    cases (s.candidates qt).matched qt requestPath with
    | none => rfl
    | some found =>
      simp only [respond_candidates]
      split <;> rfl

/-- Whatever was declared, fetched and compiled before, the page the edge serves for a path and the
scope it checks are those of the route the client chose from the table it was pushed. -/
theorem client_chooses_served_page (qt : QtText) (ops : List PageOp) (requestPath haveHash : QString)
    (caller : Option PageCaller) :
    let s := run (step qt) start ops
    let chosen := Router.lookup qt (Router.applyRemoteRouteTable qt [] s.store.routeTableJson)
      (RoutePattern.splitQuery qt requestPath).1
    (s.candidates qt).matched qt requestPath = chosen.map (fun found => (found.1.config.path, found.2)) ∧
    (∀ route parameters, chosen = some (route, parameters) →
      route.config.scope = s.store.scopeFor route.config.path ∧
      (s.fetchPageFor qt requestPath haveHash caller).2 = s.respond route.config.path parameters haveHash caller) ∧
    (chosen = none → (s.fetchPageFor qt requestPath haveHash caller).2 = refusal "notFound") := by
  intro s chosen
  have hs : Compiled qt s := run_invariant (Compiled qt) (fun _ op h => h.step op) Compiled.start ops
  have hmatched : (s.candidates qt).matched qt requestPath = chosen.map fun found => (found.1.config.path, found.2) :=
    matched_eq_lookup qt s.store (s.candidates qt) hs.candidates.2 requestPath
  refine ⟨hmatched, fun route parameters hchosen => ?_, fun hchosen => ?_⟩
  · obtain ⟨hvalid, hscope⟩ := scope_of_remote hs.nodup (mem_of_lookup hchosen)
    have hnamed : route.config.path ≠ "" := by
      intro hempty
      rw [hempty] at hvalid
      exact absurd hvalid Bool.false_ne_true
    refine ⟨hscope, ?_⟩
    rw [fetchPageFor_response, hmatched, hchosen]
    simp only [map_some, if_neg hnamed]
  · rw [fetchPageFor_response, hmatched, hchosen]
    rfl

end PagesService
end SynQt
