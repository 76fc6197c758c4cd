import SynQt.Client.Router

namespace SynQt.Router
open Lib

variable (env : ClientEnv)

structure SeedLaw (s : Router) : Prop where
  shown : s.pageComponent.isSome = true → s.pageComponentIsLoaderOwned = true →
    s.pageSeed = [] ∨ s.delivered s.path = some s.pageSeed
  refused : s.refused = true ∨ s.pageStatus = .forbidden ∨ s.pageStatus = .notFound ∨ s.pageStatus = .unsupported →
    s.pageSeed = []

/-- The fallback's view takes the seed away, but for a view that cannot be built. -/
def fallbackClears (s : Router) : Bool := s.engine || s.fallbackUrl env = ""

/-- Going to the path finds no seed, or one the path takes away, or the one that was delivered for it. -/
def seedFits (s : Router) (path : QString) : Bool :=
  s.pageSeed = [] ||
  match lookup env.qt s.routes path with
  | none => s.fallbackClears env
  | some (route, _) =>
    if ¬ s.isRemoteRoute route.config ∧ ¬ s.isReachable route.config then s.fallbackClears env
    else if route.config.graphics = .accelerated ∧ env.softwareRendered then false
    else if route.config.componentUrl = "" then
      match s.loader with
      | some loader => loader.componentFor route.config.path = none || s.delivered path = some s.pageSeed
      | none => true
    else true

/-- A navigation fits the seed it finds; a refusal that is taken up finds none; and a page that is taken up answers a
request for the path that is shown. -/
def keepsSeedLaw (s : Router) : RouterOp → Bool
  | .navigate pathWithQuery => s.seedFits env (RoutePattern.splitQuery env.qt pathWithQuery).1
  | .resumeAfterLogin =>
    (s.resumeTarget env).all fun intended => s.seedFits env (RoutePattern.splitQuery env.qt intended).1
  | .pageDelivered request page =>
    s.requested[request]?.all fun route =>
      !s.takesUp route ||
        if page.status = "forbidden" ∨ page.status = "notFound" then s.pageSeed = [] else route = s.path
  | _ => true

variable {env} {s : Router}

section
variable (s) (component : Option ComponentId) (status : PageStatus) (loaderOwned : Bool)

@[simp] theorem setPageComponent_pageComponent : (s.setPageComponent component status loaderOwned).pageComponent = component := by
  rw [setPageComponent]
  split
  · next hsame => exact hsame.1
  · rfl

@[simp] theorem setPageComponent_pageStatus : (s.setPageComponent component status loaderOwned).pageStatus = status := by
  rw [setPageComponent]
  split
  · next hsame => exact hsame.2
  · rfl

@[simp] theorem setPageComponent_pageSeed : (s.setPageComponent component status loaderOwned).pageSeed = s.pageSeed := by
  rw [setPageComponent]
  split <;> rfl

@[simp] theorem setPageComponent_path : (s.setPageComponent component status loaderOwned).path = s.path := by
  rw [setPageComponent]
  split <;> rfl

@[simp] theorem setPageComponent_delivered : (s.setPageComponent component status loaderOwned).delivered = s.delivered := by
  rw [setPageComponent]
  split <;> rfl

@[simp] theorem setPageComponent_refused : (s.setPageComponent component status loaderOwned).refused = s.refused := by
  rw [setPageComponent]
  split <;> rfl

end

/-- A page with a url takes the seed away. Where the view cannot be built there is no page, and the seed stays. -/
theorem setPageUrl_cases (s : Router) (componentUrl : QString) (status : PageStatus) :
    (s.setPageUrl componentUrl status).pageSeed = [] ∨
    componentUrl ≠ "" ∧ s.engine = false ∧ s.setPageUrl componentUrl status = s.setPageComponent none .error false := by
  rw [setPageUrl]
  split
  · next hnone => exact .inr ⟨hnone.1, Bool.not_eq_true _ ▸ hnone.2, rfl⟩
  · refine .inl ?_
    dsimp only
    split
    · rfl
    · split
      · exact setPageComponent_pageSeed _ none status false
      · exact setPageComponent_pageSeed _ _ _ false

namespace SeedLaw

private theorem of_empty (h : s.pageSeed = []) : s.SeedLaw := ⟨fun _ _ => .inl h, fun _ => h⟩

theorem of_none (hcomponent : s.pageComponent = none) (hrefused : s.refused = true → s.pageSeed = [])
    (hstatus : s.pageStatus = .loading ∨ s.pageStatus = .error) : s.SeedLaw := by
  refine ⟨fun hsome => ?_, fun hwhy => ?_⟩
  · rw [hcomponent] at hsome
    cases hsome
  · obtain hwhy | hwhy | hwhy | hwhy := hwhy
    · exact hrefused hwhy
    all_goals
      rw [hwhy] at hstatus
      simp at hstatus

theorem steerToFallback (s : Router) (status : PageStatus) (h : s.pageSeed = [] ∨ s.fallbackClears env = true) :
    (s.steerToFallback env status).SeedLaw := by
  rw [Router.steerToFallback]
  obtain hempty | ⟨hurl, hengine, hkept⟩ := setPageUrl_cases (clearPendingRemoteFetch { s with
      query := []
      path := s.config.routerFallback
      params := ((lookup env.qt s.routes s.config.routerFallback).map Prod.snd).getD []
      refused := true }) (s.fallbackUrl env) status
  · exact of_empty hempty
  · refine of_empty ?_
    obtain hempty | hclears := h
    · exact (congrArg pageSeed hkept).trans ((setPageComponent_pageSeed _ none .error false).trans hempty)
    · rw [fallbackClears, Bool.or_eq_true, decide_eq_true_eq] at hclears
      obtain hyes | hnowhere := hclears
      · exact absurd (hengine.symm.trans hyes) Bool.false_ne_true
      · exact absurd hnowhere hurl

/-- A page of the edge is shown with no seed, or with its own; where none is held, nothing is shown. -/
theorem resolveRemote {loader : RemotePageLoader} {path : QString} {route : RouteConfig} (hpath : s.path = path)
    (hrefused : s.refused = false)
    (h : s.pageSeed = [] ∨ loader.componentFor route.path = none ∨ s.delivered path = some s.pageSeed) :
    (s.resolveRemote loader path route).SeedLaw := by
  rw [Router.resolveRemote]
  cases hcached : loader.componentFor route.path with
  | none =>
    refine of_none (setPageComponent_pageComponent _ none .loading false) ?_
      (.inl (setPageComponent_pageStatus _ none .loading false))
    intro hyes
    have hno := (setPageComponent_refused { s with pendingRoute := route.path, pendingConcretePath := path }
      none .loading false).trans hrefused
    exact absurd (hno.symm.trans hyes) Bool.false_ne_true
  | some cached =>
    rw [hcached] at h
    refine ⟨fun _ _ => ?_, fun hwhy => ?_⟩
    · simp only [setPageComponent_pageSeed, setPageComponent_delivered, setPageComponent_path, hpath]
      simpa using h
    · simp [hrefused] at hwhy

theorem resolve {path : QString} (h : s.seedFits env path = true) : (s.resolve env path).SeedLaw := by
  rw [seedFits, Bool.or_eq_true, decide_eq_true_eq] at h
  rw [Router.resolve]
  cases hlookup : lookup env.qt s.routes path with
  | none =>
    rw [hlookup] at h
    exact steerToFallback s .notFound h
  | some found =>
    obtain ⟨route, parameters⟩ := found
    rw [hlookup] at h
    dsimp only at h ⊢
    by_cases hguard : ¬ s.isRemoteRoute route.config ∧ ¬ s.isReachable route.config
    · rw [if_pos hguard] at h
      rw [if_pos hguard]
      exact steerToFallback { s with resumePath := path } .forbidden h
    · rw [if_neg hguard] at h
      rw [if_neg hguard]
      by_cases hgraphics : route.config.graphics = .accelerated ∧ env.softwareRendered
      · rw [if_pos hgraphics] at h
        rw [if_pos hgraphics]
        have hempty : s.pageSeed = [] := by simpa using h
        exact of_empty ((setPageComponent_pageSeed _ _ .unsupported false).trans hempty)
      · rw [if_neg hgraphics] at h
        rw [if_neg hgraphics]
        by_cases hurl : route.config.componentUrl = ""
        · rw [if_pos hurl] at h
          rw [if_pos hurl]
          cases hloader : s.loader with
          | none =>
            exact of_none (setPageComponent_pageComponent _ none .error false)
              (fun hyes => absurd ((setPageComponent_refused _ none .error false).symm.trans hyes) Bool.false_ne_true)
              (.inr (setPageComponent_pageStatus _ none .error false))
          | some loader =>
            rw [hloader] at h
            exact resolveRemote rfl rfl (by simpa using h)
        · rw [if_neg hurl]
          obtain hempty | ⟨-, -, hnone⟩ := setPageUrl_cases
            (clearPendingRemoteFetch { s with path := path, params := parameters, refused := false })
            route.config.componentUrl .ready
          · exact of_empty hempty
          · rw [hnone]
            exact of_none (setPageComponent_pageComponent _ none .error false)
              (fun hyes => absurd ((setPageComponent_refused _ none .error false).symm.trans hyes) Bool.false_ne_true)
              (.inr (setPageComponent_pageStatus _ none .error false))

end SeedLaw

section
variable (h : s.pageSeed = [])
include h

private theorem setPageUrl_pageSeed (componentUrl : QString) (status : PageStatus) :
    (s.setPageUrl componentUrl status).pageSeed = [] := by
  obtain hempty | ⟨-, -, hkept⟩ := setPageUrl_cases s componentUrl status
  · exact hempty
  · rw [hkept, setPageComponent_pageSeed, h]

private theorem steerToFallback_pageSeed (status : PageStatus) :
    (s.steerToFallback env status).pageSeed = [] := by
  rw [steerToFallback]
  apply setPageUrl_pageSeed
  exact h

theorem resolve_pageSeed (path : QString) : (s.resolve env path).pageSeed = [] := by
  rw [resolve]
  split
  · exact steerToFallback_pageSeed h .notFound
  · split
    · apply steerToFallback_pageSeed
      exact h
    · dsimp only
      split
      · rw [setPageComponent_pageSeed]
        exact h
      · split
        · split
          · rw [resolveRemote]
            dsimp only
            split
            · rw [setPageComponent_pageSeed]
              exact h
            · rw [setPageComponent_pageSeed]
              exact h
          · rw [setPageComponent_pageSeed]
            exact h
        · apply setPageUrl_pageSeed
          exact h

theorem resumeAfterLogin_pageSeed : (s.resumeAfterLogin env).pageSeed = [] := by
  rw [resumeAfterLogin]
  split
  · exact h
  · apply resolve_pageSeed
    exact h

end

namespace SeedLaw

theorem scopeChanged (h : s.SeedLaw) (scope : List QString) : (s.scopeChanged env scope).SeedLaw := by
  rw [Router.scopeChanged]
  split
  · exact h
  · exact of_empty (resumeAfterLogin_pageSeed (resolve_pageSeed rfl _))

theorem resumeAfterLogin (h : s.SeedLaw)
    (hfits : (s.resumeTarget env).all (fun intended => s.seedFits env (RoutePattern.splitQuery env.qt intended).1) = true) :
    (s.resumeAfterLogin env).SeedLaw := by
  rw [Router.resumeAfterLogin]
  cases htarget : s.resumeTarget env with
  | none => exact ⟨h.shown, h.refused⟩
  | some intended =>
    rw [htarget, Option.all_some] at hfits
    exact resolve hfits

theorem onPageChanged (h : s.SeedLaw) (route : QString) : (s.onPageChanged route).SeedLaw := by
  rw [Router.onPageChanged]
  cases s.loader with
  | none => exact h
  | some loader =>
    by_cases hshown : route = s.pendingRoute
    · simp only [hshown, if_true]
      have hgone : (s.setPageComponent none .loading false).SeedLaw := by
        refine of_none (setPageComponent_pageComponent _ none .loading false) (fun hyes => ?_)
          (.inl (setPageComponent_pageStatus _ none .loading false))
        rw [setPageComponent_refused] at hyes
        rw [setPageComponent_pageSeed]
        exact h.refused (.inl hyes)
      exact ⟨hgone.shown, hgone.refused⟩
    · simp only [hshown, if_false]
      exact ⟨h.shown, h.refused⟩

theorem refusal (h : s.pageSeed = []) (status : PageStatus) :
    ({ s with refused := true }.setPageComponent none status false).SeedLaw :=
  of_empty ((setPageComponent_pageSeed _ none status false).trans h)

theorem onPageDelivered (h : s.SeedLaw) {route : QString} {page : PageResponse}
    (hfits : (!s.takesUp route ||
      if page.status = "forbidden" ∨ page.status = "notFound" then s.pageSeed = [] else route = s.path) = true) :
    (s.onPageDelivered env route page).SeedLaw := by
  have hfailed : (s.setPageComponent none .error false).SeedLaw := by
    refine of_none (setPageComponent_pageComponent _ none .error false) (fun hyes => ?_)
      (.inr (setPageComponent_pageStatus _ none .error false))
    rw [setPageComponent_refused] at hyes
    rw [setPageComponent_pageSeed]
    exact h.refused (.inl hyes)
  rw [Router.onPageDelivered]
  by_cases htaken : s.takesUp route = true
  · rw [htaken, Bool.not_true, Bool.false_or] at hfits
    rw [if_neg (not_not.mpr htaken)]
    by_cases hforbidden : page.status = "forbidden"
    · rw [if_pos hforbidden]
      rw [if_pos (.inl hforbidden)] at hfits
      exact refusal (of_decide_eq_true hfits) .forbidden
    · rw [if_neg hforbidden]
      by_cases hnotFound : page.status = "notFound"
      · rw [if_pos hnotFound]
        rw [if_pos (.inr hnotFound)] at hfits
        exact refusal (of_decide_eq_true hfits) .notFound
      · rw [if_neg hnotFound]
        rw [if_neg (not_or.mpr ⟨hforbidden, hnotFound⟩)] at hfits
        have hpath : route = s.path := of_decide_eq_true hfits
        cases s.loader with
        | none => exact hfailed
        | some loader =>
          dsimp only
          split
          · exact hfailed
          · refine ⟨fun _ _ => .inr ?_, fun hwhy => ?_⟩
            · simp [hpath]
            · simp at hwhy
  · rw [if_pos htaken]
    exact h

theorem step (h : s.SeedLaw) (op : RouterOp) (hkeeps : s.keepsSeedLaw env op = true) : (s.step env op).SeedLaw := by
  cases op with
  | navigate pathWithQuery => exact resolve hkeeps
  | resumeAfterLogin => exact h.resumeAfterLogin hkeeps
  | applyRemoteRouteTable table => exact ⟨h.shown, h.refused⟩
  | scopeChanged scope => exact h.scopeChanged scope
  | pageDelivered request page =>
    rw [keepsSeedLaw] at hkeeps
    rw [Router.step]
    cases hrequest : s.requested[request]? with
    | none => exact h
    | some route =>
      rw [hrequest, Option.all_some] at hkeeps
      have hasked : SeedLaw { s with requested := s.requested.eraseIdx request } := ⟨h.shown, h.refused⟩
      exact hasked.onPageDelivered hkeeps
  | pageChanged route => exact h.onPageChanged route
  | view url state => exact ⟨h.shown, h.refused⟩

end SeedLaw

/-- In every run whose steps find the seed they may keep, the seed that is read is the shown path's or there is none,
and a path that is refused has none. -/
theorem seed_law (env : ClientEnv) (config : SynClientConfig) (session : Option ClientSession) (engine : Bool)
    (views : QString → ViewState) (modules : Option (List Text)) (ops : List RouterOp)
    (hkeeps : Each (step env) (fun s op => s.keepsSeedLaw env op = true) (start env config session engine views modules) ops) :
    (run (step env) (start env config session engine views modules) ops).SeedLaw := by
  apply hkeeps.invariant SeedLaw
  · exact fun s op h hop => h.step op hop
  · exact .of_empty rfl

/-- A client that builds every page, and reads the seed's text as one member. -/
def plainClient : ClientEnv where
  qt := ⟨Char.isAlpha, Char.isAlphanum, id, fun _ => []⟩
  isLetterOrNumber c := 0x30 ≤ c && c ≤ 0x7A
  parses _ _ := true
  jsonObject text := [("headline", text)]
  softwareRendered := false

def campaignStart : Router :=
  start plainClient ⟨[⟨"/", "", "qrc:/Main.qml", .any⟩], "/"⟩ none true (fun _ => .built) (some [])

def campaignTable : List RouteEntry := [⟨"/c/:campaign", "", ""⟩]

def campaignPage (seed : QString) : PageResponse := ⟨"ok", "Item{}", "h", seed⟩

theorem seed_law_byWayOfMain :
    (run (step plainClient) campaignStart
      [.applyRemoteRouteTable campaignTable, .navigate "/c/summer", .pageDelivered 0 (campaignPage "summer"),
        .navigate "/", .navigate "/c/winter", .pageDelivered 0 (campaignPage "winter"), .navigate "/nowhere"]).SeedLaw :=
  seed_law plainClient ⟨[⟨"/", "", "qrc:/Main.qml", .any⟩], "/"⟩ none true (fun _ => .built) (some [])
    [.applyRemoteRouteTable campaignTable, .navigate "/c/summer", .pageDelivered 0 (campaignPage "summer"),
      .navigate "/", .navigate "/c/winter", .pageDelivered 0 (campaignPage "winter"), .navigate "/nowhere"] (by decide)

/-- From one campaign straight to the next: its page is shown at once, with the seed of the one before. -/
theorem cached_page_keeps_seed :
    let s := run (step plainClient) campaignStart
      [.applyRemoteRouteTable campaignTable, .navigate "/c/summer", .pageDelivered 0 (campaignPage "summer"),
        .navigate "/c/winter"]
    s.path = "/c/winter" ∧ s.pageStatus = .ready ∧ s.pageSeed = [("headline", "summer")] ∧
      s.delivered "/c/winter" = none ∧ ¬ s.SeedLaw := by
  intro s
  have hseed : s.pageSeed = [("headline", "summer")] := by decide
  have hnever : s.delivered s.path = none := by decide
  have hshown : s.pageComponent.isSome = true ∧ s.pageComponentIsLoaderOwned = true := by decide
  refine ⟨by decide, by decide, hseed, by decide, fun hlaw => ?_⟩
  have hwhose := hlaw.shown hshown.1 hshown.2
  rw [hseed, hnever] at hwhose
  simp at hwhose

end SynQt.Router
