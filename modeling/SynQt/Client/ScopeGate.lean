import SynQt.Client.Browsing
import SynQt.Client.SeedLaw

/-! A page of the bundle that is shown as ready is in the session's scope, over every run. -/
namespace SynQt
open Lib

namespace Router
variable {env : ClientEnv} {s s' : Router}

/-- The components shown and held are of those that were made, and what the loader holds is never
shown under a url. -/
structure Distinct (s : Router) : Prop where
  made : ∀ component, s.pageComponent = some component → component < s.components
  held : ∀ loader, s.loader = some loader → ∀ route component, loader.componentFor route = some component →
    component < s.components ∧ (s.pageComponent = some component → s.pageUrl = none)

theorem setPageComponent_loader (s : Router) (component : Option ComponentId) (status : PageStatus) (loaderOwned : Bool) :
    (s.setPageComponent component status loaderOwned).loader = s.loader :=
  congrArg (·.2.2.2.1) (setPageComponent_ground s component status loaderOwned)

theorem setPageComponent_components (s : Router) (component : Option ComponentId) (status : PageStatus)
    (loaderOwned : Bool) : (s.setPageComponent component status loaderOwned).components = s.components := by
  rw [setPageComponent]
  split <;> rfl

namespace Distinct

section
variable (h : s.Distinct)
include h

theorem frame (hcomponent : s'.pageComponent = s.pageComponent) (hurl : s'.pageUrl = s.pageUrl)
    (hloader : s'.loader = s.loader) (hcomponents : s.components ≤ s'.components) : s'.Distinct where
  made component hsome := Nat.lt_of_lt_of_le (h.made component (hcomponent ▸ hsome)) hcomponents
  held loader heq route component hheld := by
    obtain ⟨hless, hnone⟩ := h.held loader (hloader ▸ heq) route component hheld
    exact ⟨Nat.lt_of_lt_of_le hless hcomponents, fun hsome => hurl.trans (hnone (hcomponent ▸ hsome))⟩

/-- Any component that was made may be shown: it takes the url away, or was shown before. -/
theorem setPageComponent {component : Option ComponentId}
    (hmade : ∀ made, component = some made → made < s.components) (status : PageStatus) (loaderOwned : Bool) :
    (s.setPageComponent component status loaderOwned).Distinct := by
  rw [Router.setPageComponent]
  split
  case isTrue => exact h
  case isFalse =>
    refine ⟨hmade, fun loader hloader route made hheld => ?_⟩
    exact ⟨(h.held loader hloader route made hheld).1, fun _ => rfl⟩

theorem setPageComponent_none (status : PageStatus) (loaderOwned : Bool) :
    (s.setPageComponent none status loaderOwned).Distinct :=
  h.setPageComponent (by simp) status loaderOwned

private theorem withUrl (componentUrl : QString)
    (hfree : ∀ loader, s.loader = some loader → ∀ route component, loader.componentFor route = some component →
      s.pageComponent ≠ some component) : Distinct { s with pageUrl := some componentUrl } where
  made := h.made
  held loader hloader route component hheld :=
    ⟨(h.held loader hloader route component hheld).1, fun hsome => absurd hsome (hfree loader hloader route component hheld)⟩

theorem setPageUrl (componentUrl : QString) (status : PageStatus) :
    (s.setPageUrl componentUrl status).Distinct := by
  rw [Router.setPageUrl]
  split
  case isTrue => exact h.setPageComponent_none .error false
  case isFalse =>
    dsimp only
    split
    case isTrue => exact ⟨h.made, h.held⟩
    case isFalse =>
      split
      case isTrue =>
        apply withUrl
        case h =>
          apply setPageComponent_none
          exact ⟨h.made, h.held⟩
        case hfree =>
          rintro loader - route component -
          rw [setPageComponent_pageComponent]
          simp
      case isFalse =>
        apply withUrl
        case h =>
          apply setPageComponent
          case h => exact h.frame rfl rfl rfl (Nat.le_succ _)
          case hmade => exact fun made hsome => by cases hsome; exact Nat.lt_succ_self _
        case hfree =>
          intro loader hloader route component hheld
          rw [setPageComponent_loader] at hloader
          rw [setPageComponent_pageComponent]
          intro hsame
          have hold := (h.held loader hloader route component hheld).1
          exact absurd (Option.some.inj hsame) (Nat.ne_of_gt hold)

theorem steerToFallback (status : PageStatus) : (s.steerToFallback env status).Distinct := by
  rw [Router.steerToFallback]
  apply setPageUrl
  exact ⟨h.made, h.held⟩

theorem resolveRemote {loader : RemotePageLoader} (hloader : s.loader = some loader) (path : QString)
    (route : RouteConfig) : (s.resolveRemote loader path route).Distinct := by
  have hpending : Distinct { s with pendingRoute := route.path, pendingConcretePath := path } := ⟨h.made, h.held⟩
  rw [Router.resolveRemote]
  split
  case h_1 cached hcached =>
    have hmade := (h.held loader hloader route.path cached hcached).1
    have hshown : (Router.setPageComponent _ (some cached) .ready true).Distinct :=
      hpending.setPageComponent (fun made hsome => Option.some.inj hsome ▸ hmade) .ready true
    exact ⟨hshown.made, hshown.held⟩
  case h_2 =>
    have hnone := hpending.setPageComponent_none .loading false
    exact ⟨hnone.made, hnone.held⟩

theorem showRoute (path : QString) (route : RouteConfig) (parameters : QVariantMap) :
    (s.showRoute env path route parameters).Distinct := by
  rw [Router.showRoute]
  dsimp only
  split
  case isTrue =>
    apply setPageComponent
    case h =>
      refine frame h ?_ ?_ ?_ ?_
      exacts [rfl, rfl, rfl, Nat.le_succ _]
    case hmade =>
      intro made hsome
      split at hsome
      case isTrue => exact Option.some.inj hsome ▸ Nat.lt_succ_self _
      case isFalse => cases hsome
  case isFalse =>
    split
    case isTrue =>
      split
      case h_1 loader hloader =>
        apply resolveRemote
        case h => exact ⟨h.made, h.held⟩
        case hloader => exact hloader
      case h_2 =>
        apply setPageComponent_none
        exact ⟨h.made, h.held⟩
    case isFalse =>
      apply setPageUrl
      exact ⟨h.made, h.held⟩

theorem resolve (path : QString) : (s.resolve env path).Distinct := by
  rw [resolve_eq]
  split
  case h_1 => exact h.steerToFallback .notFound
  case h_2 =>
    split
    case isTrue =>
      apply steerToFallback
      exact ⟨h.made, h.held⟩
    case isFalse => exact h.showRoute path _ _

theorem navigate (pathWithQuery : QString) : (s.navigate env pathWithQuery).Distinct := by
  rw [Router.navigate]
  apply resolve
  exact ⟨h.made, h.held⟩

theorem resumeAfterLogin : (s.resumeAfterLogin env).Distinct := by
  rw [Router.resumeAfterLogin]
  split
  case h_1 => exact ⟨h.made, h.held⟩
  case h_2 =>
    apply navigate
    exact ⟨h.made, h.held⟩

theorem rescoped (scope : List QString) : (s.rescoped scope).Distinct where
  made := h.made
  held loader hloader route component hheld := by
    obtain ⟨old, -, rfl⟩ := Option.map_eq_some_iff.mp hloader
    cases hheld

end

end Distinct

private theorem loadStatus_ready {view : Option ViewState} {status : PageStatus} (h : loadStatus view status = .ready) :
    status = .ready := by
  unfold loadStatus at h
  split at h
  case h_1 => cases h
  case h_2 => cases h
  case h_3 => exact h

/-- A page from a url is ready only when it was shown to be, and is that url's. -/
theorem setPageUrl_shown (s : Router) (componentUrl : QString) (status : PageStatus) :
    ((s.setPageUrl componentUrl status).pageStatus = .ready → status = .ready) ∧
    ((s.setPageUrl componentUrl status).pageComponent.isSome → (s.setPageUrl componentUrl status).pageUrl = some componentUrl) := by
  rw [setPageUrl]
  split
  case isTrue => simp
  case isFalse =>
    dsimp only
    split
    case isTrue hsame => exact ⟨loadStatus_ready, fun _ => hsame.2⟩
    case isFalse =>
      refine ⟨fun hready => ?_, fun _ => rfl⟩
      split at hready
      case isTrue =>
        rw [setPageComponent_pageStatus] at hready
        exact hready
      case isFalse =>
        rw [setPageComponent_pageStatus] at hready
        exact loadStatus_ready hready

/-- A page from a url that is shown as ready is in scope, under the route its path was found to be. -/
def InScope (env : ClientEnv) (table : List Route) (s : Router) : Prop :=
  ∀ url, s.pageUrl = some url → url ≠ "" → s.pageComponent.isSome → s.pageStatus = .ready →
    ∃ route parameters, lookup env.qt table s.path = some (route, parameters) ∧ route.config.componentUrl = url ∧
      s.isReachable route.config = true

namespace InScope
variable {table : List Route}

theorem of_none (h : s.pageComponent = none) : InScope env table s := by
  rintro url - - hsome
  rw [h] at hsome
  cases hsome

private theorem of_status (h : s.pageStatus ≠ .ready) : InScope env table s := fun _ _ _ _ hready => absurd hready h

private theorem of_held (h : s.pageUrl = none) : InScope env table s := by
  intro url hurl
  rw [h] at hurl
  cases hurl

theorem steerToFallback {status : PageStatus} (h : status ≠ .ready) : InScope env table (s.steerToFallback env status) := by
  apply of_status
  rw [Router.steerToFallback]
  exact fun hready => h ((setPageUrl_shown _ _ status).1 hready)

/-- A page of the loader is shown under no url. -/
theorem of_loader (h : s.Distinct) {loader : RemotePageLoader} (hloader : s.loader = some loader) {route : QString}
    (hshown : s.pageComponent = loader.componentFor route) : InScope env table s := by
  cases hheld : loader.componentFor route with
  | none => exact of_none (hshown.trans hheld)
  | some component => exact of_held ((h.held loader hloader route component hheld).2 (hshown.trans hheld))

theorem resolveRemote (h : s.Distinct) {loader : RemotePageLoader} (hloader : s.loader = some loader) (path : QString)
    (route : RouteConfig) : InScope env table (s.resolveRemote loader path route) := by
  have hheld : (s.resolveRemote loader path route).loader = some loader :=
    (congrArg (·.2.2.2.1) (resolveRemote_ground s loader path route)).trans hloader
  have hshown : (s.resolveRemote loader path route).pageComponent = loader.componentFor route.path := by
    rw [Router.resolveRemote]
    split
    case h_1 cached hcached => exact (setPageComponent_pageComponent _ _ .ready true).trans hcached.symm
    case h_2 hmissing => exact (setPageComponent_pageComponent _ none .loading false).trans hmissing.symm
  exact of_loader (h.resolveRemote hloader path route) hheld hshown

private theorem showRoute_path (s : Router) (path : QString) (route : RouteConfig) (parameters : QVariantMap) :
    (s.showRoute env path route parameters).path = path :=
  congrArg (·.2.2.2.2.1) (showRoute_ground env s path route parameters)

private theorem showRoute_session (s : Router) (path : QString) (route : RouteConfig) (parameters : QVariantMap) :
    (s.showRoute env path route parameters).session = s.session :=
  congrArg (·.2.1) (showRoute_ground env s path route parameters)

theorem showRoute (h : s.Distinct) {path : QString} {route : Route} {parameters : QVariantMap}
    (hlookup : lookup env.qt s.routes path = some (route, parameters)) (hopen : s.refuses env path = false) :
    InScope env s.routes (s.showRoute env path route.config parameters) := by
  have hpath := @showRoute_path env s path route.config parameters
  have hsession := @showRoute_session env s path route.config parameters
  rw [Router.showRoute] at hpath hsession ⊢
  dsimp only at hpath hsession ⊢
  split
  case isTrue =>
    apply of_status
    rw [setPageComponent_pageStatus]
    simp
  case isFalse hdrawn =>
    rw [if_neg hdrawn] at hpath hsession
    split
    case isTrue =>
      split
      case h_1 loader hloader =>
        apply resolveRemote
        case h => exact ⟨h.made, h.held⟩
        case hloader => exact hloader
      case h_2 =>
        apply of_none
        exact setPageComponent_pageComponent _ none .error false
    case isFalse hcompiled =>
      rw [if_neg hcompiled] at hpath hsession
      have hreach : s.isReachable route.config = true := by
        rw [refuses, hlookup] at hopen
        simpa [isRemoteRoute, hcompiled] using hopen
      rintro url hurl - hsome -
      have hshown := (setPageUrl_shown _ _ _).2 hsome
      rw [isReachable] at hreach
      rw [hpath]
      refine ⟨route, parameters, hlookup, Option.some.inj (hshown.symm.trans hurl), ?_⟩
      rw [isReachable, hsession]
      exact hreach

theorem resolve (h : s.Distinct) (path : QString) : InScope env s.routes (s.resolve env path) := by
  rw [resolve_eq]
  split
  case h_1 => exact steerToFallback (by simp)
  case h_2 route parameters hlookup =>
    split
    case isTrue => exact steerToFallback (by simp)
    case isFalse hopen => exact showRoute h hlookup (Bool.not_eq_true _ ▸ hopen)

theorem navigate (h : s.Distinct) (pathWithQuery : QString) : InScope env s.routes (s.navigate env pathWithQuery) := by
  rw [Router.navigate]
  refine resolve (s := { s with query := _ }) ?_ _
  exact ⟨h.made, h.held⟩

end InScope

variable {loader : RemotePageLoader}

/-- What is held after a delivery was held before, or has just been made. -/
theorem componentFor_deliver_of {made component : ComponentId} {route source hash other : QString}
    (h : (loader.deliver env made route source hash).2.componentFor other = some component) :
    loader.componentFor other = some component ∨ component = made := by
  rw [RemotePageLoader.deliver] at h
  split at h
  case isTrue => exact .inl h
  case isFalse =>
    split at h
    case h_1 => exact .inl h
    case h_2 =>
      split at h
      case isTrue =>
        by_cases hsame : other = route
        · subst hsame
          simp only [RemotePageLoader.componentFor, Function.update_self, Option.map_some, Option.some.injEq] at h
          exact .inr h.symm
        · left
          simpa [RemotePageLoader.componentFor, Function.update_of_ne hsame] using h
      case isFalse => exact .inl h

theorem componentFor_invalidate_of {component : ComponentId} {route other : QString}
    (h : (loader.invalidate route).componentFor other = some component) : loader.componentFor other = some component := by
  by_cases hsame : other = route
  · subst hsame
    simp [RemotePageLoader.componentFor, RemotePageLoader.invalidate] at h
  · simpa [RemotePageLoader.componentFor, RemotePageLoader.invalidate, Function.update_of_ne hsame] using h

theorem Distinct.deliver (env : ClientEnv) (h : s.Distinct) (hloader : s.loader = some loader)
    (route source hash : QString) :
    Distinct { s with
      loader := some (loader.deliver env s.components route source hash).2
      components := s.components + 1 } where
  made component hsome := Nat.lt_succ_of_lt (h.made component hsome)
  held loader' heq other component hheld := by
    obtain rfl := Option.some.inj heq
    rcases componentFor_deliver_of hheld with hold | rfl
    · obtain ⟨hless, hnone⟩ := h.held loader hloader other component hold
      exact ⟨Nat.lt_succ_of_lt hless, hnone⟩
    · exact ⟨Nat.lt_succ_self _, fun hsome => absurd (h.made _ hsome) (Nat.lt_irrefl _)⟩

section
variable (h : s.Distinct)
include h

variable {table : List Route}

private theorem shows_held (hloader : s.loader = some loader)
    (route : QString) (status : PageStatus) (loaderOwned : Bool) :
    (s.setPageComponent (loader.componentFor route) status loaderOwned).Distinct ∧
      InScope env table (s.setPageComponent (loader.componentFor route) status loaderOwned) := by
  have hdistinct := h.setPageComponent (fun made hmade => (h.held loader hloader route made hmade).1) status loaderOwned
  refine ⟨hdistinct, .of_loader hdistinct ?_ (setPageComponent_pageComponent s _ status loaderOwned)⟩
  rw [setPageComponent_loader, hloader]

/-- A reply that is taken up shows a page the loader holds, or no page. -/
theorem onPageDelivered_gated (hscope : InScope env table s) (route : QString)
    (page : PageResponse) :
    (s.onPageDelivered env route page).Distinct ∧ InScope env table (s.onPageDelivered env route page) := by
  have hnone : ∀ s' : Router, s'.Distinct → ∀ status, (s'.setPageComponent none status false).Distinct ∧
      InScope env table (s'.setPageComponent none status false) := fun s' h' status =>
    ⟨h'.setPageComponent_none status false, .of_none (setPageComponent_pageComponent s' none status false)⟩
  rw [onPageDelivered]
  split
  case isTrue => exact ⟨h, hscope⟩
  case isFalse =>
    split
    case isTrue =>
      apply hnone
      exact ⟨h.made, h.held⟩
    case isFalse =>
      split
      case isTrue =>
        apply hnone
        exact ⟨h.made, h.held⟩
      case isFalse =>
        split
        case h_1 => exact hnone _ h .error
        case h_2 loader hloader =>
          dsimp only
          split
          case isTrue => exact hnone _ h .error
          case isFalse =>
            have hdelivered := h.deliver env hloader s.pendingRoute page.qml page.hash
            apply shows_held
            case h => exact ⟨hdelivered.made, hdelivered.held⟩
            case hloader => rfl

theorem Distinct.invalidate (hloader : s.loader = some loader)
    (route : QString) : Distinct { s with loader := some (loader.invalidate route) } where
  made := h.made
  held loader' heq other component hheld := by
    obtain rfl := Option.some.inj heq
    exact h.held loader hloader other component (componentFor_invalidate_of hheld)

private theorem onPageChanged_gated (hscope : InScope env table s) (route : QString) :
    (s.onPageChanged route).Distinct ∧ InScope env table (s.onPageChanged route) := by
  rw [onPageChanged]
  split
  case h_1 => exact ⟨h, hscope⟩
  case h_2 loader hloader =>
    by_cases hshown : route = s.pendingRoute
    · simp only [hshown, if_true]
      have hnone := h.setPageComponent_none .loading false
      have hgone := hnone.invalidate ((setPageComponent_loader s none .loading false).trans hloader) s.pendingRoute
      exact ⟨⟨hgone.made, hgone.held⟩, .of_none (setPageComponent_pageComponent s none .loading false)⟩
    · simp only [hshown, if_false]
      exact ⟨h.invalidate hloader route, hscope⟩

/-- A login goes back to a path its guard lets through, or nowhere. -/
theorem resumeAfterLogin_inScope (hscope : InScope env s.routes s) :
    InScope env s.routes (s.resumeAfterLogin env) := by
  rw [resumeAfterLogin]
  split
  case h_1 => exact hscope
  case h_2 intended _ =>
    have htaken : Distinct { s with resumePath := "" } := ⟨h.made, h.held⟩
    exact InScope.navigate htaken intended

end

end Router

namespace Browsing
variable {env : ClientEnv}

structure Gated (env : ClientEnv) (s : Browsing) : Prop where
  distinct : s.router.Distinct
  inScope : s.router.InScope env s.table

namespace Gated
variable {s : Browsing}

section
variable (h : s.Gated env)
include h

theorem navigate (pathWithQuery : QString) : (s.navigate env pathWithQuery).Gated env where
  distinct := h.distinct.navigate pathWithQuery
  inScope := .navigate h.distinct pathWithQuery

theorem withHistory (history : BrowserHistory) : Gated env { s with history := history } :=
  ⟨h.distinct, h.inScope⟩

theorem popped (path : QString) : (s.popped env path).Gated env := by
  rw [Browsing.popped]
  split
  case isTrue => exact (h.navigate path).withHistory _
  case isFalse => exact h.navigate path

theorem scopeChanged (scope : List QString) : (s.scopeChanged env scope).Gated env := by
  rw [Browsing.scopeChanged]
  split
  case isTrue =>
    have hrescoped := h.distinct.rescoped scope
    have hsettled : ((s.router.rescoped scope).resolve env s.router.path).Distinct := hrescoped.resolve s.router.path
    have hroutes : ((s.router.rescoped scope).resolve env s.router.path).routes = s.router.routes :=
      congrArg (·.2.2.1) (Router.resolve_ground env (s.router.rescoped scope) s.router.path)
    have hshown : Router.InScope env s.router.routes ((s.router.rescoped scope).resolve env s.router.path) :=
      .resolve hrescoped s.router.path
    refine ⟨hsettled.resumeAfterLogin, ?_⟩
    have hresumed := Router.resumeAfterLogin_inScope hsettled (hroutes.symm ▸ hshown)
    exact hroutes ▸ hresumed
  case isFalse => exact h

theorem step (op : BrowsingOp) : (s.step env op).Gated env := by
  cases op with
  | start => exact h.navigate _
  | go path | replace path => exact (h.navigate path).withHistory _
  | back | forward =>
    rw [Browsing.step]
    split
    case isTrue => exact (h.withHistory _).popped _
    case isFalse => exact h
  | applyRemoteRouteTable table => exact ⟨⟨h.distinct.made, h.distinct.held⟩, h.inScope⟩
  | scopeChanged scope => exact h.scopeChanged scope
  | pageDelivered request page =>
    rw [Browsing.step, Router.step]
    split
    case h_1 => exact h
    case h_2 route _ =>
      have hasked : Router.Distinct { s.router with requested := s.router.requested.eraseIdx request } :=
        ⟨h.distinct.made, h.distinct.held⟩
      have hscope : Router.InScope env s.table { s.router with requested := s.router.requested.eraseIdx request } :=
        h.inScope
      obtain ⟨hdistinct, hshown⟩ := Router.onPageDelivered_gated hasked hscope route page
      exact ⟨hdistinct, hshown⟩
  | pageChanged route =>
    obtain ⟨hdistinct, hscope⟩ := Router.onPageChanged_gated h.distinct h.inScope route
    exact ⟨hdistinct, hscope⟩
  | view url state => exact ⟨⟨h.distinct.made, h.distinct.held⟩, h.inScope⟩

end

end Gated

theorem gated_make (config : SynClientConfig) (session : Option ClientSession) (engine : Bool)
    (views : QString → ViewState) (modules : Option (List Text)) :
    (make (Router.start env config session engine views modules)).Gated env where
  distinct := by
    refine ⟨fun component hsome => (by cases hsome), fun loader hloader route component hheld => ?_⟩
    obtain ⟨text, -, rfl⟩ := Option.map_eq_some_iff.mp hloader
    cases hheld
  inScope := .of_none rfl

end Browsing
end SynQt
