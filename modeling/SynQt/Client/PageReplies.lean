import SynQt.Client.LoginResume

namespace SynQt
open Lib Function List

namespace Router
variable {env : ClientEnv} {s : Router}

def page (s : Router) : Option ComponentId × PageStatus × QVariantMap := (s.pageComponent, s.pageStatus, s.pageSeed)

private theorem onPageDelivered_page_iff (s : Router) (route : QString) :
    (∀ response, (s.onPageDelivered env route response).page = s.page) ↔ s.takesUp route = false := by
  constructor
  · intro hsame
    by_contra htaken
    rw [Bool.not_eq_false] at htaken
    have hforbidden := congrArg (·.2.1) (hsame ⟨"forbidden", "", "", ""⟩)
    have hnotFound := congrArg (·.2.1) (hsame ⟨"notFound", "", "", ""⟩)
    simp only [onPageDelivered, page, htaken, not_true_eq_false, if_false, if_true, setPageComponent_pageStatus,
      String.reduceEq] at hforbidden hnotFound
    exact absurd (hforbidden.trans hnotFound.symm) (by decide)
  · intro hlate response
    rw [onPageDelivered, hlate, if_pos Bool.false_ne_true]

private theorem setPageComponent_requested (s : Router) (component : Option ComponentId) (status : PageStatus) (loaderOwned : Bool) :
    (s.setPageComponent component status loaderOwned).requested = s.requested := by
  rw [setPageComponent]
  split <;> rfl

private theorem setPageComponent_pending (s : Router) (component : Option ComponentId) (status : PageStatus) (loaderOwned : Bool) :
    (s.setPageComponent component status loaderOwned).pendingRoute = s.pendingRoute ∧
      (s.setPageComponent component status loaderOwned).pendingConcretePath = s.pendingConcretePath := by
  rw [setPageComponent]
  split <;> exact ⟨rfl, rfl⟩

/-- What is waited for is the page of the path that is shown, or nothing is. -/
def Waits (s : Router) : Prop :=
  s.pendingConcretePath = s.path ∨ (s.pendingRoute = "" ∧ s.pendingConcretePath = "")

/-- The requests made so far stay, and what is waited for is the page that is shown. -/
structure Asks (s s' : Router) : Prop where
  kept : s.requested <+: s'.requested
  waits : s'.Waits

theorem Asks.after {s' t : Router} (h : s'.Asks t) (hkept : s'.requested = s.requested) : s.Asks t :=
  ⟨hkept ▸ h.kept, h.waits⟩

theorem Waits.frame {s s' : Router} (h : s.Waits) (hpath : s'.path = s.path) (hroute : s'.pendingRoute = s.pendingRoute)
    (hconcrete : s'.pendingConcretePath = s.pendingConcretePath) : s'.Waits := by
  rw [Waits, hpath, hroute, hconcrete]
  exact h

private theorem setPageComponent_asks (h : s.Waits) (component : Option ComponentId) (status : PageStatus) (loaderOwned : Bool) :
    s.Asks (s.setPageComponent component status loaderOwned) := by
  obtain ⟨hroute, hconcrete⟩ := setPageComponent_pending s component status loaderOwned
  have hsame := setPageComponent_requested s component status loaderOwned
  exact ⟨⟨[], (append_nil _).trans hsame.symm⟩, h.frame (setPageComponent_path s component status loaderOwned) hroute hconcrete⟩

private theorem setPageUrl_asks (h : s.Waits) (componentUrl : QString) (status : PageStatus) :
    s.Asks (s.setPageUrl componentUrl status) := by
  have hshown (s' : Router) (hwaits : s'.Waits) (hkept : s'.requested = s.requested) (component : Option ComponentId)
      (shown : PageStatus) : s.Asks { s'.setPageComponent component shown false with pageUrl := some componentUrl } := by
    have hasks := setPageComponent_asks hwaits component shown false
    exact ⟨hkept ▸ hasks.kept, hasks.waits⟩
  rw [setPageUrl]
  split
  · exact setPageComponent_asks h none .error false
  · dsimp only
    split
    · exact ⟨prefix_rfl, h⟩
    · split
      · exact hshown { s with pageSeed := [] } h rfl none status
      · exact hshown { s with pageSeed := [], components := s.components + 1 } h rfl _ _

section
variable (s : Router)

private theorem waits_clear : s.clearPendingRemoteFetch.Waits := .inr ⟨rfl, rfl⟩

private theorem steerToFallback_asks (status : PageStatus) : s.Asks (s.steerToFallback env status) := by
  rw [steerToFallback]
  exact .after (setPageUrl_asks (waits_clear _) _ status) rfl

private theorem resolveRemote_asks (loader : RemotePageLoader) {path : QString} (hpath : s.path = path)
    (route : RouteConfig) : s.Asks (s.resolveRemote loader path route) := by
  have hwaits : Waits { s with pendingRoute := route.path, pendingConcretePath := path } := .inl hpath.symm
  rw [resolveRemote]
  split
  · next cached _ =>
    have hasks := setPageComponent_asks hwaits (some cached) .ready true
    exact ⟨hasks.kept.trans (prefix_append _ _), hasks.waits⟩
  · have hasks := setPageComponent_asks hwaits none .loading false
    exact ⟨hasks.kept.trans (prefix_append _ _), hasks.waits⟩

private theorem showRoute_asks (path : QString) (route : RouteConfig) (parameters : QVariantMap) :
    s.Asks (s.showRoute env path route parameters) := by
  rw [showRoute]
  dsimp only
  split
  · exact .after (setPageComponent_asks (.inr ⟨rfl, rfl⟩) _ .unsupported false) rfl
  · split
    · split
      · exact .after (resolveRemote_asks _ _ rfl route) rfl
      · exact .after (setPageComponent_asks (waits_clear _) none .error false) rfl
    · exact .after (setPageUrl_asks (waits_clear _) route.componentUrl .ready) rfl

private theorem resolve_asks (path : QString) : s.Asks (s.resolve env path) := by
  rw [resolve_eq]
  split
  · exact steerToFallback_asks s .notFound
  · split
    · exact .after (steerToFallback_asks { s with resumePath := path } .forbidden) rfl
    · exact showRoute_asks s path _ _

private theorem navigate_asks (pathWithQuery : QString) : s.Asks (s.navigate env pathWithQuery) :=
  .after (resolve_asks _ _) rfl

end

private theorem resumeAfterLogin_asks (h : s.Waits) : s.Asks (s.resumeAfterLogin env) := by
  rw [resumeAfterLogin]
  split
  · exact ⟨prefix_rfl, h⟩
  · exact .after (navigate_asks _ _) rfl

private theorem scopeChanged_asks (h : s.Waits) (scope : List QString) : s.Asks (s.scopeChanged env scope) := by
  cases hsession : s.session with
  | none =>
    rw [scopeChanged, hsession]
    exact ⟨prefix_rfl, h⟩
  | some session =>
    rw [scopeChanged_eq s scope (hsession ▸ rfl)]
    have hsettled : s.Asks ((s.rescoped scope).resolve env s.path) := .after (resolve_asks _ _) rfl
    have hresumed := @resumeAfterLogin_asks env _ hsettled.waits
    exact ⟨hsettled.kept.trans hresumed.kept, hresumed.waits⟩

private theorem onPageDelivered_asks (h : s.Waits) (route : QString) (response : PageResponse) :
    s.Asks (s.onPageDelivered env route response) ∧ (s.onPageDelivered env route response).requested = s.requested := by
  have hshown (s' : Router) (hwaits : s'.Waits) (hkept : s'.requested = s.requested) (component : Option ComponentId)
      (status : PageStatus) (loaderOwned : Bool) : s.Asks (s'.setPageComponent component status loaderOwned) ∧
      (s'.setPageComponent component status loaderOwned).requested = s.requested :=
    ⟨.after (setPageComponent_asks hwaits component status loaderOwned) hkept,
      (setPageComponent_requested s' component status loaderOwned).trans hkept⟩
  rw [onPageDelivered]
  split
  · exact ⟨⟨prefix_rfl, h⟩, rfl⟩
  · split
    · exact hshown { s with refused := true } h rfl none .forbidden false
    · split
      · exact hshown { s with refused := true } h rfl none .notFound false
      · split
        · exact hshown s h rfl none .error false
        · dsimp only
          split
          · exact hshown s h rfl none .error false
          · apply hshown
            exacts [h, rfl]

private theorem onPageChanged_asks (h : s.Waits) (route : QString) : s.Asks (s.onPageChanged route) := by
  rw [onPageChanged]
  split
  · exact ⟨prefix_rfl, h⟩
  · by_cases hshown : route = s.pendingRoute
    · simp only [hshown, if_true]
      have hasks := setPageComponent_asks h none .loading false
      exact ⟨hasks.kept.trans (prefix_append _ _), hasks.waits⟩
    · simp only [hshown, if_false]
      exact ⟨prefix_rfl, h⟩

end Router

/-- The router, how often its scope has changed, how often it had when each request that is not answered
was made, and when the requests that each component and the seed came of were made. -/
structure Fetching where
  router : Router
  changes : Nat
  askedAt : List Nat
  builtAt : ComponentId → Nat
  seededAt : Nat

namespace Fetching
open Router (RouterOp)
variable (env : ClientEnv)

def changesAfter (s : Fetching) : RouterOp → Nat
  | .scopeChanged _ => if s.router.session.isSome then s.changes + 1 else s.changes
  | _ => s.changes

def step (s : Fetching) (op : RouterOp) : Fetching :=
  let router := s.router.step env op
  match op with
  | .pageDelivered request _ =>
    let answered := { s with router := router, askedAt := s.askedAt.eraseIdx request }
    match s.askedAt[request]? with
    | some asked =>
      -- a component is made of an accepted reply, and of no other
      if router.components = s.router.components then answered
      else { answered with builtAt := update s.builtAt s.router.components asked, seededAt := asked }
    | none => answered
  | op =>
    let changes := s.changesAfter op
    { s with
      router := router
      changes := changes
      askedAt := s.askedAt ++ List.replicate (router.requested.length - s.askedAt.length) changes }

def start (router : Router) : Fetching := ⟨router, 0, [], fun _ => 0, 0⟩

def asked (s : Fetching) (request : Nat) : Option (QString × Nat) :=
  match s.router.requested[request]?, s.askedAt[request]? with
  | some path, some time => some (path, time)
  | _, _ => none

/-- Asked for before the latest scope change, or for another path than the one shown. -/
def Late (s : Fetching) (path : QString) (time : Nat) : Prop := time < s.changes ∨ path ≠ s.router.path

/-- A late reply leaves the page as it is, whatever it brings. -/
def Correlates (s : Fetching) : RouterOp → Prop
  | .pageDelivered request _ => ∀ path time, s.asked request = some (path, time) → s.Late path time →
      ∀ response, (s.router.step env (.pageDelivered request response)).page = s.router.page
  | _ => True

/-- A reply for the path that is shown and waited for was asked for under the present scope, and one
for another path is not spelled as the pattern of the route waited for. -/
def Timely (s : Fetching) : RouterOp → Prop
  | .pageDelivered request _ => ∀ path time, s.asked request = some (path, time) →
      (path = s.router.path → s.router.takesUp path = true → s.changes ≤ time) ∧
      (path ≠ s.router.path → path ≠ s.router.pendingRoute)
  | _ => True

variable {env} {s : Fetching}

/-- What is known of the requests: one time for each, and the router waits for the page that is shown. -/
structure Dated (s : Fetching) : Prop where
  paired : s.askedAt.length = s.router.requested.length
  past : ∀ time ∈ s.askedAt, time ≤ s.changes
  waits : s.router.Waits

private theorem takesUp_iff (h : s.router.Waits) {path : QString} (hother : path ≠ s.router.path) :
    s.router.takesUp path = true ↔ path = s.router.pendingRoute := by
  rw [Router.takesUp, Bool.or_eq_true, decide_eq_true_eq, decide_eq_true_eq, or_iff_left_iff_imp]
  intro hconcrete
  rcases h with hpath | ⟨hroute, hnone⟩
  · exact absurd (hconcrete.trans hpath) hother
  · rw [hconcrete, hnone, hroute]

private theorem correlates_iff (h : s.Dated) (op : RouterOp) : s.Correlates env op ↔ s.Timely op := by
  cases op with
  | pageDelivered request response =>
    rw [Correlates, Timely]
    refine forall₂_congr fun path time => imp_congr_right fun hasked => ?_
    have hpath : s.router.requested[request]? = some path := by
      rw [asked] at hasked
      split at hasked
      · next hpath _ =>
        cases hasked
        exact hpath
      · cases hasked
    have hleaves : (∀ response, (s.router.step env (.pageDelivered request response)).page = s.router.page) ↔
        s.router.takesUp path = false := by
      simp only [Router.step, hpath]
      exact Router.onPageDelivered_page_iff { s.router with requested := s.router.requested.eraseIdx request } path
    rw [hleaves, Late]
    by_cases hshown : path = s.router.path
    · simp only [hshown, ne_eq, not_true_eq_false, or_false, false_implies, and_true, true_implies]
      rw [← Nat.not_lt, ← Bool.not_eq_true]
      exact ⟨fun hlate htaken hold => hlate hold htaken, fun htimely hold htaken => htimely htaken hold⟩
    · simp only [hshown, ne_eq, not_false_eq_true, or_true, true_implies, false_implies, true_and]
      rw [← Bool.not_eq_true, takesUp_iff h.waits hshown]
  | _ => exact Iff.rfl

theorem Dated.sent (h : s.Dated) {router : Router} (hasks : s.router.Asks router) {changes : Nat} (hlater : s.changes ≤ changes)
    (builtAt : ComponentId → Nat) (seededAt : Nat) :
    Dated ⟨router, changes, s.askedAt ++ List.replicate (router.requested.length - s.askedAt.length) changes,
      builtAt, seededAt⟩ where
  paired := by
    have hle := hasks.kept.length_le
    rw [length_append, length_replicate, h.paired]
    exact Nat.add_sub_cancel' hle
  past time htime := by
    rcases mem_append.mp htime with hold | hnew
    · exact Nat.le_trans (h.past time hold) hlater
    · exact Nat.le_of_eq (eq_of_mem_replicate hnew)
  waits := hasks.waits

theorem Dated.answered (h : s.Dated) (request : Nat) (response : PageResponse) (builtAt : ComponentId → Nat) (seededAt : Nat) :
    Dated ⟨s.router.step env (.pageDelivered request response), s.changes, s.askedAt.eraseIdx request, builtAt, seededAt⟩ where
  paired := by
    rw [Router.step]
    split
    · next hnone =>
      rw [List.getElem?_eq_none_iff] at hnone
      rw [eraseIdx_of_length_le (h.paired ▸ hnone)]
      exact h.paired
    · next path _ =>
      have hkept := (@Router.onPageDelivered_asks env { s.router with requested := s.router.requested.eraseIdx request }
        h.waits path response).2
      rw [hkept, length_eraseIdx, length_eraseIdx, h.paired]
  past time htime := h.past time (mem_of_mem_eraseIdx htime)
  waits := by
    rw [Router.step]
    split
    · exact h.waits
    · next path _ =>
      exact (@Router.onPageDelivered_asks env { s.router with requested := s.router.requested.eraseIdx request }
        h.waits path response).1.waits

theorem Dated.step (h : s.Dated) (op : RouterOp) : (s.step env op).Dated := by
  cases op with
  | navigate pathWithQuery => exact h.sent (Router.navigate_asks s.router pathWithQuery) (Nat.le_refl _) _ _
  | resumeAfterLogin => exact h.sent (Router.resumeAfterLogin_asks h.waits) (Nat.le_refl _) _ _
  | applyRemoteRouteTable table =>
    have hsame : s.router.Asks (s.router.step env (.applyRemoteRouteTable table)) := ⟨prefix_rfl, h.waits⟩
    exact h.sent hsame (Nat.le_refl _) _ _
  | scopeChanged scope =>
    refine h.sent (Router.scopeChanged_asks h.waits scope) ?_ _ _
    rw [changesAfter]
    split
    · exact Nat.le_succ _
    · exact Nat.le_refl _
  | pageDelivered request response =>
    rw [Fetching.step]
    dsimp only
    split
    · split
      · exact h.answered request response _ _
      · exact h.answered request response _ _
    · exact h.answered request response _ _
  | pageChanged route => exact h.sent (Router.onPageChanged_asks h.waits route) (Nat.le_refl _) _ _
  | view url state =>
    have hsame : s.router.Asks (s.router.step env (.view url state)) := ⟨prefix_rfl, h.waits⟩
    exact h.sent hsame (Nat.le_refl _) _ _

private theorem dated_start {router : Router} (hnothing : router.requested = []) (hwaits : router.Waits) : (start router).Dated :=
  ⟨(congrArg List.length hnothing).symm, forall_mem_nil _, hwaits⟩

end Fetching

namespace Router
variable {env : ClientEnv} {s s' : Router} {current current' : ComponentId → Prop}

/-- What the loader holds is of the present scope, and a page that has a url is not the loader's. -/
structure Stocked (current : ComponentId → Prop) (s : Router) : Prop where
  made : ∀ component, s.pageComponent = some component → component < s.components
  unlinked : s.pageUrl.isSome = true → s.pageComponent.isSome = true → s.pageComponentIsLoaderOwned = false
  held : ∀ loader, s.loader = some loader → ∀ route component, loader.componentFor route = some component →
    current component ∧ component < s.components

structure Shows (current : ComponentId → Prop) (s : Router) : Prop extends Stocked current s where
  shown : s.pageComponentIsLoaderOwned = true → ∀ component, s.pageComponent = some component → current component

theorem Shows.mono (h : s.Shows current) (hmono : ∀ component, component < s.components → current component → current' component) :
    s.Shows current' where
  made := h.made
  unlinked := h.unlinked
  held loader hloader route component hheld := by
    obtain ⟨hcurrent, hlt⟩ := h.held loader hloader route component hheld
    exact ⟨hmono component hlt hcurrent, hlt⟩
  shown howned component hshown := hmono component (h.made component hshown) (h.shown howned component hshown)

section
variable (h : s.Stocked current)
include h

/-- A component is shown that the loader holds for the present scope, or that is no other's. -/
theorem Stocked.setPageComponent (loaderOwned : Bool) {component : Option ComponentId}
    (hmade : ∀ made, component = some made → made < s.components)
    (hfits : ∀ made, component = some made → current made ∨ (loaderOwned = false ∧ s.pageComponent ≠ component))
    (status : PageStatus) : (s.setPageComponent component status loaderOwned).Shows current := by
  have hshown (s' : Router) (howned : s'.pageComponentIsLoaderOwned = true → s.pageComponent ≠ component → loaderOwned = true)
      (hcomponent : s'.pageComponent = component) (howns : s'.pageComponentIsLoaderOwned = true) :
      ∀ made, s'.pageComponent = some made → current made := by
    intro made hmade
    rcases hfits made (hcomponent ▸ hmade) with hcurrent | ⟨hno, hother⟩
    · exact hcurrent
    · rw [howned howns hother] at hno
      cases hno
  rw [Router.setPageComponent]
  split
  · next hsame =>
    exact ⟨h, fun howns => hshown s (fun _ hother => absurd hsame.1 hother) hsame.1 howns⟩
  · refine ⟨⟨hmade, fun hurl => ?_, h.held⟩, fun howns => hshown _ (fun howns _ => howns) rfl howns⟩
    cases hurl

theorem Stocked.setPageComponent_none (status : PageStatus) (loaderOwned : Bool) :
    (s.setPageComponent none status loaderOwned).Shows current :=
  h.setPageComponent loaderOwned (fun _ hnone => by cases hnone) (fun _ hnone => by cases hnone) status

theorem Stocked.room : Stocked current { s with components := s.components + 1 } where
  made component hshown := Nat.lt_succ_of_lt (h.made component hshown)
  unlinked := h.unlinked
  held loader hloader route component hheld := by
    obtain ⟨hcurrent, hlt⟩ := h.held loader hloader route component hheld
    exact ⟨hcurrent, Nat.lt_succ_of_lt hlt⟩

private theorem Stocked.setPageComponent_fresh (status : PageStatus) :
    ({ s with components := s.components + 1 }.setPageComponent (some s.components) status false).Shows current := by
  refine h.room.setPageComponent false (fun made heq => ?_) (fun made _ => .inr ⟨rfl, fun hshown => ?_⟩) status
  · cases heq
    exact Nat.lt_succ_self _
  · exact absurd (h.made _ hshown) (Nat.lt_irrefl _)

theorem Stocked.setPageUrl (componentUrl : QString) (status : PageStatus) :
    (s.setPageUrl componentUrl status).Shows current := by
  have hlinked (s' : Router) (hshows : s'.Shows current)
      (hown : s'.pageComponent.isSome = true → s'.pageComponentIsLoaderOwned = false) :
      Shows current { s' with pageUrl := some componentUrl } :=
    ⟨⟨hshows.made, fun _ => hown, hshows.held⟩, hshows.shown⟩
  have hseedless : Stocked current { s with pageSeed := [] } := ⟨h.made, h.unlinked, h.held⟩
  rw [Router.setPageUrl]
  split
  · exact h.setPageComponent_none .error false
  · dsimp only
    split
    · next hsame =>
      have hown : s.pageComponentIsLoaderOwned = false :=
        h.unlinked (hsame.2 ▸ rfl) (Option.isSome_iff_ne_none.mpr hsame.1)
      exact ⟨⟨h.made, h.unlinked, h.held⟩, fun howns => absurd (hown.symm.trans howns) Bool.false_ne_true⟩
    · split
      · refine hlinked _ (hseedless.setPageComponent_none status false) fun hsome => ?_
        rw [setPageComponent_pageComponent] at hsome
        cases hsome
      · refine hlinked _ (hseedless.setPageComponent_fresh _) fun _ => ?_
        rw [Router.setPageComponent, if_neg]
        exact fun hsame => absurd (h.made _ hsame.1) (Nat.lt_irrefl _)

theorem Stocked.steerToFallback (status : PageStatus) :
    (s.steerToFallback env status).Shows current := by
  rw [Router.steerToFallback]
  apply Stocked.setPageUrl
  exact ⟨h.made, h.unlinked, h.held⟩

theorem Stocked.resolveRemote {loader : RemotePageLoader} (hloader : s.loader = some loader)
    (path : QString) (route : RouteConfig) : (s.resolveRemote loader path route).Shows current := by
  have hpending : Stocked current { s with pendingRoute := route.path, pendingConcretePath := path } :=
    ⟨h.made, h.unlinked, h.held⟩
  rw [Router.resolveRemote]
  split
  · next cached hcached =>
    obtain ⟨hcurrent, hmade⟩ := h.held loader hloader route.path cached hcached
    have hshows := hpending.setPageComponent true (fun made heq => Option.some.inj heq ▸ hmade)
      (fun made heq => .inl (Option.some.inj heq ▸ hcurrent)) .ready
    exact ⟨⟨hshows.made, hshows.unlinked, hshows.held⟩, hshows.shown⟩
  · have hshows := hpending.setPageComponent_none .loading false
    exact ⟨⟨hshows.made, hshows.unlinked, hshows.held⟩, hshows.shown⟩

/-- Wherever a path leads, what is shown there is of the present scope, whatever was shown before. -/
theorem Stocked.resolve (path : QString) : (s.resolve env path).Shows current := by
  rw [resolve_eq]
  split
  · exact h.steerToFallback .notFound
  · split
    · apply Stocked.steerToFallback
      exact ⟨h.made, h.unlinked, h.held⟩
    · next route parameters _ _ =>
      have hthere : Stocked current { s with path := path, params := parameters, refused := false } :=
        ⟨h.made, h.unlinked, h.held⟩
      rw [showRoute]
      dsimp only
      split
      · split
        · have hfresh : Stocked current { s.clearPendingRemoteFetch with path := path, params := parameters, refused := true } :=
            ⟨h.made, h.unlinked, h.held⟩
          exact hfresh.setPageComponent_fresh .unsupported
        · have hroom := h.room
          apply Stocked.setPageComponent_none
          exact ⟨hroom.made, hroom.unlinked, hroom.held⟩
      · split
        · split
          · next loader hloader => exact hthere.resolveRemote hloader path route.config
          · apply Stocked.setPageComponent_none
            exact ⟨h.made, h.unlinked, h.held⟩
        · apply Stocked.setPageUrl
          exact ⟨h.made, h.unlinked, h.held⟩

end

theorem Shows.resumeAfterLogin (h : s.Shows current) : (s.resumeAfterLogin env).Shows current := by
  rw [Router.resumeAfterLogin]
  split
  · exact ⟨⟨h.made, h.unlinked, h.held⟩, h.shown⟩
  · apply Stocked.resolve
    exact ⟨h.made, h.unlinked, h.held⟩

theorem Stocked.scopeChanged (h : s.Stocked current) (hsession : s.session.isSome) (scope : List QString) :
    (s.scopeChanged env scope).Shows current' := by
  rw [scopeChanged_eq s scope hsession]
  apply Shows.resumeAfterLogin
  apply Stocked.resolve
  refine ⟨h.made, h.unlinked, fun loader hloader route component hheld => ?_⟩
  obtain ⟨old, -, rfl⟩ := Option.map_eq_some_iff.mp hloader
  cases hheld

/-- What is taken up of a reply: a component of its own, and the seed that came with it, or neither. -/
theorem onPageDelivered_takes (h : s.Shows current) (route : QString) (response : PageResponse) :
    ((s.onPageDelivered env route response).components = s.components ∧
      (s.onPageDelivered env route response).pageSeed = s.pageSeed ∧ (s.onPageDelivered env route response).Shows current) ∨
    (s.takesUp route = true ∧ (s.onPageDelivered env route response).components ≠ s.components ∧
      (current s.components → (s.onPageDelivered env route response).Shows current)) := by
  have hnone (s' : Router) (h' : s'.Stocked current) (hcomponents : s'.components = s.components)
      (hseed : s'.pageSeed = s.pageSeed) (status : PageStatus) :
      (s'.setPageComponent none status false).components = s.components ∧
      (s'.setPageComponent none status false).pageSeed = s.pageSeed ∧ (s'.setPageComponent none status false).Shows current :=
    ⟨(setPageComponent_components _ _ _ _).trans hcomponents, (setPageComponent_pageSeed _ _ _ _).trans hseed,
      h'.setPageComponent_none status false⟩
  have hrefused : Stocked current { s with refused := true } := ⟨h.made, h.unlinked, h.held⟩
  rw [onPageDelivered]
  split
  · exact .inl ⟨rfl, rfl, h⟩
  · next htaken =>
    split
    · exact .inl (hnone _ hrefused rfl rfl .forbidden)
    · split
      · exact .inl (hnone _ hrefused rfl rfl .notFound)
      · split
        · exact .inl (hnone _ h.toStocked rfl rfl .error)
        · next loader hloader =>
          dsimp only
          split
          · exact .inl (hnone _ h.toStocked rfl rfl .error)
          · refine .inr ⟨not_not.mp htaken, ?_, fun hnew => ?_⟩
            · rw [setPageComponent_components]
              exact Nat.succ_ne_self _
            · have hheld : ∀ other component,
                  (loader.deliver env s.components s.pendingRoute response.qml response.hash).2.componentFor other =
                    some component → current component ∧ component < s.components + 1 := by
                intro other component hheld
                rcases componentFor_deliver_of hheld with hold | rfl
                · obtain ⟨hcurrent, hlt⟩ := h.held loader hloader other component hold
                  exact ⟨hcurrent, Nat.lt_succ_of_lt hlt⟩
                · exact ⟨hnew, Nat.lt_succ_self _⟩
              apply Stocked.setPageComponent
              · exact ⟨h.room.made, h.room.unlinked, fun loader' heq other component hat =>
                  hheld other component (Option.some.inj heq ▸ hat)⟩
              · exact fun component hshown => (hheld _ component hshown).2
              · exact fun component hshown => .inl (hheld _ component hshown).1

theorem Shows.onPageChanged (h : s.Shows current) (route : QString) : (s.onPageChanged route).Shows current := by
  have hkept (s' : Router) (h' : s'.Shows current) {loader : RemotePageLoader} (hloader : s'.loader = some loader) :
      Shows current { s' with loader := some (loader.invalidate route) } := by
    refine ⟨⟨h'.made, h'.unlinked, fun loader' heq other component hheld => ?_⟩, h'.shown⟩
    obtain rfl := Option.some.inj heq
    exact h'.held loader hloader other component (componentFor_invalidate_of hheld)
  rw [Router.onPageChanged]
  split
  · exact h
  · next loader hloader =>
    by_cases hshown : route = s.pendingRoute
    · simp only [hshown, if_true]
      have hgone := hkept _ (h.setPageComponent_none .loading false) ((setPageComponent_loader s none .loading false).trans hloader)
      rw [hshown] at hgone
      exact ⟨⟨hgone.made, hgone.unlinked, hgone.held⟩, hgone.shown⟩
    · simp only [hshown, if_false]
      exact hkept s h hloader

private theorem onPageChanged_pageSeed (s : Router) (route : QString) : (s.onPageChanged route).pageSeed = s.pageSeed := by
  rw [Router.onPageChanged]
  split
  · rfl
  · by_cases hshown : route = s.pendingRoute
    · simp only [hshown, if_true, setPageComponent_pageSeed]
    · simp only [hshown, if_false]

end Router

namespace Fetching
open Router (RouterOp)
variable {env : ClientEnv} {s : Fetching}

/-- The components and the seed that are shown of the edge's pages came of requests made under the
present scope. -/
structure OfScope (s : Fetching) : Prop where
  shows : s.router.Shows fun component => s.builtAt component = s.changes
  seed : s.router.pageSeed ≠ [] → s.seededAt = s.changes

/-- What keeps a page and takes no seed that is not there, keeps both of the present scope. -/
theorem OfScope.frame (h : s.OfScope) {router : Router} (askedAt : List Nat)
    (hshows : router.Shows fun component => s.builtAt component = s.changes)
    (hseed : s.router.pageSeed = [] → router.pageSeed = []) :
    OfScope ⟨router, s.changes, askedAt, s.builtAt, s.seededAt⟩ :=
  ⟨hshows, fun hnonempty => h.seed fun hempty => hnonempty (hseed hempty)⟩

private theorem Dated.asked_eq (h : s.Dated) {request : Nat} {time : Nat} (htime : s.askedAt[request]? = some time) :
    ∃ path, s.router.requested[request]? = some path ∧ s.asked request = some (path, time) := by
  have hlt : request < s.router.requested.length := by
    rw [← h.paired]
    exact (List.getElem?_eq_some_iff.mp htime).1
  refine ⟨s.router.requested[request], List.getElem?_eq_getElem hlt, ?_⟩
  rw [asked, List.getElem?_eq_getElem hlt, htime]

/-- A timely reply that is taken up answers a request made under the present scope. -/
theorem Timely.present (hdated : s.Dated) {request : Nat} {response : PageResponse} (h : s.Timely (.pageDelivered request response))
    {path : QString} {time : Nat} (htime : s.askedAt[request]? = some time) (hasked : s.asked request = some (path, time))
    (htaken : s.router.takesUp path = true) : time = s.changes := by
  obtain ⟨hsame, hother⟩ := h path time hasked
  have hpath : path = s.router.path := by
    by_contra hne
    exact hother hne ((takesUp_iff hdated.waits hne).mp htaken)
  exact Nat.le_antisymm (hdated.past time (mem_of_getElem? htime)) (hsame hpath htaken)

theorem OfScope.answered (h : s.OfScope) (hdated : s.Dated) (request : Nat) (response : PageResponse)
    (htimely : s.Timely (.pageDelivered request response)) : (s.step env (.pageDelivered request response)).OfScope := by
  rw [Fetching.step]
  dsimp only
  cases htime : s.askedAt[request]? with
  | none =>
    have hnone : s.router.requested[request]? = none := by
      rw [List.getElem?_eq_none_iff] at htime ⊢
      exact hdated.paired ▸ htime
    rw [Router.step, hnone]
    exact h.frame _ h.shows id
  | some time =>
    obtain ⟨path, hpath, hasked⟩ := hdated.asked_eq htime
    have htakes {current : ComponentId → Prop} (hshows : s.router.Shows current) :=
      @Router.onPageDelivered_takes env { s.router with requested := s.router.requested.eraseIdx request } current
        ⟨⟨hshows.made, hshows.unlinked, hshows.held⟩, hshows.shown⟩ path response
    simp only [Router.step, hpath]
    split
    · next hsame =>
      rcases htakes h.shows with ⟨-, hseed, hshows⟩ | ⟨-, hmade, -⟩
      · exact h.frame _ hshows (fun hempty => hseed.trans hempty)
      · exact absurd hsame hmade
    · next hmade =>
      have hlater : s.router.Shows fun component => update s.builtAt s.router.components time component = s.changes := by
        refine h.shows.mono fun component hlt hcurrent => ?_
        rw [update_of_ne (Nat.ne_of_lt hlt)]
        exact hcurrent
      rcases htakes hlater with ⟨hsame, -, -⟩ | ⟨htaken, -, hshows⟩
      · exact absurd hsame hmade
      · have hpresent : time = s.changes := htimely.present hdated htime hasked htaken
        refine ⟨hshows ?_, fun _ => hpresent⟩
        dsimp only
        rw [update_self]
        exact hpresent

theorem OfScope.step (h : s.OfScope) (hdated : s.Dated) (op : RouterOp) (htimely : s.Timely op) : (s.step env op).OfScope := by
  cases op with
  | navigate pathWithQuery =>
    refine h.frame _ (Router.Stocked.resolve ?_ _) (fun hempty => ?_)
    · exact ⟨h.shows.made, h.shows.unlinked, h.shows.held⟩
    · rw [Router.step, Router.navigate]
      apply Router.resolve_pageSeed
      exact hempty
  | resumeAfterLogin => exact h.frame _ h.shows.resumeAfterLogin Router.resumeAfterLogin_pageSeed
  | applyRemoteRouteTable table =>
    exact h.frame _ ⟨⟨h.shows.made, h.shows.unlinked, h.shows.held⟩, h.shows.shown⟩ id
  | scopeChanged scope =>
    cases hsession : s.router.session with
    | none =>
      have hstill : s.router.scopeChanged env scope = s.router := by rw [Router.scopeChanged, hsession]
      simp only [Fetching.step, Router.step, hstill, changesAfter, hsession, Option.isSome_none, Bool.false_eq_true, if_false]
      exact h.frame _ h.shows id
    | some session =>
      have hsome : s.router.session.isSome := hsession ▸ rfl
      refine ⟨h.shows.toStocked.scopeChanged hsome scope, fun hnonempty => absurd ?_ hnonempty⟩
      have hchanged : (s.step env (.scopeChanged scope)).router = s.router.scopeChanged env scope := rfl
      rw [hchanged, Router.scopeChanged_eq s.router scope hsome]
      exact Router.resumeAfterLogin_pageSeed (Router.resolve_pageSeed rfl _)
  | pageDelivered request response => exact h.answered hdated request response htimely
  | pageChanged route => exact h.frame _ (h.shows.onPageChanged route) (fun hempty => (Router.onPageChanged_pageSeed _ _).trans hempty)
  | view url state => exact h.frame _ ⟨⟨h.shows.made, h.shows.unlinked, h.shows.held⟩, h.shows.shown⟩ id

private theorem ofScope_start {router : Router} (hnone : router.pageComponent = none) (hseed : router.pageSeed = [])
    (hempty : ∀ loader, router.loader = some loader → ∀ route, loader.componentFor route = none) :
    (start router).OfScope := by
  refine ⟨⟨⟨fun component hshown => ?_, fun _ hsome => ?_, fun loader hloader route component hheld => ?_⟩,
    fun _ component hshown => ?_⟩, fun hnonempty => absurd hseed hnonempty⟩
  · exact absurd (hnone.symm.trans hshown) (by simp)
  · rw [start, hnone] at hsome
    cases hsome
  · exact absurd ((hempty loader hloader route).symm.trans hheld) (by simp)
  · exact absurd (hnone.symm.trans hshown) (by simp)

/-- Over every run, a late reply leaves the page as it is exactly where no reply meets its own name again:
the path it was asked for, shown and waited for once more under another scope, or the pattern of another
path's route. And where none does, what is shown of the edge's pages and seeds was asked for under the
present scope. -/
theorem replies_correlate_iff (env : ClientEnv) (config : SynClientConfig) (session : Option ClientSession) (engine : Bool)
    (views : QString → ViewState) (modules : Option (List Text)) (ops : List RouterOp) :
    let first := start (Router.start env config session engine views modules)
    (Each (step env) (Correlates env) first ops ↔ Each (step env) Timely first ops) ∧
    (Each (step env) Timely first ops → (run (step env) first ops).OfScope) := by
  intro first
  have hdated : first.Dated := dated_start rfl (.inr ⟨rfl, rfl⟩)
  have hscope : first.OfScope := by
    refine ofScope_start rfl rfl fun loader hloader route => ?_
    obtain ⟨modules', -, rfl⟩ := Option.map_eq_some_iff.mp hloader
    rfl
  refine ⟨each_congr Dated (fun s op h => correlates_iff h op) (fun s op h _ => h.step op) hdated ops, fun htimely => ?_⟩
  have hboth := htimely.invariant (fun s => s.Dated ∧ s.OfScope)
    (fun s op h hop => ⟨h.1.step op, h.2.step h.1 op hop⟩) ⟨hdated, hscope⟩
  exact hboth.2

def adminStart : Fetching :=
  start (Router.start Router.plainClient ⟨[⟨"/", "", "qrc:/Main.qml", .any⟩], "/"⟩ (some ⟨false, [], ["admin"]⟩) true
    (fun _ => .built) (some []))

/-- The page is asked for, the administrator signs out, and then the reply comes: it is taken for the one
to the request that the sign-out made. -/
theorem page_shown_after_scope_loss :
    let ops := [RouterOp.applyRemoteRouteTable [⟨"/admin", "admin", ""⟩], .navigate "/admin", .scopeChanged [],
      .pageDelivered 0 (Router.campaignPage "salaries")]
    let last := (run (step Router.plainClient) adminStart ops).router
    last.session.map (·.scope) = some [] ∧ last.pageStatus = .ready ∧ last.pageComponent.isSome = true ∧
      last.pageSeed = [("headline", "salaries")] ∧
      ¬ Each (step Router.plainClient) (Correlates Router.plainClient) adminStart ops := by
  intro ops last
  have hready : last.pageStatus = .ready := by decide
  refine ⟨by decide, hready, by decide, by decide, fun hall => ?_⟩
  have hloading := congrArg (·.2.1)
    (hall.2.2.2.1 "/admin" 0 (by decide) (.inl (by decide)) (Router.campaignPage "salaries"))
  revert hloading
  decide

end Fetching
end SynQt
