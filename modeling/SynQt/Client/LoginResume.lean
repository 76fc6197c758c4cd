import SynQt.Client.ScopeGate

namespace SynQt
open Lib RoutePattern

namespace RoutePattern

private theorem splitQuery_of_not_mem (qt : QtText) {path : QString} (h : questionMark ∉ path.toList) :
    (splitQuery qt path).1 = path := by
  have hnone : path.toList.dropWhile (· != questionMark) = [] := by
    rw [List.dropWhile_eq_nil_iff]
    intro c hc
    exact bne_iff_ne.mpr fun heq => h (heq ▸ hc)
  rw [splitQuery, hnone]

private theorem not_mem_splitQuery (qt : QtText) (pathWithQuery : QString) :
    questionMark ∉ (splitQuery qt pathWithQuery).1.toList := by
  intro hmark
  unfold splitQuery at hmark
  dsimp only at hmark
  split at hmark
  case h_1 hnone =>
    have hclean := List.dropWhile_eq_nil_iff.mp hnone _ hmark
    simp at hclean
  case h_2 =>
    rw [String.toList_ofList] at hmark
    have hclean := List.mem_takeWhile_imp hmark
    simp at hclean

private theorem splitQuery_splitQuery (qt : QtText) (pathWithQuery : QString) :
    (splitQuery qt (splitQuery qt pathWithQuery).1).1 = (splitQuery qt pathWithQuery).1 :=
  splitQuery_of_not_mem qt (not_mem_splitQuery qt pathWithQuery)

end RoutePattern

namespace Router
variable {env : ClientEnv} {s s' : Router}

private theorem resumeTarget_eq (s : Router) :
    s.resumeTarget env = if s.honours env s.resumePath then some s.resumePath else none := by
  rw [resumeTarget, honours]
  cases ResumePath.isAcceptable env.qt s.resumePath (s.routes.map (·.config.path)) with
  | false => rfl
  | true =>
    cases lookup env.qt s.routes (splitQuery env.qt s.resumePath).1 with
    | none => rfl
    | some found => rfl

private theorem honours_congr (hroutes : s'.routes = s.routes) (hsession : s'.session = s.session) (path : QString) :
    s'.honours env path = s.honours env path := by
  simp only [honours, isReachable, hroutes, hsession]

section
variable {path : QString} (h : s.honours env path = true)
include h

private theorem lookup_of_honours :
    ∃ route parameters, lookup env.qt s.routes (splitQuery env.qt path).1 = some (route, parameters) ∧
      s.isReachable route.config = true := by
  have hreach := (Bool.and_eq_true_iff.mp h).2
  split at hreach
  case h_1 => cases hreach
  case h_2 route parameters hlookup => exact ⟨route, parameters, hlookup, hreach⟩

private theorem refuses_of_honours :
    s.refuses env (splitQuery env.qt path).1 = false := by
  obtain ⟨route, parameters, hlookup, hreach⟩ := lookup_of_honours h
  simp [refuses, hlookup, hreach]

private theorem landing_of_honours :
    s.landing env (splitQuery env.qt path).1 = (splitQuery env.qt path).1 := by
  obtain ⟨route, parameters, hlookup, hreach⟩ := lookup_of_honours h
  simp [landing, hlookup, refuses_of_honours h]

end

private theorem resumeAfterLogin_ground (s : Router) :
    (s.resumeAfterLogin env).ground =
      (s.config, s.session, s.routes, s.loader,
        if s.honours env s.resumePath then (splitQuery env.qt s.resumePath).1 else s.path, "") := by
  rw [resumeAfterLogin, resumeTarget_eq]
  cases hgoes : s.honours env s.resumePath with
  | false => rfl
  | true =>
    have hground := resolve_ground env
      { s with resumePath := "", query := (splitQuery env.qt s.resumePath).2 }
      (splitQuery env.qt s.resumePath).1
    refine hground.trans ?_
    have hlanding := landing_of_honours hgoes
    have hrefuses := refuses_of_honours hgoes
    change (_, _, _, _, s.landing env _, if s.refuses env _ then _ else "") = _
    rw [hlanding, hrefuses]
    rfl

theorem scopeChanged_eq (s : Router) (scope : List QString) (hsession : s.session.isSome) :
    s.scopeChanged env scope = ((s.rescoped scope).resolve env s.path).resumeAfterLogin env := by
  rw [scopeChanged, rescoped]
  cases hheld : s.session with
  | none =>
    rw [hheld] at hsession
    cases hsession
  | some session => rfl

/-- The path kept once a scope change has looked at the page again: the page's own when it is
refused, which takes the place of the one kept before. -/
def keptBy (env : ClientEnv) (s : Router) (scope : List QString) : QString :=
  if (s.rescoped scope).refuses env s.path then s.path else s.resumePath

private theorem scopeChanged_ground (s : Router) (scope : List QString) (hsession : s.session.isSome) :
    (s.scopeChanged env scope).ground =
      (s.config, (s.rescoped scope).session, s.routes, (s.rescoped scope).loader,
        if (s.rescoped scope).honours env (s.keptBy env scope) then
          (splitQuery env.qt (s.keptBy env scope)).1
        else (s.rescoped scope).landing env s.path, "") := by
  have hsettled := resolve_ground env (s.rescoped scope) s.path
  have hroutes := congrArg (·.2.2.1) hsettled
  have hheld := congrArg (·.2.1) hsettled
  have hpath := congrArg (·.2.2.2.2.1) hsettled
  have hkept : ((s.rescoped scope).resolve env s.path).resumePath = s.keptBy env scope :=
    congrArg (·.2.2.2.2.2) hsettled
  rw [scopeChanged_eq s scope hsession, resumeAfterLogin_ground, hkept, honours_congr hroutes hheld]
  have hconfig := congrArg (·.1) hsettled
  have hloader := congrArg (·.2.2.2.1) hsettled
  simp only [ground] at hconfig hroutes hheld hpath hloader
  rw [hconfig, hroutes, hheld, hpath, hloader]
  rfl

private theorem setPageComponent_resumePath (s : Router) (component : Option ComponentId) (status : PageStatus)
    (loaderOwned : Bool) : (s.setPageComponent component status loaderOwned).resumePath = s.resumePath :=
  congrArg (·.2.2.2.2.2) (setPageComponent_ground s component status loaderOwned)

private theorem onPageDelivered_resumePath (s : Router) (route : QString) (page : PageResponse) :
    (s.onPageDelivered env route page).resumePath = s.resumePath := by
  rw [onPageDelivered]
  split
  case isTrue => rfl
  case isFalse =>
    split
    case isTrue => exact setPageComponent_resumePath _ none .forbidden false
    case isFalse =>
      split
      case isTrue => exact setPageComponent_resumePath _ none .notFound false
      case isFalse =>
        split
        case h_1 => exact setPageComponent_resumePath s none .error false
        case h_2 =>
          dsimp only
          split
          case isTrue => exact setPageComponent_resumePath s none .error false
          case isFalse => exact setPageComponent_resumePath _ _ .ready true

private theorem onPageChanged_resumePath (s : Router) (route : QString) : (s.onPageChanged route).resumePath = s.resumePath := by
  rw [onPageChanged]
  split
  case h_1 => rfl
  case h_2 =>
    by_cases hshown : route = s.pendingRoute
    · simp only [hshown, if_true]
      exact setPageComponent_resumePath s none .loading false
    · simp only [hshown, if_false]

end Router

namespace Browsing
variable {env : ClientEnv} {s : Browsing}

structure Recalls (env : ClientEnv) (s : Browsing) : Prop where
  kept : s.router.resumePath = s.refusals.headD ""
  bare : ∀ path ∈ s.refusals, (RoutePattern.splitQuery env.qt path).1 = path

/-- The latest refused path that is accepted, and whose guard the session satisfies after a scope
change, is the path that is shown. -/
def Resumes (env : ClientEnv) (s : Browsing) : BrowsingOp → Prop
  | .scopeChanged scope =>
    let s' := s.step env (.scopeChanged scope)
    s.router.session.isSome → ∀ path, s.refusals.find? (s'.router.honours env) = some path → s'.router.path = path
  | _ => True

/-- The same of the path that was refused last, whatever was refused before it. -/
def ResumesLast (env : ClientEnv) (s : Browsing) : BrowsingOp → Prop
  | .scopeChanged scope =>
    let s' := s.step env (.scopeChanged scope)
    s.router.session.isSome → ∀ path, s.refusals.head? = some path → s'.router.honours env path → s'.router.path = path
  | _ => True

/-- Nothing is kept once a scope change is handled. -/
def Forgets (env : ClientEnv) (s : Browsing) : BrowsingOp → Prop
  | .scopeChanged scope =>
    s.router.session.isSome → (s.step env (.scopeChanged scope)).router.resumePath = ""
  | _ => True

/-- Where a visitor is left whose own page the new scope refuses: on the fallback, but for a path that
reads as another with its query taken off. -/
def evictedTo (env : ClientEnv) (r : Router) (path : QString) : QString :=
  if r.honours env path then (RoutePattern.splitQuery env.qt path).1 else r.config.routerFallback

/-- The new scope does not refuse the page the visitor is on, and of the paths refused before, none
may be gone to or the last one may. Where the visitor is left anyway is no loss. -/
def KeepsIntent (env : ClientEnv) (s : Browsing) : BrowsingOp → Prop
  | .scopeChanged scope =>
    let r := s.router.rescoped scope
    s.router.session.isSome → ∀ path, s.refusals.find? (r.honours env) = some path →
      if r.refuses env s.router.path then path = evictedTo env r s.router.path
      else s.refusals.head? = some path ∨ path = r.landing env s.router.path
  | _ => True

/-- The new scope does not refuse the page the visitor is on, when the path refused last may be gone to. -/
def KeepsLast (env : ClientEnv) (s : Browsing) : BrowsingOp → Prop
  | .scopeChanged scope =>
    let r := s.router.rescoped scope
    s.router.session.isSome → ∀ path, s.refusals.head? = some path → r.honours env path →
      r.refuses env s.router.path = true → path = evictedTo env r s.router.path
  | _ => True

namespace Recalls

section
variable (h : s.Recalls env)
include h

theorem navigate (pathWithQuery : QString) : (s.navigate env pathWithQuery).Recalls env := by
  have hkept : (s.router.navigate env pathWithQuery).resumePath = _ := congrArg (·.2.2.2.2.2)
    (Router.resolve_ground env { s.router with query := (splitQuery env.qt pathWithQuery).2 }
      (splitQuery env.qt pathWithQuery).1)
  change _ = (if s.router.refuses env _ then _ else s.router.resumePath) at hkept
  constructor
  case kept =>
    rw [Browsing.navigate, hkept]
    split
    case isTrue => rfl
    case isFalse => exact h.kept
  case bare =>
    rw [Browsing.navigate]
    dsimp only
    split
    case isTrue =>
      intro path hpath
      rcases List.mem_cons.mp hpath with rfl | hold
      · exact splitQuery_splitQuery env.qt pathWithQuery
      · exact h.bare path hold
    case isFalse => exact h.bare

theorem withHistory (history : BrowserHistory) : Recalls env { s with history := history } :=
  ⟨h.kept, h.bare⟩

theorem popped (path : QString) : (s.popped env path).Recalls env := by
  rw [Browsing.popped]
  split
  case isTrue => exact (h.navigate path).withHistory _
  case isFalse => exact h.navigate path

private theorem withRouter {router : Router} (hkept : router.resumePath = s.router.resumePath) :
    Recalls env { s with router := router } :=
  ⟨hkept.trans h.kept, h.bare⟩

theorem scopeChanged (scope : List QString) : (s.scopeChanged env scope).Recalls env := by
  by_cases hsession : s.router.session.isSome
  · have hkept := congrArg (·.2.2.2.2.2) (@Router.scopeChanged_ground env s.router scope hsession)
    constructor
    case kept =>
      rw [Browsing.scopeChanged_router]
      rw [Browsing.scopeChanged, if_pos hsession]
      exact hkept
    case bare =>
      rw [Browsing.scopeChanged, if_pos hsession]
      exact fun path hpath => (List.not_mem_nil hpath).elim
  · rw [Browsing.scopeChanged, if_neg hsession]
    exact h

theorem step (op : BrowsingOp) : (s.step env op).Recalls env := by
  cases op with
  | start => exact h.navigate _
  | go path | replace path => exact (h.navigate path).withHistory _
  | back | forward =>
    rw [Browsing.step]
    split
    case isTrue => exact (h.withHistory _).popped _
    case isFalse => exact h
  | applyRemoteRouteTable table => exact h.withRouter rfl
  | scopeChanged scope => exact h.scopeChanged scope
  | pageDelivered request page =>
    apply h.withRouter
    rw [Router.step]
    split
    case h_1 => rfl
    case h_2 route _ =>
      exact Router.onPageDelivered_resumePath { s.router with requested := s.router.requested.eraseIdx request } route page
  | pageChanged route => exact h.withRouter (Router.onPageChanged_resumePath s.router route)
  | view url state => exact h.withRouter rfl

end

end Recalls

private theorem scopeChanged_shown (s : Browsing) (scope : List QString) (hsession : s.router.session.isSome) :
    (s.step env (.scopeChanged scope)).router.honours env = (s.router.rescoped scope).honours env ∧
    (s.step env (.scopeChanged scope)).router.path =
      if (s.router.rescoped scope).honours env (s.router.keptBy env scope) then
        (splitQuery env.qt (s.router.keptBy env scope)).1
      else (s.router.rescoped scope).landing env s.router.path := by
  have hground := @Router.scopeChanged_ground env s.router scope hsession
  rw [step, scopeChanged_router]
  refine ⟨?_, congrArg (·.2.2.2.2.1) hground⟩
  funext path
  exact Router.honours_congr (congrArg (·.2.2.1) hground) (congrArg (·.2.1) hground) path

private theorem scopeChanged_evicted (s : Browsing) (scope : List QString) (hsession : s.router.session.isSome)
    (hrefused : (s.router.rescoped scope).refuses env s.router.path = true) :
    (s.step env (.scopeChanged scope)).router.path = evictedTo env (s.router.rescoped scope) s.router.path := by
  rw [(scopeChanged_shown s scope hsession).2, Router.keptBy, if_pos hrefused, Router.landing, hrefused, Bool.or_true,
    if_pos rfl]
  rfl

/-- A visitor whose own page stands goes back to the path that was refused last, when it may be gone to. -/
theorem scopeChanged_settled (h : s.Recalls env) (scope : List QString) (hsession : s.router.session.isSome)
    (hstands : (s.router.rescoped scope).refuses env s.router.path = false) {path : QString} {rest : List QString}
    (hrefusals : s.refusals = path :: rest) :
    (s.step env (.scopeChanged scope)).router.path =
      if (s.router.rescoped scope).honours env path then path else (s.router.rescoped scope).landing env s.router.path := by
  have hkept : s.router.keptBy env scope = path := by
    rw [Router.keptBy, hstands, if_neg Bool.false_ne_true, h.kept, hrefusals]
    rfl
  rw [(scopeChanged_shown s scope hsession).2, hkept, h.bare path (hrefusals ▸ List.mem_cons_self)]

theorem resumes_iff (h : s.Recalls env) (op : BrowsingOp) : s.Resumes env op ↔ s.KeepsIntent env op := by
  cases op with
  | scopeChanged scope =>
    refine forall_congr' fun hsession => forall_congr' fun path => ?_
    rw [(scopeChanged_shown s scope hsession).1]
    refine forall_congr' fun hlatest => ?_
    cases hrefused : (s.router.rescoped scope).refuses env s.router.path with
    | true =>
      rw [scopeChanged_evicted s scope hsession hrefused, if_pos rfl]
      exact eq_comm
    | false =>
      rw [if_neg Bool.false_ne_true]
      cases hrefusals : s.refusals with
      | nil =>
        rw [hrefusals] at hlatest
        cases hlatest
      | cons last rest =>
        rw [scopeChanged_settled h scope hsession hrefused hrefusals]
        rw [hrefusals, List.find?_cons] at hlatest
        cases hhonours : (s.router.rescoped scope).honours env last with
        | true =>
          rw [hhonours] at hlatest
          obtain rfl := Option.some.inj hlatest
          simp
        | false =>
          rw [hhonours] at hlatest
          have hother : last ≠ path := by
            rintro rfl
            exact Bool.false_ne_true (hhonours.symm.trans (List.find?_some hlatest))
          rw [if_neg Bool.false_ne_true, List.head?_cons, Option.some.injEq, or_iff_right hother]
          exact eq_comm
  | _ => exact Iff.rfl

private theorem resumesLast_iff (h : s.Recalls env) (op : BrowsingOp) : s.ResumesLast env op ↔ s.KeepsLast env op := by
  cases op with
  | scopeChanged scope =>
    refine forall_congr' fun hsession => forall_congr' fun path => forall_congr' fun hlast => ?_
    rw [(scopeChanged_shown s scope hsession).1]
    refine forall_congr' fun hhonours => ?_
    obtain ⟨rest, hrefusals⟩ := List.head?_eq_some_iff.mp hlast
    cases hrefused : (s.router.rescoped scope).refuses env s.router.path with
    | true =>
      rw [scopeChanged_evicted s scope hsession hrefused]
      simp [eq_comm]
    | false =>
      rw [scopeChanged_settled h scope hsession hrefused hrefusals, if_pos hhonours]
      simp
  | _ => exact Iff.rfl

theorem forgets (s : Browsing) (op : BrowsingOp) : s.Forgets env op := by
  cases op with
  | scopeChanged scope =>
    intro hsession
    rw [step, scopeChanged_router]
    exact congrArg (·.2.2.2.2.2) (Router.scopeChanged_ground s.router scope hsession)
  | _ => trivial

private theorem recalls_make (config : SynClientConfig) (session : Option ClientSession) (engine : Bool)
    (views : QString → ViewState) (modules : Option (List Text)) :
    (make (Router.start env config session engine views modules)).Recalls env :=
  ⟨rfl, fun _ hpath => (List.not_mem_nil hpath).elim⟩

/-- Over every run: a page of the bundle that is shown as ready is in the session's scope, and nothing
is kept once a scope change is handled. The latest refused path that the new scope lets through is the
one that is shown exactly when the page the visitor is on is not refused by the change and no path
that is refused still came after it, or it is where the visitor is left anyway. -/
theorem gate_and_resume_iff (env : ClientEnv) (config : SynClientConfig) (session : Option ClientSession) (engine : Bool)
    (views : QString → ViewState) (modules : Option (List Text)) (ops : List BrowsingOp) :
    let start := make (Router.start env config session engine views modules)
    (run (step env) start ops).router.InScope env (run (step env) start ops).table ∧
    Each (step env) (Forgets env) start ops ∧
    (Each (step env) (Resumes env) start ops ↔ Each (step env) (KeepsIntent env) start ops) ∧
    (Each (step env) (ResumesLast env) start ops ↔ Each (step env) (KeepsLast env) start ops) := by
  intro start
  have hgated : start.Gated env := gated_make config session engine views modules
  have hrecalls : start.Recalls env := recalls_make config session engine views modules
  refine ⟨(run_invariant (Gated env) (fun s op h => h.step op) hgated ops).inScope, ?_, ?_, ?_⟩
  · exact each_of_all (fun s op => s.forgets op) start ops
  · exact each_congr (Recalls env) (fun s op h => resumes_iff h op) (fun s op h _ => h.step op) hrecalls ops
  · exact each_congr (Recalls env) (fun s op h => resumesLast_iff h op) (fun s op h _ => h.step op) hrecalls ops

/-- A member's page and an administrator's, and scopes of which one does not hold the other. -/
def memberStart : Browsing :=
  make (Router.start Router.plainClient
    ⟨[⟨"/", "", "qrc:/Main.qml", .any⟩, ⟨"/member", "member", "qrc:/Member.qml", .any⟩,
      ⟨"/admin", "admin", "qrc:/Admin.qml", .any⟩], "/"⟩
    (some ⟨false, [], ["member"]⟩) true (fun _ => .built) none)

/-- The administrator's page is refused to a member, who then signs in as an administrator from the
member's page: that page is refused in turn, and takes the place of the path that was kept. -/
theorem member_signs_in_as_admin :
    let ops := [BrowsingOp.start, .go "/admin", .go "/member", .scopeChanged ["admin"]]
    (run (step Router.plainClient) memberStart ops).router.path = "/" ∧
    ¬ Each (step Router.plainClient) (Resumes Router.plainClient) memberStart ops ∧
    ¬ Each (step Router.plainClient) (ResumesLast Router.plainClient) memberStart ops := by
  intro ops
  have hshown : (run (step Router.plainClient) memberStart ops).router.path = "/" := by decide +kernel
  refine ⟨hshown, fun hall => ?_, fun hall => ?_⟩
  · have hadmin := hall.2.2.2.1 (by decide +kernel) "/admin" (by decide +kernel)
    exact absurd (hshown.symm.trans hadmin) (by decide)
  · have hadmin := hall.2.2.2.1 (by decide +kernel) "/admin" (by decide +kernel) (by decide +kernel)
    exact absurd (hshown.symm.trans hadmin) (by decide)

end Browsing
end SynQt
