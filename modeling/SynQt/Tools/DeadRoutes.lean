import SynQt.Client.RouteLiveness
import SynQt.Tools.Endpoints
import SynQt.Tools.RouteLint

namespace SynQt.RouteLint
open Lib Dict EnvLayer TopologyWriter List
open YamlEdit (Str lit strip)
open RoutePattern (Plain Fits shape literals fill bindings names joined slashed isPlaceholder)

/-- What a web edge that delivers the bundle has registered for a request of a page. -/
structure BundleRoutes where
  clientRoute : QString
  identityRoutes : List QString
  /-- The names of one segment that the bundle's own route serves a file for, or refuses. -/
  answers : QString → Bool

namespace BundleRoutes

/-- A last segment with a dot in it asks for a file. -/
def shellOrNotFound (path : QString) : Bool :=
  !(((splitKeepEmpty slash path.toList).getLast?.getD []).contains '.')

def getsShell (edge : BundleRoutes) (path : QString) : Bool :=
  if path = edge.clientRoute then true
  else if edge.identityRoutes.contains path then false
  else
    let rest := path.toList.tail
    if rest ≠ [] ∧ slash ∉ rest ∧ edge.answers (String.ofList rest) then false else shellOrNotFound path

end BundleRoutes

variable {casts : Casts} {py : PyText} {qt : QtText}

def pathText (route : Entries) : Str :=
  match get route "path" with
  | some (.scalar (.str path)) => path
  | _ => []

/-- What a table is where nothing is found in it. -/
structure CleanTable (py : PyText) (seen : List Str) (routes : List Entries) : Prop where
  texts : ∀ route ∈ routes, get route "path" = some (text (pathText route))
  absolute : ∀ route ∈ routes, (pathText route).head? = some slash
  segments : ∀ route ∈ routes, segmentFindings py (pathText route) [] (segmentsOf (pathText route)) = []
  distinct : (routes.map fun route => normalizeRoutePath (pathText route)).Nodup
  unseen : ∀ route ∈ routes, normalizeRoutePath (pathText route) ∉ seen

private theorem isError_segmentFindings (path : Str) (names segments : List Str) :
    ∀ f ∈ segmentFindings py path names segments, isError f = true := by
  induction segments generalizing names with
  | nil => exact nofun
  | cons segment rest ih =>
    intro f hf
    rw [segmentFindings] at hf
    split at hf
    · dsimp only at hf
      split at hf
      · obtain rfl | hf := mem_cons.mp hf
        · rfl
        · exact ih _ f hf
      · split at hf
        · obtain rfl | hf := mem_cons.mp hf
          · rfl
          · exact ih _ f hf
        · exact ih _ f hf
    · exact ih _ f hf

variable {routes : List Entries}

theorem cleanTable_of_clean {reserved seen : List Str} (h : Clean (lintTable py reserved seen routes).1) :
    CleanTable py seen routes ∧ ∀ path, path ∈ (lintTable py reserved seen routes).2 ↔
      path ∈ seen ∨ path ∈ routes.map fun route => normalizeRoutePath (pathText route) := by
  induction routes generalizing seen with
  | nil => exact ⟨⟨nofun, nofun, nofun, nodup_nil, nofun⟩, fun path => by simp [lintTable]⟩
  | cons route rest ih =>
    rw [lintTable] at h ⊢
    split at h
    · next path hpath =>
      have htext : pathText route = path := by rw [pathText, hpath]
      dsimp only at h ⊢
      split at h
      · next habsolute =>
        rw [if_pos habsolute]
        dsimp only at h ⊢
        obtain ⟨hfront, hrest⟩ := h.append
        obtain ⟨hfront, hsegments⟩ := hfront.append
        obtain ⟨hduplicate, -⟩ := hfront.append
        obtain ⟨htable, hseen⟩ := ih hrest
        have hfree : normalizeRoutePath path ∉ seen := by
          intro hin
          rw [if_pos hin] at hduplicate
          exact Bool.false_ne_true ((hduplicate _ mem_cons_self).symm.trans rfl)
        refine ⟨⟨?_, ?_, ?_, ?_, ?_⟩, fun other => ?_⟩
        · exact forall_mem_cons.mpr ⟨htext.symm ▸ hpath, htable.texts⟩
        · exact forall_mem_cons.mpr ⟨htext.symm ▸ habsolute, htable.absolute⟩
        · exact forall_mem_cons.mpr
            ⟨htext.symm ▸ hsegments.eq_nil (isError_segmentFindings _ _ _), htable.segments⟩
        · refine nodup_cons.mpr ⟨fun hin => ?_, htable.distinct⟩
          obtain ⟨other, hother, he⟩ := mem_map.mp hin
          exact htable.unseen other hother (he ▸ htext.symm ▸ mem_cons_self)
        · refine forall_mem_cons.mpr ⟨htext.symm ▸ hfree, fun other hother hin => ?_⟩
          exact htable.unseen other hother (mem_cons_of_mem _ hin)
        · rw [hseen, mem_cons, map_cons, mem_cons, htext, or_assoc, or_left_comm]
      · exact absurd (h _ mem_cons_self) (by rw [absoluteFinding]; nofun)
    · exact absurd (h _ mem_cons_self) (by rw [textFinding]; nofun)

private theorem splitSegments_ofList (path : Str) : splitSegments (String.ofList path) = (segmentsOf path).map String.ofList := by
  rw [splitSegments, String.toList_ofList, segmentsOf]

private theorem startsWith_ofList_iff (segment : Str) (c : Char) : startsWith (String.ofList segment) c = true ↔ segment.head? = some c := by
  rw [startsWith, String.toList_ofList, beq_iff_eq]

section
variable (hletters : ∀ c : Char, c.toNat ≤ 0xFFFF → py.isalpha c = qt.isLetter c ∧ py.isalnum c = qt.isLetterOrNumber c)
include hletters

/-- A name that the check takes is one that the client takes. -/
theorem isIdentifier_of_name {name : Str} (h : isRouteParameterName py name = true) : isIdentifier qt name = true := by
  cases name with
  | nil => cases h
  | cons first rest =>
    rw [isRouteParameterName, Bool.and_eq_true, Bool.and_eq_true, Bool.not_eq_true', any_eq_false] at h
    obtain ⟨⟨hplane, hfirst⟩, hall⟩ := h
    have hlow (c : Char) (hc : c ∈ first :: rest) : c.toNat ≤ 0xFFFF := by simpa using hplane c hc
    rw [isIdentifier, Bool.and_eq_true]
    refine ⟨?_, all_eq_true.mpr fun c hc => ?_⟩
    · rw [← (hletters first (hlow first mem_cons_self)).1]
      exact hfirst
    · rw [← (hletters c (hlow c hc)).2]
      exact all_eq_true.mp hall c hc

private theorem countLiterals_of_nil {path : Str} {taken segments : List Str} (h : segmentFindings py path taken segments = []) (count : Nat) :
    (RoutePattern.countLiterals qt (taken.map String.ofList) count (segments.map String.ofList)).isSome = true := by
  induction segments generalizing taken count with
  | nil => rfl
  | cons segment rest ih =>
    rw [segmentFindings] at h
    rw [map_cons, RoutePattern.countLiterals]
    by_cases hplaceholder : segment.head? = some colon
    · rw [if_pos hplaceholder] at h
      rw [if_pos ((startsWith_ofList_iff segment colon).mpr hplaceholder), String.toList_ofList]
      dsimp only at h ⊢
      split at h
      · cases h
      · next hname =>
        split at h
        · cases h
        · next hfree =>
          have hidentifier := isIdentifier_of_name hletters (by simpa using hname)
          have hnew : (taken.map String.ofList).contains (String.ofList segment.tail) = false := by
            rw [← Bool.not_eq_true, contains_iff_mem]
            intro hin
            obtain ⟨other, hother, he⟩ := mem_map.mp hin
            exact hfree (String.ofList_injective he ▸ hother)
          rw [hidentifier, hnew, Bool.not_true, Bool.or_false, if_neg Bool.false_ne_true]
          exact ih h count
    · rw [if_neg hplaceholder] at h
      rw [if_neg fun hstarts => hplaceholder ((startsWith_ofList_iff segment colon).mp hstarts)]
      exact ih h (count + 1)

private theorem valid_of_clean {path : Str} (habsolute : path.head? = some slash) (h : segmentFindings py path [] (segmentsOf path) = []) :
    (RoutePattern.make qt (String.ofList path)).valid = true := by
  obtain ⟨total, hcount⟩ := Option.isSome_iff_exists.mp (countLiterals_of_nil hletters h 0)
  rw [RoutePattern.make, if_pos ((startsWith_ofList_iff path slash).mpr habsolute), splitSegments_ofList]
  rw [map_nil] at hcount
  rw [hcount]

end

private theorem forall₂_of_mapM {α β : Type} {f : α → Option β} {l : List α} {l' : List β} (h : l.mapM f = some l') :
    List.Forall₂ (fun a b => f a = some b) l l' := by
  induction l generalizing l' with
  | nil =>
    rw [mapM_nil] at h
    obtain rfl := Option.some.inj h
    exact .nil
  | cons a l ih =>
    rw [mapM_cons] at h
    obtain ⟨b, hb, h⟩ := Option.bind_eq_some_iff.mp h
    obtain ⟨rest, hrest, h⟩ := Option.bind_eq_some_iff.mp h
    obtain rfl := Option.some.inj h
    exact .cons hb (ih hrest)

variable {viewFile : Str → Option Str}

private theorem path_of_routeLiteral {uri : Str} {route : Entries} {config : RouteConfig}
    (h : routeLiteral viewFile uri route = some config) (htext : get route "path" = some (text (pathText route))) :
    config.path = String.ofList (pathText route) := by
  rw [routeLiteral, htext] at h
  obtain ⟨path, hpath, h⟩ := Option.bind_eq_some_iff.mp h
  obtain ⟨view, -, h⟩ := Option.bind_eq_some_iff.mp h
  obtain ⟨scope, -, h⟩ := Option.bind_eq_some_iff.mp h
  obtain rfl := Option.some.inj h
  obtain rfl := Option.some.inj hpath
  rfl

private theorem paths_generated {uri : Str} {configs : List RouteConfig}
    (h : routes.mapM (routeLiteral viewFile uri) = some configs) (htexts : ∀ route ∈ routes, get route "path" = some (text (pathText route))) :
    configs.map (·.path) = routes.map fun route => String.ofList (pathText route) := by
  have hpairs := forall₂_of_mapM h
  clear h
  induction hpairs with
  | nil => rfl
  | cons hroute hrest ih =>
    rw [map_cons, map_cons, path_of_routeLiteral hroute (htexts _ mem_cons_self),
      ih fun route hin => htexts route (mem_cons_of_mem _ hin)]

private theorem declared_of_clean
    (hletters : ∀ c : Char, c.toNat ≤ 0xFFFF → py.isalpha c = qt.isLetter c ∧ py.isalnum c = qt.isLetterOrNumber c)
    (htable : CleanTable py [] routes) {uri : Str} {configs : List RouteConfig}
    (h : routes.mapM (routeLiteral viewFile uri) = some configs) : Router.Declared qt configs := by
  have hpaths := paths_generated h htable.texts
  constructor
  · intro config hin
    have hpath : config.path ∈ configs.map (·.path) := mem_map_of_mem hin
    rw [hpaths] at hpath
    obtain ⟨route, hroute, he⟩ := mem_map.mp hpath
    rw [← he]
    exact valid_of_clean hletters (htable.absolute route hroute) (htable.segments route hroute)
  · rw [hpaths]
    have hsame : (routes.map fun route => String.ofList (pathText route)).map (fun path => normalizeRoutePath path.toList) =
        routes.map fun route => normalizeRoutePath (pathText route) := by
      rw [map_map]
      exact map_congr_left fun route _ => congrArg normalizeRoutePath String.toList_ofList
    exact (hsame ▸ htable.distinct).of_map

private theorem joined_ofList (segments : List Str) : joined (segments.map String.ofList) = String.ofList (slash :: [slash].intercalate segments) := by
  rw [joined, RoutePattern.map_toList_ofList]

private theorem plain_segmentsOf (path : Str) : ∀ segment ∈ (segmentsOf path).map String.ofList, Plain segment := by
  rw [← splitSegments_ofList]
  exact fun segment => RoutePattern.plain_of_mem_splitSegments

private theorem splitPath_normalized (path : Str) :
    RoutePattern.splitPath (String.ofList (normalizeRoutePath path)) = some ((segmentsOf path).map String.ofList) := by
  rw [normalizeRoutePath, ← joined_ofList, RoutePattern.splitPath_joined (plain_segmentsOf path)]

private theorem segmentsOf_eq_of_normalized {path path' : Str} (h : normalizeRoutePath path = normalizeRoutePath path') :
    (segmentsOf path).map String.ofList = (segmentsOf path').map String.ofList := by
  have hsplit := splitPath_normalized path
  rw [h, splitPath_normalized] at hsplit
  exact (Option.some.inj hsplit).symm

/-- The fallback the project declares leads to a route of the client's. -/
def FallbackResolves (qt : QtText) (config : Entries) (generated : SynClientConfig) (table : List RouteEntry) : Prop :=
  (get (mapping config "router") "fallback").isSome = true →
    ∃ route parameters, Router.lookup qt (Router.applyRemoteRouteTable qt generated.routes table) generated.routerFallback =
      some (route, parameters) ∧ route.config ∈ generated.routes

/-- A fallback is declared for a table with routes, and as a text, or the root is a route. -/
def FallbackFits (config : Entries) (routes : List Entries) : Prop :=
  ∀ fallback, get (mapping config "router") "fallback" = some fallback →
    routes ≠ [] ∧ ((∃ path, fallback = text path) ∨ ∃ route ∈ routes, segmentsOf (pathText route) = [])

variable {config : Entries}

theorem routerFallback_eq {fallback : Str} (h : routerFallback config = some fallback) {declared : Node}
    (hdeclared : get (mapping config "router") "fallback" = some declared) :
    fallback = normalizeRoutePath ((asText declared).getD []) := by
  rw [mapping] at hdeclared
  cases hrouter : get config "router" with
  | none =>
    rw [hrouter] at hdeclared
    cases hdeclared
  | some node =>
    rw [hrouter] at hdeclared
    cases node with
    | scalar value => cases hdeclared
    | list items => cases hdeclared
    | dict router =>
      dsimp only at hdeclared
      have hne : router ≠ [] := by
        rintro rfl
        cases hdeclared
      have htruthy : truthyGet config "router" = some (.dict router) := by
        rw [truthyGet, hrouter]
        exact Option.filter_some_pos (by simpa [truthy] using hne)
      rw [routerFallback, htruthy] at h
      dsimp only at h
      rw [truthyGet, hdeclared] at h
      by_cases hvalue : truthy declared = true
      · rw [Option.filter_some_pos hvalue, Option.getD_some] at h
        obtain ⟨path, hpath, rfl⟩ := Option.map_eq_some_iff.mp h
        rw [hpath, Option.getD_some]
      · rw [Option.filter_some_neg (Bool.eq_false_iff.mpr hvalue), Option.getD_none] at h
        obtain rfl := Option.some.inj h
        have hempty : (asText declared).getD [] = [] := by
          cases declared with
          | scalar value =>
            cases value with
            | str s =>
              rw [truthy] at hvalue
              simpa [asText] using hvalue
            | _ => rfl
          | _ => rfl
        rw [hempty]
        rfl

theorem fallback_iff {generated : SynClientConfig}
    (hdeclared : Router.Declared qt generated.routes)
    (hpaths : generated.routes.map (·.path) = routes.map fun route => String.ofList (pathText route))
    {fallback : Str} (hgenerated : generated.routerFallback = String.ofList fallback) (hfallback : routerFallback config = some fallback)
    (hfound : ∀ path, get (mapping config "router") "fallback" = some (text path) → routes ≠ [] →
      normalizeRoutePath path ∈ routes.map fun route => normalizeRoutePath (pathText route)) (table : List RouteEntry) :
    FallbackResolves qt config generated table ↔ FallbackFits config routes := by
  have hconfig {route : Entries} (hroute : route ∈ routes) : ∃ entry ∈ generated.routes, entry.path = String.ofList (pathText route) := by
    have hin : String.ofList (pathText route) ∈ generated.routes.map (·.path) := by
      rw [hpaths]
      exact mem_map_of_mem hroute
    exact mem_map.mp hin
  constructor
  · intro hresolves declared hget
    obtain ⟨route, parameters, hlookup, hin⟩ := hresolves (by rw [hget]; rfl)
    have hroute : route.config.path ∈ routes.map fun route => String.ofList (pathText route) := by
      rw [← hpaths]
      exact mem_map_of_mem hin
    obtain ⟨source, hsource, he⟩ := mem_map.mp hroute
    refine ⟨ne_nil_of_mem hsource, ?_⟩
    cases htext : asText declared with
    | some path => exact .inl ⟨path, eq_text_of_asText htext⟩
    | none =>
      refine .inr ⟨source, hsource, ?_⟩
      rw [hgenerated, routerFallback_eq hfallback hget, htext] at hlookup
      have hfits := Router.fits_of_lookup hdeclared (splitPath_normalized _) hlookup
      rw [← he, splitSegments_ofList] at hfits
      exact map_eq_nil_iff.mp (forall₂_nil_right_iff.mp hfits)
  · intro hfits hsome
    obtain ⟨declared, hget⟩ := Option.isSome_iff_exists.mp hsome
    obtain ⟨hne, hcases⟩ := hfits declared hget
    rw [hgenerated, routerFallback_eq hfallback hget]
    -- A route declared with the segments of the fallback.
    have hroute : ∃ route ∈ routes, (segmentsOf (pathText route)).map String.ofList =
        (segmentsOf ((asText declared).getD [])).map String.ofList := by
      cases htext : asText declared with
      | some path =>
        obtain rfl := eq_text_of_asText htext
        obtain ⟨route, hroute, hsame⟩ := mem_map.mp (hfound path hget hne)
        exact ⟨route, hroute, segmentsOf_eq_of_normalized hsame⟩
      | none =>
        obtain ⟨path, rfl⟩ | ⟨route, hroute, hroot⟩ := hcases
        · cases htext
        · exact ⟨route, hroute, congrArg (List.map String.ofList) hroot⟩
    obtain ⟨route, hroute, hsame⟩ := hroute
    obtain ⟨entry, hentry, hpath⟩ := hconfig hroute
    refine Router.lookup_declared hdeclared table hentry ?_
    rw [hpath, splitSegments_ofList, hsame, splitPath_normalized]

variable (qt) in
/-- Some path of the route is answered with the shell. -/
def Reached (edge : BundleRoutes) (config : RouteConfig) : Prop :=
  ∃ path segments, RoutePattern.splitPath path = some segments ∧
    ((RoutePattern.make qt config.path).matchesSegments qt segments).isSome = true ∧ edge.getsShell path = true

/-- Of a route without placeholders, one of its two paths is answered with the shell. -/
def SpelledFree (edge : BundleRoutes) (config : RouteConfig) : Prop :=
  names (splitSegments config.path) = [] →
    edge.getsShell (joined (splitSegments config.path)) = true ∨
      splitSegments config.path ≠ [] ∧ edge.getsShell (slashed (splitSegments config.path)) = true

/-- A path with a slash behind it is the shell's unless a sign-in route is spelled that way. -/
theorem getsShell_slashed (edge : BundleRoutes) {segments : List QString} (hplain : ∀ segment ∈ segments, Plain segment)
    (hne : segments ≠ []) (hfree : slashed segments ∉ edge.identityRoutes) : edge.getsShell (slashed segments) = true := by
  rw [BundleRoutes.getsShell]
  split
  · rfl
  · rw [if_neg fun h => hfree (contains_iff_mem.mp h)]
    have hlist : (slashed segments).toList = slash :: ([slash].intercalate (segments.map String.toList) ++ [slash]) := by
      rw [slashed, joined, String.toList_ofList, String.toList_ofList, cons_append]
    dsimp only
    rw [hlist, tail_cons, if_neg fun h => h.2.1 (mem_append_right _ (mem_singleton_self _)),
      BundleRoutes.shellOrNotFound, hlist, splitKeepEmpty, if_pos (beq_self_eq_true _),
      RoutePattern.splitKeepEmpty_concat hplain hne, ← cons_append, List.getLast?_concat]
    rfl

theorem reached_iff (edge : BundleRoutes) {config : RouteConfig} (hvalid : (RoutePattern.make qt config.path).valid = true) :
    Reached qt edge config ↔ SpelledFree edge config := by
  have hplain : ∀ segment ∈ splitSegments config.path, Plain segment := fun segment => RoutePattern.plain_of_mem_splitSegments
  have hmatches {segments : List QString} :
      ((RoutePattern.make qt config.path).matchesSegments qt segments).isSome = true ↔ Fits (splitSegments config.path) segments := by
    rw [RoutePattern.isSome_matchesSegments, (RoutePattern.make_valid hvalid).1, and_iff_right hvalid]
  constructor
  · intro hreached hnames
    obtain ⟨path, segments, hpath, hmatch, hshell⟩ := hreached
    obtain rfl := RoutePattern.eq_of_fits_of_names hnames (hmatches.mp hmatch)
    obtain rfl | ⟨hne, rfl⟩ := RoutePattern.eq_joined_or_slashed hpath
    · exact .inl hshell
    · exact .inr ⟨hne, hshell⟩
  · intro hspelled
    by_cases hnames : names (splitSegments config.path) = []
    · obtain hshell | ⟨hne, hshell⟩ := hspelled hnames
      · exact ⟨_, _, RoutePattern.splitPath_joined hplain, hmatches.mpr (RoutePattern.fits_self _), hshell⟩
      · exact ⟨_, _, RoutePattern.splitPath_slashed hplain hne, hmatches.mpr (RoutePattern.fits_self _), hshell⟩
    · -- A placeholder longer than every route of the edge.
      obtain ⟨fresh, hfresh, hlong⟩ := RoutePattern.exists_fresh edge.identityRoutes
      obtain ⟨segment, hin, hplaceholder⟩ := RoutePattern.exists_placeholder hnames
      have hfill : fresh ∈ fill fresh (splitSegments config.path) :=
        mem_map.mpr ⟨segment, hin, if_pos hplaceholder⟩
      have hfilled := Router.plain_fill hfresh config.path
      have hne : fill fresh (splitSegments config.path) ≠ [] := ne_nil_of_mem hfill
      refine ⟨_, _, RoutePattern.splitPath_slashed hfilled hne, hmatches.mpr (RoutePattern.fits_fill _ _),
        getsShell_slashed edge hfilled hne fun hroute => ?_⟩
      have hshort := hlong _ hroute
      have hpart : fresh.toList ∈ (fill fresh (splitSegments config.path)).map String.toList := mem_map_of_mem hfill
      have hlength := (infix_intercalate slash hpart).length_le
      rw [slashed, joined, String.toList_ofList, String.toList_ofList, length_append, length_cons] at hshort
      omega

private theorem clean_of_lintRoutes {client : Option Entries} {findings : List Str}
    (h : lintRoutes casts py config client = some findings) (hclean : Clean findings) :
    CleanTable py [] (routesFor config client) ∧
      ∀ path, get (mapping config "router") "fallback" = some (text path) → routesFor config client ≠ [] →
        normalizeRoutePath path ∈ (routesFor config client).map fun route => normalizeRoutePath (pathText route) := by
  rw [lintRoutes] at h
  obtain ⟨reserved, -, rfl⟩ := Option.map_eq_some_iff.mp h
  dsimp only at hclean
  obtain ⟨htable, hseen⟩ := cleanTable_of_clean hclean.append.1.append.1.append.1
  refine ⟨htable, fun path hget hne => ?_⟩
  have hfallback := hclean.append.1.append.1.append.2
  rw [hget, Option.getD_some] at hfallback
  by_contra hout
  have hunseen : normalizeRoutePath (pyStr casts (text path)) ∉ (lintTable py reserved [] (routesFor config client)).2 :=
    fun hin => hout (((hseen _).mp hin).resolve_left not_mem_nil)
  rw [if_pos (by simpa using ⟨hne, hunseen⟩)] at hfallback
  exact Bool.false_ne_true ((hfallback _ mem_cons_self).symm.trans rfl)

/-- An accepted table has no dead route, and a fallback that leads to one of its routes, exactly where no two routes have
their literals at the same places, the edge spells no sign-in route as a route is with a slash behind it, and a fallback
is declared as a text and beside routes. -/
theorem no_dead_route_iff
    (hletters : ∀ c : Char, c.toNat ≤ 0xFFFF → py.isalpha c = qt.isLetter c ∧ py.isalnum c = qt.isLetterOrNumber c)
    {config : Entries} {client : Option Entries} (haccepted : Accepted casts py config client) {viewFile : Str → Option Str}
    {uri : Str} {generated : SynClientConfig} (hgenerated : renderClient viewFile uri config client = some generated)
    (table : List RouteEntry) (clientRoute : QString) (identityEnabled : Bool) (answers : QString → Bool) :
    ((∀ route ∈ generated.routes, Router.Live qt (Router.applyRemoteRouteTable qt generated.routes table) route ∧
        Reached qt ⟨clientRoute, identityRoutes config identityEnabled, answers⟩ route) ∧
      FallbackResolves qt config generated table) ↔
      (generated.routes.map Router.shapeOf).Nodup ∧
        (∀ route ∈ generated.routes, SpelledFree ⟨clientRoute, identityRoutes config identityEnabled, answers⟩ route) ∧
        FallbackFits config (routesFor config client) := by
  obtain ⟨findings, hlint, hclean⟩ := haccepted.routes
  obtain ⟨htable, hfound⟩ := clean_of_lintRoutes hlint hclean
  rw [renderClient] at hgenerated
  obtain ⟨configs, hconfigs, hgenerated⟩ := Option.bind_eq_some_iff.mp hgenerated
  obtain ⟨fallback, hfallback, hgenerated⟩ := Option.bind_eq_some_iff.mp hgenerated
  obtain rfl := Option.some.inj hgenerated
  have hdeclared := declared_of_clean hletters htable hconfigs
  rw [fallback_iff hdeclared (paths_generated hconfigs htable.texts) rfl hfallback hfound table, ← Router.live_iff hdeclared table,
    ← and_assoc]
  refine and_congr_left fun _ => ?_
  constructor
  · intro h
    refine ⟨fun route hin => (h route hin).1, fun route hin => ?_⟩
    exact (reached_iff _ (hdeclared.valid route hin)).mp (h route hin).2
  · intro h route hin
    exact ⟨h.1 route hin, (reached_iff _ (hdeclared.valid route hin)).mpr (h.2 route hin)⟩

def plainPy : PyText where
  isalpha c := c.isAlpha
  isalnum c := c.isAlphanum
  repr
    | .scalar (.str s) => s
    | _ => []

def viewRoute (path view : String) : Node :=
  .dict [(.str (lit "path"), text (lit path)), (.str (lit "view"), text (lit view))]

def clientEntity : Entries := [(.str (lit "name"), text (lit "app")), (.str (lit "type"), text (lit "client"))]

def campaignSite (routes : List Node) : Entries :=
  [(.str (lit "entities"), .list [.dict clientEntity,
      .dict [(.str (lit "name"), text (lit "web")), (.str (lit "type"), text (lit "web_edge"))]]),
    (.str (lit "routes"), .list routes),
    (.str (lit "router"), .dict [(.str (lit "fallback"), text (lit "/"))])]

def numberedOnly : List Node := [viewRoute "/" "Home.qml", viewRoute "/c/:number" "Numbered.qml"]

def numberedAndNamed : List Node := numberedOnly ++ [viewRoute "/c/:name" "Named.qml"]

private theorem accepted_of_nil {client : Option Entries} (hroutes : lintRoutes casts py config client = some [])
    (hshorthand : lintClientRoutes casts config = []) (hpages : lintRemotePages casts py config client = []) :
    Accepted casts py config client :=
  ⟨⟨[], hroutes, nofun⟩, hshorthand ▸ nofun, hpages ▸ nofun⟩

def homeRoute : RouteConfig := ⟨"/", "", "qrc:/qt/qml/app/Home.qml", .any⟩

def numberRoute : RouteConfig := ⟨"/c/:number", "", "qrc:/qt/qml/app/Numbered.qml", .any⟩

def nameRoute : RouteConfig := ⟨"/c/:name", "", "qrc:/qt/qml/app/Named.qml", .any⟩

private theorem accepted_numbered : Accepted textCasts plainPy (campaignSite numberedOnly) (some clientEntity) :=
  accepted_of_nil rfl rfl rfl

private theorem generated_numbered : renderClient some (lit "app") (campaignSite numberedOnly) (some clientEntity) =
    some ⟨[homeRoute, numberRoute], "/"⟩ := rfl

theorem no_dead_route_numbered :
    ((∀ route ∈ [homeRoute, numberRoute],
        Router.Live Router.plainText (Router.applyRemoteRouteTable Router.plainText [homeRoute, numberRoute] []) route ∧
          Reached Router.plainText ⟨"/", identityRoutes (campaignSite numberedOnly) true, fun _ => false⟩ route) ∧
      FallbackResolves Router.plainText (campaignSite numberedOnly) ⟨[homeRoute, numberRoute], "/"⟩ []) ↔
      ([homeRoute, numberRoute].map Router.shapeOf).Nodup ∧
        (∀ route ∈ [homeRoute, numberRoute],
          SpelledFree ⟨"/", identityRoutes (campaignSite numberedOnly) true, fun _ => false⟩ route) ∧
        FallbackFits (campaignSite numberedOnly) (routesFor (campaignSite numberedOnly) (some clientEntity)) :=
  no_dead_route_iff (fun _ _ => ⟨rfl, rfl⟩) accepted_numbered generated_numbered [] "/" true fun _ => false

/-- The check takes the two, and the second is never shown. -/
theorem name_never_shown :
    Accepted textCasts plainPy (campaignSite numberedAndNamed) (some clientEntity) ∧
      renderClient some (lit "app") (campaignSite numberedAndNamed) (some clientEntity) =
        some ⟨[homeRoute, numberRoute, nameRoute], "/"⟩ ∧
      ¬ Router.Live Router.plainText
        (Router.applyRemoteRouteTable Router.plainText [homeRoute, numberRoute, nameRoute] []) nameRoute := by
  refine ⟨accepted_of_nil rfl rfl rfl, rfl, ?_⟩
  have hdeclared : Router.Declared Router.plainText [homeRoute, numberRoute, nameRoute] := ⟨by decide, by decide⟩
  have hfront : numberRoute ∈ [homeRoute, numberRoute] := by decide
  have hshape : Router.shapeOf numberRoute = Router.shapeOf nameRoute := by decide
  have hconfigs : [homeRoute, numberRoute, nameRoute] = [homeRoute, numberRoute] ++ [nameRoute] := rfl
  exact Router.not_live_of_shape hdeclared hconfigs hfront (mem_singleton_self _) hshape []

end SynQt.RouteLint
