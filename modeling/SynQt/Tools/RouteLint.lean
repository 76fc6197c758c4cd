import SynQt.Client.Router
import SynQt.Tools.TopologyWriter

/-! What the check asks of a client's routes, and the table the generator makes of them. -/
namespace SynQt.RouteLint
open Lib Dict EnvLayer TopologyWriter
open YamlEdit (Str lit strip)

/-- Python's own reading of characters, and its spelling of a value. -/
structure PyText where
  isalpha : Char → Bool
  isalnum : Char → Bool
  repr : Node → Str

variable (casts : Casts) (py : PyText)

def text (s : Str) : Node := .scalar (.str s)

/-- `str` of a value, a text being its own. -/
def pyStr : Node → Str
  | .scalar (.str s) => s
  | node => casts.str node

/-- A mapping under a key, empty where the key has something else. -/
def mapping (entries : Entries) (key : String) : Entries :=
  match get entries key with
  | some (.dict inner) => inner
  | _ => []

/-- A value that is nothing, or empty, reads as if it were not there. -/
def truthyGet (entries : Entries) (key : String) : Option Node := (get entries key).filter truthy

def PLAIN_TYPE : Str := lit "service"

def entityType (entity : Entries) : Str :=
  let declared := strip ((truthyGet entity "type").elim [] (pyStr casts))
  if declared = [] then PLAIN_TYPE else declared

def isClient (entity : Entries) : Bool := entityType casts entity = lit "client"

def isEdge (entity : Entries) : Bool := entityType casts entity = lit "web_edge"

/-- The route table one client owns: its own, or that of the whole configuration. -/
def routesFor (config : Entries) (entity : Option Entries) : List Entries :=
  match entity.bind (get · "routes") with
  | some (.list items) => items.filterMap fun item =>
    match item with
    | .dict route => some route
    | _ => none
  | _ => mappings config "routes"

def segmentsOf (path : Str) : List Str := (splitKeepEmpty slash path).filter (!·.isEmpty)

def normalizeRoutePath (path : Str) : Str := slash :: [slash].intercalate (segmentsOf path)

def isRouteParameterName (name : Str) : Bool :=
  match name with
  | [] => false
  | first :: _ =>
    !name.any (0xFFFF < ·.toNat) && (py.isalpha first || first == '_') && name.all fun c => py.isalnum c || c == '_'

def isError (finding : Str) : Bool := (lit "error:").isPrefixOf finding

def Clean (findings : List Str) : Prop := ∀ finding ∈ findings, isError finding = false

theorem Clean.append {findings findings' : List Str} (h : Clean (findings ++ findings')) : Clean findings ∧ Clean findings' :=
  ⟨fun f hf => h f (List.mem_append_left _ hf), fun f hf => h f (List.mem_append_right _ hf)⟩

theorem Clean.eq_nil {findings : List Str} (h : Clean findings) (herrors : ∀ f ∈ findings, isError f = true) : findings = [] := by
  refine List.eq_nil_iff_forall_not_mem.mpr fun f hf => ?_
  exact Bool.false_ne_true ((h f hf).symm.trans (herrors f hf))

def IDENTITY_ROUTE_KEYS : List (String × Str) :=
  [("login", lit "/auth/login"), ("callback", lit "/auth/callback"), ("logout", lit "/auth/logout")]

def reservedEdgePaths (config : Entries) : List Node :=
  let webEdges := (mappings config "entities").filter (isEdge casts)
  let syncRoutes := webEdges.map fun edge => (get (mapping edge "public") "sync_route").getD (text (lit "/sync"))
  let reserved := if syncRoutes.isEmpty then [text (lit "/sync")] else syncRoutes
  match get config "identity" with
  | some (.dict identity) => reserved ++ IDENTITY_ROUTE_KEYS.map fun entry => (get identity entry.1).getD (text entry.2)
  | _ => reserved

/-- The reserved paths as the matcher sees them; `none` where one is no text. -/
def normalizedReserved (config : Entries) : Option (List Str) :=
  (reservedEdgePaths casts config).mapM fun node =>
    match node with
    | .scalar (.str path) => some (normalizeRoutePath path)
    | _ => none

def segmentFindings (path : Str) (names : List Str) : List Str → List Str
  | [] => []
  | segment :: rest =>
    if segment.head? = some colon then
      let name := segment.tail
      if !isRouteParameterName py name then
        (lit "error: route path " ++ py.repr (text path) ++ lit " has a malformed parameter " ++ py.repr (text segment) ++
          lit "; a parameter name must be a letter or underscore, then letters, digits, or underscores") ::
          segmentFindings path names rest
      else if name ∈ names then
        (lit "error: route path " ++ py.repr (text path) ++ lit " repeats the parameter name " ++ py.repr (text name)) ::
          segmentFindings path (name :: names) rest
      else segmentFindings path (name :: names) rest
    else segmentFindings path names rest

def duplicateFinding (path normalized : Str) : Str :=
  let detail :=
    if normalized = path then []
    else lit " (the runtime reads it as " ++ py.repr (text normalized) ++
      lit ": an empty path segment does not make a distinct route)"
  lit "error: duplicate route path " ++ py.repr (text path) ++ detail ++ lit "; only the first declaration is ever reached"

def reservedFinding (path : Str) : Str :=
  lit "error: route path " ++ py.repr (text path) ++
    lit (" is reserved by the web edge: a client route there is either answered by the edge itself or collides with " ++
      "the wss sync endpoint")

def absoluteFinding (path : Str) : Str :=
  lit "error: route path " ++ py.repr (text path) ++ lit " must be absolute (start with '/')"

def textFinding (path : Node) : Str :=
  lit "error: route path " ++ py.repr path ++ lit " must be a string starting with '/'"

/-- The findings of a table, and the paths seen, behind those seen before it. -/
def lintTable (reserved seen : List Str) : List Entries → List Str × List Str
  | [] => ([], seen)
  | route :: rest =>
    match get route "path" with
    | some (.scalar (.str path)) =>
      if path.head? = some slash then
        let normalized := normalizeRoutePath path
        let out := lintTable reserved (normalized :: seen) rest
        ((if normalized ∈ seen then [duplicateFinding py path normalized] else []) ++
          (if normalized ∈ reserved then [reservedFinding py path] else []) ++
          segmentFindings py path [] (segmentsOf path) ++ out.1, out.2)
      else
        let out := lintTable reserved seen rest
        (absoluteFinding py path :: out.1, out.2)
    | other =>
      let out := lintTable reserved seen rest
      (textFinding py (other.getD (.scalar .none)) :: out.1, out.2)

/-- The check of a table without its files; `none` where it raises. -/
def lintRoutes (config : Entries) (entity : Option Entries) : Option (List Str) :=
  let routes := routesFor config entity
  let router := mapping config "router"
  (normalizedReserved casts config).map fun reserved =>
    let (findings, seen) := lintTable py reserved [] routes
    let fallback := (get router "fallback").getD (text (lit "/"))
    let base := (get router "base").getD (text (lit "/"))
    let mode := (get router "mode").getD (text (lit "history"))
    findings ++
      (if !routes.isEmpty && normalizeRoutePath (pyStr casts fallback) ∉ seen then
        [lit "error: router.fallback " ++ py.repr fallback ++ lit " is not a declared route; a redirect to it would go nowhere"]
      else []) ++
      (if (pyStr casts base).head? = some slash then []
      else [lit "error: router.base " ++ py.repr base ++ lit " must start with '/'"]) ++
      (if pyStr casts mode = lit "history" then []
      else [lit "warn: router.mode " ++ py.repr mode ++
        lit (" is not a mode SynQt has; the router always drives the History API ('history') and ignores this key")])

/-- Of two clients or more, at most one may have no table of its own. -/
def lintClientRoutes (config : Entries) : List Str :=
  let clients := (mappings config "entities").filter (isClient casts)
  if clients.length < 2 || (truthyGet config "routes").isNone then []
  else
    let fallingBack := (clients.filter fun client =>
      match get client "routes" with
      | some (.list _) => false
      | _ => true).map fun client => (truthyGet client "name").elim [] (pyStr casts)
    if fallingBack.length < 2 then []
    else [lit "error: the top-level routes: block is a shorthand for a project with one client, and " ++
      [',', ' '].intercalate (fallingBack.insertionSort (· ≤ ·)) ++
      lit " would all claim it; give each client its own routes: block (see https://synqt.org/routing/)"]

def seedFindings (route : Entries) : List Str :=
  match truthyGet route "seed" with
  | none => []
  | some (.scalar (.str _)) =>
    if (truthyGet route "remote").isSome then []
    else [lit "error: route " ++ py.repr ((get route "path").getD (text [])) ++
      lit " declares 'seed:' but no 'remote:'; a page seed only applies to an edge-delivered page"]
  | some seed => [lit "error: route " ++ py.repr ((get route "path").getD (text [])) ++
      lit " 'seed:' must be a string path to the hook QML, not " ++ py.repr seed]

/-- The check of the routes the edge delivers, without their files. -/
def lintRemotePages (config : Entries) (entity : Option Entries) : List Str :=
  let routes := routesFor config entity
  let remoteRoutes := routes.filter fun route => (truthyGet route "remote").isSome
  let seeds := routes.flatMap (seedFindings py)
  if remoteRoutes.isEmpty then seeds
  else match (mappings config "entities").find? (isEdge casts) with
    | none => seeds ++ [lit "error: a route declares 'remote:' but the project has no web_edge entity"]
    | some edge =>
      if (truthyGet edge "name").isNone then
        seeds ++ [lit "error: a route declares 'remote:' but the project has no web_edge entity"]
      else
        let compiledPaths := (routes.filter fun route =>
          (truthyGet route "view").isSome && (truthyGet route "remote").isNone).map fun route =>
            (get route "path").getD (.scalar .none)
        seeds ++
          (if (truthyGet (mapping config "router") "palette").isSome then []
          else [lit ("error: a route declares 'remote:' but router.palette is empty; a delivered page may only import " ++
            "declared modules")]) ++
          remoteRoutes.flatMap fun route =>
            let path := (get route "path").getD (text [])
            (if (truthyGet route "view").isSome then
              [lit "error: route " ++ py.repr path ++ lit " sets both 'view:' and 'remote:'"]
            else []) ++
            (if compiledPaths.any (casts.eq path) then
              [lit "error: remote route " ++ py.repr path ++ lit " shadows a compiled-in route of the same path"]
            else [])

structure Accepted (config : Entries) (entity : Option Entries) : Prop where
  routes : ∃ findings, lintRoutes casts py config entity = some findings ∧ Clean findings
  shorthand : Clean (lintClientRoutes casts config)
  pages : Clean (lintRemotePages casts py config entity)

def isBlankText : Option Node → Bool
  | some (.scalar (.str s)) => (strip s).isEmpty
  | _ => true

def isRemoteRoute (route : Entries) : Bool := !isBlankText (get route "remote") && isBlankText (get route "view")

/-- The file a view is compiled in as; `viewFile` refuses a path that leaves the client's directory. -/
def routeView (viewFile : Str → Option Str) (route : Entries) : Option Str :=
  if isRemoteRoute route then some []
  else match get route "view" with
    | some (.scalar (.str view)) => if (strip view).isEmpty then none else viewFile view
    | _ => none

def componentUrl (uri view : Str) : Str := if view = [] then [] else lit "qrc:/qt/qml/" ++ uri ++ slash :: view

/-- A text, where the generator can write the value as one. -/
def asText : Node → Option Str
  | .scalar (.str s) => some s
  | _ => none

theorem eq_text_of_asText {node : Node} {path : Str} (h : asText node = some path) : node = text path := by
  cases node with
  | scalar value =>
    cases value with
    | str s => rw [Option.some.inj h, text]
    | _ => cases h
  | _ => cases h

def RESOLVED_KEY : String := "_graphics"

def routeLiteral (viewFile : Str → Option Str) (uri : Str) (route : Entries) : Option RouteConfig := do
  let path ← asText ((get route "path").getD (text (lit "/")))
  let view ← routeView viewFile route
  let scope ← asText ((truthyGet route "scope").getD (text []))
  return {
    path := String.ofList path
    scope := String.ofList scope
    componentUrl := String.ofList (componentUrl uri view)
    graphics := if (get route RESOLVED_KEY).bind asText = some (lit "accelerated") then .accelerated else .any }

/-- The fallback as the client is given it; `none` where the generator raises. -/
def routerFallback (config : Entries) : Option Str :=
  match truthyGet config "router" with
  | none => some (normalizeRoutePath (lit "/"))
  | some (.dict router) => (asText ((truthyGet router "fallback").getD (text (lit "/")))).map normalizeRoutePath
  | some _ => none

def renderClient (viewFile : Str → Option Str) (uri : Str) (config : Entries) (client : Option Entries) :
    Option SynClientConfig := do
  let routes ← (routesFor config client).mapM (routeLiteral viewFile uri)
  let fallback ← routerFallback config
  return ⟨routes, String.ofList fallback⟩

/-- The sign-in routes an edge that signs anybody in is generated with, its own defaults where none is given. -/
def identityRoutes (config : Entries) (identityEnabled : Bool) : List QString :=
  if identityEnabled then
    IDENTITY_ROUTE_KEYS.map fun entry =>
      match get (mapping config "identity") entry.1 with
      | some (.scalar (.str route)) => String.ofList (if (strip route).isEmpty then entry.2 else strip route)
      | _ => String.ofList entry.2
  else []

end SynQt.RouteLint
