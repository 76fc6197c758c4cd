import SynQt.Service.SessionManager
import Mathlib.Data.List.Infix
import Mathlib.Order.Fin.Basic

/-! The outbound HTTP helper: the endpoints an entity declares, the calls made through them, and
the declared credentials that travel with each call. -/
namespace SynQt
open List hiding isEmpty_iff

/-- What the library says of a URL, and how it folds letters outside of ASCII. -/
structure UrlLibrary (U : Type) where
  ofString : QString → U
  isValid : U → Bool
  scheme : U → QString
  host : U → QString
  userInfo : U → QString
  port : U → Int → Int
  /-- The path with its dot segments taken out. -/
  path : U → QString
  /-- The URL as a text without its user info. -/
  shown : U → QString
  lowerOther : Char → List Char

abbrev HeaderMap := List (QString × QString)

structure HttpEndpointConfig where
  name : QString
  url : QString
  headers : HeaderMap
deriving DecidableEq

inductive HttpMethod where
  | get | post | put | delete
deriving DecidableEq

structure HttpRequest (U B : Type) where
  method : HttpMethod
  url : U
  headers : HeaderMap
  body : Option B
deriving DecidableEq

/-- A request on its way, and the base its redirects are held to. -/
structure HttpSent (U B : Type) where
  request : HttpRequest U B
  endpointUrl : QString
deriving DecidableEq

namespace Http
variable {U B : Type} (q : UrlLibrary U)

def lower (text : QString) : List Char :=
  text.toList.flatMap fun c => if c.toNat < 128 then [c.toLower] else q.lowerOther c

def reservedHeaders : List (List Char) :=
  ["host", "content-length", "connection", "keep-alive", "transfer-encoding", "te", "trailer", "upgrade"].map String.toList

def isReservedHeader (name : QString) : Bool := reservedHeaders.contains (lower q name)

/-- Header names are alike up to the case of ASCII letters. -/
def sameHeader (a b : QString) : Bool := a.toList.map Char.toLower == b.toList.map Char.toLower

def setRawHeader (headers : HeaderMap) (name value : QString) : HeaderMap :=
  if name.isEmpty then headers else headers.filter (fun header => !sameHeader header.1 name) ++ [(name, value)]

def applyHeaders (request headers : HeaderMap) : HeaderMap :=
  headers.foldl
    (fun request header => if isReservedHeader q header.1 then request else setRawHeader request header.1 header.2) request

/-- `path` joined onto the base with one slash between them. An absolute URL is passed through. -/
def resolve (endpoint : HttpEndpointConfig) (path : QString) : QString :=
  if path.isEmpty then endpoint.url
  else if "://".toList <:+: path.toList then path
  else
    let baseEnds := endpoint.url.toList.getLast? == some '/'
    let pathStarts := path.toList.head? == some '/'
    if baseEnds && pathStarts then endpoint.url ++ String.ofList path.toList.tail
    else if !baseEnds && !pathStarts then endpoint.url ++ "/" ++ path
    else endpoint.url ++ path

/-- Whether a URL is inside of a prefix: the same scheme, host and port, and a path at or under its. -/
def isUnder (url pfx : U) : Bool :=
  if !q.isValid url || !q.isValid pfx || (q.host url).isEmpty then false
  else if !(q.userInfo url).isEmpty then false
  else if lower q (q.scheme url) != lower q (q.scheme pfx) || lower q (q.host url) != lower q (q.host pfx) then false
  else
    let defaultPort : Int := if q.scheme url == "https" then 443 else 80
    if q.port url defaultPort != q.port pfx defaultPort then false
    else
      let base := (q.path pfx).toList
      let path := (q.path url).toList
      if base.isEmpty || base == ['/'] then true
      else if !base.isPrefixOf path then false
      else path.length == base.length || base.getLast? == some '/' || path[base.length]? == some '/'

/-- The declared endpoint whose prefix covers the URL. -/
def matching (endpoints : List HttpEndpointConfig) (url : U) : Option HttpEndpointConfig :=
  endpoints.find? fun endpoint => isUnder q url (q.ofString endpoint.url)

def allowed (endpoints : List HttpEndpointConfig) : List QString := endpoints.map HttpEndpointConfig.url

/-- The endpoint's own headers first, then the call site's, and a content type for a body. -/
def requestHeaders (method : HttpMethod) (own site : HeaderMap) : HeaderMap :=
  let headers := applyHeaders q (applyHeaders q [] own) site
  match method with
  | .get | .delete => headers
  | .put | .post =>
    if headers.any fun header => sameHeader header.1 "Content-Type" then headers
    else setRawHeader headers "Content-Type" "application/json"

def send (release : Bool) (endpoints : List HttpEndpointConfig) (method : HttpMethod) (url : QString) (body : B)
    (headers : HeaderMap) : Except QString (HttpSent U B) :=
  let target := q.ofString url
  match matching q endpoints target with
  | none =>
    let prefixes := allowed endpoints
    .error (url ++ " is not in this entity's network.outbound allowlist (" ++
      (if prefixes.isEmpty then "empty" else ", ".intercalate prefixes) ++ ")")
  | some endpoint =>
    if release && q.scheme target != "https" then
      .error ("refusing a plaintext outbound request in release: " ++ url)
    else
      let carried : Option B := match method with | .get | .delete => none | .put | .post => some body
      .ok ⟨⟨method, target, requestHeaders q method endpoint.headers headers, carried⟩, endpoint.url⟩

/-- The redirects that are allowed, one after the other, and the rejection of the one that is not. -/
def follow (endpointUrl : QString) : List U → List U × Option QString
  | [] => ([], none)
  | redirect :: redirects =>
    if !isUnder q redirect (q.ofString endpointUrl) then
      ([], some ("refusing a redirect to " ++ q.shown redirect ++
        ", which is not under the network.outbound entry this call was made through (" ++ endpointUrl ++ ")"))
    else
      let later := follow endpointUrl redirects
      (redirect :: later.1, later.2)

/-- A named endpoint; of two entries with one name, the later one. -/
def api (endpoints : List HttpEndpointConfig) (name : QString) : Option HttpEndpointConfig :=
  (endpoints.filter fun endpoint => !endpoint.name.isEmpty).reverse.find? fun endpoint => endpoint.name == name

def call (release : Bool) (endpoints : List HttpEndpointConfig) (endpoint : HttpEndpointConfig) (method : HttpMethod)
    (path : QString) (body : B) (headers : HeaderMap) : Except QString (HttpSent U B) :=
  send q release endpoints method (resolve endpoint path) body headers

/-- The segments of a path, the one in front of its first slash being empty. -/
def segments (path : QString) : List (List Char) := path.toList.splitOn '/'

/-- A URL lies under a base: it hides no user in front of its host, its scheme, host and port are the base's, and the
base's segments come first in its path. A slash at a base's end begins no segment of the base's. -/
structure LiesUnder (url base : U) : Prop where
  noUser : q.userInfo url = ""
  named : q.host url ≠ ""
  scheme : lower q (q.scheme url) = lower q (q.scheme base)
  host : lower q (q.host url) = lower q (q.host base)
  port : ∀ default : Int, default = (if q.scheme url = "https" then 443 else 80) → q.port url default = q.port base default
  path : q.path base = "/" ∨
    ∃ own, (segments (q.path base) = own ∨ segments (q.path base) = own ++ [[]]) ∧ own <+: segments (q.path url)

/-- Every request of a call through an endpoint carries its headers and no other endpoint's, to its
base only, wherever a server redirects it. -/
def CarriesOwn (release : Bool) (endpoints : List HttpEndpointConfig) (endpoint : HttpEndpointConfig)
    (path : QString) : Prop :=
  ∀ (method : HttpMethod) (body : Unit) (headers : HeaderMap) (sent : HttpSent U Unit) (redirects : List U),
    call q release endpoints endpoint method path body headers = .ok sent →
      sent.request.headers = requestHeaders q method endpoint.headers headers ∧
        ∀ url ∈ sent.request.url :: (follow q sent.endpointUrl redirects).1, LiesUnder q url (q.ofString endpoint.url)

/-- Names and bases, with the credentials a deployment gives them. -/
def declare (bases : List (QString × QString)) (credentials : Nat → HeaderMap) : List HttpEndpointConfig :=
  bases.mapIdx fun index base => ⟨base.1, base.2, credentials index⟩

def target (bases : List (QString × QString)) (index : Fin bases.length) (path : QString) : U :=
  q.ofString (resolve ⟨bases[index].1, bases[index].2, []⟩ path)

def covers (bases : List (QString × QString)) (url : U) (index : Fin bases.length) : Bool :=
  isUnder q url (q.ofString bases[index].2)

/-- The call is refused, or its own entry is the first that covers its URL. -/
def OwnFirst (release : Bool) (bases : List (QString × QString)) (index : Fin bases.length) (path : QString) : Prop :=
  (release = true ∧ q.scheme (target q bases index path) ≠ "https") ∨
    (∀ other, covers q bases (target q bases index path) other = false) ∨
    (covers q bases (target q bases index path) index = true ∧
      ∀ other < index, covers q bases (target q bases index path) other = false)

variable {q}

/-- A path that begins with another and goes on at a segment of its own has the other's segments first. -/
private theorem segments_under {base path : List Char} (hstart : base <+: path)
    (hends : path.length = base.length ∨ base.getLast? = some '/' ∨ path[base.length]? = some '/') :
    ∃ own, (base.splitOn '/' = own ∨ base.splitOn '/' = own ++ [[]]) ∧ own <+: path.splitOn '/' := by
  obtain ⟨rest, rfl⟩ := hstart
  rcases hends with hsame | hslash | hnext
  · have hrest : rest = [] := eq_nil_of_length_eq_zero (by rw [length_append] at hsame; omega)
    subst hrest
    exact ⟨_, .inl rfl, by rw [append_nil]⟩
  · obtain ⟨above, rfl⟩ := List.getLast?_eq_some_iff.mp hslash
    refine ⟨above.splitOn '/', .inr (splitOn_append_cons_self above []), ?_⟩
    rw [append_assoc, singleton_append, splitOn_append_cons_self]
    exact prefix_append _ _
  · rw [List.getElem?_append_right (Nat.le_refl _), Nat.sub_self] at hnext
    obtain ⟨below, rfl⟩ := List.head?_eq_some_iff.mp ((List.head?_eq_getElem? ..).trans hnext)
    refine ⟨base.splitOn '/', .inl rfl, ?_⟩
    rw [splitOn_append_cons_self]
    exact prefix_append _ _

private theorem liesUnder_of_isUnder {url base : U} (h : isUnder q url base = true) : LiesUnder q url base := by
  simp only [isUnder, Bool.if_false_left, Bool.if_true_left, Bool.and_eq_true, Bool.or_eq_true, Bool.not_eq_true',
    decide_eq_false_iff_not, decide_eq_true_iff, not_or, Bool.not_eq_false, Bool.not_eq_true, bne_eq_false_iff_eq,
    beq_iff_eq, String.isEmpty_iff, List.isEmpty_iff, isPrefixOf_iff_prefix] at h
  obtain ⟨⟨-, hnamed⟩, huser, ⟨hscheme, hhost⟩, hport, hpath⟩ := h
  refine ⟨huser, by simpa using hnamed, hscheme, hhost, fun _ hdefault => hdefault ▸ hport, ?_⟩
  obtain (hempty | hslash) | ⟨hstart, hends⟩ := hpath
  · exact .inr ⟨[], .inr (by rw [segments, hempty]; rfl), nil_prefix⟩
  · exact .inl (String.toList_injective hslash)
  · exact .inr (segments_under hstart (or_assoc.mp hends))

private theorem follow_under (endpointUrl : QString) (redirects : List U) :
    ∀ url ∈ (follow q endpointUrl redirects).1, isUnder q url (q.ofString endpointUrl) = true := by
  induction redirects with
  | nil =>
    intro url hurl
    cases hurl
  | cons redirect redirects ih =>
    intro url hurl
    rw [follow] at hurl
    by_cases hunder : isUnder q redirect (q.ofString endpointUrl) = true
    · rw [hunder, Bool.not_true, if_neg Bool.false_ne_true] at hurl
      rcases mem_cons.mp hurl with rfl | hlater
      · exact hunder
      · exact ih url hlater
    · rw [Bool.eq_false_iff.mpr hunder, Bool.not_false, if_pos rfl] at hurl
      cases hurl

private theorem length_declare (bases : List (QString × QString)) (credentials : Nat → HeaderMap) :
    (declare bases credentials).length = bases.length :=
  length_mapIdx

private theorem declare_get {bases : List (QString × QString)} {credentials : Nat → HeaderMap} {index : Nat}
    (h : index < (declare bases credentials).length) (h' : index < bases.length) :
    (declare bases credentials)[index] = ⟨bases[index].1, bases[index].2, credentials index⟩ :=
  getElem_mapIdx

private theorem matching_declare {bases : List (QString × QString)} {credentials : Nat → HeaderMap} {url : U}
    {endpoint : HttpEndpointConfig} :
    matching q (declare bases credentials) url = some endpoint ↔
      ∃ index : Fin bases.length, covers q bases url index = true ∧ (∀ other < index, covers q bases url other = false) ∧
        endpoint = ⟨bases[index].1, bases[index].2, credentials index⟩ := by
  rw [matching, List.find?_eq_some_iff_getElem]
  constructor
  · rintro ⟨hunder, index, hlt, hget, hfirst⟩
    have hindex : index < bases.length := by rwa [length_declare] at hlt
    rw [declare_get hlt hindex] at hget
    subst hget
    refine ⟨⟨index, hindex⟩, hunder, fun other hother => ?_, rfl⟩
    have hbefore := hfirst other.1 hother
    rw [declare_get (by rw [length_declare]; exact other.2) other.2] at hbefore
    simpa [covers] using hbefore
  · rintro ⟨index, hcovers, hfirst, rfl⟩
    have hlt : index.1 < (declare bases credentials).length := by
      rw [length_declare]
      exact index.2
    refine ⟨hcovers, index.1, hlt, declare_get hlt index.2, fun other hother => ?_⟩
    have hbefore := hfirst ⟨other, Nat.lt_trans hother index.2⟩ hother
    rw [declare_get (Nat.lt_trans hother hlt) (Nat.lt_trans hother index.2)]
    have hbefore' : isUnder q url (q.ofString bases[other].2) = false := hbefore
    rw [hbefore']
    rfl

private theorem send_ok {release : Bool} {endpoints : List HttpEndpointConfig} {method : HttpMethod} {url : QString} {body : B}
    {headers : HeaderMap} {sent : HttpSent U B} (h : send q release endpoints method url body headers = .ok sent) :
    ∃ endpoint, matching q endpoints (q.ofString url) = some endpoint ∧
      (release && q.scheme (q.ofString url) != "https") = false ∧ sent.request.url = q.ofString url ∧
      sent.request.headers = requestHeaders q method endpoint.headers headers ∧ sent.endpointUrl = endpoint.url := by
  unfold send at h
  dsimp only at h
  cases hmatch : matching q endpoints (q.ofString url) with
  | none =>
    rw [hmatch] at h
    cases h
  | some endpoint =>
    rw [hmatch] at h
    dsimp only at h
    split at h
    · cases h
    · next hclear =>
      cases h
      exact ⟨endpoint, rfl, Bool.eq_false_iff.mpr hclear, rfl, rfl, rfl⟩

end Http

structure PlainUrl where
  scheme : QString
  host : QString
  path : QString
deriving DecidableEq

def plainUrl (text : QString) : PlainUrl :=
  let scheme := text.toList.takeWhile (· != ':')
  let rest := text.toList.drop (scheme.length + 3)
  ⟨String.ofList scheme, String.ofList (rest.takeWhile (· != '/')), String.ofList (rest.dropWhile (· != '/'))⟩

def plainUrls : UrlLibrary PlainUrl where
  ofString := plainUrl
  isValid url := !url.scheme.isEmpty
  scheme := PlainUrl.scheme
  host := PlainUrl.host
  userInfo _ := ""
  port _ default := default
  path := PlainUrl.path
  shown url := url.scheme ++ "://" ++ url.host ++ url.path
  lowerOther c := [c]

namespace Http

end Http
end SynQt
