import SynQt.Tools.TopologyWriter

namespace SynQt.TopologyWriter
open List hiding isEmpty_iff lookup_cons
open Lib Dict EnvLayer Option
open YamlEdit (Str lit)

variable {casts : Casts} {config config' : Entries} {projectName : Str}

/-- The runs of letters and digits of a name, joined by hyphens. -/
def folded (name : Str) : Str := (collapse true name).rdropWhile (· == '-')

private theorem collapse_append (front : Str) (inRun : Bool) :
    ∃ head, ∀ name, collapse inRun (front ++ '-' :: name) = head ++ collapse true name := by
  induction front generalizing inRun with
  | nil =>
    cases inRun with
    | true => exact ⟨[], fun name => rfl⟩
    | false => exact ⟨['-'], fun name => rfl⟩
  | cons c front ih =>
    by_cases hc : isAlnum c = true
    · obtain ⟨head, hhead⟩ := ih false
      refine ⟨c :: head, fun name => ?_⟩
      rw [cons_append, collapse, if_pos hc, hhead, cons_append]
    · obtain ⟨head, hhead⟩ := ih true
      cases inRun with
      | true =>
        refine ⟨head, fun name => ?_⟩
        rw [cons_append, collapse, if_neg hc, if_pos rfl, hhead]
      | false =>
        refine ⟨'-' :: head, fun name => ?_⟩
        rw [cons_append, collapse, if_neg hc, if_neg Bool.false_ne_true, hhead, cons_append]

private theorem rdropWhile_append (p : Char → Bool) (head tail : Str) :
    (head ++ tail).rdropWhile p = if tail.rdropWhile p = [] then head.rdropWhile p else head ++ tail.rdropWhile p := by
  simp only [List.rdropWhile, reverse_append, dropWhile_append, List.isEmpty_iff, reverse_eq_nil_iff]
  split
  · rfl
  · rw [reverse_append, reverse_reverse]

/-- The socket names of two points of a project are one exactly where their names fold alike. -/
theorem sanitize_eq_iff (front : Str) (name name' : Str) :
    sanitize ('s' :: front ++ '-' :: name) = sanitize ('s' :: front ++ '-' :: name') ↔ folded name = folded name' := by
  obtain ⟨head, hhead⟩ := collapse_append front false
  have hsanitize (name : Str) : sanitize ('s' :: front ++ '-' :: name) =
      if folded name = [] then ('s' :: head).rdropWhile (· == '-') else 's' :: head ++ folded name := by
    have hcollapse : collapse false ('s' :: front ++ '-' :: name) = 's' :: head ++ collapse true name := by
      rw [cons_append, collapse, if_pos (by decide), hhead, cons_append]
    have hne : ('s' :: head ++ collapse true name).rdropWhile (· == '-') ≠ [] := by
      intro hnil
      exact absurd (rdropWhile_eq_nil_iff.mp hnil 's' mem_cons_self) (by decide)
    rw [sanitize, hcollapse, trim, cons_append, dropWhile_cons_of_neg (by decide), ← cons_append, if_neg hne,
      rdropWhile_append, folded]
  rw [hsanitize, hsanitize]
  have hshort : (('s' :: head).rdropWhile (· == '-')).length ≤ ('s' :: head).length :=
    ( rdropWhile_prefix (· == '-') _).length_le
  have hapart (r : Str) (hr : r ≠ []) : ('s' :: head).rdropWhile (· == '-') ≠ 's' :: head ++ r := by
    intro he
    rw [he, length_append] at hshort
    exact hr (length_eq_zero_iff.mp (by omega))
  by_cases h : folded name = []
  · by_cases h' : folded name' = []
    · rw [h, h', if_pos rfl]
      exact iff_of_true rfl rfl
    · rw [if_pos h, if_neg h', h]
      exact iff_of_false (hapart _ h') fun he => h' he.symm
  · by_cases h' : folded name' = []
    · rw [if_neg h, if_pos h', h']
      exact iff_of_false (fun he => hapart _ h he.symm) h
    · rw [if_neg h, if_neg h', append_cancel_left_eq]

def pointOf (casts : Casts) (config : Entries) (name : Str) : Option Entries :=
  lastOf (pointName casts) (namedPoints casts config) name

/-- How many named points come before the last of the name. -/
def positionOf (casts : Casts) (config : Entries) (name : Str) : Nat :=
  numberOf (pointName casts) (namedPoints casts config) name

variable {endpoints : List (Str × Endpoint)}

private theorem lookup_resolveEndpoints (h : resolveEndpoints casts config projectName = some endpoints) (name : Str) :
    lookup endpoints name =
      (pointOf casts config name).bind (endpointAt casts config projectName (positionOf casts config name)) :=
  lookup_collect_inOrder h name

def Distinct (endpoints : List (Str × Endpoint)) : Prop :=
  ∀ name name' endpoint endpoint', name ≠ name' → lookup endpoints name = some endpoint →
    lookup endpoints name' = some endpoint' → endpoint ≠ endpoint'

def madeSocket (casts : Casts) (projectName : Str) (point : Entries) : Node :=
  .scalar (.str (sanitize (lit "synqt-" ++ projectName ++ lit "-" ++ pointName casts point)))

/-- Two local links whose sockets differ: those given, the name made for a point without one, and two such names. -/
def SocketsApart (casts : Casts) (config : Entries) (projectName : Str) (point point' : Entries) : Prop :=
  match given casts config point "socket", given casts config point' "socket" with
  | some socket, some socket' => socket ≠ socket'
  | some socket, none => socket ≠ madeSocket casts projectName point'
  | none, some socket' => socket' ≠ madeSocket casts projectName point
  | none, none => folded (pointName casts point) ≠ folded (pointName casts point')

/-- Two links of one host whose ports differ: those given, and one given from one that follows from a position. -/
def PortsApart (casts : Casts) (config : Entries) (point point' : Entries) : Prop :=
  match given casts config point "port", given casts config point' "port" with
  | some port, some port' => casts.int port ≠ casts.int port'
  | some port, none => casts.int port ≠ some ((MESH_PORT_BASE : Int) + positionOf casts config (pointName casts point'))
  | none, some port' => casts.int port' ≠ some ((MESH_PORT_BASE : Int) + positionOf casts config (pointName casts point))
  | none, none => True

/-- No two points are given one address. -/
def Apart (casts : Casts) (config : Entries) (projectName : Str) : Prop :=
  ∀ name name' point point', name ≠ name' → pointOf casts config name = some point →
    pointOf casts config name' = some point' →
      (isLocal casts config point = true → isLocal casts config point' = true →
        SocketsApart casts config projectName point point') ∧
      (isLocal casts config point = false → isLocal casts config point' = false →
        hostOf casts config point = hostOf casts config point' → PortsApart casts config point point')

variable {index index' : Nat} {endpoint : Endpoint}

private theorem endpointAt_index (point : Entries) (h : endpointAt casts config projectName index point = some endpoint) :
    endpointAt casts config projectName index' point = some endpoint ↔
      index' = index ∨ isLocal casts config point = true ∨ (given casts config point "port").isSome = true := by
  rw [endpointAt] at h ⊢
  by_cases hlocal : isLocal casts config point = true
  · rw [if_pos hlocal] at h ⊢
    exact iff_of_true h (.inr (.inl hlocal))
  · rw [if_neg hlocal] at h ⊢
    cases hport : given casts config point "port" with
    | some port =>
      rw [hport] at h
      exact iff_of_true h (.inr (.inr rfl))
    | none =>
      rw [hport] at h
      rw [← h]
      simp only [Option.some.injEq, Endpoint.mtls.injEq, true_and, Int.add_right_inj, Int.natCast_inj, hlocal,
        Bool.false_eq_true, isSome_none, or_false]

private theorem endpointAt_local {point : Entries} {index : Nat} (hlocal : isLocal casts config point = true)
    (h : endpointAt casts config projectName index point = some endpoint) :
    endpoint = .localSocket ((given casts config point "socket").getD (madeSocket casts projectName point)) := by
  rw [endpointAt, if_pos hlocal] at h
  cases hsocket : given casts config point "socket" with
  | some socket | none =>
    rw [hsocket] at h
    exact (Option.some.inj h).symm

private theorem endpointAt_mtls {point : Entries} {index : Nat} (hlocal : isLocal casts config point = false)
    (h : endpointAt casts config projectName index point = some endpoint) :
    ∃ port, endpoint = .mtls (hostOf casts config point) port ∧
      match given casts config point "port" with
      | some given => casts.int given = some port
      | none => port = MESH_PORT_BASE + index := by
  rw [endpointAt, hlocal, if_neg Bool.false_ne_true] at h
  cases hport : given casts config point "port" with
  | some port =>
    rw [hport] at h
    obtain ⟨n, hn, he⟩ := map_eq_some_iff.mp h
    exact ⟨n, he.symm, hn⟩
  | none =>
    rw [hport] at h
    exact ⟨_, (Option.some.inj h).symm, rfl⟩

private theorem madeSocket_eq_iff (point point' : Entries) :
    madeSocket casts projectName point = madeSocket casts projectName point' ↔
      folded (pointName casts point) = folded (pointName casts point') := by
  have hname (name : Str) : lit "synqt-" ++ projectName ++ lit "-" ++ name =
      's' :: (lit "ynqt-" ++ projectName) ++ '-' :: name := by
    rw [append_assoc]
    rfl
  rw [madeSocket, madeSocket, hname, hname, Doc.scalar.injEq, Scalar.str.injEq, sanitize_eq_iff]

private theorem sockets_apart_iff (point point' : Entries) :
    (given casts config point "socket").getD (madeSocket casts projectName point) ≠
        (given casts config point' "socket").getD (madeSocket casts projectName point') ↔
      SocketsApart casts config projectName point point' := by
  rw [SocketsApart]
  cases given casts config point "socket" with
  | some socket => cases given casts config point' "socket" <;> exact Iff.rfl
  | none =>
    cases given casts config point' "socket" with
    | some socket' => exact ne_comm
    | none => exact not_congr (madeSocket_eq_iff point point')

theorem ports_apart_iff {point point' : Entries} {port port' : Int} (hindex : index ≠ index')
    (hposition : index = positionOf casts config (pointName casts point))
    (hposition' : index' = positionOf casts config (pointName casts point'))
    (h : match given casts config point "port" with
      | some given => casts.int given = some port
      | none => port = MESH_PORT_BASE + index)
    (h' : match given casts config point' "port" with
      | some given => casts.int given = some port'
      | none => port' = MESH_PORT_BASE + index') :
    port ≠ port' ↔ PortsApart casts config point point' := by
  rw [PortsApart, ← hposition, ← hposition']
  cases hport : given casts config point "port" with
  | some given =>
    rw [hport] at h
    cases hport' : TopologyWriter.given casts config point' "port" with
    | some given' =>
      rw [hport'] at h'
      dsimp only at h h' ⊢
      rw [h, h', Ne, Ne, Option.some.injEq]
    | none =>
      rw [hport'] at h'
      dsimp only at h h' ⊢
      rw [h, h', Ne, Ne, Option.some.injEq]
  | none =>
    rw [hport] at h
    cases hport' : given casts config point' "port" with
    | some given' =>
      rw [hport'] at h'
      dsimp only at h h' ⊢
      rw [h, h', Ne, Ne, Option.some.injEq, eq_comm]
    | none =>
      rw [hport'] at h'
      dsimp only at h h' ⊢
      refine iff_of_true ?_ trivial
      omega

private theorem endpoint_apart {point point' : Entries} {endpoint endpoint' : Endpoint}
    (hindex : index ≠ index') (h : endpointAt casts config projectName index point = some endpoint)
    (h' : endpointAt casts config projectName index' point' = some endpoint')
    (hposition : index = positionOf casts config (pointName casts point))
    (hposition' : index' = positionOf casts config (pointName casts point')) :
    endpoint ≠ endpoint' ↔
      (isLocal casts config point = true → isLocal casts config point' = true →
        SocketsApart casts config projectName point point') ∧
      (isLocal casts config point = false → isLocal casts config point' = false →
        hostOf casts config point = hostOf casts config point' → PortsApart casts config point point') := by
  cases hlocal : isLocal casts config point with
  | true =>
    rw [endpointAt_local hlocal h]
    cases hlocal' : isLocal casts config point' with
    | true =>
      rw [endpointAt_local hlocal' h', Ne, Endpoint.localSocket.injEq, ← Ne, sockets_apart_iff]
      exact ⟨fun hs => ⟨fun _ _ => hs, nofun⟩, fun hs => hs.1 rfl rfl⟩
    | false =>
      obtain ⟨port', rfl, -⟩ := endpointAt_mtls hlocal' h'
      exact iff_of_true nofun ⟨nofun, nofun⟩
  | false =>
    obtain ⟨port, rfl, hport⟩ := endpointAt_mtls hlocal h
    cases hlocal' : isLocal casts config point' with
    | true =>
      rw [endpointAt_local hlocal' h']
      exact iff_of_true nofun ⟨nofun, nofun⟩
    | false =>
      obtain ⟨port', rfl, hport'⟩ := endpointAt_mtls hlocal' h'
      rw [← ports_apart_iff hindex hposition hposition' hport hport', Ne, Endpoint.mtls.injEq, not_and]
      exact ⟨fun hp => ⟨nofun, fun _ _ hhost => hp hhost⟩, fun hp hhost => hp.2 rfl rfl hhost⟩

private theorem endpoint_of_point (h : resolveEndpoints casts config projectName = some endpoints) {name : Str} {point : Entries}
    (hpoint : pointOf casts config name = some point) :
    ∃ endpoint, endpointAt casts config projectName (positionOf casts config name) point = some endpoint ∧
      lookup endpoints name = some endpoint := by
  obtain ⟨endpoint, he⟩ := make_of_collect h hpoint
  exact ⟨endpoint, he, by rw [lookup_resolveEndpoints h, hpoint]; exact he⟩

private theorem position_ne {name name' : Str} (hname : name ≠ name') {point point' : Entries}
    (hpoint : pointOf casts config name = some point) (hpoint' : pointOf casts config name' = some point') :
    positionOf casts config name ≠ positionOf casts config name' := by
  obtain hlt | hlt := lt_or_gt_of_ne hname
  · exact (numberOf_lt hlt hpoint hpoint').ne
  · exact (numberOf_lt hlt hpoint' hpoint).ne'

private theorem distinct_iff (h : resolveEndpoints casts config projectName = some endpoints) :
    Distinct endpoints ↔ Apart casts config projectName := by
  constructor
  · intro hdistinct name name' point point' hname hpoint hpoint'
    obtain ⟨endpoint, he, hfound⟩ := endpoint_of_point h hpoint
    obtain ⟨endpoint', he', hfound'⟩ := endpoint_of_point h hpoint'
    refine (endpoint_apart (position_ne hname hpoint hpoint') he he' ?_ ?_).mp
      (hdistinct name name' endpoint endpoint' hname hfound hfound')
    · rw [(lastOf_key hpoint).2]
    · rw [(lastOf_key hpoint').2]
  · intro hapart name name' endpoint endpoint' hname hfound hfound'
    rw [lookup_resolveEndpoints h] at hfound hfound'
    obtain ⟨point, hpoint, he⟩ := bind_eq_some_iff.mp hfound
    obtain ⟨point', hpoint', he'⟩ := bind_eq_some_iff.mp hfound'
    refine (endpoint_apart (position_ne hname hpoint hpoint') he he' ?_ ?_).mpr
      (hapart name name' point point' hname hpoint hpoint')
    · rw [(lastOf_key hpoint).2]
    · rw [(lastOf_key hpoint').2]

/-- A point under another transport, or under none of its own. -/
def switched (point : Entries) : Option Node → Entries
  | some transport => put point (.str (lit "transport")) transport
  | none => point.filter fun entry => entry.1 ≠ .str (lit "transport")

inductive Change where
  | add (left right : List Entries) (point : Entries)
  | remove (left right : List Entries) (point : Entries)
  | switch (left right : List Entries) (point : Entries) (transport : Option Node)

namespace Change

def point : Change → Entries
  | .add _ _ point => point
  | .remove _ _ point => point
  | .switch _ _ point _ => point

def before : Change → List Entries
  | .add left right _ => left ++ right
  | .remove left right point => left ++ point :: right
  | .switch left right point _ => left ++ point :: right

def after : Change → List Entries
  | .add left right point => left ++ point :: right
  | .remove left right _ => left ++ right
  | .switch left right point transport => left ++ switched point transport :: right

def moves : Change → Bool
  | .switch .. => false
  | _ => true

end Change

structure Changed (config config' : Entries) (change : Change) : Prop where
  before : mappings config "connect_points" = change.before
  after : mappings config' "connect_points" = change.after
  entities : mappings config' "entities" = mappings config "entities"

/-- No link behind the name in order takes its port from its position. -/
def Spared (casts : Casts) (config : Entries) (name : Str) : Prop :=
  ∀ name' point, name < name' → pointOf casts config name' = some point →
    isLocal casts config point = true ∨ (given casts config point "port").isSome = true

/-- Every other point has the endpoint it had. -/
def Unmoved (name : Str) (endpoints endpoints' : List (Str × Endpoint)) : Prop :=
  ∀ name', name' ≠ name → lookup endpoints' name' = lookup endpoints name'

private theorem get_switched (point : Entries) (transport : Option Node) {key : String} (hkey : lit key ≠ lit "transport") :
    get (switched point transport) key = get point key := by
  have hother : Key.str (lit key) ≠ .str (lit "transport") := fun he => hkey (Key.str.inj he)
  cases transport with
  | some transport => rw [switched, get, get, lookup_put, if_neg hother]
  | none =>
    rw [switched, get, get]
    induction point with
    | nil => rfl
    | cons entry rest ih =>
      rw [filter_cons, lookup_cons]
      by_cases he : entry.1 = .str (lit "transport")
      · rw [if_neg (by simpa using he), ih, if_neg (he ▸ hother)]
      · rw [if_pos (by simpa using he), lookup_cons, ih]

private theorem pointName_switched (point : Entries) (transport : Option Node) :
    pointName casts (switched point transport) = pointName casts point := by
  rw [pointName, pointName, get_switched point transport (by decide), get_switched point transport (by decide)]

section
variable (hentities : mappings config' "entities" = mappings config "entities")
include hentities

private theorem given_congr (point : Entries) (key : String) :
    given casts config' point key = given casts config point key := by
  rw [given, given, meshSetting, meshSetting, ownerEntity, ownerEntity, hentities]

private theorem isLocal_congr (point : Entries) :
    isLocal casts config' point = isLocal casts config point := by
  rw [isLocal, isLocal, meshSetting, meshSetting, ownerEntity, ownerEntity, hentities]

private theorem hostOf_congr (point : Entries) :
    hostOf casts config' point = hostOf casts config point := by
  rw [hostOf, hostOf, meshSetting, meshSetting, ownerEntity, ownerEntity, hentities]

private theorem endpointAt_congr (index : Nat)
    (point : Entries) : endpointAt casts config' projectName index point = endpointAt casts config projectName index point := by
  rw [endpointAt, endpointAt, isLocal_congr hentities, given_congr hentities, given_congr hentities, hostOf_congr hentities]

end

section Insert
variable {left right : List Entries} {point : Entries} (hconfig : mappings config "connect_points" = left ++ right)
  (hconfig' : mappings config' "connect_points" = left ++ point :: right)
include hconfig hconfig'

private theorem namedPoints_unnamed (hpoint : pointName casts point = []) : namedPoints casts config' = namedPoints casts config := by
  rw [namedPoints, namedPoints, hconfig, hconfig', filter_append, filter_append,
    filter_cons_of_neg (by simpa using hpoint)]

private theorem pointOf_insert {name : Str} (hname : name ≠ pointName casts point) :
    pointOf casts config' name = pointOf casts config name := by
  by_cases hpoint : pointName casts point = []
  · rw [pointOf, pointOf, namedPoints_unnamed hconfig hconfig' hpoint]
  · rw [pointOf, pointOf, namedPoints, namedPoints, hconfig, hconfig', filter_append, filter_append,
      filter_cons_of_pos (by simpa using hpoint), lastOf_insert _ _ hname.symm]

private theorem positionOf_insert (hpoint : pointName casts point ≠ []) {name : Str} {found : Entries}
    (hfound : pointOf casts config name = some found) :
    positionOf casts config' name = positionOf casts config name + if pointName casts point ≤ name then 1 else 0 := by
  rw [pointOf, namedPoints, hconfig, filter_append] at hfound
  rw [positionOf, positionOf, namedPoints, namedPoints, hconfig, hconfig', filter_append, filter_append,
    filter_cons_of_pos (by simpa using hpoint), numberOf_insert _ _ hfound]

section
variable (hentities : mappings config' "entities" = mappings config "entities")
include hentities

private theorem spared_insert :
    Spared casts config' (pointName casts point) ↔ Spared casts config (pointName casts point) := by
  refine forall₂_congr fun name found => forall_congr' fun hlt => ?_
  rw [pointOf_insert hconfig hconfig' hlt.ne', isLocal_congr hentities, given_congr hentities]

private theorem unmoved_insert_iff {endpoints endpoints' : List (Str × Endpoint)} (h : resolveEndpoints casts config projectName = some endpoints)
    (h' : resolveEndpoints casts config' projectName = some endpoints') :
    Unmoved (pointName casts point) endpoints endpoints' ↔
      (pointName casts point ≠ [] → Spared casts config (pointName casts point)) := by
  have hlookup (name : Str) : lookup endpoints' name =
      (pointOf casts config' name).bind (endpointAt casts config projectName (positionOf casts config' name)) := by
    rw [lookup_resolveEndpoints h']
    exact bind_congr fun found _ => endpointAt_congr hentities _ found
  constructor
  · intro hunmoved hpoint name found hlt hfound
    obtain ⟨endpoint, he, hin⟩ := endpoint_of_point h hfound
    have hsame := hunmoved name hlt.ne'
    rw [hlookup, pointOf_insert hconfig hconfig' hlt.ne', hfound, hin, bind_some] at hsame
    refine ((endpointAt_index found he).mp hsame).resolve_left ?_
    rw [positionOf_insert hconfig hconfig' hpoint hfound, if_pos hlt.le]
    omega
  · intro hspared name hname
    rw [hlookup, pointOf_insert hconfig hconfig' hname]
    cases hfound : pointOf casts config name with
    | none => rw [lookup_resolveEndpoints h, hfound, bind_none, bind_none]
    | some found =>
      obtain ⟨endpoint, he, hin⟩ := endpoint_of_point h hfound
      rw [hin, bind_some, endpointAt_index found he]
      by_cases hpoint : pointName casts point = []
      · exact .inl (by rw [positionOf, positionOf, namedPoints_unnamed hconfig hconfig' hpoint])
      · rw [positionOf_insert hconfig hconfig' hpoint hfound]
        obtain hlt | hlt := lt_or_gt_of_ne hname
        · exact .inl (by rw [if_neg (not_le_of_gt hlt), Nat.add_zero])
        · exact .inr (hspared hpoint name found hlt hfound)

end

end Insert

section Switch
variable {left right : List Entries} {point : Entries} {transport : Option Node}
  (hconfig : mappings config "connect_points" = left ++ point :: right)
  (hconfig' : mappings config' "connect_points" = left ++ switched point transport :: right)
include hconfig hconfig'

private theorem pointOf_switch {name : Str} (hname : name ≠ pointName casts point) :
    pointOf casts config' name = pointOf casts config name := by
  have hsame : pointName casts (switched point transport) = pointName casts point := pointName_switched point transport
  rw [pointOf, pointOf, namedPoints, namedPoints, hconfig, hconfig', filter_append, filter_append]
  by_cases hpoint : pointName casts point = []
  · rw [filter_cons_of_neg (by simpa [hsame] using hpoint), filter_cons_of_neg (by simpa using hpoint)]
  · rw [filter_cons_of_pos (by simpa [hsame] using hpoint), filter_cons_of_pos (by simpa using hpoint),
      lastOf_insert _ _ hname.symm, lastOf_insert _ _ (hsame ▸ hname.symm)]

private theorem positionOf_switch (name : Str) : positionOf casts config' name = positionOf casts config name := by
  have hsame : pointName casts (switched point transport) = pointName casts point := pointName_switched point transport
  rw [positionOf, positionOf, numberOf, numberOf, namedPoints, namedPoints, hconfig, hconfig', countP_filter,
    countP_filter, countP_append, countP_append, countP_cons, countP_cons, hsame]

private theorem unmoved_switch (hentities : mappings config' "entities" = mappings config "entities")
    {endpoints endpoints' : List (Str × Endpoint)} (h : resolveEndpoints casts config projectName = some endpoints)
    (h' : resolveEndpoints casts config' projectName = some endpoints') :
    Unmoved (pointName casts point) endpoints endpoints' := by
  intro name hname
  rw [lookup_resolveEndpoints h, lookup_resolveEndpoints h', pointOf_switch hconfig hconfig' hname,
    positionOf_switch hconfig hconfig']
  exact bind_congr fun found _ => endpointAt_congr hentities _ found

end Switch

private theorem unmoved_iff {change : Change} (hchanged : Changed config config' change) {endpoints endpoints' : List (Str × Endpoint)}
    (h : resolveEndpoints casts config projectName = some endpoints)
    (h' : resolveEndpoints casts config' projectName = some endpoints') :
    Unmoved (pointName casts change.point) endpoints endpoints' ↔
      (change.moves = true → pointName casts change.point ≠ [] → Spared casts config (pointName casts change.point)) := by
  cases change with
  | add left right point =>
    rw [Change.point, unmoved_insert_iff hchanged.before hchanged.after hchanged.entities h h']
    exact ⟨fun hspared _ => hspared, fun hspared => hspared rfl⟩
  | remove left right point =>
    have hback : Unmoved (pointName casts point) endpoints endpoints' ↔ Unmoved (pointName casts point) endpoints' endpoints :=
      forall₂_congr fun name hname => eq_comm
    rw [Change.point, hback, unmoved_insert_iff hchanged.after hchanged.before hchanged.entities.symm h' h,
      ← spared_insert hchanged.after hchanged.before hchanged.entities.symm]
    exact ⟨fun hspared _ => hspared, fun hspared => hspared rfl⟩
  | switch left right point transport =>
    exact iff_of_true (unmoved_switch hchanged.before hchanged.after hchanged.entities h h') nofun

/-- Each link has an address of its own, which no change of another point moves, exactly where no two points are given
one address and, of a point that comes or goes, no link behind its name takes its port from its position. -/
theorem endpoints_iff {change : Change} (hchanged : Changed config config' change) {endpoints endpoints' : List (Str × Endpoint)}
    (h : resolveEndpoints casts config projectName = some endpoints)
    (h' : resolveEndpoints casts config' projectName = some endpoints') :
    (Distinct endpoints ∧ Unmoved (pointName casts change.point) endpoints endpoints') ↔
      Apart casts config projectName ∧
        (change.moves = true → pointName casts change.point ≠ [] → Spared casts config (pointName casts change.point)) := by
  rw [distinct_iff h, unmoved_iff hchanged h h']

def textCasts : Casts where
  str
    | .scalar (.str s) => s
    | .scalar (.int n) => (toString n).toList
    | _ => []
  int
    | .scalar (.int n) => some n
    | _ => none
  eq
    | .scalar (.str s), .scalar (.str t) => s == t
    | _, _ => false

def ownedBy (owner : String) (consumer : String) (rest : Entries) : Entries :=
  (.str (lit "owner"), .scalar (.str (lit owner))) ::
    (.str (lit "consumers"), .list [.scalar (.str (lit consumer))]) :: rest

def bookstore (points : List Entries) : Entries :=
  let entity (name kind : String) : Node :=
    .dict [(.str (lit "name"), .scalar (.str (lit name))), (.str (lit "type"), .scalar (.str (lit kind)))]
  [(.str (lit "project"), .dict [(.str (lit "name"), .scalar (.str (lit "bookstore")))]),
    (.str (lit "entities"), .list [entity "shop" "service", entity "books" "service", entity "till" "service"]),
    (.str (lit "connect_points"), .list (points.map .dict))]

def shopPoint : Entries := ownedBy "shop" "till" []

def booksPoint : Entries := ownedBy "books" "till" [(.str (lit "port"), .scalar (.int 9441))]

def booksAdded : Change := .add [] [shopPoint] booksPoint

private theorem booksAdded_changed : Changed (bookstore [shopPoint]) (bookstore [booksPoint, shopPoint]) booksAdded where
  before := rfl
  after := rfl
  entities := rfl

private theorem resolve_shop : resolveEndpoints textCasts (bookstore [shopPoint]) (lit "bookstore") =
    some [(lit "shop", .mtls (lit "127.0.0.1") 9440)] := by
  rfl

private theorem resolve_books : resolveEndpoints textCasts (bookstore [booksPoint, shopPoint]) (lit "bookstore") =
    some [(lit "books", .mtls (lit "127.0.0.1") 9441), (lit "shop", .mtls (lit "127.0.0.1") 9441)] := by
  rfl

theorem endpoints_iff_books :
    (Distinct [(lit "shop", .mtls (lit "127.0.0.1") 9440)] ∧
      Unmoved (lit "books") [(lit "shop", .mtls (lit "127.0.0.1") 9440)]
        [(lit "books", .mtls (lit "127.0.0.1") 9441), (lit "shop", .mtls (lit "127.0.0.1") 9441)]) ↔
      Apart textCasts (bookstore [shopPoint]) (lit "bookstore") ∧
        (booksAdded.moves = true → lit "books" ≠ [] → Spared textCasts (bookstore [shopPoint]) (lit "books")) :=
  endpoints_iff booksAdded_changed resolve_shop resolve_books

/-- Given the books under 9441, the shop goes from 9440 to 9441 as well. -/
theorem shop_moved :
    Changed (bookstore [shopPoint]) (bookstore [booksPoint, shopPoint]) booksAdded ∧
      ∃ endpoints endpoints', resolveEndpoints textCasts (bookstore [shopPoint]) (lit "bookstore") = some endpoints ∧
        resolveEndpoints textCasts (bookstore [booksPoint, shopPoint]) (lit "bookstore") = some endpoints' ∧
        ¬ Unmoved (lit "books") endpoints endpoints' ∧ ¬ Distinct endpoints' := by
  refine ⟨booksAdded_changed, _, _, resolve_shop, resolve_books, ?_, ?_⟩
  · intro hunmoved
    have hshop := hunmoved (lit "shop") (by decide)
    exact absurd (Endpoint.mtls.inj (Option.some.inj hshop)).2 (by decide)
  · intro hdistinct
    exact hdistinct (lit "books") (lit "shop") _ _ (by decide) rfl rfl rfl

end SynQt.TopologyWriter
