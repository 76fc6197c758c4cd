import SynQt.Edge.SourceTable
import SynQt.Lib.Ladder
import SynQt.Tools.DesignDoc
import SynQt.Tools.RouteLint

/-! What the check asks of a front, a connect point that hands its callers to the entities behind it; and what the
edge is generated with for one. -/
namespace SynQt.FrontLint
open Lib Dict EnvLayer TopologyWriter RouteLint ContractGen DesignDoc
open YamlEdit (Str lit strip)

/-- What the tools read and write texts with: Python's own, and the comments every generated contract begins with. -/
structure Tools where
  casts : Casts
  upper : Char → Str
  alnum : Char → Bool
  header : List Comment

variable (t : Tools)

/-- `str` of what is under a key, with an empty text for what is not there or empty. -/
def textUnder (entries : Entries) (key : String) : String :=
  String.ofList ((truthyGet entries key).elim [] (pyStr t.casts))

def iterated : Node → Option (List Node)
  | .list items => some items
  | .scalar (.str s) => some (s.map fun c => text [c])
  | .dict entries => some (entries.map fun entry =>
    match entry.1 with
    | .str key => text key
    | .other typeName => .scalar (.other typeName))
  | _ => none

def isFrameworkPoint (point : Entries) : Bool := (truthyGet point "framework").isSome

def appPoints (config : Entries) : List Entries := (mappings config "connect_points").filter (!isFrameworkPoint ·)

def keyText : Key → String
  | .str key => String.ofList key
  | .other text => String.ofList text

def behind (point : Entries) : List (String × String) :=
  match get point "behind" with
  | some (.dict declared) =>
    declared.foldl (fun tiers entry =>
      let entity := String.ofList (pyStr t.casts entry.2)
      if keyText entry.1 ≠ "" ∧ entity ≠ "" then put tiers (keyText entry.1) entity else tiers) []
  | _ => []

def isFront (point : Entries) : Bool :=
  match get point "behind" with
  | some (.dict _) => true
  | _ => false

/-- The type an `export:` block becomes. -/
def contractOf (point : Entries) : String :=
  let owner := match (textUnder t point "owner").toList with
    | [] => ""
    | c :: rest => String.ofList (t.upper c ++ rest)
  match get point "contract" with
  | some (.scalar (.str declared)) => if strip declared ≠ [] then String.ofList (strip declared) else owner
  | _ => owner

def exportText (point : Entries) : Str :=
  match get point "export" with
  | some (.scalar (.str declared)) => declared
  | _ => []

/-- What of a connect point goes into its contract. The comment that names an owner with a line feed in the name
would end there, and what is left of it is no declaration. -/
def contractPoint (point : Entries) : Option Point :=
  let owner := pyStr t.casts ((get point "owner").getD (.scalar .none))
  if h : '\n' ∉ owner then
    some { owner := owner, ownerLine := h, scope := String.ofList (strip (textUnder t point "scope").toList),
           block := exportText point }
  else none

/-- The members of a point, unless its block does not read as it is written. -/
def frontMembers (point : Entries) : Option (List DocMember) :=
  if contractOf t point = "" then none
  else (contractPoint t point).bind fun written =>
    (parseExport t.alnum t.header (contractOf t point) written []).toOption

/-- The entities under their names, the later one winning. -/
def byName (config : Entries) : List (String × Entries) :=
  (mappings config "entities").foldl (fun known entity => put known (textUnder t entity "name") entity) []

def clients (config : Entries) : List String := keys ((byName t config).filter fun entry => isClient t.casts entry.2)

def edges (config : Entries) : List String := keys ((byName t config).filter fun entry => isEdge t.casts entry.2)

def owned (config : Entries) (owner : String) : List Entries :=
  (appPoints config).filter fun point => textUnder t point "owner" == owner

/-- The declared scopes, lowest first; none turns the rules on them off. -/
def scopeOrder (config : Entries) : List String :=
  match get config "scopes" with
  | some (.dict scopes) =>
    match get scopes "order" with
    | some (.list items) => items.map fun item => String.ofList (pyStr t.casts item)
    | _ => []
  | _ => []

def hierarchical (config : Entries) : Bool :=
  match get config "scopes" with
  | some (.dict scopes) => truthy ((get scopes "hierarchical").getD (.scalar (.bool true)))
  | _ => true

/-- A caller holding `held` reaches a member with this gate. -/
def reaches (gate held : String) (order : List String) (ranks : Bool) : Bool :=
  let named := (commaItems gate.toList).map String.ofList
  gate == "" || named.contains held || (ranks && !order.isEmpty && named.any fun one =>
    match Ladder.rank order held, Ladder.rank order one with
    | some highest, some required => required ≤ highest
    | _, _ => false)

/-- The entity a caller holding `held` is handed to; an empty name for none. -/
def tierFor (held : String) (tiers : List (String × String)) (order : List String) (ranks : Bool) : String :=
  match lookup tiers held with
  | some tier => tier
  | none =>
    if !ranks || order.isEmpty then ""
    else (Ladder.climb order (fun n => (Ladder.rank order held).any (n ≤ ·)) tiers ("", none)).1

def named (text : String) : Str := lit "'" ++ lit text ++ lit "'"

def wherePoint (point : Entries) : Str := lit "connect point '" ++ pointName t.casts point ++ lit "'"

def serve (tiers : List (String × String)) (order : List String) (ranks : Bool) (served : List (String × List String)) (held : String) :
    List (String × List String) :=
  let tier := tierFor held tiers order ranks
  if tier = "" then served else put served tier ((lookup served tier).getD [] ++ [held])

/-- The scopes handed to each entity, by entity. -/
def servedBy (tiers : List (String × String)) (order : List String) (ranks : Bool) : List (String × List String) :=
  let scopes := if order.isEmpty then (keys tiers).mergeSort fun a b => decide (a ≤ b) else order
  scopes.foldl (serve tiers order ranks) []

def ofMember (member : DocMember) : String × String := (member.kind, member.name)

def wantedOf (front : List DocMember) (defaultGate : String) (held order : List String) (ranks : Bool) : List (String × String) :=
  (front.filter fun member => held.any fun one =>
    reaches (if member.scope = "" then defaultGate else member.scope) one order ranks).map ofMember

/-- What is in the first and not in the second, each once and in order. -/
def sortedDifference (first second : List (String × String)) : List (String × String) :=
  (first.filter (!second.contains ·)).dedup.mergeSort fun a b => decide (a.1 < b.1 ∨ a.1 = b.1 ∧ a.2 ≤ b.2)

def missingFinding (place : Str) (audience : Str) (tier : String) (member : String × String) : Str :=
  lit "error: " ++ place ++ lit ": " ++ audience ++ lit " goes to " ++ named tier ++ lit ", and the front carries " ++
    lit member.1 ++ lit " " ++ named member.2 ++ lit " at that scope while " ++ named tier ++
    lit " does not. Add it there, or gate it away from this scope"

def surplusFinding (place : Str) (audience : Str) (tier : String) (member : String × String) : Str :=
  lit "error: " ++ place ++ lit ": " ++ named tier ++ lit " carries " ++ lit member.1 ++ lit " " ++ named member.2 ++
    lit " and the front does not offer it to " ++ audience ++ lit ", so no caller could ever reach it"

/-- What one entity behind a front carries, against what the front promises the callers it is handed. -/
def surfaceFindings (config point : Entries) (front : List DocMember) (tier : String) (held : List String) : List Str :=
  match frontMembers t ((owned t config tier).headD []) with
  | none => []
  | some members =>
    let defaultGate := String.ofList (strip (textUnder t point "scope").toList)
    let wanted := wantedOf front defaultGate held (scopeOrder t config) (hierarchical config)
    let carried := members.map ofMember
    let audience := (lit " or ").intercalate (held.map named)
    (sortedDifference wanted carried).map (missingFinding (wherePoint t point) audience tier) ++
      (sortedDifference carried wanted).map (surplusFinding (wherePoint t point) audience tier)

def surfaceMessages (config point : Entries) (tiers : List (String × String)) : List Str :=
  match frontMembers t point with
  | none => []
  | some front =>
    (servedBy tiers (scopeOrder t config) (hierarchical config)).flatMap fun entry =>
      surfaceFindings t config point front entry.1 entry.2

/-- What one line of a `behind:` block says about itself, and whether it leads anywhere. -/
def tierFindings (config point : Entries) (scope tier : String) : List Str × Bool :=
  let place := wherePoint t point
  let order := scopeOrder t config
  let sends := lit "error: " ++ place ++ lit ": 'behind:' sends scope " ++ named scope ++ lit " to " ++ named tier
  let unknown :=
    if !order.isEmpty && !order.contains scope then
      [sends ++ lit ", and " ++ named scope ++ lit " is not in scopes.order (" ++ lit (", ".intercalate order) ++
        lit "); no session could ever hold it, so nothing would ever be sent there"]
    else []
  if !(keys (byName t config)).contains tier then
    (unknown ++ [sends ++ lit ", which is not an entity in this project"], false)
  else if (clients t config).contains tier then
    (unknown ++ [sends ++
      lit ", which is a client. A browser hosts nothing, so there is nothing behind it to reach"], false)
  else if tier == textUnder t point "owner" then
    (unknown ++ [sends ++ lit (", which owns the point. A front hands callers on to somewhere else, or it implements " ++
      "the point itself and needs no 'behind:'")], false)
  else if (owned t config tier).isEmpty then
    (unknown ++ [sends ++ lit ", which owns no connect point, so there is nothing there to answer the calls"], false)
  else (unknown, true)

def reachable (config point : Entries) : List (String × String) :=
  (behind t point).filter fun line => (tierFindings t config point line.1 line.2).2

def tierMessages (config point : Entries) : List Str :=
  ((behind t point).flatMap fun line => (tierFindings t config point line.1 line.2).1) ++
    surfaceMessages t config point (reachable t config point)

def clientConsumes (config point : Entries) : Bool :=
  (((truthyGet point "consumers").bind iterated).getD []).any fun consumer =>
    (asText consumer).any fun name => (clients t config).contains (String.ofList name)

def returnFinding (place : Str) (member : DocMember) : Str :=
  lit "error: " ++ place ++ lit ": slot " ++ named member.name ++ lit " returns " ++ lit member.type ++
    lit (", and a front cannot answer that. What it hands the call to is reached over the mesh and replies after the " ++
      "slot has returned. Make it return nothing and send the answer back with Caller.emit<Signal>")

def frontMessages (config point : Entries) : List Str :=
  let place := wherePoint t point
  let owner := textUnder t point "owner"
  (if (edges t config).contains owner then []
  else [lit "error: " ++ place ++ lit " has a 'behind:' block and is owned by " ++ named owner ++
    lit (", which is not a web_edge entity. A front terminates the browser link, holds the session and runs the " ++
      "sign-in before it hands anyone on, and only a web edge does those")]) ++
  (if clientConsumes t config point then []
  else [lit "error: " ++ place ++ lit (" has a 'behind:' block and no client consumes it. A front exists to split " ++
    "browser callers by scope; between entities there is no session to split on")]) ++
  (((frontMembers t point).getD []).filter fun member => member.kind == "slot" && member.type != "").map (returnFinding place) ++
  (if (behind t point).isEmpty then
    [lit "warn: " ++ place ++ lit (" is a front with nothing under its 'behind:', so it hands nobody anywhere and every " ++
      "caller is refused. Say which entity serves each scope, or take the block off and answer the point here")]
  else []) ++
  tierMessages t config point

def lintFronts (config : Entries) : List Str := ((appPoints config).filter isFront).flatMap (frontMessages t config)

/-- A finding for each name there more than once. -/
def duplicateMessages (names : List String) (what consequence : Str) : List Str :=
  ((names.filter fun name => 1 < names.count name).dedup.mergeSort fun a b => decide (a ≤ b)).map fun name =>
    lit "error: " ++ what ++ lit " " ++ named name ++ lit " is declared more than once; " ++ consequence

def ownerNames (config : Entries) : List String :=
  (mappings config "connect_points").filterMap fun point =>
    (truthyGet point "owner").map fun owner => String.ofList (pyStr t.casts owner)

def ownerMessages (config : Entries) : List Str :=
  duplicateMessages (ownerNames t config) (lit "connect point owner")
    (lit ("an entity has one connect point, so the later one wins and quietly replaces the consumer list and the export " ++
      "block of the earlier one; put every member on one point, and use per-member scope where they are for " ++
      "different audiences"))

/-- The check finds nothing wrong with the owners of points and the fronts. -/
structure Accepted (config : Entries) : Prop where
  owners : Clean (ownerMessages t config)
  fronts : Clean (lintFronts t config)

/-- The vocabulary the edge is given; `none` where the generator raises. -/
def scopeVocab (config : Entries) : Option (List String) :=
  match get config "scopes" with
  | none => some ["anonymous"]
  | some (.dict scopes) =>
    match get scopes "order" with
    | none => some ["anonymous"]
    | some order => (iterated order).bind (·.mapM fun item => (asText item).map String.ofList)
  | some _ => none

def scopesHierarchical (config : Entries) : Option Bool :=
  match get config "scopes" with
  | none => some true
  | some (.dict scopes) => some (truthy ((get scopes "hierarchical").getD (.scalar (.bool true))))
  | some _ => none

/-- The edge is generated with this point. A `QMap` goes through its entries in an order of its own. -/
structure Emitted (config point : Entries) (order : ScopeOrder) (connectPoint : WebEdgeConnectPoint) : Prop where
  scopes : scopeVocab config = some order.scopes
  ranks : scopesHierarchical config = some order.hierarchical
  behind : connectPoint.behind.Perm (behind t point)

/-- The build makes this contract of a point, whose owner's own file implements these members. -/
def Builds (implemented : Entries → List (Synqtc.Line × Inferred)) (point : Entries) (contract : Synqtc.Contract) : Prop :=
  ∃ written parsed, contractPoint t point = some written ∧
    Synqtc.parseText (contractSource t.alnum t.header (contractOf t point) written (implemented point))
      (pathOf (contractOf t point)) (contractOf t point) = .ok parsed ∧
    contract ∈ parsed.contracts ∧ contract.name = contractOf t point

end SynQt.FrontLint
