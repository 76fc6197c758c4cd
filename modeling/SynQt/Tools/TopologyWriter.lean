import SynQt.Lib.Numbered
import SynQt.Tools.EnvLayer

/-! The endpoint of each connect point: where its owner listens and its consumers dial. -/
namespace SynQt.TopologyWriter
open Lib Dict EnvLayer
open YamlEdit (Str lit strip)

/-- Python's `str`, `int` and `==`, of any value of a configuration. -/
structure Casts where
  str : Node → Str
  int : Node → Option Int
  eq : Node → Node → Bool

def MESH_PORT_BASE : Nat := 9440

def truthy : Node → Bool
  | .scalar .none => false
  | .scalar (.bool b) => b
  | .scalar (.int n) => n != 0
  | .scalar (.float text) => text != lit "0.0" && text != lit "-0.0"
  | .scalar (.str s) => !s.isEmpty
  | .scalar (.other _) => true
  | .list items => !items.isEmpty
  | .dict entries => !entries.isEmpty

def get (entries : Entries) (key : String) : Option Node := lookup entries (.str (lit key))

def mappings (config : Entries) (key : String) : List Entries :=
  match get config key with
  | some (.list items) => items.filterMap fun item =>
    match item with
    | .dict entries => some entries
    | _ => none
  | _ => []

def pointName (casts : Casts) (point : Entries) : Str :=
  let owner := match get point "owner" with
    | some owner => if truthy owner then casts.str owner else []
    | none => []
  match get point "name" with
  | some (.scalar (.str declared)) => if strip declared ≠ [] then strip declared else owner
  | _ => owner

def isAlnum (c : Char) : Bool := ('0' ≤ c && c ≤ '9') || ('A' ≤ c && c ≤ 'Z') || ('a' ≤ c && c ≤ 'z')

/-- Each run of other characters as one hyphen; `inRun` is whether one has been written for the run. -/
def collapse (inRun : Bool) : Str → Str
  | [] => []
  | c :: rest =>
    if isAlnum c then c :: collapse false rest
    else if inRun then collapse true rest
    else '-' :: collapse true rest

def sanitize (name : Str) : Str :=
  let folded := trim (· == '-') (collapse false name)
  if folded = [] then lit "cp" else folded

def ownerEntity (casts : Casts) (config point : Entries) : Entries :=
  let owner := (get point "owner").getD (.scalar .none)
  ((mappings config "entities").find? fun entity => casts.eq ((get entity "name").getD (.scalar .none)) owner).getD []

def meshSetting (casts : Casts) (config point : Entries) (key : String) : Option Node :=
  let entityMesh := match get (ownerEntity casts config point) "mesh" with
    | some (.dict mesh) => mesh
    | _ => []
  match (get point key).or (get entityMesh key) with
  | some (.scalar .none) => none
  | value => value

inductive Endpoint where
  | localSocket (socket : Node)
  | mtls (host : Str) (port : Int)

def isLocal (casts : Casts) (config point : Entries) : Bool :=
  match meshSetting casts config point "transport" with
  | some (.scalar (.str transport)) => transport == lit "local"
  | _ => false

/-- What is given under the key, where it is not empty. -/
def given (casts : Casts) (config point : Entries) (key : String) : Option Node :=
  (meshSetting casts config point key).filter truthy

def hostOf (casts : Casts) (config point : Entries) : Str :=
  casts.str ((meshSetting casts config point "host").getD (.scalar (.str (lit "127.0.0.1"))))

def endpointAt (casts : Casts) (config : Entries) (projectName : Str) (index : Nat) (point : Entries) : Option Endpoint :=
  if isLocal casts config point then
    match given casts config point "socket" with
    | some socket => some (.localSocket socket)
    | none =>
      some (.localSocket (.scalar (.str (sanitize (lit "synqt-" ++ projectName ++ lit "-" ++ pointName casts point)))))
  else
    match given casts config point "port" with
    | some port => (casts.int port).map (.mtls (hostOf casts config point) ·)
    | none => some (.mtls (hostOf casts config point) (MESH_PORT_BASE + index))

def namedPoints (casts : Casts) (config : Entries) : List Entries :=
  (mappings config "connect_points").filter fun point => pointName casts point ≠ []

/-- `none` where a port is not a number. -/
def resolveEndpoints (casts : Casts) (config : Entries) (projectName : Str) : Option (List (Str × Endpoint)) :=
  collect (pointName casts) (endpointAt casts config projectName) 0 [] (inOrder (pointName casts) (namedPoints casts config))

end SynQt.TopologyWriter
