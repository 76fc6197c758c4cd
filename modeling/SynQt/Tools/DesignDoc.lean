import SynQt.Tools.ContractGen

/-! The design document's side of a connect point: its contract as a list of flat members, read from the
point's `export:` block and rendered back into one. -/
namespace SynQt.DesignDoc
open Synqtc ContractGen
open YamlEdit (lit strip)

/-- What a document raises for a block it cannot read or a member it cannot render. -/
inductive DesignDocError where
  | syn (raised : Raised)
  | other (message : String)

/-- A contract member as the flat record the editor holds. A scope that is not there is an empty one. -/
structure DocMember where
  kind : String
  name : String
  type : String := ""
  params : List Param := []
  roles : List Param := []
  scope : String := ""

def docParam (param : Param) : Param := { type := param.type, name := param.name }
def docRole (role : Role) : Param := { type := role.type, name := role.name }

/-- `_member`. -/
def docMember (node : Member) : DocMember :=
  let scope := ",".intercalate node.scope
  match node with
  | .prop p => { kind := "prop", name := p.name, type := p.type, scope := scope }
  | .model m => { kind := "model", name := m.name, roles := m.roles.map docRole, scope := scope }
  | .signal s => { kind := "signal", name := s.name, params := s.params.map docParam, scope := scope }
  | .slot s =>
    { kind := "slot", name := s.name, type := s.returnType.getD "", params := s.params.map docParam, scope := scope }

def chosen (parsed : SynFile) (name : String) : Option Contract :=
  (parsed.contracts.find? (·.name == name)).or (if parsed.contracts.length = 1 then parsed.contracts.head? else none)

def membersOf (parsed : SynFile) (name path : String) : Except DesignDocError (List DocMember) :=
  match chosen parsed name with
  | none => .error (.other (path ++ " declares no contract named '" ++ name ++ "'"))
  | some contract => .ok (contract.members.map docMember)

def pathOf (name : String) : String := name ++ ".syn"

def parseFromText (text name : String) : Except DesignDocError (List DocMember) :=
  match parseText text (pathOf name) name with
  | .error raised => .error (.syn raised)
  | .ok parsed => membersOf parsed name (pathOf name)

/-- The text of a point's contract as the document reads it, no scope filled in. -/
def exportSource (alnum : Char → Bool) (header : List Comment) (name : String) (point : Point)
    (owner : List (Line × Inferred)) : String :=
  contractSource alnum header name point owner false

def parseExport (alnum : Char → Bool) (header : List Comment) (name : String) (point : Point)
    (owner : List (Line × Inferred)) : Except DesignDocError (List DocMember) :=
  parseFromText (exportSource alnum header name point owner) name

def renderParams (params : List Param) : Line :=
  lit (", ".intercalate (params.map fun param => param.type ++ " " ++ param.name))

def gateOf (scope : String) : Line :=
  let scope := strip (lit scope)
  if scope.isEmpty then [] else lit "<" ++ scope ++ lit "> "

def renderMember (member : DocMember) : Except DesignDocError Line :=
  let gate := gateOf member.scope
  if member.kind = "prop" then .ok (gate ++ lit "prop " ++ lit member.type ++ lit " " ++ lit member.name)
  else if member.kind = "model" then
    .ok (gate ++ lit "model " ++ lit member.name ++ lit "(" ++ renderParams member.roles ++ lit ")")
  else if member.kind = "signal" then
    .ok (gate ++ lit "signal " ++ lit member.name ++ lit "(" ++ renderParams member.params ++ lit ")")
  else if member.kind = "slot" then
    let lead := if member.type.isEmpty then lit "slot " else lit "slot " ++ lit member.type ++ lit " "
    .ok (gate ++ lead ++ lit member.name ++ lit "(" ++ renderParams member.params ++ lit ")")
  else .error (.other ("'" ++ member.name ++ "': '" ++ member.kind ++ "' is not a contract member kind"))

def renderExport (members : List DocMember) : Except DesignDocError Line := do
  let lines ← members.mapM renderMember
  return lines.flatMap (· ++ ['\n'])

end SynQt.DesignDoc
