import SynQt.Lib.Document
import SynQt.Lib.Run
import SynQt.Tools.YamlEdit
import Mathlib.Data.Char
import Mathlib.Data.List.Lex
import Mathlib.Data.List.Sort

/-! The environment layer: what each `SYNQT_` variable sets in a configuration. -/
namespace SynQt.EnvLayer
open Lib Dict Shared List
open YamlEdit (Str lit strip)

/-- A key of a loaded mapping: text, or something else, which no variable names. -/
inductive Key where
  | str (s : Str)
  | other (text : Str)
deriving DecidableEq

inductive Scalar where
  | none
  | bool (b : Bool)
  | int (n : Int)
  | float (text : Str)
  | str (s : Str)
  /-- A date or what else YAML makes, by its text. -/
  | other (text : Str)

abbrev Node := Doc Key Scalar

abbrev Entries := List (Key × Node)

/-- A loaded text: what its aliases name is one node. -/
abbrev Document := Shared Key Scalar

abbrev Route := List (Step Key)

/-- What `safe_load` makes of a text. -/
inductive Load where
  | value (parsed : Document)
  | yamlError
  | raises (message : Str)

/-- Python's own reading of texts, and the YAML library's. -/
structure Reading where
  lower : Str → Str
  int : Str → Option Int
  float : Str → Option Str
  repr : Str → Str
  safeLoad : Str → Load

def envPrefix : Str := lit "SYNQT_"

def longestKey {β : Type} (node : List (Key × β)) (remainder : Str) : Option Str :=
  let candidates := node.filterMap fun entry =>
    match entry.1 with
    | .str key => if remainder = key ∨ (key ++ ['_']).isPrefixOf remainder then some key else none
    | .other _ => none
  candidates.foldl (fun longest key =>
    match longest with
    | none => some key
    | some best => if best.length < key.length then some key else some best) none

def behind (remainder key : Str) : Str := (remainder.drop key.length).dropWhile (· == '_')

theorem mem_candidates {β : Type} {node : List (Key × β)} {remainder key : Str} (h : longestKey node remainder = some key) :
    remainder = key ∨ (key ++ ['_']) <+: remainder := by
  have hfold (candidates : List Str) (longest : Option Str) (h : candidates.foldl (fun longest key =>
      match longest with
      | none => some key
      | some best => if best.length < key.length then some key else some best) longest = some key) :
      key ∈ candidates ∨ longest = some key := by
    induction candidates generalizing longest with
    | nil => exact .inr h
    | cons first rest ih =>
      rcases ih _ h with hin | hfirst
      · exact .inl (mem_cons_of_mem _ hin)
      · cases longest with
        | none => exact .inl (Option.some.inj hfirst ▸ mem_cons_self)
        | some best =>
          dsimp only at hfirst
          split at hfirst
          · exact .inl (Option.some.inj hfirst ▸ mem_cons_self)
          · exact .inr hfirst
  rcases hfold _ _ h with hin | hnone
  · obtain ⟨⟨key', child⟩, -, hkey⟩ := mem_filterMap.mp hin
    cases key' with
    | other text => cases hkey
    | str key' =>
      dsimp only at hkey
      split at hkey
      · next hmatch =>
        obtain rfl := Option.some.inj hkey
        exact hmatch.imp id isPrefixOf_iff_prefix.mp
      · cases hkey
  · cases hnone

private theorem behind_lt {β : Type} {node : List (Key × β)} {remainder key : Str} (hne : remainder ≠ []) (h : longestKey node remainder = some key) :
    (behind remainder key).length < remainder.length := by
  rcases mem_candidates h with rfl | ⟨rest, rfl⟩
  · rw [behind, drop_length]
    exact length_pos_of_ne_nil hne
  · rw [behind, append_assoc, drop_left, singleton_append, dropWhile_cons_of_pos (by rfl),
      length_append, length_cons]
    have hle := (dropWhile_sublist (l := rest) (· == '_')).length_le
    omega

/-- The path a name resolves to, from what stands at the path so far. -/
def targetPath {π : Type} (cells : π → Cell Key Scalar π) (path : List Key) (node : Item Scalar π) (remainder : Str) :
    Option (List Key) :=
  if _hempty : remainder = [] then some path
  else
    match entriesAt cells node with
    | none => none
    | some entries =>
      match hkey : longestKey entries remainder with
      | none => if path = [] then none else some (path ++ [ .str remainder])
      | some key =>
        targetPath cells (path ++ [ .str key]) ((lookup entries (.str key)).getD (.scalar .none)) (behind remainder key)
termination_by remainder.length
decreasing_by exact behind_lt _hempty hkey

def truths : List Str := [lit "true", lit "yes", lit "on", lit "1"]

def falsehoods : List Str := [lit "false", lit "no", lit "off", lit "0"]

def commaItems (raw : Str) : List Str := ((raw.splitOn ',').map strip).filter fun item => !item.isEmpty

def isList : Option (Shape Scalar) → Bool
  | some .list => true
  | _ => false

def isNone : Option (Shape Scalar) → Bool
  | some (.scalar .none) => true
  | _ => false

/-- The text as YAML reads it, or `plain` where that does not fit; the text itself where YAML cannot read it. -/
def parse (reading : Reading) (raw : Str) (fits : Option (Shape Scalar) → Bool) (plain : Document) : Except Str Document :=
  match reading.safeLoad raw with
  | .yamlError => .ok (.ofScalar (.str raw))
  | .raises message => .error message
  | .value parsed => .ok (if fits (parsed.look []) then parsed else plain)

/-- The text read as the type of what the configuration has there. -/
def coerce (reading : Reading) (existing : Option (Shape Scalar)) (raw name : Str) : Except Str Document :=
  match existing with
  | some (.scalar (.bool _)) =>
    if reading.lower (strip raw) ∈ truths then .ok (.ofScalar (.bool true))
    else if reading.lower (strip raw) ∈ falsehoods then .ok (.ofScalar (.bool false))
    else .error (name ++ lit ": expected a boolean, got " ++ reading.repr raw)
  | some (.scalar (.str _)) => .ok (.ofScalar (.str raw))
  | some (.scalar (.int _)) =>
    match reading.int (strip raw) with
    | some n => .ok (.ofScalar (.int n))
    | none => .error (name ++ lit ": expected an integer, got " ++ reading.repr raw)
  | some (.scalar (.float _)) =>
    match reading.float (strip raw) with
    | some text => .ok (.ofScalar (.float text))
    | none => .error (name ++ lit ": expected a number, got " ++ reading.repr raw)
  | some .list => parse reading raw isList (.ofList ((commaItems raw).map .str))
  | _ => parse reading raw (fun parsed => !isNone parsed || raw.isEmpty) (.ofScalar (.str raw))

/-- The configuration with the variables so far applied, and each of them with the path it addressed, of which
the source makes a text. -/
structure Layered where
  merged : Document
  applied : List (Str × List Key)

/-- The way a path goes: into mappings only. -/
def keyRoute (path : List Key) : Route := path.map .key

/-- The path a variable addresses, where it is a key inside a section. -/
def target (reading : Reading) (merged : Document) (name : Str) : Option (List Key) :=
  if ¬ envPrefix.isPrefixOf name ∨ name = envPrefix then none
  else
    match targetPath merged.cells [] merged.root (reading.lower (name.drop envPrefix.length)) with
    | some path => if path.length < 2 then none else some path
    | none => none

def applyVariable (reading : Reading) (state : Except Str Layered) (assignment : Str × Str) : Except Str Layered :=
  match state with
  | .error message => .error message
  | .ok s =>
    match target reading s.merged assignment.1 with
    | none => .ok s
    | some path =>
      match coerce reading (s.merged.look (keyRoute path)) assignment.2 assignment.1 with
      | .error message => .error message
      | .ok given => .ok ⟨s.merged.assign path given, s.applied ++ [(assignment.1, path)]⟩

def sortedVariables (environment : List (Str × Str)) : List (Str × Str) :=
  environment.insertionSort fun a b => a.1 ≤ b.1

def applyEnv (reading : Reading) (config : Document) (environment : List (Str × Str)) : Except Str Layered :=
  run (applyVariable reading) (.ok ⟨config, []⟩) (sortedVariables environment)

end SynQt.EnvLayer
