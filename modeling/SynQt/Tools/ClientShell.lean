import SynQt.Lib.CacheStorage
import SynQt.Lib.Run
import SynQt.Tools.YamlEdit
import Mathlib.Data.Char
import Mathlib.Data.List.Infix
import Mathlib.Data.List.Lex
import Mathlib.Data.List.Sort

/-! The worker that keeps a client's build in the browser, and the manifest that names the build. -/
namespace SynQt.ClientShell
open Lib Dict CacheStorage
open YamlEdit (Str lit)

abbrev Bytes := List UInt8

def MANIFEST_NAME : Str := lit "synqt-manifest.json"

def DERIVED_SUFFIXES : List Str := [lit ".br", lit ".gz"]

/-- An assembled bundle directory. -/
structure Build where
  files : List (Str × Bytes)
  wasm : Str
  nodup : (keys files).Nodup
  has_wasm : wasm ∈ keys files

structure Manifest where
  buildId : Str
  wasm : Str
  wasmSize : Nat
  files : List Str
deriving DecidableEq

variable (digest : Bytes → Str)

def wasmOf (build : Build) : Bytes := (lookup build.files build.wasm).getD []

def buildId (build : Build) : Str := digest (wasmOf build)

def manifestFiles (build : Build) : List Str :=
  ((keys build.files).filter fun name => name ≠ MANIFEST_NAME && !DERIVED_SUFFIXES.any (·.isSuffixOf name)).insertionSort (· ≤ ·)

def manifest (build : Build) : Manifest :=
  ⟨buildId digest build, build.wasm, (wasmOf build).length, manifestFiles build⟩

inductive Body where
  | bytes (content : Bytes)
  | manifest (manifest : Manifest)
deriving DecidableEq

/-- What a fetch gets where the build is deployed; the manifest is written over a file of its name. -/
def served (build : Build) (url : Str) : Option Body :=
  if url = MANIFEST_NAME then some (.manifest (manifest digest build))
  else (lookup build.files url).map .bytes

def PREFIX : Str := lit "synqt-"

def cacheName (bundle buildId : Str) : Str := PREFIX ++ bundle ++ '-' :: buildId

def precacheUrls (files : List Str) : List Str := if MANIFEST_NAME ∈ files then files else files ++ [MANIFEST_NAME]

abbrev Caches := Storage Str Str Body

def hasCompleteBuild (caches : Caches) (name : Str) : Bool :=
  caches.any fun cache => cache.live && cache.name = name && (lookup cache.entries MANIFEST_NAME).isSome

inductive Event where
  | install
  | activate
  | checkUpdate
deriving DecidableEq

/-- What an event's handler waits for next. A build stands for the manifest fetched when it was deployed. -/
inductive Stage where
  | fetchManifest
  | findBuild (build : Build)
  | openBuild (build : Build)
  | matchManifest (build : Build) (handle : Nat)
  | openCache (build : Build)
  | addAll (build : Build) (handle : Nat) (fetched : List (Str × Body))
  | findOthers (keep : Str)
  | deleteOthers (keep : Str) (names : List Str)
  | ended
  | failed

structure Task where
  event : Event
  /-- How many deploys there had been at its start. -/
  begun : Nat
  stage : Stage

/-- What comes of what is waited for: a failure, an answer, the fetch of one file or the deletion of one cache. -/
inductive Outcome where
  | fail
  | done
  | fetched (url : Str)
  | deleted (name : Str)

variable (bundle : Str)

/-- The caches and the stage after it; `none` where the stage does not wait for it. -/
def advance (deployed : Build) (caches : Caches) (event : Event) : Stage → Outcome → Option (Caches × Stage)
  | .fetchManifest, .fail => some (caches, .failed)
  | .fetchManifest, .done =>
    match event with
    | .install => some (caches, .openCache deployed)
    | .activate => some (caches, .findOthers (cacheName bundle (buildId digest deployed)))
    | .checkUpdate => some (caches, .findBuild deployed)
  | .findBuild build, .done =>
    if cacheName bundle (buildId digest build) ∈ names caches then some (caches, .openBuild build)
    else some (caches, .openCache build)
  | .openBuild build, .done =>
    let opened := CacheStorage.openCache caches (cacheName bundle (buildId digest build))
    some (opened.1, .matchManifest build opened.2)
  | .matchManifest build handle, .done =>
    if (read caches handle MANIFEST_NAME).isSome then some (caches, .ended)
    else some (caches, .openCache build)
  | .openCache build, .done =>
    let opened := CacheStorage.openCache caches (cacheName bundle (buildId digest build))
    some (opened.1, .addAll build opened.2 [])
  | .addAll _ _ _, .fail => some (caches, .failed)
  | .addAll build handle fetched, .fetched url =>
    if url ∈ precacheUrls (manifestFiles build) ∧ url ∉ keys fetched then
      match served digest deployed url with
      | some body => some (caches, .addAll build handle (fetched ++ [(url, body)]))
      | none => some (caches, .failed)
    else none
  | .addAll build handle fetched, .done =>
    if ∀ url ∈ precacheUrls (manifestFiles build), url ∈ keys fetched then
      match event with
      | .checkUpdate =>
        some (CacheStorage.addAll caches handle fetched, .findOthers (cacheName bundle (buildId digest build)))
      | _ => some (CacheStorage.addAll caches handle fetched, .ended)
    else none
  | .findOthers keep, .done =>
    some (caches, .deleteOthers keep ((names caches).filter fun name => PREFIX.isPrefixOf name && name ≠ keep))
  | .deleteOthers keep names, .deleted name =>
    if name ∈ names then some (CacheStorage.delete caches name, .deleteOthers keep (names.erase name)) else none
  | .deleteOthers _ [], .done => some (caches, .ended)
  | _, _ => none

structure Answer where
  url : Str
  name : Str
  body : Body

structure State where
  deployed : Build
  past : List Build
  caches : Caches
  tasks : List Task
  /-- What each page load was answered from the caches. -/
  loads : List (List Answer)

def start (build : Build) : State := ⟨build, [], [], [], []⟩

def State.builds (s : State) : List Build := s.deployed :: s.past

inductive Act where
  | deploy (build : Build)
  | dispatch (event : Event)
  | resume (task : Nat) (outcome : Outcome)
  | load
  | fetch (load : Nat) (url : Str)

/-- The page's request for a file: from the caches, and from the edge where none has it. -/
def answer (caches : Caches) (url : Str) : Option Answer :=
  if MANIFEST_NAME <:+: url then none
  else (matchAll caches url).map fun hit => ⟨url, hit.1, hit.2⟩

def step (s : State) : Act → State
  | .deploy build => { s with deployed := build, past := s.deployed :: s.past }
  | .dispatch event => { s with tasks := s.tasks ++ [⟨event, s.past.length, .fetchManifest⟩] }
  | .resume i outcome =>
    match s.tasks[i]? with
    | some task =>
      match advance digest bundle s.deployed s.caches task.event task.stage outcome with
      | some (caches, stage) => { s with caches := caches, tasks := s.tasks.set i { task with stage := stage } }
      | none => s
    | none => s
  | .load => { s with loads := s.loads ++ [[]] }
  | .fetch i url =>
    match answer s.caches url with
    | some hit => { s with loads := s.loads.modify i (· ++ [hit]) }
    | none => s

end SynQt.ClientShell
