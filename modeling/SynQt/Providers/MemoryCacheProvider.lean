import SynQt.Lib.LruMap
import SynQt.Service.SessionManager
import Mathlib.Algebra.Group.Nat.Defs
import Mathlib.Data.List.Lex
import Mathlib.Data.List.Sort

/-! The in-process cache: a hash of entries, and a list of nodes that each entry holds its own
place in, the least recently used at the front. -/
namespace SynQt
open Lib

/-- What the provider asks of a `QVariant`. -/
structure Variants (V : Type) where
  invalid : V
  toLongLong : V → Int
  ofLongLong : Int → V
  /-- What is read back of a value written to a JSON file. -/
  throughJson : V → V

/-- A sum of two `qint64`s as the adder leaves it. Past the type's range it is undefined. -/
def addLongLong (a b : Int) : Int := (a + b).bmod (2 ^ 64)

def utf16Units (text : QString) : List Nat :=
  text.toList.flatMap fun c =>
    if c.toNat < 0x10000 then [c.toNat]
    else [0xD800 + (c.toNat - 0x10000) / 0x400, 0xDC00 + (c.toNat - 0x10000) % 0x400]

structure CacheEntry (V : Type) where
  value : V
  /-- 0 is no expiry. -/
  expiresMs : Int := 0
  recency : Nat
deriving DecidableEq

def expiryFor (now ttlSeconds : Int) : Int := if ttlSeconds ≤ 0 then 0 else now + ttlSeconds * 1000

structure MemoryCacheProvider (V : Type) where
  filed : Bool
  maxEntries : Nat
  connected : Bool := false
  entries : Hash QString (CacheEntry V) := ∅
  lru : List (Nat × QString) := []
  nodes : Nat := 0

namespace MemoryCacheProvider
variable {V : Type}

def make (filed : Bool) (maxEntries : Int) : MemoryCacheProvider V where
  filed := filed
  maxEntries := if 0 < maxEntries then maxEntries.toNat else 1

def isExpired (now : Int) (entry : CacheEntry V) : Bool := decide (0 < entry.expiresMs) && decide (entry.expiresMs < now)

def touch (m : MemoryCacheProvider V) (entry : CacheEntry V) : MemoryCacheProvider V :=
  { m with lru := m.lru.filter (fun node => node.1 ≠ entry.recency) ++ m.lru.filter (fun node => node.1 = entry.recency) }

def drop (m : MemoryCacheProvider V) (key : QString) (entry : CacheEntry V) : MemoryCacheProvider V :=
  { m with lru := m.lru.filter (fun node => node.1 ≠ entry.recency), entries := m.entries.erase key }

def evictTurn (m : MemoryCacheProvider V) : MemoryCacheProvider V :=
  match m.lru with
  | [] => m
  | (_, front) :: rest =>
    match m.entries.find front with
    | none => { m with lru := rest }
    | some victim => m.drop front victim

/-- Each turn takes a node off the list, so there are no more of them than nodes. -/
def evictTurns : Nat → MemoryCacheProvider V → MemoryCacheProvider V
  | 0, m => m
  | turns + 1, m =>
    if m.maxEntries < m.entries.size ∧ ¬ m.lru.isEmpty then evictTurns turns m.evictTurn else m

def evictIfNeeded (m : MemoryCacheProvider V) : MemoryCacheProvider V := m.evictTurns m.lru.length

def get (q : Variants V) (m : MemoryCacheProvider V) (now : Int) (key : QString) : MemoryCacheProvider V × V :=
  match m.entries.find key with
  | none => (m, q.invalid)
  | some entry => if isExpired now entry then (m.drop key entry, q.invalid) else (m.touch entry, entry.value)

def set (m : MemoryCacheProvider V) (now : Int) (key : QString) (value : V) (ttlSeconds : Int) : MemoryCacheProvider V :=
  match m.entries.find key with
  | some existing =>
    let entry := { existing with value := value, expiresMs := expiryFor now ttlSeconds }
    { m with entries := m.entries.insert key entry }.touch entry
  | none =>
    let entry := { value := value, expiresMs := expiryFor now ttlSeconds, recency := m.nodes }
    { m with
      lru := m.lru ++ [(m.nodes, key)]
      nodes := m.nodes + 1
      entries := m.entries.insert key entry }.evictIfNeeded

def del (m : MemoryCacheProvider V) (key : QString) : MemoryCacheProvider V :=
  match m.entries.find key with
  | none => m
  | some entry => m.drop key entry

def incr (q : Variants V) (m : MemoryCacheProvider V) (now : Int) (key : QString) (by_ : Int) : MemoryCacheProvider V × Int :=
  let read := m.get q now key
  let next := addLongLong (q.toLongLong read.2) by_
  (read.1.set now key (q.ofLongLong next) 0, next)

def expire (m : MemoryCacheProvider V) (now : Int) (key : QString) (ttlSeconds : Int) : MemoryCacheProvider V :=
  match m.entries.find key with
  | none => m
  | some entry =>
    if isExpired now entry then m.drop key entry
    else { m with entries := m.entries.insert key { entry with expiresMs := expiryFor now ttlSeconds } }

/-- The loop over a saved object, in the order of its keys. -/
def load (now : Int) (m : MemoryCacheProvider V) (saved : List (QString × V)) : MemoryCacheProvider V :=
  saved.foldl (fun m entry => m.set now entry.1 entry.2 0) m

/-- `saved` is what the file held; it is empty where there is no file that opens. -/
def connect (m : MemoryCacheProvider V) (now : Int) (saved : List (QString × V)) : MemoryCacheProvider V :=
  let connected := { m with connected := true }
  if m.filed then connected.load now saved else connected

/-- The object a disconnect writes, in the order of its keys. -/
def saved (q : Variants V) (m : MemoryCacheProvider V) (now : Int) : List (QString × V) :=
  ((m.entries.entries.filter fun entry => !isExpired now entry.2).map fun entry =>
    (entry.1, q.throughJson entry.2.value)).mergeSort fun a b => utf16Units a.1 ≤ utf16Units b.1

def disconnect (q : Variants V) (m : MemoryCacheProvider V) (now : Int) :
    MemoryCacheProvider V × Option (List (QString × V)) :=
  ({ m with connected := false, entries := ∅, lru := [] }, if m.connected && m.filed then some (m.saved q now) else none)

def size (m : MemoryCacheProvider V) : Nat := m.entries.size

end MemoryCacheProvider
end SynQt
