import SynQt.Providers.LruCache

namespace SynQt
open Lib

inductive CacheOp (V : Type) where
  | get (key : QString)
  | set (key : QString) (value : V) (ttlSeconds : Int)
  | del (key : QString)
  | incr (key : QString) (by_ : Int)
  | expire (key : QString) (ttlSeconds : Int)
  /-- With what the file holds then. -/
  | connect (saved : List (QString × V))
  | disconnect
deriving DecidableEq

inductive CacheAnswer (V : Type) where
  | value (value : V)
  | number (value : Int)
deriving DecidableEq

structure CacheRun (V : Type) where
  cache : MemoryCacheProvider V
  answers : List (CacheAnswer V) := []

structure LruRun (V : Type) where
  filed : Bool
  cache : LruCache V
  answers : List (CacheAnswer V) := []

variable {V : Type} (q : Variants V)

def CacheRun.step (s : CacheRun V) : Int × CacheOp V → CacheRun V
  | (now, .get key) =>
    let answer := s.cache.get q now key
    { cache := answer.1, answers := s.answers ++ [.value answer.2] }
  | (now, .set key value ttlSeconds) => { s with cache := s.cache.set now key value ttlSeconds }
  | (_, .del key) => { s with cache := s.cache.del key }
  | (now, .incr key by_) =>
    let answer := s.cache.incr q now key by_
    { cache := answer.1, answers := s.answers ++ [.number answer.2] }
  | (now, .expire key ttlSeconds) => { s with cache := s.cache.expire now key ttlSeconds }
  | (now, .connect saved) => { s with cache := s.cache.connect now saved }
  | (now, .disconnect) => { s with cache := (s.cache.disconnect q now).1 }

namespace LruCache

def incr (c : LruCache V) (now : Int) (key : QString) (by_ : Int) : LruCache V × Int :=
  let next := addLongLong (q.toLongLong (c.answer q now key)) by_
  ((c.read now key).set now key (q.ofLongLong next) 0, next)

def load (now : Int) (c : LruCache V) (saved : List (QString × V)) : LruCache V :=
  saved.foldl (fun c entry => c.set now entry.1 entry.2 0) c

end LruCache

def LruRun.step (t : LruRun V) : Int × CacheOp V → LruRun V
  | (now, .get key) =>
    { t with cache := t.cache.read now key, answers := t.answers ++ [.value (t.cache.answer q now key)] }
  | (now, .set key value ttlSeconds) => { t with cache := t.cache.set now key value ttlSeconds }
  | (_, .del key) => { t with cache := t.cache.del key }
  | (now, .incr key by_) =>
    let answer := t.cache.incr q now key by_
    { t with cache := answer.1, answers := t.answers ++ [.number answer.2] }
  | (now, .expire key ttlSeconds) => { t with cache := t.cache.expire now key ttlSeconds }
  | (now, .connect saved) => { t with cache := if t.filed then t.cache.load now saved else t.cache }
  | (_, .disconnect) => { t with cache := t.cache.clear }

namespace MemoryCacheProvider
variable {q} {m : MemoryCacheProvider V} {now : Int} {c : LruCache V}

section
variable (h : Simulates m now c)
include h

theorem Simulates.incr (key : QString) (by_ : Int) :
    Simulates (m.incr q now key by_).1 now (c.incr q now key by_).1 ∧ (m.incr q now key by_).2 = (c.incr q now key by_).2 := by
  obtain ⟨hread, hanswer⟩ := h.get key
  rw [MemoryCacheProvider.incr, LruCache.incr, hanswer]
  exact ⟨hread.set key _ 0, rfl⟩

theorem Simulates.load (saved : List (QString × V)) :
    Simulates (m.load now saved) now (c.load now saved) := by
  induction saved generalizing m c with
  | nil => exact h
  | cons entry saved ih => exact ih (h.set entry.1 entry.2 0)

theorem Simulates.disconnect (q : Variants V) : Simulates (m.disconnect q now).1 now c.clear where
  stands :=
    { represents := ⟨fun _ => rfl, rfl, List.nodup_nil, fun _ _ h => (by cases h), fun _ h => (by cases h),
        LruMap.used_empty⟩
      boundIs := h.stands.boundIs
      fits := Nat.zero_le _ }
  agrees := LruCache.agrees_clear c

theorem Simulates.connected : Simulates { m with connected := true } now c where
  stands :=
    { represents := ⟨h.stands.represents.holds, h.stands.represents.ordered, h.stands.represents.addresses,
        h.stands.represents.placed, h.stands.represents.older, h.stands.represents.used⟩
      boundIs := h.stands.boundIs
      fits := h.stands.fits }
  agrees := h.agrees

theorem Simulates.connect (saved : List (QString × V)) :
    Simulates (m.connect now saved) now (if m.filed then c.load now saved else c) := by
  rw [MemoryCacheProvider.connect]
  split
  · exact h.connected.load saved
  · exact h.connected

end

theorem config_get (q : Variants V) (m : MemoryCacheProvider V) (now : Int) (key : QString) :
    (m.get q now key).1.config = m.config := by
  rw [get]
  split
  · rfl
  · split <;> rfl

variable (m : MemoryCacheProvider V)

theorem config_del (key : QString) : (m.del key).config = m.config := by
  rw [del]
  split <;> rfl

theorem config_expire (now : Int) (key : QString) (ttlSeconds : Int) :
    (m.expire now key ttlSeconds).config = m.config := by
  rw [expire]
  split
  · rfl
  · split <;> rfl

private theorem config_load (now : Int) (saved : List (QString × V)) :
    (m.load now saved).config = m.config := by
  induction saved generalizing m with
  | nil => rfl
  | cons entry saved ih => exact (ih _).trans (config_set m now entry.1 entry.2 0)

theorem config_connect (now : Int) (saved : List (QString × V)) :
    (m.connect now saved).config = (true, m.config.2) := by
  rw [connect]
  split
  · exact config_load _ now saved
  · rfl

theorem config_incr (q : Variants V) (m : MemoryCacheProvider V) (now : Int) (key : QString) (by_ : Int) :
    (m.incr q now key by_).1.config = m.config :=
  (config_set ..).trans (config_get q m now key)

end MemoryCacheProvider

namespace CacheRun
variable {q : Variants V} {s : CacheRun V} {t : LruRun V} {now : Int}

/-- A run of the provider, and the run of what it is for. -/
structure Simulates (s : CacheRun V) (now : Int) (t : LruRun V) : Prop where
  cache : s.cache.Simulates now t.cache
  filed : s.cache.filed = t.filed
  answers : s.answers = t.answers

private theorem config_step (q : Variants V) (s : CacheRun V) (op : Int × CacheOp V) :
    (s.step q op).cache.config.2 = s.cache.config.2 := by
  obtain ⟨now, op⟩ := op
  cases op with
  | get key => exact congrArg Prod.snd (s.cache.config_get q now key)
  | set key value ttlSeconds => exact congrArg Prod.snd (s.cache.config_set now key value ttlSeconds)
  | del key => exact congrArg Prod.snd (s.cache.config_del key)
  | incr key by_ => exact congrArg Prod.snd (s.cache.config_incr q now key by_)
  | expire key ttlSeconds => exact congrArg Prod.snd (s.cache.config_expire now key ttlSeconds)
  | connect saved =>
    have hconnect := s.cache.config_connect now saved
    exact congrArg (·.2) hconnect
  | disconnect => rfl

theorem Simulates.step (h : Simulates s now t) (op : Int × CacheOp V) (hle : now ≤ op.1) :
    Simulates (s.step q op) op.1 (t.step q op) := by
  have hfiled : (s.step q op).cache.filed = t.filed := (congrArg Prod.fst (config_step q s op)).trans h.filed
  have hcache := h.cache.mono hle
  obtain ⟨now', op⟩ := op
  cases op with
  | get key =>
    obtain ⟨hread, hanswer⟩ := hcache.get key
    refine ⟨hread, hfiled, ?_⟩
    rw [CacheRun.step, LruRun.step, hanswer, h.answers]
  | set key value ttlSeconds => exact ⟨hcache.set key value ttlSeconds, hfiled, h.answers⟩
  | del key => exact ⟨hcache.del key, hfiled, h.answers⟩
  | incr key by_ =>
    obtain ⟨hread, hanswer⟩ := hcache.incr key by_
    refine ⟨hread, hfiled, ?_⟩
    rw [CacheRun.step, LruRun.step, hanswer, h.answers]
  | expire key ttlSeconds => exact ⟨hcache.expire key ttlSeconds, hfiled, h.answers⟩
  | connect saved =>
    have hconnect := hcache.connect saved
    rw [h.filed] at hconnect
    exact ⟨hconnect, hfiled, h.answers⟩
  | disconnect => exact ⟨hcache.disconnect q, hfiled, h.answers⟩

private theorem config_run (q : Variants V) (s : CacheRun V) (ops : List (Int × CacheOp V)) :
    (run (step q) s ops).cache.config.2 = s.cache.config.2 :=
  run_invariant (fun later => later.cache.config.2 = s.cache.config.2) (fun later op h => (config_step q later op).trans h)
    rfl ops

theorem Simulates.run (h : Simulates s now t) {ops : List (Int × CacheOp V)} (hafter : ∀ op ∈ ops, now ≤ op.1)
    (htimes : ops.Pairwise fun earlier later => earlier.1 ≤ later.1) :
    ∃ later, Simulates (Lib.run (CacheRun.step q) s ops) later (Lib.run (LruRun.step q) t ops) := by
  induction ops generalizing s t now with
  | nil => exact ⟨now, h⟩
  | cons op ops ih =>
    obtain ⟨hrest, hsorted⟩ := List.pairwise_cons.mp htimes
    exact ih (h.step op (hafter op List.mem_cons_self)) hrest hsorted

/-- What every run keeps: the answers of a map that lets go of its least recently used key, and
the recency list as the keys stored, by last use. -/
structure IsLru (maxEntries : Int) (s : CacheRun V) (t : LruRun V) : Prop where
  answers : s.answers = t.answers
  byLastUse : s.cache.lru.map Prod.snd = t.cache.table.order
  ofStored : (s.cache.lru.map Prod.snd).Perm (s.cache.entries.entries.map Prod.fst)
  once : (s.cache.lru.map Prod.snd).Nodup
  bounded : (s.cache.size : Int) ≤ max 1 maxEntries
  /-- A new key in a full table: the least recently used one goes, and no other. -/
  evicts : ∀ now key value ttlSeconds, s.cache.entries.find key = none → (s.cache.size : Int) = max 1 maxEntries →
    (s.cache.set now key value ttlSeconds).lru.map Prod.snd = t.cache.table.order.drop 1 ++ [key]

private theorem Simulates.isLru {maxEntries : Int} (h : Simulates s now t) (hbound : t.cache.bound = (max 1 maxEntries).toNat) :
    IsLru maxEntries s t := by
  have hstands := h.cache.stands
  have hrepresents := hstands.represents
  have hsize := hrepresents.size_eq
  have hfits := hstands.fits
  refine ⟨h.answers, hrepresents.ordered, hrepresents.perm, hrepresents.nodup_keys, ?_, ?_⟩
  · rw [MemoryCacheProvider.size]
    omega
  · intro now key value ttlSeconds hfind hfull
    rw [MemoryCacheProvider.size] at hfull
    have hset := (hstands.set now key value ttlSeconds).represents.ordered
    have habsent : key ∉ t.cache.table.order := by
      rw [LruMap.mem_order hrepresents.used, hrepresents.held_of_none hfind]
      exact Bool.false_ne_true
    have hwritten := LruMap.order_write_use t.cache.table key (value, expiryFor now ttlSeconds)
    rw [LruMap.filter_absent habsent] at hwritten
    have hlength := congrArg List.length hwritten
    rw [List.length_append, List.length_singleton] at hlength
    have hone : t.cache.table.order.length + 1 - t.cache.bound = 1 := by omega
    rw [hset, LruMap.put, LruMap.order_evict (by omega), hlength, hone, hwritten,
      List.drop_append_of_le_length (by omega)]

/-- The in-process cache is a map of at most so many keys, with lifetimes, that lets go of its least
recently used key: over every run, whatever a reconnect loads. -/
theorem memory_cache_is_lru (q : Variants V) (filed : Bool) (maxEntries : Int) (ops : List (Int × CacheOp V))
    (htimes : ops.Pairwise fun earlier later => earlier.1 ≤ later.1) :
    IsLru maxEntries (run (step q) { cache := .make filed maxEntries } ops)
      (run (LruRun.step q) { filed := filed, cache := { bound := (max 1 maxEntries).toNat } } ops) := by
  have hstart (now : Int) : Simulates { cache := .make filed maxEntries } now
      { filed := filed, cache := { bound := (max 1 maxEntries).toNat } : LruRun V } :=
    ⟨MemoryCacheProvider.simulates_make filed maxEntries now, rfl, rfl⟩
  obtain ⟨first, hfirst⟩ : ∃ first, ∀ op ∈ ops, first ≤ op.1 := by
    cases ops with
    | nil => exact ⟨0, fun op h => (by cases h)⟩
    | cons op ops =>
      have hrest := (List.pairwise_cons.mp htimes).1
      exact ⟨op.1, List.forall_mem_cons.mpr ⟨Int.le_refl _, hrest⟩⟩
  obtain ⟨later, hsim⟩ := (hstart first).run hfirst htimes
  apply hsim.isLru
  have hconfig := config_run q { cache := .make filed maxEntries } ops
  rw [← hsim.cache.stands.boundIs]
  calc (run (step q) { cache := .make filed maxEntries } ops).cache.maxEntries
      = (MemoryCacheProvider.make filed maxEntries : MemoryCacheProvider V).maxEntries := congrArg Prod.snd hconfig
    _ = (max 1 maxEntries).toNat := (MemoryCacheProvider.simulates_make filed maxEntries 0).stands.boundIs

def integers : Variants (Option Int) where
  invalid := none
  toLongLong value := value.getD 0
  ofLongLong := some
  throughJson := id

/-- Two keys at most: the third one set is in the place of the one not read since, and a lapsed
one is not answered. -/
theorem third_key_evicts :
    let ops := [(0, CacheOp.set "a" (some 1) 0), (1, .set "b" (some 2) 1), (2, .get "a"), (3, .set "c" (some 3) 1),
      (4, .get "b"), (5, .incr "a" 4), (2000, .get "c"), (2000, .get "a")]
    let s := run (step integers) { cache := .make false 2 } ops
    IsLru 2 s (run (LruRun.step integers) { filed := false, cache := { bound := 2 } } ops) ∧
      s.answers = [.value (some 1), .value none, .number 5, .value none, .value (some 5)] :=
  ⟨memory_cache_is_lru integers false 2 _ (by decide), by decide +kernel⟩

end CacheRun
end SynQt
