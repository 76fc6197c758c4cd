import SynQt.Providers.RedisCacheProvider

namespace SynQt
open Lib Function Option List

inductive SwapOp where
  | get (key : QString)
  | set (key : QString) (value : CacheValue) (ttlSeconds : Int)
  | del (key : QString)
  | incr (key : QString) (by_ : Int)
  | expire (key : QString) (ttlSeconds : Int)
  | reconnect
deriving DecidableEq

def SwapOp.key? : SwapOp → Option QString
  | .get key | .set key _ _ | .del key | .incr key _ | .expire key _ => some key
  | .reconnect => none

/-- Both providers through one run, and what they answered as texts. -/
structure SwapRun where
  memory : MemoryCacheProvider (Option CacheValue)
  redis : RedisCacheProvider
  memoryAnswers : List (Option QString) := []
  redisAnswers : List (Option QString) := []

namespace SwapRun

def textOf (value : Option CacheValue) : Option QString := value.map CacheValue.asText

/-- Connected, with an empty file and an empty database. -/
def start (maxEntries : Int) : SwapRun where
  memory := (MemoryCacheProvider.make true maxEntries).connect 0 []
  redis := RedisCacheProvider.connect {}

def step (s : SwapRun) : Nat × SwapOp → SwapRun
  | (now, .get key) =>
    let memory := s.memory.get cacheVariants now key
    let redis := s.redis.get now key
    { memory := memory.1, redis := redis.1,
      memoryAnswers := s.memoryAnswers ++ [textOf memory.2], redisAnswers := s.redisAnswers ++ [textOf redis.2] }
  | (now, .set key value ttlSeconds) =>
    { s with
      memory := s.memory.set now key (some value) ttlSeconds
      redis := s.redis.set now key (some value) ttlSeconds }
  | (now, .del key) => { s with memory := s.memory.del key, redis := s.redis.del now key }
  | (now, .incr key by_) =>
    let memory := s.memory.incr cacheVariants now key by_
    let redis := s.redis.incr now key by_
    { memory := memory.1, redis := redis.1,
      memoryAnswers := s.memoryAnswers ++ [some (toString memory.2)]
      redisAnswers := s.redisAnswers ++ [some (toString redis.2)] }
  | (now, .expire key ttlSeconds) =>
    { s with memory := s.memory.expire now key ttlSeconds, redis := s.redis.expire now key ttlSeconds }
  | (now, .reconnect) =>
    let closed := s.memory.disconnect cacheVariants now
    { s with memory := closed.1.connect now (closed.2.getD []), redis := s.redis.disconnect.connect }

def namedKeys (ops : List (Nat × SwapOp)) : List QString := (ops.filterMap fun op => op.2.key?).dedup

/-- Where the two keep a step alike: an increment of a key that is absent, or that has no deadline
and a number in the form Redis writes, to a sum in range; and no deadline pending at a reconnect. -/
def Kept (db : Redis) (now : Int) : SwapOp → Prop
  | .incr key by_ =>
    match db.live now key with
    | none => inLongLong by_ = true
    | some (text, deadline) => deadline = none ∧ ∃ n, string2ll text = some n ∧ inLongLong (n + by_) = true
  | .reconnect => ∀ key text deadline, db.live now key = some (text, deadline) → deadline = none
  | _ => True

/-- A value as Redis would hold it, while it has not lapsed. -/
def liveOf (now : Int) : Option (Option CacheValue × Int) → Option (QString × Option Int)
  | some (some value, deadline) =>
    if lapsed now (value, deadline) then none else some (value.asText, if deadline = 0 then none else some deadline)
  | _ => none

end SwapRun

namespace LruCache
variable {V : Type} {c : LruCache V} {keys : List QString}

structure Room (keys : List QString) (c : LruCache V) : Prop where
  used : c.table.Used
  named : ∀ key ∈ c.table.order, key ∈ keys
  fits : keys.length ≤ c.bound

section
variable (h : Room keys c)
include h

section
variable {key : QString} (hkey : key ∈ keys)
include hkey

private theorem Room.no_evictee (v : V × Int) :
    ((c.table.write key v).use key).evictee c.bound = none := by
  have hsubset : ((c.table.write key v).use key).order ⊆ keys := by
    intro key' hmem
    rw [LruMap.order_write_use] at hmem
    rcases mem_append.mp hmem with hold | hlast
    · exact h.named key' (mem_filter.mp hold).1
    · rw [mem_singleton.mp hlast]
      exact hkey
  have hlength := List.Nodup.length_le_of_subset (LruMap.nodup_order _) hsubset
  have hfits := h.fits
  rw [LruMap.evictee, if_neg (by omega)]

private theorem Room.last_set (now : Int) (value : V) (ttlSeconds : Int) :
    (c.set now key value ttlSeconds).last = update c.last key (some (value, expiryFor now ttlSeconds)) := by
  rw [LruCache.set, h.no_evictee hkey]
  rfl

theorem Room.set (now : Int) (value : V) (ttlSeconds : Int) :
    Room keys (c.set now key value ttlSeconds) where
  used := h.used.put _ _ _
  named key' hmem := by
    have hput : c.table.put c.bound key (value, expiryFor now ttlSeconds) =
        (c.table.write key (value, expiryFor now ttlSeconds)).use key := by
      rw [LruMap.put, LruMap.evict, h.no_evictee hkey]
      rfl
    rw [LruCache.set] at hmem
    dsimp only at hmem
    rw [hput, LruMap.order_write_use] at hmem
    rcases mem_append.mp hmem with hold | hlast
    · exact h.named key' (mem_filter.mp hold).1
    · rw [mem_singleton.mp hlast]
      exact hkey
  fits := h.fits

end

theorem Room.erase (key : QString) {last : QString → Option (V × Int)} :
    Room keys { c with table := c.table.erase key, last := last } where
  used := h.used.erase key
  named key' hmem := by
    rw [LruMap.order_erase] at hmem
    exact h.named key' (mem_filter.mp hmem).1
  fits := h.fits

theorem Room.read (now : Int) (key : QString) : Room keys (c.read now key) := by
  rw [LruCache.read]
  cases hheld : c.table.held key with
  | none => exact h
  | some v =>
    have hsome : (c.table.held key).isSome = true := by
      rw [hheld]
      rfl
    dsimp only
    split
    · exact h.erase key
    · refine ⟨h.used.use key, fun key' hmem => ?_, h.fits⟩
      rw [LruMap.order_use hsome] at hmem
      rcases mem_append.mp hmem with hold | hlast
      · exact h.named key' (mem_filter.mp hold).1
      · rw [mem_singleton.mp hlast]
        exact h.named key ((LruMap.mem_order h.used key).mpr hsome)

theorem Room.expire (now : Int) (key : QString) (ttlSeconds : Int) :
    Room keys (c.expire now key ttlSeconds) := by
  rw [LruCache.expire]
  cases hheld : c.table.held key with
  | none => exact ⟨h.used, h.named, h.fits⟩
  | some v =>
    have hsome : (c.table.held key).isSome = true := by
      rw [hheld]
      rfl
    dsimp only
    split
    · exact h.erase key
    · refine ⟨h.used.write (h.used key hsome) _, fun key' hmem => ?_, h.fits⟩
      rw [LruMap.order_write hsome] at hmem
      exact h.named key' hmem

theorem Room.clear : Room keys c.clear where
  used := LruMap.used_empty
  named _ hmem := by cases hmem
  fits := h.fits

section
variable {saved : List (QString × V)} (hsaved : ∀ entry ∈ saved, entry.1 ∈ keys)
include hsaved

theorem Room.load (now : Int) :
    Room keys (c.load now saved) := by
  induction saved generalizing c with
  | nil => exact h
  | cons entry saved ih =>
    obtain ⟨hentry, hrest⟩ := forall_mem_cons.mp hsaved
    exact ih (h.set hentry now entry.2 0) hrest

private theorem Room.last_load_of_not_mem (now : Int) {key : QString} (hkey : key ∉ saved.map Prod.fst) : (c.load now saved).last key = c.last key := by
  induction saved generalizing c with
  | nil => rfl
  | cons entry saved ih =>
    obtain ⟨hentry, hrest⟩ := forall_mem_cons.mp hsaved
    rw [map_cons, mem_cons, not_or] at hkey
    have hset := congrFun (h.last_set hentry now entry.2 0) key
    rw [update_of_ne hkey.1] at hset
    exact (ih (h.set hentry now entry.2 0) hrest hkey.2).trans hset

/-- A key is loaded without a deadline. -/
theorem Room.last_load_of_mem (hnd : (saved.map Prod.fst).Nodup) (now : Int) {key : QString} {value : V} (hmem : (key, value) ∈ saved) :
    (c.load now saved).last key = some (value, 0) := by
  induction saved generalizing c with
  | nil => cases hmem
  | cons entry saved ih =>
    obtain ⟨hentry, hrest⟩ := forall_mem_cons.mp hsaved
    rw [map_cons, nodup_cons] at hnd
    rcases mem_cons.mp hmem with rfl | hlater
    · have hlast := (h.set hentry now value 0).last_load_of_not_mem hrest now hnd.1
      have hset := congrFun (h.last_set hentry now value 0) key
      rw [update_self] at hset
      exact hlast.trans hset
    · exact ih (h.set hentry now entry.2 0) hrest hnd.2 hlater

end

end

end LruCache

namespace Redis
variable {db : Redis} {now : Int} {key : QString}

private theorem live_eq_some {v : QString × Option Int} (h : db.live now key = some v) : db.held key = some v := by
  rw [live, filter_eq_some_iff] at h
  exact h.1

private theorem live_none_mono (h : db.live now key = none) {later : Int} (hle : now ≤ later) : db.live later key = none := by
  rw [live, filter_eq_none_iff] at h ⊢
  intro v hheld hlive
  apply h v hheld
  cases hdeadline : v.2 with
  | none => rfl
  | some deadline =>
    rw [hdeadline] at hlive
    have hlater : later ≤ deadline := of_decide_eq_true hlive
    have hnow : now ≤ deadline := by omega
    exact decide_eq_true hnow

private theorem live_put (db : Redis) (now : Int) (key : QString) (v : Option (QString × Option Int)) (key' : QString) :
    (db.put key v).live now key' =
      if key' = key then v.filter fun v => v.2.all fun deadline => decide (now ≤ deadline) else db.live now key' := by
  rw [live, live, put]
  dsimp only
  rw [update_apply]
  split <;> rfl

end Redis

namespace MemoryCacheProvider
variable {V : Type}

/-- The keys saved are those of entries that have not lapsed, each once, without their deadlines. -/
theorem mem_saved (q : Variants V) (m : MemoryCacheProvider V) (now : Int) (key : QString) (value : V) :
    (key, value) ∈ m.saved q now ↔
      ∃ entry, m.entries.find key = some entry ∧ isExpired now entry = false ∧ q.throughJson entry.value = value := by
  rw [saved, List.mem_mergeSort, List.mem_map]
  constructor
  · rintro ⟨⟨key', entry⟩, hmem, heq⟩
    obtain ⟨rfl, hvalue⟩ := Prod.mk.inj heq
    obtain ⟨hentry, halive⟩ := List.mem_filter.mp hmem
    exact ⟨entry, (Hash.mem_entries _ _ _).mp hentry, by simpa using halive, hvalue⟩
  · rintro ⟨entry, hfind, halive, rfl⟩
    refine ⟨(key, entry), List.mem_filter.mpr ⟨(Hash.mem_entries _ _ _).mpr hfind, ?_⟩, rfl⟩
    rw [halive]
    rfl

private theorem nodup_saved (q : Variants V) (m : MemoryCacheProvider V) (now : Int) : ((m.saved q now).map Prod.fst).Nodup := by
  have hkeys : (((m.entries.entries.filter fun entry => !isExpired now entry.2).map fun entry =>
      (entry.1, q.throughJson entry.2.value)).map Prod.fst).Nodup := by
    rw [List.map_map]
    exact (Hash.nodup_keys m.entries).sublist (filter_sublist.map Prod.fst)
  rw [saved]
  exact ((mergeSort_perm _ _).map Prod.fst).nodup_iff.mpr hkeys

section
variable {m : MemoryCacheProvider V} {now : Int} {c : LruCache V} (h : Simulates m now c)
include h

private theorem Simulates.last_of_find {key : QString} {entry : CacheEntry V} (hfind : m.entries.find key = some entry) :
    c.last key = some (entry.value, entry.expiresMs) := by
  have hheld := h.stands.represents.held_of_find hfind
  rcases h.agrees key with hsame | ⟨hnone, -⟩
  · rw [← hsame, hheld]
  · rw [hheld] at hnone
    cases hnone

private theorem Simulates.find_of_last {key : QString} {v : V × Int} (hlast : c.last key = some v) (halive : lapsed now v = false) :
    ∃ entry, m.entries.find key = some entry ∧ (entry.value, entry.expiresMs) = v := by
  have hheld : c.table.held key = some v := by
    rcases h.agrees key with hsame | ⟨-, w, hw, hlapsed⟩
    · rw [hsame, hlast]
    · rw [hlast] at hw
      cases hw
      rw [halive] at hlapsed
      cases hlapsed
  rw [← h.stands.represents.holds key] at hheld
  exact map_eq_some_iff.mp hheld

end

end MemoryCacheProvider

namespace SwapRun
variable {now : Int} {last : Option (Option CacheValue × Int)} {db : Redis} {key : QString}

/-- Alike at one time, a value and a Redis value lapse together. -/
theorem liveOf_mono (hdated : ∀ v, last = some v → 0 ≤ v.2) (h : liveOf now last = db.live now key) {later : Int}
    (hle : now ≤ later) : liveOf later last = db.live later key := by
  have hgone (hnone : liveOf now last = none) : db.live later key = none :=
    Redis.live_none_mono (h.symm.trans hnone) hle
  cases last with
  | none => exact (hgone rfl).symm
  | some v =>
    obtain ⟨value, deadline⟩ := v
    cases value with
    | none => exact (hgone rfl).symm
    | some value =>
      have hpos : 0 ≤ deadline := hdated _ rfl
      by_cases hlapsed : lapsed now (value, deadline) = true
      · have hlater : lapsed later (value, deadline) = true := LruCache.lapsed_mono hle hlapsed
        have hnone : liveOf now (some (some value, deadline)) = none := by
          rw [liveOf, if_pos hlapsed]
        rw [hgone hnone, liveOf, if_pos hlater]
      · rw [liveOf, if_neg hlapsed] at h
        have hheld := Redis.live_eq_some h.symm
        rw [liveOf, Redis.live, hheld]
        by_cases hzero : deadline = 0
        · subst hzero
          rfl
        · simp only [lapsed, if_neg hzero, filter_some, all_some, Bool.and_eq_true, decide_eq_true_eq]
          by_cases hafter : deadline < later
          · rw [if_pos ⟨by omega, hafter⟩, if_neg (by omega)]
          · rw [if_neg (by omega), if_pos (by omega)]

private theorem liveOf_set (hpos : 0 ≤ now) (value : CacheValue) (ttlSeconds : Int) :
    liveOf now (some (some value, expiryFor now ttlSeconds)) =
      some (value.asText, if 0 < ttlSeconds then some (now + ttlSeconds * 1000) else none) := by
  rw [liveOf, expiryFor]
  by_cases httl : 0 < ttlSeconds
  · have hnot : ¬ ttlSeconds ≤ 0 := by omega
    have halive : ¬ lapsed now (value, now + ttlSeconds * 1000) = true := by
      simp only [lapsed, Bool.and_eq_true, decide_eq_true_eq]
      omega
    have hdated : ¬ now + ttlSeconds * 1000 = 0 := by omega
    rw [if_neg hnot, if_neg halive, if_neg hdated, if_pos httl]
  · have hnever : ttlSeconds ≤ 0 := by omega
    rw [if_pos hnever, if_neg httl]
    rfl

private theorem expiryFor_nonneg (hpos : 0 ≤ now) (ttlSeconds : Int) : 0 ≤ expiryFor now ttlSeconds := by
  rw [expiryFor]
  split <;> omega

private theorem textOf_answer {c : LruCache (Option CacheValue)} (now : Int) (key : QString) :
    textOf (c.answer cacheVariants now key) = (liveOf now (c.last key)).map Prod.fst := by
  rw [LruCache.answer]
  cases c.last key with
  | none => rfl
  | some v =>
    obtain ⟨value, deadline⟩ := v
    cases value with
    | none =>
      dsimp only
      split <;> rfl
    | some value =>
      have hsame : lapsed now (some value, deadline) = lapsed now (value, deadline) := rfl
      rw [liveOf]
      dsimp only
      rw [hsame]
      by_cases hlapsed : lapsed now (value, deadline) = true
      · rw [if_pos hlapsed, if_pos hlapsed]
        rfl
      · rw [if_neg hlapsed, if_neg hlapsed]
        rfl

private theorem textOf_get {r : RedisCacheProvider} (hconnected : r.connected = true) (now : Int) (key : QString) :
    (r.get now key).1 = r ∧ textOf (r.get now key).2 = (r.server.live now key).map Prod.fst := by
  rw [RedisCacheProvider.get, hconnected, RedisCacheProvider.runCommand, Redis.execute]
  refine ⟨rfl, ?_⟩
  cases r.server.live now key with
  | none => rfl
  | some v => rfl

/-- Two providers in a run, the map one of them is, and the keys there is room for. -/
structure Alike (keys : List QString) (s : SwapRun) (now : Int) (c : LruCache (Option CacheValue)) : Prop where
  simulates : s.memory.Simulates now c
  opened : s.memory.config.1 = true
  filed : s.memory.config.2.1 = true
  reached : s.redis.connected = true
  room : c.Room keys
  same : ∀ key, liveOf now (c.last key) = s.redis.server.live now key
  dated : ∀ key v, c.last key = some v → 0 ≤ v.2
  answers : s.memoryAnswers = s.redisAnswers

variable {keys : List QString} {s : SwapRun} {c : LruCache (Option CacheValue)}

theorem Alike.mono (h : Alike keys s now c) {later : Int} (hle : now ≤ later) : Alike keys s later c :=
  { h with
    simulates := h.simulates.mono hle
    same := fun key => liveOf_mono (h.dated key) (h.same key) hle }

theorem Alike.get {now : Nat} (h : Alike keys s now c) (key : QString) :
    Alike keys (s.step (now, .get key)) now (c.read now key) := by
  obtain ⟨hread, hanswer⟩ := h.simulates.get (q := cacheVariants) key
  obtain ⟨hredis, htext⟩ := textOf_get h.reached now key
  have hconfig := s.memory.config_get cacheVariants now key
  rw [step, hredis]
  refine ⟨hread, ?_, ?_, h.reached, h.room.read now key, h.same, h.dated, ?_⟩
  · exact (congrArg Prod.fst hconfig).trans h.opened
  · exact (congrArg (·.2.1) hconfig).trans h.filed
  · rw [hanswer, textOf_answer, htext, h.same, h.answers]

private theorem filter_written (now : Nat) (text : QString) (ttlSeconds : Int) :
    (some (text, if 0 < ttlSeconds then some ((now : Int) + ttlSeconds * 1000) else none)).filter
        (fun v => v.2.all fun deadline => decide ((now : Int) ≤ deadline)) =
      some (text, if 0 < ttlSeconds then some ((now : Int) + ttlSeconds * 1000) else none) := by
  by_cases httl : 0 < ttlSeconds
  · have halive : (now : Int) ≤ now + ttlSeconds * 1000 := by omega
    simp only [if_pos httl, filter_some, all_some, decide_eq_true halive, if_true]
  · simp only [if_neg httl, filter_some, all_none, if_true]

private theorem same_put (hsame : ∀ key, liveOf now (c.last key) = db.live now key) (key : QString)
    {last : QString → Option (Option CacheValue × Int)} {v : Option (Option CacheValue × Int)}
    {written : Option (QString × Option Int)} (hlast : last = update c.last key v)
    (hv : liveOf now v = written.filter fun v => v.2.all fun deadline => decide (now ≤ deadline)) (key' : QString) :
    liveOf now (last key') = (db.put key written).live now key' := by
  rw [hlast, update_apply, Redis.live_put]
  split
  · exact hv
  · exact hsame key'

private theorem dated_update (hdated : ∀ key v, c.last key = some v → 0 ≤ v.2) (key : QString)
    {v : Option (Option CacheValue × Int)} (hv : ∀ w, v = some w → 0 ≤ w.2) :
    ∀ key' w, update c.last key v key' = some w → 0 ≤ w.2 := by
  intro key' w hlast
  rw [update_apply] at hlast
  split at hlast
  · exact hv w hlast
  · exact hdated key' w hlast

theorem Alike.set {now : Nat} (h : Alike keys s now c) {key : QString} (hkey : key ∈ keys) (value : CacheValue)
    (ttlSeconds : Int) : Alike keys (s.step (now, .set key value ttlSeconds)) now (c.set now key (some value) ttlSeconds) := by
  have hconfig := s.memory.config_set now key (some value) ttlSeconds
  have hlast := h.room.last_set hkey now (some value) ttlSeconds
  have hredis : s.redis.set now key (some value) ttlSeconds =
      { s.redis with
        server := s.redis.server.put key
          (some (value.asText, if 0 < ttlSeconds then some (now + ttlSeconds * 1000) else none)) } := by
    rw [RedisCacheProvider.set, h.reached]
    by_cases httl : 0 < ttlSeconds
    · simp only [RedisCacheProvider.runCommand, if_pos httl, Redis.execute]
      rfl
    · simp only [RedisCacheProvider.runCommand, if_neg httl, Redis.execute]
      rfl
  rw [step, hredis]
  refine ⟨h.simulates.set key (some value) ttlSeconds, ?_, ?_, h.reached, h.room.set hkey now (some value) ttlSeconds, ?_,
    ?_, h.answers⟩
  · exact (congrArg Prod.fst hconfig).trans h.opened
  · exact (congrArg (·.2.1) hconfig).trans h.filed
  · apply same_put h.same key hlast
    rw [liveOf_set (Int.natCast_nonneg now), filter_written]
  · rw [hlast]
    apply dated_update h.dated
    rintro w rfl'
    cases rfl'
    exact expiryFor_nonneg (Int.natCast_nonneg now) ttlSeconds

theorem Alike.del {now : Nat} (h : Alike keys s now c) (key : QString) :
    Alike keys (s.step (now, .del key)) now (c.del key) := by
  have hconfig := s.memory.config_del key
  have hredis : s.redis.del now key = { s.redis with server := s.redis.server.put key none } := by
    rw [RedisCacheProvider.del, h.reached, RedisCacheProvider.runCommand, Redis.execute]
    rfl
  rw [step, hredis]
  refine ⟨h.simulates.del key, ?_, ?_, h.reached, h.room.erase key, ?_, ?_, h.answers⟩
  · exact (congrArg Prod.fst hconfig).trans h.opened
  · exact (congrArg (·.2.1) hconfig).trans h.filed
  · exact same_put h.same key rfl rfl
  · exact dated_update h.dated key fun w hw => (by cases hw)

/-- A live Redis value is a value the map holds and would answer. -/
theorem live_value {v : QString × Option Int} (h : liveOf now last = some v) :
    ∃ value deadline, last = some (some value, deadline) ∧ lapsed now (value, deadline) = false ∧
      v = (value.asText, if deadline = 0 then none else some deadline) := by
  cases last with
  | none => cases h
  | some w =>
    obtain ⟨value, deadline⟩ := w
    cases value with
    | none => cases h
    | some value =>
      rw [liveOf] at h
      by_cases hlapsed : lapsed now (value, deadline) = true
      · rw [if_pos hlapsed] at h
        cases h
      · rw [if_neg hlapsed] at h
        exact ⟨value, deadline, rfl, Bool.eq_false_iff.mpr hlapsed, (Option.some.inj h).symm⟩

private theorem dated_expire {now : Int} (hpos : 0 ≤ now) (hdated : ∀ key v, c.last key = some v → 0 ≤ v.2) (key : QString)
    (ttlSeconds : Int) : ∀ key' v, (c.expire now key ttlSeconds).last key' = some v → 0 ≤ v.2 := by
  rw [LruCache.expire]
  dsimp only
  cases c.last key with
  | none => exact hdated
  | some v =>
    dsimp only
    split
    · exact hdated
    · apply dated_update hdated
      rintro w hw
      cases hw
      exact expiryFor_nonneg hpos ttlSeconds

/-- Nothing live to give a deadline to. -/
theorem liveOf_expire_dead (hdead : liveOf now (c.last key) = none) (ttlSeconds : Int) (key' : QString) :
    liveOf now ((c.expire now key ttlSeconds).last key') = liveOf now (c.last key') := by
  rw [LruCache.expire]
  cases hlast : c.last key with
  | none => rfl
  | some v =>
    obtain ⟨value, deadline⟩ := v
    dsimp only
    split
    · rfl
    · next hnot =>
      rw [update_apply]
      split
      · next heq =>
        rw [heq, hdead]
        cases value with
        | none => rfl
        | some value =>
          have halive : ¬ lapsed now (value, deadline) = true := hnot
          rw [hlast, liveOf, if_neg halive] at hdead
          cases hdead
      · rfl

theorem Alike.expire {now : Nat} (h : Alike keys s now c) (key : QString) (ttlSeconds : Int) :
    Alike keys (s.step (now, .expire key ttlSeconds)) now (c.expire now key ttlSeconds) := by
  have hconfig := s.memory.config_expire now key ttlSeconds
  have hsame := h.same key
  have hopened := (congrArg Prod.fst hconfig).trans h.opened
  have hfiled := (congrArg (·.2.1) hconfig).trans h.filed
  have hsimulates := h.simulates.expire key ttlSeconds
  have hroom := h.room.expire now key ttlSeconds
  have hdated := dated_expire (Int.natCast_nonneg now) h.dated key ttlSeconds
  cases hlive : s.redis.server.live now key with
  | none =>
    have hredis : s.redis.expire now key ttlSeconds = s.redis := by
      rw [RedisCacheProvider.expire, h.reached]
      by_cases httl : 0 < ttlSeconds
      · simp only [RedisCacheProvider.runCommand, if_pos httl, Redis.execute, hlive]
        rfl
      · simp only [RedisCacheProvider.runCommand, if_neg httl, Redis.execute, hlive]
        rfl
    rw [step, hredis]
    have hdead : liveOf now (c.last key) = none := hsame.trans hlive
    refine ⟨hsimulates, hopened, hfiled, h.reached, hroom, ?_, hdated, h.answers⟩
    intro key'
    rw [liveOf_expire_dead hdead, h.same]
  | some v =>
    obtain ⟨value, deadline, hlast, hlapsed, rfl⟩ := live_value (hsame.trans hlive)
    have hlapsed' : ¬ lapsed (now : Int) (some value, deadline) = true := Bool.eq_false_iff.mp hlapsed
    have hmoved : (c.expire now key ttlSeconds).last =
        update c.last key (some (some value, expiryFor now ttlSeconds)) := by
      rw [LruCache.expire, hlast]
      dsimp only
      rw [if_neg hlapsed']
    have hredis : s.redis.expire now key ttlSeconds =
        { s.redis with
          server := s.redis.server.put key
            (some (value.asText, if 0 < ttlSeconds then some (now + ttlSeconds * 1000) else none)) } := by
      rw [RedisCacheProvider.expire, h.reached]
      by_cases httl : 0 < ttlSeconds
      · have hnot : ¬ ttlSeconds ≤ 0 := by omega
        simp only [RedisCacheProvider.runCommand, if_pos httl, Redis.execute, hlive, if_neg hnot]
        rfl
      · simp only [RedisCacheProvider.runCommand, if_neg httl, Redis.execute, hlive]
        rfl
    rw [step, hredis]
    refine ⟨hsimulates, hopened, hfiled, h.reached, hroom, same_put h.same key hmoved ?_, hdated, h.answers⟩
    rw [liveOf_set (Int.natCast_nonneg now), filter_written]

private theorem addLongLong_eq {a b : Int} (h : inLongLong (a + b) = true) : addLongLong a b = a + b := by
  simp only [inLongLong, Bool.and_eq_true, decide_eq_true_eq] at h
  rw [addLongLong, Int.bmod_eq_of_le (by omega) (by omega)]

/-- The number an increment starts from is the same in both places. -/
theorem number_of_kept {by_ : Int} (hsame : liveOf now (c.last key) = db.live now key) (hkept : Kept db now (.incr key by_)) :
    ∃ n, cacheVariants.toLongLong (c.answer cacheVariants now key) = n ∧ inLongLong (n + by_) = true ∧
      string2ll ((db.live now key).getD ("0", none)).1 = some n ∧ ((db.live now key).getD ("0", none)).2 = none := by
  have htext := textOf_answer (c := c) now key
  rw [Kept] at hkept
  rw [hsame] at htext
  cases hlive : db.live now key with
  | none =>
    rw [hlive] at hkept htext
    have hmiss : c.answer cacheVariants now key = none := map_eq_none_iff.mp htext
    refine ⟨0, ?_, ?_, rfl, rfl⟩
    · rw [hmiss]
      rfl
    · rw [Int.zero_add]
      exact hkept
  | some v =>
    rw [hlive] at hkept htext
    obtain ⟨hdeadline, n, hread, hrange⟩ := hkept
    obtain ⟨value, hanswer, hvalue⟩ := map_eq_some_iff.mp htext
    refine ⟨n, ?_, hrange, hread, hdeadline⟩
    rw [hanswer]
    cases value with
    | text text =>
      have htext : text = v.1 := hvalue
      exact longLongOf_of_string2ll (htext ▸ hread)
    | integer value =>
      have htext : toString value = v.1 := hvalue
      rw [← htext] at hread
      exact (eq_of_string2ll_toString hread).symm

theorem Alike.incr {now : Nat} (h : Alike keys s now c) {key : QString} (hkey : key ∈ keys) {by_ : Int}
    (hkept : Kept s.redis.server now (.incr key by_)) :
    Alike keys (s.step (now, .incr key by_)) now (c.incr cacheVariants now key by_).1 := by
  obtain ⟨n, hnumber, hrange, hread, hdeadline⟩ := number_of_kept (h.same key) hkept
  obtain ⟨hsimulates, hanswer⟩ := h.simulates.incr (q := cacheVariants) key by_
  have hconfig := s.memory.config_incr cacheVariants now key by_
  have hsum : addLongLong n by_ = n + by_ := addLongLong_eq hrange
  have hincr : c.incr cacheVariants now key by_ =
      ((c.read now key).set now key (some (.integer (n + by_))) 0, n + by_) := by
    rw [LruCache.incr, hnumber, hsum]
    rfl
  have hredis : s.redis.incr now key by_ =
      ({ s.redis with server := s.redis.server.put key (some (toString (n + by_), none)) }, n + by_) := by
    rw [RedisCacheProvider.incr, h.reached]
    simp only [RedisCacheProvider.runCommand, Redis.execute, hread, map_some, hrange, if_true, hdeadline]
    rfl
  have hroom := h.room.read now key
  have hlast := hroom.last_set hkey now (some (.integer (n + by_))) 0
  rw [hincr] at hsimulates hanswer ⊢
  rw [step, hredis, hanswer]
  refine ⟨hsimulates, ?_, ?_, h.reached, hroom.set hkey now _ 0, ?_, ?_, ?_⟩
  · exact (congrArg Prod.fst hconfig).trans h.opened
  · exact (congrArg (·.2.1) hconfig).trans h.filed
  · exact same_put h.same key hlast (liveOf_set (Int.natCast_nonneg now) (.integer (n + by_)) 0)
  · rw [hlast]
    apply dated_update h.dated
    intro w hw
    cases hw
    exact Int.le_refl 0
  · rw [h.answers]

section
variable {now : Int} (h : Alike keys s now c)
include h

private theorem Alike.saved_named :
    ∀ entry ∈ s.memory.saved cacheVariants now, entry.1 ∈ keys := by
  rintro ⟨key, value⟩ hmem
  obtain ⟨entry, hfind, -, -⟩ := (MemoryCacheProvider.mem_saved ..).mp hmem
  have hheld := h.simulates.stands.represents.held_of_find hfind
  apply h.room.named
  rw [LruMap.mem_order h.room.used, hheld]
  rfl

/-- What is loaded again of a key: its value, if it had not lapsed, for good. -/
theorem Alike.last_loaded (key : QString) :
    (c.clear.load now (s.memory.saved cacheVariants now)).last key =
      ((c.last key).filter fun v => !lapsed now v).map fun v => (v.1, 0) := by
  have hnamed := h.saved_named
  have hclear : c.clear.Room keys := h.room.clear
  cases hfilter : (c.last key).filter fun v => !lapsed now v with
  | some v =>
    obtain ⟨hlast, halive⟩ := filter_eq_some_iff.mp hfilter
    have halive : lapsed now v = false := by simpa using halive
    obtain ⟨entry, hfind, hentry⟩ := h.simulates.find_of_last hlast halive
    have hexpired : MemoryCacheProvider.isExpired now entry = false := by
      rw [← hentry] at halive
      exact halive
    have hvalue : entry.value = v.1 := congrArg Prod.fst hentry
    have hmem : (key, v.1) ∈ s.memory.saved cacheVariants now :=
      (MemoryCacheProvider.mem_saved ..).mpr ⟨entry, hfind, hexpired, hvalue⟩
    exact hclear.last_load_of_mem hnamed (MemoryCacheProvider.nodup_saved ..) now hmem
  | none =>
    have habsent : key ∉ (s.memory.saved cacheVariants now).map Prod.fst := by
      intro hmem
      obtain ⟨⟨key', value⟩, hsaved, rfl⟩ := mem_map.mp hmem
      obtain ⟨entry, hfind, hexpired, -⟩ := (MemoryCacheProvider.mem_saved ..).mp hsaved
      have hlast := h.simulates.last_of_find hfind
      have hlapsed := filter_eq_none_iff.mp hfilter _ hlast
      have halive : lapsed now (entry.value, entry.expiresMs) = false := hexpired
      rw [halive] at hlapsed
      exact hlapsed rfl
    exact hclear.last_load_of_not_mem hnamed now habsent

/-- With no deadline pending, what was saved and loaded again is alive as before. -/
theorem Alike.live_loaded (hkept : Kept s.redis.server now .reconnect) (key : QString) :
    liveOf now ((c.clear.load now (s.memory.saved cacheVariants now)).last key) = s.redis.server.live now key := by
  rw [h.last_loaded, ← h.same]
  cases hlast : c.last key with
  | none => rfl
  | some v =>
    obtain ⟨value, deadline⟩ := v
    rw [filter_some]
    cases value with
    | none => split <;> rfl
    | some value =>
      have hsame := h.same key
      have hvalue : lapsed now (some value, deadline) = lapsed now (value, deadline) := rfl
      rw [hlast, liveOf] at hsame
      rw [liveOf, hvalue]
      by_cases hlapsed : lapsed now (value, deadline) = true
      · rw [hlapsed, if_pos rfl]
        rfl
      · rw [if_neg hlapsed] at hsame
        have hnone := hkept key _ _ hsame.symm
        have hzero : deadline = 0 := by
          by_contra hne
          rw [if_neg hne] at hnone
          cases hnone
        rw [Bool.eq_false_iff.mpr hlapsed, hzero]
        rfl

end

section
variable {now : Nat} (h : Alike keys s now c)
include h

theorem Alike.reconnect (hkept : Kept s.redis.server now .reconnect) :
    Alike keys (s.step (now, .reconnect)) now (c.clear.load now (s.memory.saved cacheVariants now)) := by
  have hopened : s.memory.connected = true := h.opened
  have hfiled : s.memory.filed = true := h.filed
  have hwritten : (s.memory.disconnect cacheVariants now).2.getD [] = s.memory.saved cacheVariants now := by
    rw [MemoryCacheProvider.disconnect, hopened, hfiled]
    rfl
  have hclosed : (s.memory.disconnect cacheVariants now).1.filed = true := hfiled
  have hloaded := (h.simulates.disconnect cacheVariants).connect (s.memory.saved cacheVariants now)
  have hconfig := (s.memory.disconnect cacheVariants now).1.config_connect now (s.memory.saved cacheVariants now)
  rw [hclosed, if_pos rfl] at hloaded
  rw [step, hwritten]
  refine ⟨hloaded, ?_, ?_, rfl, h.room.clear.load h.saved_named now, h.live_loaded hkept, ?_, h.answers⟩
  · rw [hconfig]
  · rw [hconfig]
    exact hfiled
  · intro key v hlast
    rw [h.last_loaded, map_eq_some_iff] at hlast
    obtain ⟨w, -, rfl⟩ := hlast
    exact Int.le_refl 0

theorem Alike.step {op : SwapOp} (hkey : ∀ key ∈ op.key?, key ∈ keys)
    (hkept : Kept s.redis.server now op) : ∃ c', Alike keys (s.step (now, op)) now c' := by
  cases op with
  | get key => exact ⟨_, h.get key⟩
  | set key value ttlSeconds => exact ⟨_, h.set (hkey key rfl) value ttlSeconds⟩
  | del key => exact ⟨_, h.del key⟩
  | incr key by_ => exact ⟨_, h.incr (hkey key rfl) hkept⟩
  | expire key ttlSeconds => exact ⟨_, h.expire key ttlSeconds⟩
  | reconnect => exact ⟨_, h.reconnect hkept⟩

theorem Alike.run {ops : List (Nat × SwapOp)}
    (hafter : ∀ op ∈ ops, now ≤ op.1) (htimes : ops.Pairwise fun earlier later => earlier.1 ≤ later.1)
    (hkeys : ∀ op ∈ ops, ∀ key ∈ op.2.key?, key ∈ keys)
    (hkept : Each SwapRun.step (fun s op => Kept s.redis.server op.1 op.2) s ops) {later : Nat} (hnow : now ≤ later)
    (hlast : ∀ op ∈ ops, op.1 ≤ later) : ∃ c', Alike keys (Lib.run SwapRun.step s ops) later c' := by
  induction ops generalizing s now c with
  | nil => exact ⟨c, h.mono (Int.ofNat_le.mpr hnow)⟩
  | cons op ops ih =>
    obtain ⟨hrest, hsorted⟩ := pairwise_cons.mp htimes
    obtain ⟨hstep, hkept'⟩ := hkept
    obtain ⟨hnamed, hkeys'⟩ := forall_mem_cons.mp hkeys
    obtain ⟨hbefore, hlast'⟩ := forall_mem_cons.mp hlast
    have hmoved := h.mono (Int.ofNat_le.mpr (hafter op mem_cons_self))
    obtain ⟨c', hnext⟩ := hmoved.step hnamed hstep
    exact ih hnext hrest hsorted hkeys' hkept' hbefore hlast'

end

private theorem exists_last (ops : List (Nat × SwapOp)) : ∃ last, ∀ op ∈ ops, op.1 ≤ last := by
  induction ops with
  | nil => exact ⟨0, fun op hop => (by cases hop)⟩
  | cons op ops ih =>
    obtain ⟨last, hlast⟩ := ih
    refine ⟨max op.1 last, forall_mem_cons.mpr ⟨Nat.le_max_left .., fun op' hop' => ?_⟩⟩
    exact (hlast op' hop').trans (Nat.le_max_right ..)

private theorem alike_start {maxEntries : Int} (hroom : (keys.length : Int) ≤ max 1 maxEntries) (now : Int) :
    Alike keys (start maxEntries) now { bound := (max 1 maxEntries).toNat } where
  simulates := (MemoryCacheProvider.simulates_make true maxEntries now).connect []
  opened := rfl
  filed := rfl
  reached := rfl
  room := ⟨LruMap.used_empty, fun _ hmem => (by cases hmem), (by dsimp only; omega)⟩
  same _ := rfl
  dated _ _ hlast := by cases hlast
  answers := rfl

/-- In every run whose increments keep the number and whose reconnects find no deadline pending,
with room for the keys it names, either provider gives the other's answers, during the run and to
every read after it, so that no key outlives its deadline in one of them only. -/
theorem swap_changes_nothing (maxEntries : Int) (ops : List (Nat × SwapOp))
    (htimes : ops.Pairwise fun earlier later => earlier.1 ≤ later.1)
    (hroom : ((namedKeys ops).length : Int) ≤ max 1 maxEntries)
    (hkept : Each step (fun s op => Kept s.redis.server op.1 op.2) (start maxEntries) ops) :
    (run step (start maxEntries) ops).memoryAnswers = (run step (start maxEntries) ops).redisAnswers ∧
      ∀ later : Nat, (∀ op ∈ ops, op.1 ≤ later) → ∀ key,
        textOf ((run step (start maxEntries) ops).memory.get cacheVariants later key).2 =
          textOf ((run step (start maxEntries) ops).redis.get later key).2 := by
  have hkeys : ∀ op ∈ ops, ∀ key ∈ op.2.key?, key ∈ namedKeys ops := by
    intro op hop key hkey
    rw [namedKeys, mem_dedup, mem_filterMap]
    exact ⟨op, hop, hkey⟩
  have hend : ∀ later : Nat, (∀ op ∈ ops, op.1 ≤ later) → ∃ c, Alike (namedKeys ops) (run step (start maxEntries) ops) later c :=
    fun later hlast => (alike_start hroom (0 : Nat)).run (fun op _ => Nat.zero_le op.1) htimes hkeys hkept (Nat.zero_le later) hlast
  constructor
  · obtain ⟨last, hlast⟩ := exists_last ops
    obtain ⟨c, halike⟩ := hend last hlast
    exact halike.answers
  · intro later hlast key
    obtain ⟨c, halike⟩ := hend later hlast
    have hmemory := (halike.simulates.get (q := cacheVariants) key).2
    have hredis := (textOf_get halike.reached later key).2
    rw [hmemory, textOf_answer, hredis, halike.same]

/-- A counter without a deadline, through a reconnect, and a value that lapses in both places. -/
theorem counter_swaps :
    let ops := [(0, SwapOp.set "n" (.integer 1) 0), (1, .incr "n" 4), (4, .reconnect), (5, .get "n"),
      (7, .set "c" (.text "x") 1), (3000, .get "c")]
    (run step (start 2) ops).memoryAnswers = (run step (start 2) ops).redisAnswers ∧
      (run step (start 2) ops).redisAnswers = [some "5", some "5", none] := by
  have hreconnect : ∀ key text deadline,
      (run step (start 2) [(0, SwapOp.set "n" (.integer 1) 0), (1, .incr "n" 4)]).redis.server.live 4 key =
        some (text, deadline) → deadline = none := by
    intro key text deadline hlive
    have hheld := Redis.live_eq_some hlive
    have hserver : (run step (start 2) [(0, SwapOp.set "n" (.integer 1) 0), (1, .incr "n" 4)]).redis.server.held key =
        if key = "n" then some ("5", none) else none := by
      by_cases hkey : key = "n"
      · subst hkey
        decide +kernel
      · rw [if_neg hkey]
        exact (update_of_ne hkey ..).trans (update_of_ne hkey ..)
    rw [hserver] at hheld
    split at hheld
    · cases hheld
      rfl
    · cases hheld
  have hkept : Each step (fun s op => Kept s.redis.server op.1 op.2) (start 2)
      [(0, SwapOp.set "n" (.integer 1) 0), (1, .incr "n" 4), (4, .reconnect), (5, .get "n"),
        (7, .set "c" (.text "x") 1), (3000, .get "c")] :=
    ⟨trivial, ⟨rfl, 1, by decide +kernel, by decide +kernel⟩, hreconnect, trivial, trivial, trivial, trivial⟩
  exact ⟨(swap_changes_nothing 2 _ (by decide) (by decide +kernel) hkept).1, by decide +kernel⟩

/-- A counter with a minute to live, incremented and read again after the minute: one provider has
let it go, the other keeps it for good. So does a value saved and loaded again. -/
theorem deadline_lost :
    let counted := run step (start 1000)
      [(0, .set "attempts" (.integer 1) 60), (1, .incr "attempts" 1), (60002, .get "attempts")]
    let restarted := run step (start 1000) [(0, .set "lockout" (.text "yes") 60), (1, .reconnect), (60002, .get "lockout")]
    let words := run step (start 1000) [(0, .set "word" (.text "ada") 0), (1, .incr "word" 1)]
    counted.memoryAnswers = [some "2", some "2"] ∧ counted.redisAnswers = [some "2", none] ∧
      restarted.memoryAnswers = [some "yes"] ∧ restarted.redisAnswers = [none] ∧
      words.memoryAnswers = [some "1"] ∧ words.redisAnswers = [some "0"] := by
  decide +kernel

end SwapRun
end SynQt
