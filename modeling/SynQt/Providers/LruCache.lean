import SynQt.Providers.CacheRefinement

/-! What the in-process cache is for: values with lifetimes under a bounded number of keys. What a
key was last set to is kept beside the table, and a lapsed value is never swept out of it. -/
namespace SynQt
open Lib Function

def lapsed {V : Type} (now : Int) (v : V × Int) : Bool := decide (0 < v.2) && decide (v.2 < now)

structure LruCache (V : Type) where
  bound : Nat
  table : LruMap QString (V × Int) := .empty
  /-- What each key was last set to, with its deadline, unless it was deleted or evicted since. -/
  last : QString → Option (V × Int) := fun _ => none

namespace LruCache
variable {V : Type}

def answer (q : Variants V) (c : LruCache V) (now : Int) (key : QString) : V :=
  match c.last key with
  | none => q.invalid
  | some v => if lapsed now v then q.invalid else v.1

/-- A read is a use of a key that is held, and the end of one that has lapsed. -/
def read (c : LruCache V) (now : Int) (key : QString) : LruCache V :=
  { c with
    table :=
      match c.table.held key with
      | none => c.table
      | some v => if lapsed now v then c.table.erase key else c.table.use key }

def set (c : LruCache V) (now : Int) (key : QString) (value : V) (ttlSeconds : Int) : LruCache V :=
  let v := (value, expiryFor now ttlSeconds)
  let evictee := ((c.table.write key v).use key).evictee c.bound
  { c with
    table := c.table.put c.bound key v
    last := fun key' => if evictee = some key' then none else update c.last key (some v) key' }

def del (c : LruCache V) (key : QString) : LruCache V :=
  { c with table := c.table.erase key, last := update c.last key none }

/-- A new deadline for a value that has not lapsed. It is not a use. -/
def expire (c : LruCache V) (now : Int) (key : QString) (ttlSeconds : Int) : LruCache V :=
  { c with
    table :=
      match c.table.held key with
      | none => c.table
      | some v => if lapsed now v then c.table.erase key else c.table.write key (v.1, expiryFor now ttlSeconds)
    last :=
      match c.last key with
      | none => c.last
      | some v => if lapsed now v then c.last else update c.last key (some (v.1, expiryFor now ttlSeconds)) }

def clear (c : LruCache V) : LruCache V := { bound := c.bound }

/-- The table holds what was last set, but for lapsed values it has already let go of. -/
def Agrees (now : Int) (c : LruCache V) : Prop :=
  ∀ key, c.table.held key = c.last key ∨ (c.table.held key = none ∧ ∃ v, c.last key = some v ∧ lapsed now v = true)

variable {now now' : Int} {c : LruCache V}

theorem lapsed_mono {v : V × Int} (hle : now ≤ now') (h : lapsed now v = true) : lapsed now' v = true := by
  simp only [lapsed, Bool.and_eq_true, decide_eq_true_eq] at h ⊢
  omega

section
variable (h : Agrees now c)
include h

theorem Agrees.mono (hle : now ≤ now') : Agrees now' c := by
  intro key
  rcases h key with hsame | ⟨hnone, v, hlast, hlapsed⟩
  · exact .inl hsame
  · exact .inr ⟨hnone, v, hlast, lapsed_mono hle hlapsed⟩

section
variable (key : QString)

theorem Agrees.read : Agrees now (c.read now key) := by
  intro key'
  rw [LruCache.read]
  cases hheld : c.table.held key with
  | none => exact h key'
  | some v =>
    have hlast : c.last key = some v := by
      rcases h key with hsame | ⟨hnone, -⟩
      · rw [← hsame, hheld]
      · rw [hheld] at hnone
        cases hnone
    dsimp only
    split
    · next hlapsed =>
      rw [LruMap.held_erase]
      by_cases hkey : key' = key
      · subst hkey
        rw [if_pos rfl]
        exact .inr ⟨rfl, v, hlast, hlapsed⟩
      · rw [if_neg hkey]
        exact h key'
    · exact h key'

theorem Agrees.set (value : V) (ttlSeconds : Int) :
    Agrees now (c.set now key value ttlSeconds) := by
  intro key'
  rw [LruCache.set, LruMap.put]
  dsimp only
  rw [LruMap.held_evict]
  split
  · exact .inl rfl
  · rw [LruMap.held_use, LruMap.held_write, update_apply]
    split
    · exact .inl rfl
    · exact h key'

theorem Agrees.del : Agrees now (c.del key) := by
  intro key'
  rw [LruCache.del, LruMap.held_erase]
  dsimp only
  rw [update_apply]
  split
  · exact .inl rfl
  · exact h key'

theorem Agrees.expire (ttlSeconds : Int) : Agrees now (c.expire now key ttlSeconds) := by
  intro key'
  rw [LruCache.expire]
  dsimp only
  rcases h key with hsame | ⟨hnone, v, hlast, hlapsed⟩
  · rw [← hsame]
    cases hheld : c.table.held key with
    | none => exact h key'
    | some v =>
      rw [hheld] at hsame
      dsimp only
      split
      · next hlapsed =>
        rw [LruMap.held_erase]
        by_cases hkey : key' = key
        · subst hkey
          rw [if_pos rfl]
          exact .inr ⟨rfl, v, hsame.symm, hlapsed⟩
        · rw [if_neg hkey]
          exact h key'
      · rw [LruMap.held_write, update_apply]
        split
        · exact .inl rfl
        · exact h key'
  · rw [hnone, hlast]
    dsimp only
    rw [if_pos hlapsed]
    exact h key'

end

end

theorem agrees_clear (c : LruCache V) : Agrees now c.clear := fun _ => .inl rfl

end LruCache

namespace MemoryCacheProvider
variable {V : Type} {q : Variants V} {m : MemoryCacheProvider V} {now : Int} {c : LruCache V}

structure Simulates (m : MemoryCacheProvider V) (now : Int) (c : LruCache V) : Prop where
  stands : Stands m c.bound c.table
  agrees : c.Agrees now

theorem simulates_make (filed : Bool) (maxEntries : Int) (now : Int) :
    Simulates (make filed maxEntries : MemoryCacheProvider V) now { bound := (max 1 maxEntries).toNat } where
  stands :=
    { represents := ⟨fun _ => rfl, rfl, List.nodup_nil, fun _ _ h => (by cases h), fun _ h => (by cases h),
        LruMap.used_empty⟩
      boundIs := by
        rw [make]
        dsimp only
        split <;> omega
      fits := Nat.zero_le _ }
  agrees _ := .inl rfl

section
variable (h : Simulates m now c)
include h

theorem Simulates.mono {now' : Int} (hle : now ≤ now') : Simulates m now' c :=
  ⟨h.stands, h.agrees.mono hle⟩

section
variable (key : QString)

theorem Simulates.get :
    Simulates (m.get q now key).1 now (c.read now key) ∧ (m.get q now key).2 = c.answer q now key := by
  have hstands := h.stands
  have hrepresents := hstands.represents
  have hagrees := h.agrees key
  rw [MemoryCacheProvider.get, LruCache.answer]
  cases hfind : m.entries.find key with
  | none =>
    have hheld := hrepresents.held_of_none hfind
    have hread : c.read now key = c := by
      rw [LruCache.read, hheld]
    rw [hread]
    refine ⟨h, ?_⟩
    rw [hheld] at hagrees
    rcases hagrees with hlast | ⟨-, v, hlast, hlapsed⟩
    · rw [← hlast]
    · rw [hlast]
      dsimp only
      rw [if_pos hlapsed]
  | some entry =>
    have hheld := hrepresents.held_of_find hfind
    have hlast : c.last key = some (entry.value, entry.expiresMs) := by
      rcases hagrees with hsame | ⟨hnone, -⟩
      · rw [← hsame, hheld]
      · rw [hheld] at hnone
        cases hnone
    have hread : (c.read now key).table =
        if lapsed now (entry.value, entry.expiresMs) then c.table.erase key else c.table.use key := by
      rw [LruCache.read, hheld]
    have hexpired : isExpired now entry = lapsed now (entry.value, entry.expiresMs) := rfl
    have hkept := h.agrees.read key
    rw [hlast]
    dsimp only
    rw [hexpired]
    by_cases hlapsed : lapsed now (entry.value, entry.expiresMs) = true
    · rw [if_pos hlapsed] at hread
      rw [if_pos hlapsed, if_pos hlapsed]
      refine ⟨⟨⟨?_, hstands.boundIs, ?_⟩, hkept⟩, rfl⟩
      · rw [hread]
        exact hrepresents.drop hfind
      · rw [hread]
        exact (LruMap.length_order_erase_le ..).trans hstands.fits
    · have hsome : (c.table.held key).isSome = true := by
        rw [hheld]
        rfl
      rw [if_neg hlapsed] at hread
      rw [if_neg hlapsed, if_neg hlapsed]
      refine ⟨⟨⟨?_, hstands.boundIs, ?_⟩, hkept⟩, rfl⟩
      · rw [hread]
        exact hrepresents.touch hfind
      · rw [hread]
        exact (LruMap.length_order_use_le hrepresents.used hsome).trans hstands.fits

theorem Simulates.set (value : V) (ttlSeconds : Int) :
    Simulates (m.set now key value ttlSeconds) now (c.set now key value ttlSeconds) :=
  ⟨h.stands.set now key value ttlSeconds, h.agrees.set key value ttlSeconds⟩

theorem Simulates.del : Simulates (m.del key) now (c.del key) := by
  have hstands := h.stands
  refine ⟨⟨?_, ?_, ?_⟩, h.agrees.del key⟩
  · rw [MemoryCacheProvider.del, LruCache.del]
    cases hfind : m.entries.find key with
    | none => exact hstands.represents.erase_absent hfind
    | some entry => exact hstands.represents.drop hfind
  · rw [MemoryCacheProvider.del]
    split
    · exact hstands.boundIs
    · exact hstands.boundIs
  · exact (LruMap.length_order_erase_le ..).trans hstands.fits

theorem Simulates.expire (ttlSeconds : Int) :
    Simulates (m.expire now key ttlSeconds) now (c.expire now key ttlSeconds) := by
  have hstands := h.stands
  have hrepresents := hstands.represents
  have hkept := h.agrees.expire key ttlSeconds
  rw [MemoryCacheProvider.expire]
  cases hfind : m.entries.find key with
  | none =>
    have htable : (c.expire now key ttlSeconds).table = c.table := by
      rw [LruCache.expire, hrepresents.held_of_none hfind]
    refine ⟨⟨?_, hstands.boundIs, ?_⟩, hkept⟩
    · rw [htable]
      exact hrepresents
    · rw [htable]
      exact hstands.fits
  | some entry =>
    have hheld := hrepresents.held_of_find hfind
    have htable : (c.expire now key ttlSeconds).table =
        if lapsed now (entry.value, entry.expiresMs) then c.table.erase key
        else c.table.write key (entry.value, expiryFor now ttlSeconds) := by
      rw [LruCache.expire, hheld]
    have hexpired : isExpired now entry = lapsed now (entry.value, entry.expiresMs) := rfl
    dsimp only
    rw [hexpired]
    by_cases hlapsed : lapsed now (entry.value, entry.expiresMs) = true
    · rw [if_pos hlapsed] at htable
      rw [if_pos hlapsed]
      refine ⟨⟨?_, hstands.boundIs, ?_⟩, hkept⟩
      · rw [htable]
        exact hrepresents.drop hfind
      · rw [htable]
        exact (LruMap.length_order_erase_le ..).trans hstands.fits
    · have hsome : (c.table.held key).isSome = true := by
        rw [hheld]
        rfl
      rw [if_neg hlapsed] at htable
      rw [if_neg hlapsed]
      refine ⟨⟨?_, hstands.boundIs, ?_⟩, hkept⟩
      · rw [htable]
        exact hrepresents.rewrite hfind
          (show ({ entry with expiresMs := expiryFor now ttlSeconds } : CacheEntry V).recency = entry.recency from rfl)
      · rw [htable, LruMap.order_write hsome]
        exact hstands.fits

end

end

end MemoryCacheProvider
end SynQt
