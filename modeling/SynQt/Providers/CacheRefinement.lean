import SynQt.Providers.MemoryCacheProvider
import SynQt.Lib.Run

/-! The hash and the recency list of the in-process cache as one map that lets go of its least
recently used key. -/
namespace SynQt
open Lib LruMap List

namespace MemoryCacheProvider
variable {V : Type}

/-- The entries are what the map holds, the nodes are its keys by last use, and each entry's
place is the node of its key. -/
structure Represents (m : MemoryCacheProvider V) (q : LruMap QString (V × Int)) : Prop where
  holds : ∀ key, (m.entries.find key).map (fun entry => (entry.value, entry.expiresMs)) = q.held key
  ordered : m.lru.map Prod.snd = q.order
  addresses : (m.lru.map Prod.fst).Nodup
  placed : ∀ key entry, m.entries.find key = some entry → (entry.recency, key) ∈ m.lru
  older : ∀ node ∈ m.lru, node.1 < m.nodes
  used : q.Used

variable {m : MemoryCacheProvider V} {q : LruMap QString (V × Int)} {key : QString} {entry : CacheEntry V}

section
variable (h : Represents m q)
include h

theorem Represents.held_of_find (hfind : m.entries.find key = some entry) :
    q.held key = some (entry.value, entry.expiresMs) := by
  rw [← h.holds key, hfind]
  rfl

theorem Represents.held_of_none (hfind : m.entries.find key = none) : q.held key = none := by
  rw [← h.holds key, hfind]
  rfl

private theorem Represents.isSome_held (key : QString) :
    (q.held key).isSome = (m.entries.find key).isSome := by
  rw [← h.holds key, Option.isSome_map]

theorem Represents.nodup_keys : (m.lru.map Prod.snd).Nodup := by
  rw [h.ordered]
  exact q.nodup_order

theorem Represents.perm : (m.lru.map Prod.snd).Perm (m.entries.entries.map Prod.fst) := by
  apply (perm_ext_iff_of_nodup h.nodup_keys (Hash.nodup_keys m.entries)).mpr
  intro key
  rw [h.ordered, mem_order h.used, h.isSome_held, mem_map]
  constructor
  · intro hsome
    obtain ⟨entry, hfind⟩ := Option.isSome_iff_exists.mp hsome
    exact ⟨(key, entry), (Hash.mem_entries _ _ _).mpr hfind, rfl⟩
  · rintro ⟨⟨_, entry⟩, hmem, rfl⟩
    rw [(Hash.mem_entries _ _ _).mp hmem]
    rfl

theorem Represents.size_eq : m.entries.size = q.order.length := by
  rw [← h.ordered, h.perm.length_eq, length_map, Hash.length_entries]

section
variable (hfind : m.entries.find key = some entry)
include hfind

/-- Among the nodes, an entry's place is known by the address as well as by the key. -/
theorem Represents.same_node :
    ∀ node ∈ m.lru, (node.1 = entry.recency ↔ node.2 = key) := by
  intro node hnode
  have hplace := h.placed key entry hfind
  constructor
  · intro haddress
    have hsame : node = (entry.recency, key) := inj_on_of_nodup_map h.addresses hnode hplace haddress
    rw [hsame]
  · intro hkey
    have hsame : node = (entry.recency, key) := inj_on_of_nodup_map h.nodup_keys hnode hplace hkey
    rw [hsame]

theorem Represents.others :
    (m.lru.filter (fun node => node.1 ≠ entry.recency)).map Prod.snd = q.order.filter (· ≠ key) := by
  have hsame : m.lru.filter (fun node => node.1 ≠ entry.recency) = m.lru.filter ((· ≠ key) ∘ Prod.snd) := by
    apply filter_congr
    intro node hnode
    simp only [ne_eq, Function.comp_apply, decide_not, h.same_node hfind node hnode]
  rw [hsame, ← h.ordered, filter_map]

theorem Represents.own :
    m.lru.filter (fun node => node.1 = entry.recency) = [(entry.recency, key)] := by
  have hplace := h.placed key entry hfind
  have hnd : m.lru.Nodup := List.Nodup.of_map _ h.addresses
  have hsame : m.lru.filter (fun node => node.1 = entry.recency) = m.lru.filter (· = (entry.recency, key)) := by
    apply filter_congr
    intro node hnode
    rw [decide_eq_decide]
    constructor
    · intro haddress
      exact Prod.ext haddress ((h.same_node hfind node hnode).mp haddress)
    · rintro rfl
      rfl
  rw [hsame, filter_eq, count_eq_one_of_mem hnd hplace]
  rfl

end

end

private theorem touch_perm (m : MemoryCacheProvider V) (entry : CacheEntry V) : (m.touch entry).lru.Perm m.lru := by
  have hparts := filter_append_perm (fun node : Nat × QString => decide (node.1 = entry.recency)) m.lru
  rw [MemoryCacheProvider.touch]
  simp only [ne_eq, decide_not]
  exact perm_append_comm.trans hparts

section
variable (h : Represents m q)
include h

theorem Represents.touch (hfind : m.entries.find key = some entry) :
    Represents (m.touch entry) (q.use key) where
  holds := h.holds
  ordered := by
    have hheld : (q.held key).isSome = true := by
      rw [h.isSome_held, hfind]
      rfl
    rw [MemoryCacheProvider.touch, map_append, h.others hfind, h.own hfind, order_use hheld]
    rfl
  addresses := (((touch_perm m entry).map Prod.fst).nodup_iff).mpr h.addresses
  placed key' entry' hfind' := (touch_perm m entry).mem_iff.mpr (h.placed key' entry' hfind')
  older node hnode := h.older node ((touch_perm m entry).mem_iff.mp hnode)
  used := h.used.use key

theorem Represents.drop (hfind : m.entries.find key = some entry) :
    Represents (m.drop key entry) (q.erase key) where
  holds key' := by
    rw [MemoryCacheProvider.drop, held_erase, Hash.find_erase]
    by_cases hkey : key' = key
    · rw [if_pos hkey, if_pos hkey]
      rfl
    · rw [if_neg hkey, if_neg hkey]
      exact h.holds key'
  ordered := by
    rw [MemoryCacheProvider.drop, h.others hfind, order_erase]
  addresses := h.addresses.sublist (filter_sublist.map Prod.fst)
  placed key' entry' hfind' := by
    rw [MemoryCacheProvider.drop, Hash.find_erase] at hfind'
    by_cases hkey : key' = key
    · rw [if_pos hkey] at hfind'
      cases hfind'
    · rw [if_neg hkey] at hfind'
      have hplace := h.placed key' entry' hfind'
      have hother : ¬ entry'.recency = entry.recency := fun heq => hkey ((h.same_node hfind _ hplace).mp heq)
      exact mem_filter.mpr ⟨hplace, decide_eq_true hother⟩
  older node hnode := h.older node (mem_filter.mp hnode).1
  used := h.used.erase key

theorem Represents.erase_absent (hfind : m.entries.find key = none) : Represents m (q.erase key) where
  holds key' := by
    rw [held_erase]
    by_cases hkey : key' = key
    · rw [if_pos hkey, hkey, hfind]
      rfl
    · rw [if_neg hkey]
      exact h.holds key'
  ordered := by
    have habsent : key ∉ q.order := by
      rw [mem_order h.used, h.held_of_none hfind]
      exact Bool.false_ne_true
    rw [order_erase, h.ordered, filter_absent habsent]
  addresses := h.addresses
  placed := h.placed
  older := h.older
  used := h.used.erase key

theorem Represents.rewrite (hfind : m.entries.find key = some entry) {entry' : CacheEntry V}
    (hplace : entry'.recency = entry.recency) :
    Represents { m with entries := m.entries.insert key entry' } (q.write key (entry'.value, entry'.expiresMs)) where
  holds key' := by
    rw [held_write, Hash.find_insert]
    by_cases hkey : key' = key
    · rw [if_pos hkey, if_pos hkey]
      rfl
    · rw [if_neg hkey, if_neg hkey]
      exact h.holds key'
  ordered := by
    have hheld : (q.held key).isSome = true := by
      rw [h.isSome_held, hfind]
      rfl
    rw [order_write hheld]
    exact h.ordered
  addresses := h.addresses
  placed key' other hfind' := by
    rw [Hash.find_insert] at hfind'
    by_cases hkey : key' = key
    · subst hkey
      rw [if_pos rfl] at hfind'
      cases hfind'
      rw [hplace]
      exact h.placed key' entry hfind
    · rw [if_neg hkey] at hfind'
      exact h.placed key' other hfind'
  older := h.older
  used := by
    have hheld : (q.held key).isSome = true := by
      rw [h.isSome_held, hfind]
      rfl
    exact h.used.write (h.used key hheld) _

/-- A key that is new, with a node of its own at the back. -/
theorem Represents.append (hfind : m.entries.find key = none) {entry : CacheEntry V}
    (hplace : entry.recency = m.nodes) :
    Represents { m with lru := m.lru ++ [(m.nodes, key)], nodes := m.nodes + 1, entries := m.entries.insert key entry }
      ((q.write key (entry.value, entry.expiresMs)).use key) where
  holds key' := by
    rw [held_use, held_write, Hash.find_insert]
    by_cases hkey : key' = key
    · rw [if_pos hkey, if_pos hkey]
      rfl
    · rw [if_neg hkey, if_neg hkey]
      exact h.holds key'
  ordered := by
    have hnew : key ∉ q.order := by
      rw [mem_order h.used, h.held_of_none hfind]
      exact Bool.false_ne_true
    rw [map_append, h.ordered, order_write_use, filter_absent hnew]
    rfl
  addresses := by
    rw [map_append, nodup_append]
    refine ⟨h.addresses, nodup_singleton _, ?_⟩
    intro address haddress last hlast heq
    obtain ⟨node, hnode, rfl⟩ := mem_map.mp haddress
    have hlt := h.older node hnode
    have hself : last = m.nodes := mem_singleton.mp hlast
    omega
  placed key' entry' hfind' := by
    rw [Hash.find_insert] at hfind'
    by_cases hkey : key' = key
    · subst hkey
      rw [if_pos rfl] at hfind'
      cases hfind'
      rw [hplace]
      exact mem_append_right _ (mem_singleton_self _)
    · rw [if_neg hkey] at hfind'
      exact mem_append_left _ (h.placed key' entry' hfind')
  older node hnode := by
    rcases mem_append.mp hnode with hold | hlast
    · exact Nat.lt_succ_of_lt (h.older node hold)
    · obtain rfl := mem_singleton.mp hlast
      exact Nat.lt_succ_self m.nodes
  used := by
    intro key' hheld
    by_cases hkey : key' = key
    · subst hkey
      exact mem_append_right _ (mem_singleton_self _)
    · rw [held_use, held_write, if_neg hkey] at hheld
      exact mem_append_left _ (h.used key' hheld)

theorem Represents.evictTurn :
    Represents m.evictTurn (q.order.head?.elim q q.erase) := by
  have hordered := h.ordered
  rw [MemoryCacheProvider.evictTurn]
  cases hlru : m.lru with
  | nil =>
    rw [hlru] at hordered
    rw [← hordered]
    exact h
  | cons node rest =>
    rw [hlru, map_cons] at hordered
    have hfront : node ∈ m.lru := by
      rw [hlru]
      exact mem_cons_self
    have hstored : (m.entries.find node.2).isSome = true := by
      rw [← h.isSome_held, ← mem_order h.used, ← hordered]
      exact mem_cons_self
    obtain ⟨victim, hfind⟩ := Option.isSome_iff_exists.mp hstored
    rw [← hordered]
    simp only [hfind]
    exact h.drop hfind

end

@[simp] theorem evictTurns_fits (turns : Nat) (hfits : m.entries.size ≤ m.maxEntries) : m.evictTurns turns = m := by
  cases turns with
  | zero => rfl
  | succ turns =>
    rw [evictTurns, if_neg]
    omega

def config (m : MemoryCacheProvider V) : Bool × Bool × Nat := (m.connected, m.filed, m.maxEntries)

private theorem config_evictTurn (m : MemoryCacheProvider V) : m.evictTurn.config = m.config := by
  rw [evictTurn]
  split
  · rfl
  · split <;> rfl

private theorem config_evictTurns (turns : Nat) (m : MemoryCacheProvider V) : (m.evictTurns turns).config = m.config := by
  induction turns generalizing m with
  | zero => rfl
  | succ turns ih =>
    rw [evictTurns]
    split
    · rw [ih, config_evictTurn]
    · rfl

theorem config_set (m : MemoryCacheProvider V) (now : Int) (key : QString) (value : V) (ttlSeconds : Int) :
    (m.set now key value ttlSeconds).config = m.config := by
  rw [set]
  split
  · rfl
  · rw [evictIfNeeded, config_evictTurns]
    rfl

/-- One key over the bound, the loop lets go of the front node's key, and of no other. -/
theorem Represents.evictIfNeeded (h : Represents m q) (hover : m.entries.size ≤ m.maxEntries + 1) :
    Represents m.evictIfNeeded (q.evict m.maxEntries) := by
  have hsize := h.size_eq
  rw [MemoryCacheProvider.evictIfNeeded, evict, evictee]
  by_cases hlt : m.maxEntries < m.entries.size
  · have hlength : m.lru.length = q.order.length := by rw [← h.ordered, length_map]
    obtain ⟨turns, hturns⟩ : ∃ turns, m.lru.length = turns + 1 := ⟨m.lru.length - 1, by omega⟩
    have hsome : ¬ m.lru.isEmpty = true := by
      rw [isEmpty_iff_length_eq_zero]
      omega
    have hturn := h.evictTurn
    have hfits : m.evictTurn.entries.size ≤ m.evictTurn.maxEntries := by
      have hover : q.order.length ≤ m.maxEntries + 1 := by omega
      have hlost := order_evict hover
      rw [evict, evictee, if_pos (by omega)] at hlost
      have hbound : m.evictTurn.maxEntries = m.maxEntries := congrArg (·.2.2) (config_evictTurn m)
      rw [hbound, hturn.size_eq, hlost, length_drop]
      omega
    rw [if_pos (by omega), hturns, evictTurns, if_pos ⟨hlt, hsome⟩, evictTurns_fits _ hfits]
    exact hturn
  · rw [if_neg (by omega), evictTurns_fits _ (by omega)]
    exact h

/-- The table within its bound, and the map it is. -/
structure Stands (m : MemoryCacheProvider V) (bound : Nat) (q : LruMap QString (V × Int)) : Prop where
  represents : Represents m q
  boundIs : m.maxEntries = bound
  fits : q.order.length ≤ bound

variable {bound : Nat}

theorem Stands.set (h : Stands m bound q) (now : Int) (key : QString) (value : V) (ttlSeconds : Int) :
    Stands (m.set now key value ttlSeconds) bound (q.put bound key (value, expiryFor now ttlSeconds)) := by
  have hfits := h.fits
  have hwritten := order_write_use q key (value, expiryFor now ttlSeconds)
  have hone : ((q.write key (value, expiryFor now ttlSeconds)).use key).order.length ≤ bound + 1 := by
    rw [hwritten, length_append]
    exact Nat.succ_le_succ ((length_filter_le ..).trans hfits)
  refine ⟨?_, ?_, length_order_evict hone⟩
  · rw [MemoryCacheProvider.set]
    cases hfind : m.entries.find key with
    | some existing =>
      have hmem : key ∈ q.order := by
        rw [mem_order h.represents.used, h.represents.isSome_held, hfind]
        rfl
      have hsame : ((q.write key (value, expiryFor now ttlSeconds)).use key).order.length ≤ bound := by
        have hlt : (q.order.filter (· ≠ key)).length < q.order.length :=
          length_filter_lt_length_iff_exists.mpr ⟨key, hmem, by simp⟩
        rw [hwritten, length_append, length_singleton]
        omega
      have hrewritten := h.represents.rewrite hfind
        (show ({ existing with value := value, expiresMs := expiryFor now ttlSeconds } : CacheEntry V).recency = existing.recency from rfl)
      rw [put, evict_of_le hsame]
      exact hrewritten.touch (by rw [Hash.find_insert, if_pos rfl])
    | none =>
      have happended := h.represents.append hfind
        (show ({ value := value, expiresMs := expiryFor now ttlSeconds, recency := m.nodes } : CacheEntry V).recency = m.nodes from rfl)
      have hover := happended.size_eq
      rw [put, ← h.boundIs]
      apply happended.evictIfNeeded
      rw [hover, h.boundIs]
      exact hone
  · rw [← h.boundIs]
    exact congrArg (·.2.2) (config_set m now key value ttlSeconds)

end MemoryCacheProvider
end SynQt
