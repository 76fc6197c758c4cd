import Mathlib.Data.List.Dedup

/-! A map that lets go of its least recently used key: what it holds, and the history of the
uses that says which key that is. -/
namespace SynQt.Lib
open Function List
universe u v
variable {K : Type u} {V : Type v} [DecidableEq K]

private theorem dedup_concat (l : List K) (a : K) : (l ++ [a]).dedup = l.dedup.filter (· ≠ a) ++ [a] := by
  induction l with
  | nil => rfl
  | cons b l ih =>
    rw [cons_append]
    by_cases hb : b ∈ l
    · rw [dedup_cons_of_mem (mem_append_left _ hb), ih, dedup_cons_of_mem hb]
    · rw [dedup_cons_of_notMem hb]
      by_cases hba : b = a
      · have hmem : b ∈ l ++ [a] := by simp [hba]
        rw [dedup_cons_of_mem hmem, ih, filter_cons_of_neg (by simpa using hba)]
      · have hnot : b ∉ l ++ [a] := by simp [hb, hba]
        rw [dedup_cons_of_notMem hnot, ih, filter_cons_of_pos (by simpa using hba)]
        rfl

/-- What a map holds, and every use of a key, oldest first. -/
structure LruMap (K : Type u) (V : Type v) where
  held : K → Option V
  uses : List K

namespace LruMap

def empty : LruMap K V := ⟨fun _ => none, []⟩

/-- The keys held, the least recently used first. -/
def order (q : LruMap K V) : List K := q.uses.dedup.filter fun k => (q.held k).isSome

def use (q : LruMap K V) (k : K) : LruMap K V := { q with uses := q.uses ++ [k] }

/-- A new value in a key's place. It is not a use. -/
def write (q : LruMap K V) (k : K) (v : V) : LruMap K V := { q with held := update q.held k (some v) }

def erase (q : LruMap K V) (k : K) : LruMap K V := { q with held := update q.held k none }

def evictee (bound : Nat) (q : LruMap K V) : Option K := if bound < q.order.length then q.order.head? else none

def evict (bound : Nat) (q : LruMap K V) : LruMap K V := (q.evictee bound).elim q q.erase

def put (bound : Nat) (q : LruMap K V) (k : K) (v : V) : LruMap K V := ((q.write k v).use k).evict bound

variable {q : LruMap K V} {k : K}

omit [DecidableEq K] in
@[simp] theorem held_use (q : LruMap K V) (k k' : K) : (q.use k).held k' = q.held k' := rfl

theorem held_write (q : LruMap K V) (k k' : K) (v : V) :
    (q.write k v).held k' = if k' = k then some v else q.held k' :=
  update_apply ..

theorem held_erase (q : LruMap K V) (k k' : K) : (q.erase k).held k' = if k' = k then none else q.held k' :=
  update_apply ..

theorem held_evict (bound : Nat) (q : LruMap K V) (k : K) :
    (q.evict bound).held k = if q.evictee bound = some k then none else q.held k := by
  rw [evict]
  cases q.evictee bound with
  | none => rfl
  | some lost =>
    rw [Option.elim_some, held_erase]
    simp only [Option.some.injEq, eq_comm]

def Used (q : LruMap K V) : Prop := ∀ k, (q.held k).isSome = true → k ∈ q.uses

theorem nodup_order (q : LruMap K V) : q.order.Nodup := q.uses.nodup_dedup.filter _

theorem mem_order (h : q.Used) (k : K) : k ∈ q.order ↔ (q.held k).isSome = true := by
  rw [order, mem_filter, mem_dedup]
  exact ⟨fun hk => hk.2, fun hk => ⟨h k hk, hk⟩⟩

omit [DecidableEq K] in
theorem used_empty : (empty : LruMap K V).Used := fun _ h => absurd h (by simp [empty])

section
variable (h : q.Used)
include h

omit [DecidableEq K] in
theorem Used.use (k : K) : (q.use k).Used := fun k' hk' => mem_append_left _ (h k' hk')

theorem Used.erase (k : K) : (q.erase k).Used := by
  intro k' hk'
  by_cases heq : k' = k
  · subst heq
    simp [LruMap.erase] at hk'
  · exact h k' (by simpa [LruMap.erase, heq] using hk')

theorem Used.write (hk : k ∈ q.uses) (v : V) : (q.write k v).Used := by
  intro k' hk'
  by_cases heq : k' = k
  · subst heq
    exact hk
  · exact h k' (by simpa [LruMap.write, heq] using hk')

theorem Used.evict (bound : Nat) : (q.evict bound).Used := by
  rw [LruMap.evict]
  cases q.evictee bound with
  | none => exact h
  | some k => exact h.erase k

theorem Used.put (bound : Nat) (k : K) (v : V) : (q.put bound k v).Used := by
  apply Used.evict
  intro k' hk'
  by_cases heq : k' = k
  · subst heq
    exact mem_append_right _ (mem_singleton_self k')
  · exact mem_append_left _ (h k' (by simpa [LruMap.write, LruMap.use, heq] using hk'))

end

theorem filter_absent {l : List K} (h : k ∉ l) : l.filter (· ≠ k) = l := by
  apply filter_eq_self.mpr
  intro k' hk'
  have hne : k' ≠ k := fun heq => h (heq ▸ hk')
  exact decide_eq_true hne

theorem order_use (hk : (q.held k).isSome = true) : (q.use k).order = q.order.filter (· ≠ k) ++ [k] := by
  rw [order, use, dedup_concat, filter_append, order, filter_comm]
  simp only [filter_cons, hk, if_true, filter_nil]

theorem order_erase (q : LruMap K V) (k : K) : (q.erase k).order = q.order.filter (· ≠ k) := by
  rw [order, order, erase, filter_filter]
  apply filter_congr
  intro k' _
  by_cases heq : k' = k
  · subst heq
    simp
  · simp [heq]

/-- A value written in a held key's place leaves the order as it is. -/
theorem order_write (hk : (q.held k).isSome = true) (v : V) : (q.write k v).order = q.order := by
  rw [order, order, write]
  apply filter_congr
  intro k' _
  by_cases heq : k' = k
  · subst heq
    simp [hk]
  · simp [heq]

/-- Written and used, a key comes last, held before or not. -/
theorem order_write_use (q : LruMap K V) (k : K) (v : V) :
    ((q.write k v).use k).order = q.order.filter (· ≠ k) ++ [k] := by
  have hheld : ((q.write k v).held k).isSome = true := by simp [write]
  rw [order_use hheld, order, order, filter_filter, filter_filter]
  congr 1
  apply filter_congr
  intro k' _
  by_cases heq : k' = k
  · subst heq
    simp
  · simp [write, heq]

/-- Past its bound by one, a map loses exactly the least recently used key. -/
theorem order_evict {bound : Nat} (hover : q.order.length ≤ bound + 1) :
    (q.evict bound).order = q.order.drop (q.order.length - bound) := by
  rw [evict, evictee]
  split
  · next hlt =>
    cases horder : q.order with
    | nil =>
      rw [horder] at hlt
      exact absurd hlt (Nat.not_lt_zero _)
    | cons first rest =>
      have hnd := nodup_order q
      rw [horder] at hover hlt hnd
      have hlost : (first :: rest).length - bound = 1 := by omega
      have hkept : rest.filter (· ≠ first) = rest := filter_absent (nodup_cons.mp hnd).1
      rw [List.head?_cons, Option.elim_some, order_erase, horder, hlost, filter_cons_of_neg (by simp), hkept]
      rfl
  · next hle =>
    have hnone : q.order.length - bound = 0 := by omega
    rw [hnone]
    rfl

theorem length_order_erase_le (q : LruMap K V) (k : K) : (q.erase k).order.length ≤ q.order.length := by
  rw [order_erase]
  exact length_filter_le ..

theorem length_order_use_le (h : q.Used) (hk : (q.held k).isSome = true) :
    (q.use k).order.length ≤ q.order.length := by
  have hmem : k ∈ q.order := (mem_order h k).mpr hk
  have hlt : (q.order.filter (· ≠ k)).length < q.order.length :=
    length_filter_lt_length_iff_exists.mpr ⟨k, hmem, by simp⟩
  rw [order_use hk, length_append, length_singleton]
  exact hlt

theorem evict_of_le {bound : Nat} (hle : q.order.length ≤ bound) : q.evict bound = q := by
  rw [evict, evictee, if_neg (Nat.not_lt.mpr hle)]
  rfl

theorem length_order_evict {bound : Nat} (hover : q.order.length ≤ bound + 1) : (q.evict bound).order.length ≤ bound := by
  rw [order_evict hover, length_drop]
  omega

end LruMap
end SynQt.Lib
