import Mathlib.Data.List.AList

/-! Keyed tables with one entry a key: Mathlib's association lists over a type of values
that does not depend on the key, read through `find`. -/
namespace SynQt.Lib
open List
universe u v

def Hash (α : Type u) (β : Type v) := AList (fun _ : α => β)

namespace Hash
variable {α : Type u} {β : Type v}

def empty : Hash α β := (∅ : AList fun _ : α => β)

instance : EmptyCollection (Hash α β) := ⟨empty⟩

def entries (h : Hash α β) : List (α × β) := (AList.entries h).map (fun e => (e.1, e.2))

theorem nodup_keys (h : Hash α β) : (h.entries.map Prod.fst).Nodup := by
  have hk : (h.entries.map Prod.fst) = (AList.entries h).keys := by
    simp [entries, List.keys, Function.comp_def]
  rw [hk]
  exact AList.nodupKeys h

def size (h : Hash α β) : Nat := (AList.entries h).length

def filter (p : α → β → Bool) (h : Hash α β) : Hash α β :=
  ⟨(AList.entries h).filter (fun e => p e.1 e.2), (AList.nodupKeys h).sublist filter_sublist⟩

@[simp] theorem size_empty : (∅ : Hash α β).size = 0 := rfl

theorem size_filter_le (p : α → β → Bool) (h : Hash α β) : (h.filter p).size ≤ h.size :=
  length_filter_le _ _

variable [DecidableEq α]

instance [DecidableEq β] : DecidableEq (Hash α β) :=
  inferInstanceAs (DecidableEq (AList fun _ : α => β))

def find (h : Hash α β) (k : α) : Option β := AList.lookup k h
def insert (h : Hash α β) (k : α) (v : β) : Hash α β := AList.insert k v h
def erase (h : Hash α β) (k : α) : Hash α β := AList.erase k h
def contains (h : Hash α β) (k : α) : Bool := (h.find k).isSome

@[simp] theorem find_empty (k : α) : (∅ : Hash α β).find k = none := AList.lookup_empty k

theorem find_insert (h : Hash α β) (k k' : α) (v : β) :
    (h.insert k v).find k' = if k' = k then some v else h.find k' := by
  by_cases hk : k' = k
  · subst hk
    rw [if_pos rfl]
    exact AList.lookup_insert h
  · rw [if_neg hk]
    exact AList.lookup_insert_ne hk

theorem find_erase (h : Hash α β) (k k' : α) :
    (h.erase k).find k' = if k' = k then none else h.find k' := by
  by_cases hk : k' = k
  · subst hk
    rw [if_pos rfl]
    exact AList.lookup_erase k' h
  · rw [if_neg hk]
    exact AList.lookup_erase_ne hk

attribute [simp, grind =] find_insert find_erase

theorem mem_entries (h : Hash α β) (k : α) (v : β) : (k, v) ∈ h.entries ↔ h.find k = some v := by
  have hm : h.find k = some v ↔ (⟨k, v⟩ : Sigma fun _ : α => β) ∈ AList.entries h :=
    AList.mem_lookup_iff
  rw [hm, entries, mem_map]
  constructor
  · rintro ⟨⟨a, b⟩, he, hk⟩
    cases hk
    exact he
  · exact fun he => ⟨_, he, rfl⟩

@[simp] theorem find_filter_eq_some (p : α → β → Bool) (h : Hash α β) (k : α) (v : β) :
    (h.filter p).find k = some v ↔ h.find k = some v ∧ p k v = true := by
  have hm (t : Hash α β) : t.find k = some v ↔ (⟨k, v⟩ : Sigma fun _ : α => β) ∈ AList.entries t :=
    AList.mem_lookup_iff
  rw [hm, hm, filter, mem_filter]

theorem find_filter (p : α → β → Bool) (h : Hash α β) (k : α) :
    (h.filter p).find k = (h.find k).filter (p k) := by
  apply Option.ext
  intro v
  rw [find_filter_eq_some, Option.filter_eq_some_iff]

private theorem contains_iff_mem_keys (h : Hash α β) (k : α) : h.contains k = true ↔ k ∈ (AList.entries h).keys :=
  AList.lookup_isSome

/-- An entry under a new key is one entry more; under a key already there it takes the old one's place. -/
theorem size_insert (h : Hash α β) (k : α) (v : β) :
    (h.insert k v).size = if h.contains k then h.size else h.size + 1 := by
  have hsize : (h.insert k v).size = ((AList.entries h).kerase k).length + 1 := rfl
  rw [hsize]
  split
  · rename_i hk
    rw [contains_iff_mem_keys] at hk
    obtain ⟨b, l, l', -, hl, hl'⟩ := exists_of_kerase hk
    rw [size, hl', hl]
    simp only [length_append, length_cons]
    omega
  · rename_i hk
    rw [contains_iff_mem_keys] at hk
    rw [kerase_of_notMem_keys hk, size]

theorem size_insert_le (h : Hash α β) (k : α) (v : β) : (h.insert k v).size ≤ h.size + 1 := by
  rw [size_insert]
  split <;> omega

theorem size_erase {h : Hash α β} {k : α} (hk : h.contains k = true) : (h.erase k).size + 1 = h.size := by
  rw [contains_iff_mem_keys] at hk
  obtain ⟨b, l, l', -, hl, hl'⟩ := exists_of_kerase hk
  have hsize : (h.erase k).size = ((AList.entries h).kerase k).length := rfl
  rw [hsize, hl', size, hl]
  simp only [length_append, length_cons]
  omega

theorem contains_of_find {h : Hash α β} {k : α} {v : β} (hk : h.find k = some v) : h.contains k = true := by
  rw [contains, hk, Option.isSome_some]

omit [DecidableEq α] in
theorem length_entries (h : Hash α β) : h.entries.length = h.size := length_map _

/-- Every entry of `l`, put over `h`. -/
def insertAll (h : Hash α β) (l : List (α × β)) : Hash α β := l.foldl (fun t e => t.insert e.1 e.2) h

theorem find_insertAll_of_not_mem (l : List (α × β)) (h : Hash α β) {k : α} (hk : k ∉ l.map Prod.fst) :
    (h.insertAll l).find k = h.find k := by
  induction l generalizing h with
  | nil => rfl
  | cons e l ih =>
    rw [map_cons, mem_cons, not_or] at hk
    have hrest := ih (h.insert e.1 e.2) hk.2
    rw [find_insert, if_neg hk.1] at hrest
    exact hrest

theorem find_insertAll_of_mem (l : List (α × β)) (h : Hash α β) (hnd : (l.map Prod.fst).Nodup) {k : α} {v : β}
    (hm : (k, v) ∈ l) : (h.insertAll l).find k = some v := by
  induction l generalizing h with
  | nil => cases hm
  | cons e l ih =>
    rw [map_cons, nodup_cons] at hnd
    rcases mem_cons.mp hm with rfl | hrest
    · have hlast := find_insertAll_of_not_mem l (h.insert k v) hnd.1
      rw [find_insert, if_pos rfl] at hlast
      exact hlast
    · exact ih (h.insert e.1 e.2) hnd.2 hrest

theorem find_insertAll_entries (h upper : Hash α β) (k : α) :
    (h.insertAll upper.entries).find k = (upper.find k).or (h.find k) := by
  cases hk : upper.find k with
  | some v => exact find_insertAll_of_mem _ h upper.nodup_keys ((upper.mem_entries k v).mpr hk)
  | none =>
    refine find_insertAll_of_not_mem _ h fun hmem => ?_
    obtain ⟨⟨k', v⟩, he, rfl⟩ := mem_map.mp hmem
    rw [(upper.mem_entries k' v).mp he] at hk
    cases hk

theorem size_eq_of_find {h h' : Hash α β} (hsame : ∀ k, h.find k = h'.find k) : h.size = h'.size := by
  have hperm : h.entries.Perm h'.entries := by
    refine (perm_ext_iff_of_nodup (h.nodup_keys.of_map _) (h'.nodup_keys.of_map _)).mpr fun entry => ?_
    obtain ⟨k, v⟩ := entry
    rw [mem_entries, mem_entries, hsame]
  rw [← length_entries, ← length_entries, hperm.length_eq]

end Hash
end SynQt.Lib
