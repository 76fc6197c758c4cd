import Std.Data.TreeMap.Lemmas
import Mathlib.Data.Finset.Card

/-! What a sorted map holds, as a finite set of entries, and the keys they are under. -/
namespace SynQt.SortedMap
universe u v
variable {κ : Type u} {α : Type v} [Ord κ] [Std.TransOrd κ]

theorem nodup_keys {m : Std.TreeMap κ α} [Std.LawfulEqOrd κ] : (m.toList.map Prod.fst).Nodup := by
  rw [Std.TreeMap.map_fst_toList_eq_keys]
  exact Std.TreeMap.nodup_keys

variable [DecidableEq κ]

def keySet (m : Std.TreeMap κ α) : Finset κ := (m.toList.map Prod.fst).toFinset

def entries [DecidableEq α] (m : Std.TreeMap κ α) : Finset (κ × α) := m.toList.toFinset

variable [Std.LawfulEqOrd κ] {m : Std.TreeMap κ α}

theorem mem_keySet {key : κ} : key ∈ keySet m ↔ ∃ value, m[key]? = some value := by
  rw [keySet, List.mem_toFinset, List.mem_map]
  constructor
  · rintro ⟨⟨k, value⟩, hin, rfl⟩
    exact ⟨value, Std.TreeMap.mem_toList_iff_getElem?_eq_some.mp hin⟩
  · rintro ⟨value, hvalue⟩
    exact ⟨(key, value), Std.TreeMap.mem_toList_iff_getElem?_eq_some.mpr hvalue, rfl⟩

theorem card_keySet : (keySet m).card = m.size := by
  rw [keySet, List.toFinset_card_of_nodup nodup_keys, List.length_map, Std.TreeMap.length_toList]

theorem lookup_insert (key : κ) (value : α) (k : κ) :
    (m.insert key value)[k]? = if key = k then some value else m[k]? := by
  rw [Std.TreeMap.getElem?_insert]
  simp only [Std.LawfulEqOrd.compare_eq_iff_eq]

theorem keySet_insert (key : κ) (value : α) : keySet (m.insert key value) = insert key (keySet m) := by
  ext k
  rw [mem_keySet, lookup_insert, Finset.mem_insert, mem_keySet]
  by_cases hk : key = k
  · subst hk
    simp
  · have hne : k ≠ key := Ne.symm hk
    simp [hk, hne]

variable [DecidableEq α]

theorem mem_entries {key : κ} {value : α} : (key, value) ∈ entries m ↔ m[key]? = some value := by
  rw [entries, List.mem_toFinset, Std.TreeMap.mem_toList_iff_getElem?_eq_some]

theorem card_entries : (entries m).card = m.size := by
  rw [entries, List.toFinset_card_of_nodup (List.Nodup.of_map Prod.fst nodup_keys), Std.TreeMap.length_toList]

theorem entries_insert (key : κ) (value : α) :
    entries (m.insert key value) = insert (key, value) ((entries m).filter fun entry => entry.1 ≠ key) := by
  ext entry
  obtain ⟨k, v⟩ := entry
  rw [mem_entries, lookup_insert, Finset.mem_insert, Finset.mem_filter, mem_entries]
  by_cases hk : key = k
  · subst hk
    simp [eq_comm]
  · have hne : k ≠ key := Ne.symm hk
    simp [hk, hne]

/-- The entries under other keys are one fewer where the key is there. -/
theorem card_others (key : κ) :
    ((entries m).filter fun entry => entry.1 ≠ key).card + (if key ∈ keySet m then 1 else 0) = m.size := by
  rw [← card_entries (m := m), ← Finset.card_filter_add_card_filter_not (s := entries m) fun entry => entry.1 ≠ key]
  congr 1
  split
  · next hin =>
    obtain ⟨value, hvalue⟩ := mem_keySet.mp hin
    have hone : ((entries m).filter fun entry => ¬ entry.1 ≠ key) = {(key, value)} := by
      ext entry
      obtain ⟨k, v⟩ := entry
      rw [Finset.mem_filter, Finset.mem_singleton, mem_entries, not_not]
      constructor
      · rintro ⟨hv, rfl⟩
        rw [hvalue] at hv
        rw [Option.some.inj hv]
      · intro he
        obtain ⟨rfl, rfl⟩ := Prod.mk.inj he
        exact ⟨hvalue, rfl⟩
    rw [hone, Finset.card_singleton]
  · next hout =>
    refine (Finset.card_eq_zero.mpr (Finset.filter_eq_empty_iff.mpr ?_)).symm
    rintro ⟨k, v⟩ hin hk
    rw [not_not] at hk
    rw [← hk] at hout
    exact hout (mem_keySet.mpr ⟨v, mem_entries.mp hin⟩)

end SynQt.SortedMap
