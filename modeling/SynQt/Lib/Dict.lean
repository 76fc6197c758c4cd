import Mathlib.Data.List.Nodup

/-! A dictionary that keeps the order its keys were first written in, as a list of entries. -/
namespace SynQt.Dict
open List
universe u v
variable {κ α : Type u} {ε : Type v} [DecidableEq κ]

/-- Writing a key: in its place where it is there, at the end where it is not. -/
def put (entries : List (κ × α)) (key : κ) (value : α) : List (κ × α) :=
  match entries with
  | [] => [(key, value)]
  | (k, v) :: rest => if k = key then (k, value) :: rest else (k, v) :: put rest key value

def keys (entries : List (κ × α)) : List κ := entries.map Prod.fst

def lookup (entries : List (κ × α)) (key : κ) : Option α := List.lookup key entries

def newKeys (entries pairs : List (κ × α)) : List κ := (keys pairs).filter (· ∉ keys entries)

theorem newKeys_of_append {entries pairs : List (κ × α)} {added : List κ} (h : keys entries ++ added = keys pairs)
    (hnd : (keys pairs).Nodup) : newKeys entries pairs = added := by
  have hold : (keys entries).filter (· ∉ keys entries) = [] := filter_eq_nil_iff.mpr fun key hin => by simpa using hin
  have hnew : added.filter (· ∉ keys entries) = added := by
    rw [← h] at hnd
    exact filter_eq_self.mpr fun key hin =>
      decide_eq_true fun hthere => disjoint_of_nodup_append hnd hthere hin
  rw [newKeys, ← h, filter_append, hold, hnew, nil_append]

theorem lookup_cons (k : κ) (v : α) (rest : List (κ × α)) (key : κ) :
    lookup ((k, v) :: rest) key = if key = k then some v else lookup rest key := by
  rw [lookup, List.lookup_cons]
  by_cases h : key = k
  · rw [if_pos h, h, beq_self_eq_true]
  · rw [if_neg h, beq_false_of_ne h]
    rfl

section
variable (entries : List (κ × α))

theorem lookup_put (key : κ) (value : α) (k : κ) :
    lookup (put entries key value) k = if k = key then some value else lookup entries k := by
  induction entries with
  | nil => exact lookup_cons key value [] k
  | cons entry rest ih =>
    obtain ⟨k', v⟩ := entry
    rw [put]
    by_cases h : k' = key
    · rw [if_pos h, lookup_cons, lookup_cons, h]
      split <;> rfl
    · rw [if_neg h, lookup_cons, lookup_cons, ih]
      by_cases hk : k = k'
      · rw [if_pos hk, if_pos hk, if_neg fun hkey => h (hk.symm.trans hkey)]
      · rw [if_neg hk, if_neg hk]

theorem keys_put (key : κ) (value : α) :
    keys (put entries key value) = if key ∈ keys entries then keys entries else keys entries ++ [key] := by
  induction entries with
  | nil => rfl
  | cons entry rest ih =>
    obtain ⟨k', v⟩ := entry
    rw [put]
    by_cases h : k' = key
    · rw [if_pos h, if_pos (by rw [← h]; exact mem_cons_self)]
      rfl
    · have hkeys : keys ((k', v) :: put rest key value) = k' :: keys (put rest key value) := rfl
      have hmem : (key ∈ keys ((k', v) :: rest)) ↔ key ∈ keys rest := by
        refine ⟨fun hin => ?_, mem_cons_of_mem _⟩
        exact (mem_cons.mp hin).resolve_left fun he => h he.symm
      rw [if_neg h, hkeys, ih]
      simp only [hmem]
      split <;> rfl

theorem lookup_eq_none_iff (key : κ) : lookup entries key = none ↔ key ∉ keys entries := by
  rw [lookup, List.lookup_eq_none_iff]
  constructor
  · intro h hin
    obtain ⟨entry, hentry, rfl⟩ := mem_map.mp hin
    exact absurd (h entry hentry) (by simp)
  · intro h entry hentry
    exact bne_iff_ne.mpr fun he => h (mem_map.mpr ⟨entry, hentry, he.symm⟩)

end

variable {entries : List (κ × α)} {key : κ} {value : α}

theorem mem_of_lookup (h : lookup entries key = some value) :
    (key, value) ∈ entries := by
  obtain ⟨before, after, rfl, -⟩ := lookup_eq_some_iff.mp h
  exact mem_append_right before mem_cons_self

/-- Where every key is there once, an entry is what its key looks up. -/
theorem lookup_of_mem (hnd : (keys entries).Nodup)
    (h : (key, value) ∈ entries) : lookup entries key = some value := by
  induction entries with
  | nil => cases h
  | cons entry rest ih =>
    obtain ⟨k, v⟩ := entry
    obtain ⟨hfresh, hrest⟩ := nodup_cons.mp hnd
    rw [lookup_cons]
    rcases mem_cons.mp h with he | hin
    · obtain ⟨rfl, rfl⟩ := Prod.mk.inj he
      exact if_pos rfl
    · have hne : key ≠ k := fun he => hfresh (mem_map.mpr ⟨(key, value), hin, he⟩)
      rw [if_neg hne, ih hrest hin]

theorem mem_put {entry : κ × α} (h : entry ∈ put entries key value) :
    entry = (key, value) ∨ entry ∈ entries := by
  induction entries with
  | nil => exact .inl (mem_singleton.mp h)
  | cons head rest ih =>
    obtain ⟨k, v⟩ := head
    rw [put] at h
    by_cases hk : k = key
    · rw [if_pos hk] at h
      rcases mem_cons.mp h with he | hin
      · exact .inl (hk ▸ he)
      · exact .inr (mem_cons_of_mem _ hin)
    · rw [if_neg hk] at h
      rcases mem_cons.mp h with he | hin
      · exact .inr (he ▸ mem_cons_self)
      · exact (ih hin).imp_right (mem_cons_of_mem _)

theorem put_of_not_mem (h : key ∉ keys entries) (value : α) :
    put entries key value = entries ++ [(key, value)] := by
  induction entries with
  | nil => rfl
  | cons head rest ih =>
    obtain ⟨k, v⟩ := head
    have hne : k ≠ key := fun he => h (he ▸ mem_cons_self)
    rw [put, if_neg hne, ih fun hin => h (mem_cons_of_mem _ hin)]
    rfl

theorem nodup_keys_put (h : (keys entries).Nodup) (key : κ) (value : α) :
    (keys (put entries key value)).Nodup := by
  rw [keys_put]
  split
  · exact h
  · next hfresh => exact nodup_append'.mpr ⟨h, nodup_singleton _, disjoint_singleton.mpr hfresh⟩

section JoinAll
variable (join : α → α → Except ε α)

def joinAt (current : Option α) (value : α) : Except ε α :=
  match current with
  | some current => join current value
  | none => .ok value

/-- The entries written one by one, a key that is there already being joined with what it has. -/
def joinAll (entries : List (κ × α)) : List (κ × α) → Except ε (List (κ × α))
  | [] => .ok entries
  | (key, value) :: rest => do
    let joined ← joinAt join (lookup entries key) value
    joinAll (put entries key joined) rest

/-- What a key holds once the second dictionary is written over the first. -/
def Joined (current written result : Option α) : Prop :=
  match current, written with
  | current, none => result = current
  | none, some value => result = some value
  | some value, some value' => ∃ joined, join value value' = .ok joined ∧ result = some joined

variable {join}

/-- Where a key ends up holding something, it is the first's, the second's, or the two joined. -/
theorem Joined.of_some {current written : Option α} {value : α} (h : Joined join current written (some value)) :
    (current = some value ∧ written = none) ∨ (current = none ∧ written = some value) ∨
      ∃ value' value'', current = some value' ∧ written = some value'' ∧ join value' value'' = .ok value := by
  cases current with
  | none =>
    cases written with
    | none => cases h
    | some value' => exact .inr (.inl ⟨rfl, h.symm⟩)
  | some value' =>
    cases written with
    | none => exact .inl ⟨h.symm, rfl⟩
    | some value'' =>
      obtain ⟨joined, hjoin, hvalue⟩ := h
      exact .inr (.inr ⟨value', value'', rfl, rfl, Option.some.inj hvalue ▸ hjoin⟩)

theorem joinAll_cons {entries rest result : List (κ × α)} {key : κ} {value : α}
    (h : joinAll join entries ((key, value) :: rest) = .ok result) :
    ∃ joined, Joined join (lookup entries key) (some value) (some joined) ∧
      joinAll join (put entries key joined) rest = .ok result := by
  rw [joinAll] at h
  cases hat : joinAt join (lookup entries key) value with
  | error e =>
    rw [hat] at h
    cases h
  | ok joined =>
    rw [hat] at h
    refine ⟨joined, ?_, h⟩
    cases hcur : lookup entries key with
    | none =>
      rw [hcur] at hat
      exact congrArg some (Except.ok.inj hat).symm
    | some current =>
      rw [hcur] at hat
      exact ⟨joined, hat, rfl⟩

variable {entries pairs result : List (κ × α)}

theorem lookup_joinAll_of_not_mem {key : κ}
    (h : joinAll join entries pairs = .ok result) (hkey : key ∉ keys pairs) :
    lookup result key = lookup entries key := by
  induction pairs generalizing entries with
  | nil => rw [← Except.ok.inj h]
  | cons pair rest ih =>
    obtain ⟨k, value⟩ := pair
    obtain ⟨joined, -, hrest⟩ := joinAll_cons h
    have hne : key ≠ k := fun he => hkey (he ▸ mem_cons_self)
    rw [ih hrest fun hin => hkey (mem_cons_of_mem _ hin), lookup_put, if_neg hne]

theorem lookup_joinAll (hnd : (keys pairs).Nodup)
    (h : joinAll join entries pairs = .ok result) (key : κ) :
    Joined join (lookup entries key) (lookup pairs key) (lookup result key) := by
  induction pairs generalizing entries with
  | nil =>
    rw [← Except.ok.inj h]
    cases lookup entries key <;> rfl
  | cons pair rest ih =>
    obtain ⟨k, value⟩ := pair
    obtain ⟨hfresh, hnd'⟩ := nodup_cons.mp hnd
    obtain ⟨joined, hjoined, hrest⟩ := joinAll_cons h
    by_cases hk : key = k
    · subst hk
      rw [lookup_cons, if_pos rfl, lookup_joinAll_of_not_mem hrest hfresh, lookup_put, if_pos rfl]
      exact hjoined
    · have hrest' := ih hnd' hrest
      rw [lookup_put, if_neg hk] at hrest'
      rwa [lookup_cons, if_neg hk]

/-- The first dictionary's keys in their order, and after them the new ones in theirs. -/
theorem keys_joinAll (hnd : (keys pairs).Nodup)
    (h : joinAll join entries pairs = .ok result) :
    keys result = keys entries ++ newKeys entries pairs := by
  induction pairs generalizing entries with
  | nil =>
    rw [← Except.ok.inj h]
    exact (append_nil _).symm
  | cons pair rest ih =>
    obtain ⟨k, value⟩ := pair
    obtain ⟨hfresh, hnd'⟩ := nodup_cons.mp hnd
    obtain ⟨joined, -, hrest⟩ := joinAll_cons h
    have hkeys : keys ((k, value) :: rest) = k :: keys rest := rfl
    rw [ih hnd' hrest, newKeys, newKeys, keys_put, hkeys]
    by_cases hk : k ∈ keys entries
    · rw [if_pos hk, filter_cons_of_neg (by simpa using hk)]
    · have hsame : (keys rest).filter (· ∉ keys entries ++ [k]) = (keys rest).filter (· ∉ keys entries) := by
        refine filter_congr fun key hin => ?_
        have hne : key ≠ k := fun he => hfresh (he ▸ hin)
        simp [hne]
      rw [if_neg hk, filter_cons_of_pos (by simpa using hk), hsame, append_assoc, singleton_append]

theorem mem_keys_joinAll {key : κ}
    (h : joinAll join entries pairs = .ok result) (hkey : key ∈ keys entries) : key ∈ keys result := by
  induction pairs generalizing entries with
  | nil => exact Except.ok.inj h ▸ hkey
  | cons pair rest ih =>
    obtain ⟨k, value⟩ := pair
    obtain ⟨joined, -, hrest⟩ := joinAll_cons h
    refine ih hrest ?_
    rw [keys_put]
    split
    · exact hkey
    · exact mem_append_left _ hkey

theorem nodup_keys_joinAll (h : joinAll join entries pairs = .ok result)
    (hnd : (keys entries).Nodup) : (keys result).Nodup := by
  induction pairs generalizing entries with
  | nil => exact Except.ok.inj h ▸ hnd
  | cons pair rest ih =>
    obtain ⟨k, value⟩ := pair
    obtain ⟨joined, -, hrest⟩ := joinAll_cons h
    exact ih hrest (nodup_keys_put hnd k joined)

/-- Where the values of a key can always be joined, so can the dictionaries. -/
theorem joinAll_ok {P : κ → α → Prop} {entries pairs : List (κ × α)}
    (hjoin : ∀ pair ∈ pairs, ∀ current, P pair.1 current → ∃ joined, join current pair.2 = .ok joined ∧ P pair.1 joined)
    (hentries : ∀ entry ∈ entries, P entry.1 entry.2) (hpairs : ∀ pair ∈ pairs, P pair.1 pair.2) :
    ∃ result, joinAll join entries pairs = .ok result ∧ ∀ entry ∈ result, P entry.1 entry.2 := by
  induction pairs generalizing entries with
  | nil => exact ⟨entries, rfl, hentries⟩
  | cons pair rest ih =>
    obtain ⟨key, value⟩ := pair
    have hvalue : P key value := hpairs _ mem_cons_self
    have hput : ∀ {joined}, P key joined → ∀ entry ∈ put entries key joined, P entry.1 entry.2 := by
      intro joined hjoined entry hin
      rcases mem_put hin with rfl | hin
      · exact hjoined
      · exact hentries entry hin
    have hrest : ∀ {joined}, P key joined →
        ∃ result, joinAll join (put entries key joined) rest = .ok result ∧ ∀ entry ∈ result, P entry.1 entry.2 :=
      fun hjoined => ih (fun pair hin => hjoin pair (mem_cons_of_mem _ hin)) (hput hjoined)
        fun pair hin => hpairs pair (mem_cons_of_mem _ hin)
    cases hcur : lookup entries key with
    | none =>
      rw [joinAll, hcur]
      exact hrest hvalue
    | some current =>
      obtain ⟨joined, hok, hjoined⟩ := hjoin (key, value) mem_cons_self current (hentries _ (mem_of_lookup hcur))
      have hat : joinAt join (some current) value = .ok joined := hok
      rw [joinAll, hcur, hat]
      exact hrest hjoined

section Rename
variable {κ' β : Type u} [DecidableEq κ'] {f : κ → κ'} {g : α → β}

section
variable (hf : Function.Injective f)
include hf

theorem lookup_map (entries : List (κ × α)) (key : κ) :
    lookup (entries.map (Prod.map f g)) (f key) = (lookup entries key).map g := by
  induction entries with
  | nil => rfl
  | cons entry rest ih =>
    obtain ⟨k, v⟩ := entry
    rw [map_cons, Prod.map_apply, lookup_cons, lookup_cons, ih]
    by_cases h : key = k
    · rw [if_pos h, if_pos (congrArg f h), Option.map_some]
    · rw [if_neg h, if_neg fun he => h (hf he)]

private theorem put_map (entries : List (κ × α)) (key : κ) (value : α) :
    put (entries.map (Prod.map f g)) (f key) (g value) = (put entries key value).map (Prod.map f g) := by
  induction entries with
  | nil => rfl
  | cons entry rest ih =>
    obtain ⟨k, v⟩ := entry
    rw [map_cons, Prod.map_apply, put, put, ih]
    by_cases h : k = key
    · rw [if_pos h, if_pos (congrArg f h)]
      rfl
    · rw [if_neg h, if_neg fun he => h (hf he)]
      rfl

theorem joinAll_map {join' : β → β → Except ε β} (hg : ∀ a b, join' (g a) (g b) = (join a b).map g) (entries pairs : List (κ × α)) :
    joinAll join' (entries.map (Prod.map f g)) (pairs.map (Prod.map f g)) =
      (joinAll join entries pairs).map (List.map (Prod.map f g)) := by
  induction pairs generalizing entries with
  | nil => rfl
  | cons pair rest ih =>
    obtain ⟨key, value⟩ := pair
    have hat : joinAt join' ((lookup entries key).map g) (g value) = (joinAt join (lookup entries key) value).map g := by
      cases lookup entries key with
      | none => rfl
      | some current => exact hg current value
    rw [map_cons, Prod.map_apply, joinAll, joinAll, lookup_map hf, hat]
    cases joinAt join (lookup entries key) value with
    | error e => rfl
    | ok joined =>
      have hrest := ih (put entries key joined)
      rwa [← put_map hf] at hrest

end

end Rename

end JoinAll

end SynQt.Dict
