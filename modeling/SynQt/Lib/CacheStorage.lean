import SynQt.Lib.Dict

/-! The caches a worker keeps, in the order they were created. A cache is known by its place; one that is deleted
stays as it is for whoever holds it. -/
namespace SynQt.Lib.CacheStorage
open Dict (put lookup keys)
universe u v w

structure Cache (ν : Type u) (κ : Type v) (β : Type w) where
  name : ν
  live : Bool
  entries : List (κ × β)
deriving DecidableEq

abbrev Storage (ν : Type u) (κ : Type v) (β : Type w) := List (Cache ν κ β)

variable {ν : Type u} {κ β : Type v}

section Named
variable [DecidableEq ν]

def place (storage : Storage ν κ β) (name : ν) : Option Nat :=
  storage.findIdx? fun cache => cache.live && cache.name = name

def openCache (storage : Storage ν κ β) (name : ν) : Storage ν κ β × Nat :=
  match place storage name with
  | some handle => (storage, handle)
  | none => (storage ++ [⟨name, true, []⟩], storage.length)

def names (storage : Storage ν κ β) : List ν := (storage.filter (·.live)).map (·.name)

def delete (storage : Storage ν κ β) (name : ν) : Storage ν κ β :=
  storage.map fun cache => if cache.name = name then { cache with live := false } else cache

private theorem openCache_of_get {storage : Storage ν κ β} {handle : Nat} {cache : Cache ν κ β} (name : ν)
    (h : storage[handle]? = some cache) : (openCache storage name).1[handle]? = some cache := by
  rw [openCache]
  cases place storage name with
  | some found => exact h
  | none => exact List.getElem?_append_left (List.getElem?_eq_some_iff.mp h).1 ▸ h

theorem get_openCache {storage : Storage ν κ β} {name : ν} {handle : Nat} {cache : Cache ν κ β}
    (h : (openCache storage name).1[handle]? = some cache) :
    storage[handle]? = some cache ∨ cache = ⟨name, true, []⟩ := by
  rw [openCache] at h
  cases hplace : place storage name with
  | some found =>
    rw [hplace] at h
    exact .inl h
  | none =>
    rw [hplace] at h
    dsimp only at h
    by_cases hlt : handle < storage.length
    · exact .inl (by rwa [List.getElem?_append_left hlt] at h)
    · rw [List.getElem?_append_right (Nat.le_of_not_lt hlt), List.getElem?_singleton] at h
      split at h
      · exact .inr (Option.some.inj h).symm
      · cases h

theorem openCache_opened (storage : Storage ν κ β) (name : ν) :
    ∃ cache, (openCache storage name).1[(openCache storage name).2]? = some cache ∧ cache.live = true ∧ cache.name = name := by
  rw [openCache]
  cases hplace : place storage name with
  | some found =>
    obtain ⟨hlt, hfound, -⟩ := List.findIdx?_eq_some_iff_getElem.mp hplace
    rw [Bool.and_eq_true, decide_eq_true_eq] at hfound
    exact ⟨_, List.getElem?_eq_getElem hlt, hfound⟩
  | none =>
    dsimp only
    exact ⟨⟨name, true, []⟩, List.getElem?_concat_length, rfl, rfl⟩

private theorem get_delete (storage : Storage ν κ β) (name : ν) (handle : Nat) :
    (delete storage name)[handle]? =
      storage[handle]?.map fun cache => if cache.name = name then { cache with live := false } else cache :=
  List.getElem?_map

end Named

section Held
variable [DecidableEq κ]

def read (storage : Storage ν κ β) (handle : Nat) (url : κ) : Option β :=
  storage[handle]?.bind fun cache => lookup cache.entries url

def putAll (entries batch : List (κ × β)) : List (κ × β) :=
  batch.foldl (fun entries entry => put entries entry.1 entry.2) entries

def addAll (storage : Storage ν κ β) (handle : Nat) (batch : List (κ × β)) : Storage ν κ β :=
  storage.modify handle fun cache => { cache with entries := putAll cache.entries batch }

/-- What the first cache that has the url holds, and that cache's name. -/
def matchAll (storage : Storage ν κ β) (url : κ) : Option (ν × β) :=
  storage.findSome? fun cache => if cache.live then (lookup cache.entries url).map (cache.name, ·) else none

theorem lookup_putAll_of_not_mem {batch : List (κ × β)} {url : κ} (h : url ∉ keys batch) (entries : List (κ × β)) :
    lookup (putAll entries batch) url = lookup entries url := by
  induction batch generalizing entries with
  | nil => rfl
  | cons entry batch ih =>
    rw [keys, List.map_cons, List.mem_cons, not_or] at h
    rw [putAll, List.foldl_cons]
    exact (ih h.2 _).trans (by rw [Dict.lookup_put, if_neg h.1])

/-- Where every entry of the batch for a url is one body, that is what is held. -/
theorem lookup_putAll_of_mem {batch : List (κ × β)} {url : κ} {body : β} (h : url ∈ keys batch)
    (hbody : ∀ entry ∈ batch, entry.1 = url → entry.2 = body) (entries : List (κ × β)) :
    lookup (putAll entries batch) url = some body := by
  induction batch generalizing entries with
  | nil => cases h
  | cons entry batch ih =>
    rw [putAll, List.foldl_cons]
    by_cases hin : url ∈ keys batch
    · exact ih hin (fun e he => hbody e (List.mem_cons_of_mem _ he)) _
    · have hurl : url = entry.1 := (List.mem_cons.mp h).resolve_right hin
      refine (lookup_putAll_of_not_mem hin _).trans ?_
      rw [Dict.lookup_put, if_pos hurl, hbody entry List.mem_cons_self hurl.symm]

private theorem isSome_lookup_putAll {entries : List (κ × β)} {url : κ} (h : (lookup entries url).isSome = true)
    (batch : List (κ × β)) : (lookup (putAll entries batch) url).isSome = true := by
  induction batch generalizing entries with
  | nil => exact h
  | cons entry batch ih =>
    refine ih ?_
    rw [Dict.lookup_put]
    split
    · rfl
    · exact h

theorem get_addAll (storage : Storage ν κ β) (place : Nat) (batch : List (κ × β)) (handle : Nat) :
    (addAll storage place batch)[handle]? =
      storage[handle]?.map fun cache =>
        if place = handle then { cache with entries := putAll cache.entries batch } else cache := by
  rw [addAll, List.getElem?_modify]
  rfl

theorem matchAll_some {storage : Storage ν κ β} {url : κ} {name : ν} {body : β}
    (h : matchAll storage url = some (name, body)) :
    ∃ cache ∈ storage, cache.live = true ∧ cache.name = name ∧ lookup cache.entries url = some body := by
  obtain ⟨cache, hin, hcache⟩ := List.exists_of_findSome?_eq_some h
  split at hcache
  · next hlive =>
    obtain ⟨found, hfound, he⟩ := Option.map_eq_some_iff.mp hcache
    obtain ⟨rfl, rfl⟩ := Prod.mk.inj he
    exact ⟨cache, hin, hlive, rfl, hfound⟩
  · cases hcache

end Held

section Stands
variable [DecidableEq κ]

/-- Every cache stands where it stood; those whose names are spared are there still, with all the urls they had. -/
def Stands (spared : ν → Prop) (storage storage' : Storage ν κ β) : Prop :=
  ∀ (handle : Nat) (cache : Cache ν κ β), storage[handle]? = some cache →
    ∃ cache' : Cache ν κ β, storage'[handle]? = some cache' ∧ cache'.name = cache.name ∧
      (spared cache.name → cache.live = true → cache'.live = true ∧
        ∀ url, (lookup cache.entries url).isSome = true → (lookup cache'.entries url).isSome = true)

theorem stands_refl (spared : ν → Prop) (storage : Storage ν κ β) : Stands spared storage storage :=
  fun _ cache h => ⟨cache, h, rfl, fun _ hlive => ⟨hlive, fun _ hurl => hurl⟩⟩

theorem stands_openCache [DecidableEq ν] (spared : ν → Prop) (storage : Storage ν κ β) (name : ν) :
    Stands spared storage (openCache storage name).1 :=
  fun _ cache h => ⟨cache, openCache_of_get name h, rfl, fun _ hlive => ⟨hlive, fun _ hurl => hurl⟩⟩

theorem stands_addAll (spared : ν → Prop) (storage : Storage ν κ β) (place : Nat) (batch : List (κ × β)) :
    Stands spared storage (addAll storage place batch) := by
  intro handle cache h
  refine ⟨if place = handle then { cache with entries := putAll cache.entries batch } else cache, ?_, ?_, ?_⟩
  · rw [get_addAll, h, Option.map_some]
  · split <;> rfl
  · intro _ hlive
    split
    · exact ⟨hlive, fun url hurl => isSome_lookup_putAll hurl batch⟩
    · exact ⟨hlive, fun url hurl => hurl⟩

theorem stands_delete [DecidableEq ν] (storage : Storage ν κ β) (name : ν) :
    Stands (· ≠ name) storage (delete storage name) := by
  intro handle cache h
  refine ⟨if cache.name = name then { cache with live := false } else cache, ?_, ?_, ?_⟩
  · rw [get_delete, h, Option.map_some]
  · split <;> rfl
  · intro hspared hlive
    rw [if_neg hspared]
    exact ⟨hlive, fun url hurl => hurl⟩

end Stands

end SynQt.Lib.CacheStorage
