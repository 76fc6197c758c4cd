import SynQt.Lib.Dict

/-! Documents whose nodes may be shared: what is found along a route, and what an assignment changes. -/
namespace SynQt.Lib
open Option
open Dict (put lookup)

/-- A document as it reads, the sharing left out. -/
inductive Doc (κ α : Type) where
  | scalar (a : α)
  | list (items : List (Doc κ α))
  | dict (entries : List (κ × Doc κ α))

namespace Shared

/-- What a node holds: a scalar, or another node. -/
inductive Item (α π : Type) where
  | scalar (a : α)
  | node (place : π)

inductive Cell (κ α π : Type) where
  | list (items : List (Item α π))
  | dict (entries : List (κ × Item α π))

inductive Step (κ : Type) where
  | key (key : κ)
  | item (index : Nat)

/-- What something is, whatever it holds. -/
inductive Shape (α : Type) where
  | scalar (a : α)
  | list
  | dict

variable {κ α π ρ : Type}

def Item.map (f : π → ρ) : Item α π → Item α ρ
  | .scalar a => .scalar a
  | .node place => .node (f place)

def Cell.map (f : π → ρ) : Cell κ α π → Cell κ α ρ
  | .list items => .list (items.map (Item.map f))
  | .dict entries => .dict (entries.map fun entry => (entry.1, entry.2.map f))

def Cell.shape : Cell κ α π → Shape α
  | .list _ => .list
  | .dict _ => .dict

def shape (cells : π → Cell κ α π) : Item α π → Shape α
  | .scalar a => .scalar a
  | .node place => (cells place).shape

def entriesAt (cells : π → Cell κ α π) : Item α π → Option (List (κ × Item α π))
  | .scalar _ => none
  | .node place =>
    match cells place with
    | .dict entries => some entries
    | .list _ => none

theorem entriesAt_some {cells : π → Cell κ α π} {item : Item α π} {entries : List (κ × Item α π)} (h : entriesAt cells item = some entries) : ∃ place, item = .node place ∧ cells place = .dict entries := by
  cases item with
  | scalar a => cases h
  | node place =>
    refine ⟨place, rfl, ?_⟩
    rw [entriesAt] at h
    split at h
    · next entries' hat => rw [hat, Option.some.inj h]
    · cases h

variable [DecidableEq κ]

def Cell.at : Cell κ α π → Step κ → Option (Item α π)
  | .dict entries, .key key => lookup entries key
  | .list items, .item index => items[index]?
  | _, _ => none

def next (cells : π → Cell κ α π) : Item α π → Step κ → Option (Item α π)
  | .scalar _, _ => none
  | .node place, step => (cells place).at step

/-- What is at the end of a route. -/
def lookFrom (cells : π → Cell κ α π) : Item α π → List (Step κ) → Option (Shape α)
  | item, [] => some (shape cells item)
  | item, step :: route => (next cells item step).bind (lookFrom cells · route)

/-- The key of a path's last dictionary, and where that is. -/
inductive Slot (cells : π → Cell κ α π) : Item α π → List κ → π → κ → Prop where
  | last {place : π} {entries : List (κ × Item α π)} (key : κ) (h : cells place = .dict entries) :
      Slot cells (.node place) [key] place key
  | down {item child : Item α π} {key last : κ} {path : List κ} {place : π} (h : next cells item (.key key) = some child)
      (hrest : Slot cells child path place last) : Slot cells item (key :: path) place last

/-- A route that comes by a key of a dictionary, and how it goes on from there. -/
inductive Through (cells : π → Cell κ α π) (place : π) (key : κ) : Item α π → List (Step κ) → List (Step κ) → Prop where
  | here (rest : List (Step κ)) : Through cells place key (.node place) (.key key :: rest) rest
  | on {item item' : Item α π} {step : Step κ} {route rest : List (Step κ)} (hoff : item ≠ .node place ∨ step ≠ .key key)
      (h : next cells item step = some item') (hrest : Through cells place key item' route rest) :
      Through cells place key item (step :: route) rest

section Assign
variable [DecidableEq π]

def store (cells : π → Cell κ α π) (key : κ) (value : Item α π) : Item α π → π → Cell κ α π
  | .scalar _ => cells
  | .node place =>
    match cells place with
    | .dict entries => Function.update cells place (.dict (put entries key value))
    | .list _ => cells

/-- The value at the path, with a dictionary, of those that are new, made of whatever is on the way. -/
def assignFrom (cells : π → Cell κ α π) (new : Nat → π) (node : Item α π) : List κ → Item α π → π → Cell κ α π
  | [], _ => cells
  | [key], value => store cells key value node
  | key :: key' :: path, value =>
    match (next cells node (.key key)).filter fun child => (entriesAt cells child).isSome with
    | some child => assignFrom cells new child (key' :: path) value
    | none => assignFrom (store cells key (.node (new 0)) node) (fun n => new (n + 1)) (.node (new 0)) (key' :: path) value

end Assign

variable {cells : π → Cell κ α π} {place : π} {key : κ} {item : Item α π} {route rest : List (Step κ)} {path : List κ}
  {entries : List (κ × Item α π)}

/-- What has a key is a dictionary. -/
theorem entriesAt_next {child : Item α π} (h : next cells item (.key key) = some child) :
    ∃ entries, entriesAt cells item = some entries ∧ shape cells item = .dict := by
  cases item with
  | scalar a => cases h
  | node place =>
    rw [next] at h
    rw [entriesAt, shape]
    cases hat : cells place with
    | list items =>
      rw [hat] at h
      cases h
    | dict entries => exact ⟨entries, rfl, rfl⟩

private theorem lookFrom_above {found : Shape α} (h : lookFrom cells item (route ++ .key key :: rest) = some found) :
    lookFrom cells item route = some .dict := by
  induction route generalizing item with
  | nil =>
    obtain ⟨child, hchild, -⟩ := bind_eq_some_iff.mp h
    obtain ⟨-, -, hshape⟩ := entriesAt_next hchild
    rw [lookFrom, hshape]
  | cons step route ih =>
    obtain ⟨child, hchild, hfound⟩ := bind_eq_some_iff.mp h
    rw [lookFrom, hchild]
    exact ih hfound

theorem Slot.dict (h : Slot cells item path place key) : ∃ entries, cells place = .dict entries := by
  induction h with
  | last key h => exact ⟨_, h⟩
  | down h hrest ih => exact ih

theorem Slot.entries_isSome (h : Slot cells item path place key) : (entriesAt cells item).isSome = true := by
  cases h with
  | last key h =>
    rw [entriesAt, h]
    rfl
  | down h hrest =>
    obtain ⟨entries, hentries, -⟩ := entriesAt_next h
    rw [hentries]
    rfl

/-- Where the path leads to a dictionary, that is where the value goes, and nothing is made. -/
theorem assignFrom_slot [DecidableEq π] {new : Nat → π} {value : Item α π} (h : Slot cells item path place key)
    (hat : cells place = .dict entries) :
    assignFrom cells new item path value = Function.update cells place (.dict (put entries key value)) := by
  induction h with
  | last key h => rw [assignFrom, store, hat]
  | down h hrest ih =>
    have hdict := filter_some_pos (p := fun child => (entriesAt cells child).isSome) hrest.entries_isSome
    cases hrest with
    | last _ _ | down _ _ =>
      rw [assignFrom, h, hdict]
      exact ih hat

theorem look_slot (h : Slot cells item path place key) :
    lookFrom cells item (path.map .key) = lookFrom cells (.node place) [ .key key] := by
  induction h with
  | last key h => rfl
  | down h hrest ih => rw [List.map_cons, lookFrom, h, bind_some, ih]

section
variable (h : Through cells place key item route rest)
include h

theorem Through.look :
    lookFrom cells item route = lookFrom cells (.node place) (.key key :: rest) := by
  induction h with
  | here rest => rfl
  | on hoff h hrest ih => rw [lookFrom, h, bind_some, ih]

theorem Through.append (more : List (Step κ)) :
    Through cells place key item (route ++ more) (rest ++ more) := by
  induction h with
  | here rest => exact .here _
  | on hoff h hrest ih => exact .on hoff h ih

/-- The way up to the key, and on. -/
theorem Through.split :
    ∃ front, route = front ++ rest ∧ Through cells place key item front [] := by
  induction h with
  | here rest => exact ⟨[ .key key], rfl, .here []⟩
  | @on item item' step route rest hoff h hrest ih =>
    obtain ⟨front, rfl, hfront⟩ := ih
    exact ⟨step :: front, rfl, .on hoff h hfront⟩

end

theorem Through.single {step : Step κ} (h : Through cells place key item [step] rest) : rest = [] := by
  cases h with
  | here _ => rfl
  | on hoff h hrest => cases hrest

theorem lookup_map (f : π → ρ) (entries : List (κ × Item α π)) (key : κ) :
    lookup (entries.map fun entry => (entry.1, entry.2.map f)) key = (lookup entries key).map (Item.map f) := by
  induction entries with
  | nil => rfl
  | cons entry entries ih =>
    rw [List.map_cons, Dict.lookup_cons, Dict.lookup_cons, ih]
    split <;> rfl

private theorem Cell.at_map (f : π → ρ) (cell : Cell κ α π) (step : Step κ) :
    (cell.map f).at step = (cell.at step).map (Item.map f) := by
  cases cell with
  | list items =>
    cases step with
    | key key => rfl
    | item index => exact List.getElem?_map
  | dict entries =>
    cases step with
    | item index => rfl
    | key key => exact lookup_map f entries key

variable {after : ρ → Cell κ α ρ} {f : π → ρ}

section
variable (h : ∀ place, after (f place) = (cells place).map f)
include h

/-- Cells that stand among others as they are read as they did. -/
theorem lookFrom_map (item : Item α π) (route : List (Step κ)) :
    lookFrom after (item.map f) route = lookFrom cells item route := by
  induction route generalizing item with
  | nil =>
    cases item with
    | scalar a => rfl
    | node place =>
      rw [lookFrom, lookFrom, Item.map, shape, shape, h]
      cases cells place <;> rfl
  | cons step route ih =>
    have hnext : next after (item.map f) step = (next cells item step).map (Item.map f) := by
      cases item with
      | scalar a => rfl
      | node place =>
        rw [Item.map, next, next, h]
        exact Cell.at_map f (cells place) step
    rw [lookFrom, lookFrom, hnext]
    cases next cells item step with
    | none => rfl
    | some child => exact ih child

theorem Slot.map (hslot : Slot cells item path place key) :
    Slot after (item.map f) path (f place) key := by
  induction hslot with
  | last key hat => exact .last key ((h _).trans (congrArg (Cell.map f) hat))
  | @down item child key last path place hnext hrest ih =>
    refine .down ?_ ih
    cases item with
    | scalar a => cases hnext
    | node i =>
      rw [Item.map, next, h, Cell.at_map]
      exact congrArg (Option.map (Item.map f)) hnext

end

/-- The nodes stand among others, the one at `place` with a value put at a key. -/
structure Puts (cells : π → Cell κ α π) (f : π → ρ) (after : ρ → Cell κ α ρ) (place : π) (key : κ) (value : Item α ρ) :
    Prop where
  put : ∃ entries, cells place = .dict entries ∧
    after (f place) = .dict (put (entries.map fun entry => (entry.1, entry.2.map f)) key value)
  other : ∀ i, i ≠ place → after (f i) = (cells i).map f

variable {value : Item α ρ}

section
variable (h : Puts cells f after place key value)
include h

/-- Off the key that is set, a step leads where it did. -/
theorem Puts.next_map {step : Step κ} (hoff : item ≠ .node place ∨ step ≠ .key key) :
    next after (item.map f) step = (next cells item step).map (Item.map f) := by
  obtain ⟨⟨entries, hat, hput⟩, hother⟩ := h
  cases item with
  | scalar a => rfl
  | node i =>
    rw [Item.map, next, next]
    by_cases hplace : i = place
    · subst hplace
      have hstep : step ≠ .key key := hoff.resolve_left fun hne => hne rfl
      rw [hput, hat]
      cases step with
      | item index => rfl
      | key key' =>
        have hkey : key' ≠ key := fun he => hstep (congrArg Step.key he)
        exact (Dict.lookup_put ..).trans ((if_neg hkey).trans (lookup_map f entries key'))
    · rw [hother i hplace, Cell.at_map]

/-- A route that comes by the key goes on from the value. -/
theorem Puts.look_through (hroute : Through cells place key item route rest) :
    lookFrom after (item.map f) route = lookFrom after value rest := by
  induction hroute with
  | here rest =>
    obtain ⟨entries, -, hput⟩ := h.put
    have hkey : next after (.node (f place)) (.key key) = some value := by
      rw [next, hput]
      exact (Dict.lookup_put ..).trans (if_pos rfl)
    rw [Item.map, lookFrom, hkey, bind_some]
  | on hoff hnext hrest ih =>
    rw [lookFrom, h.next_map hoff, hnext]
    exact ih

/-- Any other finds what it did. -/
theorem Puts.look_apart (hroute : ∀ rest, ¬Through cells place key item route rest) :
    lookFrom after (item.map f) route = lookFrom cells item route := by
  induction route generalizing item with
  | nil =>
    cases item with
    | scalar a => rfl
    | node i =>
      rw [lookFrom, lookFrom, Item.map, shape, shape]
      by_cases hplace : i = place
      · obtain ⟨entries, hat, hput⟩ := h.put
        rw [hplace, hput, hat]
        rfl
      · rw [h.other i hplace]
        cases cells i <;> rfl
  | cons step route ih =>
    have hoff : item ≠ .node place ∨ step ≠ .key key := by
      by_contra hthere
      rw [not_or, not_not, not_not] at hthere
      obtain ⟨rfl, rfl⟩ := hthere
      exact hroute route (.here route)
    rw [lookFrom, lookFrom, h.next_map hoff]
    cases hnext : next cells item step with
    | none => rfl
    | some child => exact ih fun rest hrest => hroute rest (.on hoff hnext hrest)

end

end Shared

/-- A document: its nodes, each of which may be held at several places, and what the whole is. -/
structure Shared (κ α : Type) where
  Place : Type
  decEq : DecidableEq Place
  cells : Place → Shared.Cell κ α Place
  root : Shared.Item α Place

namespace Shared
variable {κ α : Type} [DecidableEq κ]

instance (doc : Shared κ α) : DecidableEq doc.Place := doc.decEq

def look (doc : Shared κ α) (route : List (Step κ)) : Option (Shape α) := lookFrom doc.cells doc.root route

def ofScalar (a : α) : Shared κ α := ⟨Empty, inferInstance, nofun, .scalar a⟩

def ofList (items : List α) : Shared κ α := ⟨Unit, inferInstance, fun _ => .list (items.map .scalar), .node ()⟩

/-- The nodes of two documents, and new ones that hold nothing. -/
def beside (doc given : Shared κ α) :
    doc.Place ⊕ given.Place ⊕ Nat → Cell κ α (doc.Place ⊕ given.Place ⊕ Nat)
  | .inl place => (doc.cells place).map .inl
  | .inr (.inl place) => (given.cells place).map (.inr ∘ .inl)
  | .inr (.inr _) => .dict []

def assign (doc : Shared κ α) (path : List κ) (given : Shared κ α) : Shared κ α where
  Place := doc.Place ⊕ given.Place ⊕ Nat
  decEq := inferInstance
  cells := assignFrom (doc.beside given) (.inr ∘ .inr) (doc.root.map .inl) path (given.root.map (.inr ∘ .inl))
  root := doc.root.map .inl

variable {doc : Shared κ α} {path : List κ} {place : doc.Place} {key : κ} {route rest : List (Step κ)}

theorem look_above {found : Shape α} (h : doc.look (route ++ .key key :: rest) = some found) : doc.look route = some .dict :=
  lookFrom_above h

variable (h : Slot doc.cells doc.root path place key) (given : Shared κ α)
include h

/-- What an assignment makes of the nodes, where its path leads to a dictionary. -/
theorem assign_cells : ∃ entries, doc.cells place = .dict entries ∧ (doc.assign path given).cells =
    Function.update (doc.beside given) (.inl place)
      (.dict (put (entries.map fun entry => (entry.1, entry.2.map .inl)) key (given.root.map (.inr ∘ .inl)))) := by
  obtain ⟨entries, hat⟩ := h.dict
  refine ⟨entries, hat, assignFrom_slot (Slot.map (fun _ => rfl) h) ?_⟩
  rw [beside, hat]
  rfl

private theorem assign_puts :
    Puts doc.cells .inl (doc.assign path given).cells place key (given.root.map (.inr ∘ .inl)) := by
  obtain ⟨entries, hat, hafter⟩ := assign_cells h given
  rw [hafter]
  refine ⟨⟨entries, hat, Function.update_self ..⟩, fun i hne => ?_⟩
  exact Function.update_of_ne (fun he => hne (Sum.inl.inj he)) ..

theorem look_assign_through (hroute : Through doc.cells place key doc.root route rest) :
    (doc.assign path given).look route = given.look rest := by
  obtain ⟨entries, hat, hafter⟩ := assign_cells h given
  refine ((assign_puts h given).look_through hroute).trans (lookFrom_map (fun place' => ?_) given.root rest)
  rw [hafter]
  exact Function.update_of_ne (fun he => by cases he) ..

theorem look_assign_apart (hroute : ∀ rest, ¬Through doc.cells place key doc.root route rest) :
    (doc.assign path given).look route = doc.look route :=
  (assign_puts h given).look_apart hroute

end Shared
end SynQt.Lib
