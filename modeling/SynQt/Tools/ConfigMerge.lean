import SynQt.Lib.Dict
import SynQt.Tools.YamlEdit

/-! A project's configuration with a profile layered onto it. -/
namespace SynQt.Config
open List
open YamlEdit (Value Str lit)
open Dict (put keys lookup joinAll)

/-- A `name` as a dictionary's key: a truth value is the number it counts as, a float is its own text. -/
inductive HashKey where
  | str (s : Str)
  | num (n : Int)
  | float (text : Str)
  | other (typeName : Str)
deriving DecidableEq

inductive Error where
  /-- A list or a mapping as a dictionary's key. -/
  | unhashable
  /-- A key that is not there. -/
  | missing
deriving DecidableEq

def truthy : Value → Bool
  | .none => false
  | .bool b => b
  | .int n => n != 0
  | .float text => text != lit "0.0" && text != lit "-0.0"
  | .str s => !s.isEmpty
  | .list items => !items.isEmpty
  | .dict entries => !entries.isEmpty
  | .other _ => true

def hashKey : Value → Except Error HashKey
  | .none => .ok (.other (lit "NoneType"))
  | .bool b => .ok (.num (if b then 1 else 0))
  | .int n => .ok (.num n)
  | .float text => .ok (.float text)
  | .str s => .ok (.str s)
  | .list _ => .error .unhashable
  | .dict _ => .error .unhashable
  | .other typeName => .ok (.other typeName)

def hasName : Value → Bool
  | .dict entries => (lookup entries (lit "name")).any truthy
  | _ => false

/-- `_is_named_list`. -/
def isNamedList : Value → Bool
  | .list items => !items.isEmpty && items.all hasName
  | _ => false

def nameOf : Value → Except Error HashKey
  | .dict entries =>
    match lookup entries (lit "name") with
    | some name => hashKey name
    | none => .error .missing
  | _ => .error .missing

/-- The base's entries of a list under their names, the last of a name being the one that stays. -/
def indexed : List (HashKey × Value) → List Value → Except Error (List (HashKey × Value))
  | by_name, [] => .ok by_name
  | by_name, item :: rest => do
    let name ← nameOf item
    indexed (put by_name name item) rest

/-- `[by_name[name] for name in ordered]`. -/
def arranged (by_name : List (HashKey × Value)) (ordered : List HashKey) : Except Error (List Value) :=
  ordered.mapM fun name => match lookup by_name name with
    | some item => .ok item
    | none => .error .missing

mutual

def merge (base : Value) : Value → Except Error Value
  | .dict override =>
    match base with
    | .dict entries => (mergeEntries entries override).map .dict
    | _ => .ok (.dict override)
  | .list override =>
    match base with
    | .list items =>
      if isNamedList (.list items) && isNamedList (.list override) then do
        let by_name ← indexed [] items
        let ordered ← items.mapM nameOf
        let (by_name, ordered) ← mergeItems by_name ordered override
        let merged ← arranged by_name ordered
        .ok (.list merged)
      else .ok (.list override)
    | _ => .ok (.list override)
  | .none => .ok .none
  | .bool b => .ok (.bool b)
  | .int n => .ok (.int n)
  | .float text => .ok (.float text)
  | .str s => .ok (.str s)
  | .other typeName => .ok (.other typeName)
termination_by structural override => override

/-- The entries of a mapping written over those of another. -/
def mergeEntries (merged : List (Str × Value)) : List (Str × Value) → Except Error (List (Str × Value))
  | [] => .ok merged
  | (key, value) :: rest => do
    let value ← match lookup merged key with
      | some current => merge current value
      | none => .ok value
    mergeEntries (put merged key value) rest
termination_by structural override => override

def mergeItems (by_name : List (HashKey × Value)) (ordered : List HashKey) :
    List Value → Except Error (List (HashKey × Value) × List HashKey)
  | [] => .ok (by_name, ordered)
  | item :: rest => do
    let name ← nameOf item
    match lookup by_name name with
    | some current =>
      let item ← merge current item
      mergeItems (put by_name name item) ordered rest
    | none => mergeItems (put by_name name item) (ordered ++ [name]) rest
termination_by structural override => override

end

private theorem mergeEntries_eq (merged override : List (Str × Value)) :
    mergeEntries merged override = joinAll merge merged override := by
  induction override generalizing merged with
  | nil => rfl
  | cons entry rest ih =>
    obtain ⟨key, value⟩ := entry
    rw [mergeEntries, joinAll]
    cases lookup merged key with
    | none => exact ih _
    | some current =>
      simp only [ih]
      rfl

theorem merge_dict (base override : List (Str × Value)) :
    merge (.dict base) (.dict override) = (joinAll merge base override).map .dict := by
  rw [merge, mergeEntries_eq]

section NamedList
variable {named pairs : List (HashKey × Value)}

section
variable (hnames : ∀ pair ∈ pairs, nameOf pair.2 = .ok pair.1)
include hnames

/-- Once the entries join, the items do, and the names that were not there follow in their order. -/
theorem mergeItems_of_joinAll {by_name joined : List (HashKey × Value)}
    (h : joinAll merge by_name pairs = .ok joined) (ordered : List HashKey) :
    ∃ added, keys joined = keys by_name ++ added ∧
      mergeItems by_name ordered (pairs.map Prod.snd) = .ok (joined, ordered ++ added) := by
  induction pairs generalizing by_name ordered with
  | nil =>
    obtain rfl := Except.ok.inj h
    exact ⟨[], (append_nil _).symm, by rw [map_nil, mergeItems, append_nil]⟩
  | cons pair rest ih =>
    obtain ⟨name, item⟩ := pair
    have hname : nameOf item = .ok name := hnames _ mem_cons_self
    obtain ⟨value, hvalue, hrest⟩ := Dict.joinAll_cons h
    have hkeys := Dict.keys_put by_name name value
    cases hcur : lookup by_name name with
    | none =>
      rw [if_neg ((Dict.lookup_eq_none_iff by_name name).mp hcur)] at hkeys
      rw [hcur] at hvalue
      obtain rfl := Option.some.inj hvalue
      obtain ⟨added, hadded, hitems⟩ := ih (fun pair hin => hnames pair (mem_cons_of_mem _ hin)) hrest (ordered ++ [name])
      refine ⟨name :: added, by rw [hadded, hkeys, append_assoc, singleton_append], ?_⟩
      rw [map_cons, mergeItems, hname]
      simp only [bind, Except.bind, hcur]
      rw [hitems, append_assoc, singleton_append]
    | some current =>
      have hin : name ∈ keys by_name := mem_map_of_mem (Dict.mem_of_lookup hcur)
      rw [if_pos hin] at hkeys
      rw [hcur] at hvalue
      obtain ⟨value', hmerge, hsome⟩ := hvalue
      obtain rfl := Option.some.inj hsome
      obtain ⟨added, hadded, hitems⟩ := ih (fun pair hin => hnames pair (mem_cons_of_mem _ hin)) hrest ordered
      refine ⟨added, by rw [hadded, hkeys], ?_⟩
      rw [map_cons, mergeItems, hname]
      simp only [bind, Except.bind, hcur, hmerge]
      exact hitems

private theorem indexed_eq (by_name : List (HashKey × Value))
    (hnd : (keys (by_name ++ pairs)).Nodup) : indexed by_name (pairs.map Prod.snd) = .ok (by_name ++ pairs) := by
  induction pairs generalizing by_name with
  | nil => rw [map_nil, indexed, append_nil]
  | cons pair rest ih =>
    obtain ⟨name, item⟩ := pair
    have hname : nameOf item = .ok name := hnames _ mem_cons_self
    have happ : by_name ++ (name, item) :: rest = (by_name ++ [(name, item)]) ++ rest := by simp
    have hfresh : name ∉ keys by_name := by
      intro hin
      rw [Dict.keys, map_append] at hnd
      exact disjoint_of_nodup_append hnd hin mem_cons_self
    rw [map_cons, indexed, hname, happ, ← ih (fun pair hin => hnames pair (mem_cons_of_mem _ hin)) _ (happ ▸ hnd),
      ← Dict.put_of_not_mem hfresh]
    rfl

private theorem mapM_nameOf :
    (pairs.map Prod.snd).mapM nameOf = .ok (keys pairs) := by
  induction pairs with
  | nil => rfl
  | cons pair rest ih =>
    have hname : nameOf pair.2 = .ok pair.1 := hnames pair mem_cons_self
    rw [map_cons, mapM_cons, hname, ih fun pair hin => hnames pair (mem_cons_of_mem _ hin)]
    rfl

end

private theorem arranged_ok {ordered : List HashKey} (h : ∀ name ∈ ordered, name ∈ keys pairs) :
    ∃ items, arranged pairs ordered = .ok items ∧ ∀ item ∈ items, ∃ name, (name, item) ∈ pairs := by
  induction ordered with
  | nil => exact ⟨[], rfl, fun item hin => absurd hin not_mem_nil⟩
  | cons name rest ih =>
    obtain ⟨items, hitems, hfrom⟩ := ih fun name hin => h name (mem_cons_of_mem _ hin)
    cases hitem : lookup pairs name with
    | none => exact absurd (h name mem_cons_self) ((Dict.lookup_eq_none_iff pairs name).mp hitem)
    | some item =>
      refine ⟨item :: items, ?_, fun item' hin => ?_⟩
      · rw [arranged] at hitems ⊢
        rw [mapM_cons, hitem, hitems]
        rfl
      · rcases mem_cons.mp hin with rfl | hin
        · exact ⟨name, Dict.mem_of_lookup hitem⟩
        · exact hfrom item' hin

private theorem arranged_eq (hnd : (keys pairs).Nodup) : arranged pairs (keys pairs) = .ok (pairs.map Prod.snd) := by
  have hsub : ∀ part : List (HashKey × Value), part ⊆ pairs → arranged pairs (keys part) = .ok (part.map Prod.snd) := by
    intro part
    induction part with
    | nil => exact fun _ => rfl
    | cons pair rest ih =>
      intro hsub
      obtain ⟨name, item⟩ := pair
      obtain ⟨hhead, hrest⟩ := cons_subset.mp hsub
      have hkeys : keys ((name, item) :: rest) = name :: keys rest := rfl
      have hih := ih hrest
      rw [arranged] at hih ⊢
      rw [hkeys, mapM_cons, Dict.lookup_of_mem hnd hhead, hih]
      rfl
  exact hsub pairs (List.Subset.refl _)

private theorem indexed_ok (hnames : ∀ pair ∈ pairs, nameOf pair.2 = .ok pair.1) (by_name : List (HashKey × Value)) :
    ∃ all, indexed by_name (pairs.map Prod.snd) = .ok all ∧
      (∀ name, name ∈ keys by_name ∨ name ∈ keys pairs → name ∈ keys all) ∧
      ∀ entry ∈ all, entry ∈ by_name ∨ entry ∈ pairs := by
  induction pairs generalizing by_name with
  | nil =>
    exact ⟨by_name, rfl, fun name hin => hin.elim id fun hin => absurd hin not_mem_nil, fun entry hin => .inl hin⟩
  | cons pair rest ih =>
    obtain ⟨name, item⟩ := pair
    have hname : nameOf item = .ok name := hnames _ mem_cons_self
    obtain ⟨all, hall, hkeys, hfrom⟩ := ih (fun pair hin => hnames pair (mem_cons_of_mem _ hin)) (put by_name name item)
    have hput : ∀ name', name' ∈ keys by_name ∨ name' = name → name' ∈ keys (put by_name name item) := by
      intro name' hin
      rw [Dict.keys_put]
      split
      · next hthere => exact hin.elim id fun he => he ▸ hthere
      · exact hin.elim (mem_append_left _) fun he => mem_append_right _ (he ▸ mem_singleton_self _)
    refine ⟨all, ?_, fun name' hin => hkeys name' ?_, fun entry hin => ?_⟩
    · rw [map_cons, indexed, hname]
      exact hall
    · rcases hin with hin | hin
      · exact .inl (hput name' (.inl hin))
      · rcases mem_cons.mp hin with he | hin
        · exact .inl (hput name' (.inr he))
        · exact .inr hin
    · rcases hfrom entry hin with hin | hin
      · rcases Dict.mem_put hin with rfl | hin
        · exact .inr mem_cons_self
        · exact .inl hin
      · exact .inr (mem_cons_of_mem _ hin)

/-- Two named lists, each name there once in the base's, merge as dictionaries under their names. -/
theorem merge_named (hnd : (keys named).Nodup) (hnames : ∀ pair ∈ named, nameOf pair.2 = .ok pair.1)
    (hnames' : ∀ pair ∈ pairs, nameOf pair.2 = .ok pair.1) (hlist : isNamedList (.list (named.map Prod.snd)) = true)
    (hlist' : isNamedList (.list (pairs.map Prod.snd)) = true) {joined : List (HashKey × Value)}
    (h : joinAll merge named pairs = .ok joined) :
    merge (.list (named.map Prod.snd)) (.list (pairs.map Prod.snd)) = .ok (.list (joined.map Prod.snd)) := by
  have hindexed : indexed [] (named.map Prod.snd) = .ok named := indexed_eq hnames [] hnd
  obtain ⟨added, hkeys, hitems⟩ := mergeItems_of_joinAll hnames' h (keys named)
  have harranged := arranged_eq (Dict.nodup_keys_joinAll h hnd)
  rw [merge, hlist, hlist', hindexed, mapM_nameOf hnames]
  simp only [bind, Except.bind, Bool.and_self, if_true, hitems]
  rw [← hkeys, harranged]

end NamedList

def Hashable (value : Value) : Prop := ∃ key, hashKey value = .ok key

/-- A value of a loaded document: a mapping has each of its keys once, and a `name` in it is something a
dictionary takes as a key. -/
inductive Loaded : Value → Prop where
  | none : Loaded .none
  | bool (b : Bool) : Loaded (.bool b)
  | int (n : Int) : Loaded (.int n)
  | float (text : Str) : Loaded (.float text)
  | str (s : Str) : Loaded (.str s)
  | other (typeName : Str) : Loaded (.other typeName)
  | list {items : List Value} (hitems : ∀ item ∈ items, Loaded item) : Loaded (.list items)
  | dict {entries : List (Str × Value)} (hnd : (keys entries).Nodup)
      (hname : ∀ entry ∈ entries, entry.1 = lit "name" → Hashable entry.2) (hentries : ∀ entry ∈ entries, Loaded entry.2) : Loaded (.dict entries)

theorem Loaded.items {items : List Value} (h : Loaded (.list items)) : ∀ item ∈ items, Loaded item := by
  cases h with
  | list hitems => exact hitems

theorem Loaded.nodup {entries : List (Str × Value)} (h : Loaded (.dict entries)) : (keys entries).Nodup := by
  cases h with
  | dict hnd hname hentries => exact hnd

theorem Loaded.names {entries : List (Str × Value)} (h : Loaded (.dict entries)) :
    ∀ entry ∈ entries, entry.1 = lit "name" → Hashable entry.2 := by
  cases h with
  | dict hnd hname hentries => exact hname

theorem Loaded.entries {entries : List (Str × Value)} (h : Loaded (.dict entries)) : ∀ entry ∈ entries, Loaded entry.2 := by
  cases h with
  | dict hnd hname hentries => exact hentries

/-- Replaced outright: what is no mapping and no list, or meets something of another kind. -/
def Outright (base override : Value) : Prop := merge base override = .ok override

theorem outright_of_hashable {override : Value} (h : Hashable override) (base : Value) : Outright base override := by
  obtain ⟨key, hkey⟩ := h
  cases override with
  | list items => cases hkey
  | dict entries => cases hkey
  | none | bool b | int n | float text | str s | other typeName => rfl

theorem outright_list {base : Value} {items : List Value}
    (h : ¬(isNamedList base = true ∧ isNamedList (.list items) = true)) : Outright base (.list items) := by
  cases base with
  | list items' =>
    have hcond : (isNamedList (.list items') && isNamedList (.list items)) = false := by
      rw [Bool.and_eq_false_iff]
      by_contra hc
      rw [not_or, Bool.not_eq_false, Bool.not_eq_false] at hc
      exact h hc
    rw [Outright, merge, hcond]
    rfl
  | _ => rfl

/-- Over all values, one case for a list, one for a mapping, and one for the rest. -/
theorem value_induct {P : Value → Prop} (scalar : ∀ value, Hashable value → P value)
    (list : ∀ items, (∀ item ∈ items, P item) → P (.list items))
    (dict : ∀ entries, (∀ entry ∈ entries, P entry.2) → P (.dict entries)) (value : Value) : P value := by
  refine @Value.rec P (fun items => ∀ item ∈ items, P item) (fun entries => ∀ entry ∈ entries, P entry.2)
    (fun entry => P entry.2) (scalar _ ⟨_, rfl⟩) (fun b => scalar _ ⟨_, rfl⟩) (fun n => scalar _ ⟨_, rfl⟩)
    (fun text => scalar _ ⟨_, rfl⟩) (fun s => scalar _ ⟨_, rfl⟩) list dict (fun typeName => scalar _ ⟨_, rfl⟩)
    ?_ ?_ ?_ ?_ ?_ value
  · exact fun item hin => absurd hin not_mem_nil
  · intro item rest hitem hrest item' hin
    rcases mem_cons.mp hin with rfl | hin
    · exact hitem
    · exact hrest item' hin
  · exact fun entry hin => absurd hin not_mem_nil
  · intro entry rest hentry hrest entry' hin
    rcases mem_cons.mp hin with rfl | hin
    · exact hentry
    · exact hrest entry' hin
  · exact fun key value hvalue => hvalue

private theorem nameOf_of_hasName {item : Value} (hnamed : Loaded item) (h : hasName item = true) : ∃ name, nameOf item = .ok name := by
  cases item with
  | dict entries =>
    rw [hasName, Option.any_eq_true] at h
    obtain ⟨value, hvalue, -⟩ := h
    obtain ⟨name, hname⟩ := hnamed.names _ (Dict.mem_of_lookup hvalue) rfl
    exact ⟨name, by rw [nameOf, hvalue]; exact hname⟩
  | _ => cases h

/-- The items of a named list as a dictionary's entries. -/
theorem exists_pairs {items : List Value} (hnamed : ∀ item ∈ items, Loaded item) (h : ∀ item ∈ items, hasName item = true) :
    ∃ pairs : List (HashKey × Value), items = pairs.map Prod.snd ∧ ∀ pair ∈ pairs, nameOf pair.2 = .ok pair.1 := by
  induction items with
  | nil => exact ⟨[], rfl, fun pair hin => absurd hin not_mem_nil⟩
  | cons item rest ih =>
    obtain ⟨name, hname⟩ := nameOf_of_hasName (hnamed item mem_cons_self) (h item mem_cons_self)
    obtain ⟨pairs, rfl, hpairs⟩ := ih (fun item hin => hnamed item (mem_cons_of_mem _ hin))
      fun item hin => h item (mem_cons_of_mem _ hin)
    refine ⟨(name, item) :: pairs, rfl, fun pair hin => ?_⟩
    rcases mem_cons.mp hin with rfl | hin
    · exact hname
    · exact hpairs pair hin

private theorem all_hasName {items : List Value} (h : isNamedList (.list items) = true) : ∀ item ∈ items, hasName item = true := by
  rw [isNamedList, Bool.and_eq_true, all_eq_true] at h
  exact h.2

private theorem merge_ok_list {base override : List Value} (ih : ∀ item ∈ override, ∀ base, Loaded base → Loaded item →
      ∃ merged, merge base item = .ok merged ∧ Loaded merged) (hbase : ∀ item ∈ base, Loaded item)
    (hoverride : ∀ item ∈ override, Loaded item) (hlist : isNamedList (.list base) = true)
    (hlist' : isNamedList (.list override) = true) :
    ∃ merged, merge (.list base) (.list override) = .ok merged ∧ Loaded merged := by
  obtain ⟨named, rfl, hnames⟩ := exists_pairs hbase (all_hasName hlist)
  obtain ⟨pairs, rfl, hnames'⟩ := exists_pairs hoverride (all_hasName hlist')
  obtain ⟨all, hall, hkeys, hfrom⟩ := indexed_ok hnames []
  have hnamed : ∀ entry ∈ all, Loaded entry.2 := by
    intro entry hin
    rcases hfrom entry hin with hin | hin
    · exact absurd hin not_mem_nil
    · exact hbase entry.2 (mem_map_of_mem hin)
  obtain ⟨joined, hjoined, hall'⟩ := @Dict.joinAll_ok _ _ _ _ merge (fun _ => Loaded) all pairs
    (fun pair hin current hcurrent => ih pair.2 (mem_map_of_mem hin) current hcurrent
      (hoverride pair.2 (mem_map_of_mem hin)))
    hnamed fun pair hin => hoverride pair.2 (mem_map_of_mem hin)
  obtain ⟨added, hadded, hitems⟩ := mergeItems_of_joinAll hnames' hjoined (keys named)
  have hthere : ∀ name ∈ keys named ++ added, name ∈ keys joined := by
    intro name hin
    rw [hadded]
    exact mem_append.mpr ((mem_append.mp hin).imp_left fun hin => hkeys name (.inr hin))
  obtain ⟨items, harranged, hsome⟩ := arranged_ok hthere
  refine ⟨.list items, ?_, .list fun item hin => ?_⟩
  · rw [merge, hlist, hlist', hall, mapM_nameOf hnames]
    simp only [bind, Except.bind, Bool.and_self, if_true, hitems]
    rw [harranged]
  · obtain ⟨name, hin⟩ := hsome item hin
    exact hall' _ hin

theorem merge_ok_dict {base override : List (Str × Value)} (ih : ∀ entry ∈ override, ∀ base, Loaded base → Loaded entry.2 →
      ∃ merged, merge base entry.2 = .ok merged ∧ Loaded merged) (hbase : Loaded (.dict base))
    (hoverride : Loaded (.dict override)) :
    ∃ merged, joinAll merge base override = .ok merged ∧ Loaded (.dict merged) := by
  have hboth : ∀ {entries : List (Str × Value)}, Loaded (.dict entries) →
      ∀ entry ∈ entries, (entry.1 = lit "name" → Hashable entry.2) ∧ Loaded entry.2 :=
    fun h entry hin => ⟨h.names entry hin, h.entries entry hin⟩
  obtain ⟨merged, hmerged, hall⟩ := @Dict.joinAll_ok _ _ _ _ merge
    (fun key value => (key = lit "name" → Hashable value) ∧ Loaded value) base override
    (by
      intro entry hin current hcurrent
      obtain ⟨hname, hnamed⟩ := hboth hoverride entry hin
      by_cases hkey : entry.1 = lit "name"
      · exact ⟨entry.2, outright_of_hashable (hname hkey) current, hname, hnamed⟩
      · obtain ⟨joined, hjoined, hnamed'⟩ := ih entry hin current hcurrent.2 hnamed
        exact ⟨joined, hjoined, fun he => absurd he hkey, hnamed'⟩)
    (hboth hbase) (hboth hoverride)
  exact ⟨merged, hmerged, .dict (Dict.nodup_keys_joinAll hmerged hbase.nodup) (fun entry hin => (hall entry hin).1) fun entry hin => (hall entry hin).2⟩

theorem merge_ok (override : Value) : ∀ base, Loaded base → Loaded override →
    ∃ merged, merge base override = .ok merged ∧ Loaded merged := by
  induction override using value_induct with
  | scalar value hvalue => exact fun base _ hnamed => ⟨value, outright_of_hashable hvalue base, hnamed⟩
  | list items ih =>
    intro base hbase hnamed
    by_cases hboth : isNamedList base = true ∧ isNamedList (.list items) = true
    · cases base with
      | list items' => exact merge_ok_list ih hbase.items hnamed.items hboth.1 hboth.2
      | _ => cases hboth.1
    · exact ⟨.list items, outright_list hboth, hnamed⟩
  | dict entries ih =>
    intro base hbase hnamed
    cases base with
    | dict entries' =>
      obtain ⟨merged, hmerged, hnamed'⟩ := merge_ok_dict ih hbase hnamed
      exact ⟨.dict merged, by rw [merge_dict, hmerged]; rfl, hnamed'⟩
    | _ => exact ⟨.dict entries, rfl, hnamed⟩

end SynQt.Config
