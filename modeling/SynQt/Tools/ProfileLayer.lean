import SynQt.Tools.ConfigMerge

namespace SynQt.Config
open List hiding lookup
open YamlEdit (Value Str lit)
open Dict (keys lookup joinAll Joined)

abbrev Entries := List (Str × Value)

/-- The rows of one list of a configuration, each a mapping that carries its id under the key. -/
structure Listed (list key : Str) (config : Entries) (rows : List (Str × Entries)) : Prop where
  shape : lookup config list = some (.list (rows.map fun row => .dict row.2)) ∨
    (rows = [] ∧ (lookup config list = none ∨ lookup config list = some .none))
  ids : ∀ row ∈ rows, lookup row.2 key = some (.str row.1)
  filled : ∀ row ∈ rows, row.1 ≠ []
  nodup : (keys rows).Nodup

/-- A file of the `synqt.yaml` schema, the base or a profile. -/
structure Schema (config : Entries) (entities points : List (Str × Entries)) : Prop where
  loaded : Loaded (.dict config)
  entityRows : Listed (lit "entities") (lit "name") config entities
  pointRows : Listed (lit "connect_points") (lit "owner") config points
  unnamed : ∀ point ∈ points, lookup point.2 (lit "name") = none

/-- Nothing of the base's rows is gone: their order, their keys, and the values of the keys that the profile's
row of the same id does not write. What is new in the profile follows. -/
structure Kept (base profile merged : List (Str × Entries)) : Prop where
  order : keys merged = keys base ++ Dict.newKeys base profile
  rows : ∀ id row, lookup base id = some row → ∃ row', lookup merged id = some row' ∧ ∀ key ∈ keys row,
    key ∈ keys row' ∧ ((∀ written, lookup profile id = some written → key ∉ keys written) → lookup row' key = lookup row key)
  added : ∀ id row, lookup base id = none → lookup profile id = some row → lookup merged id = some row

def Keeps (list key : Str) (base profile : List (Str × Entries)) (merged : Entries) : Prop :=
  ∃ rows, Listed list key merged rows ∧ Kept base profile rows

/-- The profile says everything again: each of the base's rows in its order, with each of its keys. -/
structure Restates (base profile : List (Str × Entries)) : Prop where
  order : keys base <+: keys profile
  rows : ∀ id row, lookup base id = some row → ∃ written, lookup profile id = some written ∧ keys row ⊆ keys written

theorem Kept.nil (base : List (Str × Entries)) : Kept base [] base where
  order := (append_nil _).symm
  rows _ row hrow := ⟨row, hrow, fun _ hkey => ⟨hkey, fun _ => rfl⟩⟩
  added _ _ _ hrow := absurd (Dict.mem_of_lookup hrow) not_mem_nil

theorem Restates.nil (profile : List (Str × Entries)) : Restates [] profile where
  order := nil_prefix
  rows _ _ hrow := absurd (Dict.mem_of_lookup hrow) not_mem_nil

/-- Where the profile's rows take the place of the base's, nothing is gone when they say it all again. -/
theorem kept_self_iff {base profile : List (Str × Entries)} (hnd : (keys profile).Nodup) :
    Kept base profile profile ↔ Restates base profile := by
  constructor
  · intro h
    refine ⟨⟨_, h.order.symm⟩, fun id row hrow => ?_⟩
    obtain ⟨written, hwritten, hkeys⟩ := h.rows id row hrow
    exact ⟨written, hwritten, fun key hkey => (hkeys key hkey).1⟩
  · intro h
    obtain ⟨added, hadded⟩ := h.order
    refine ⟨?_, fun id row hrow => ?_, fun id row _ hrow => hrow⟩
    · rw [Dict.newKeys_of_append hadded hnd, hadded]
    · obtain ⟨written, hwritten, hsub⟩ := h.rows id row hrow
      exact ⟨written, hwritten, fun key hkey => ⟨hsub hkey, fun hnone => absurd (hsub hkey) (hnone written hwritten)⟩⟩

/-- Two rows under distinct ids make one joined row of each id. -/
theorem kept_joinAll {base profile merged : List (Str × Entries)} (hnd : (keys profile).Nodup)
    (h : joinAll (joinAll merge) base profile = .ok merged) : Kept base profile merged := by
  refine ⟨Dict.keys_joinAll hnd h, fun id row hrow => ?_, fun id row hnone hrow => ?_⟩
  · have hjoined := Dict.lookup_joinAll hnd h id
    rw [hrow] at hjoined
    cases hwritten : lookup profile id with
    | none =>
      rw [hwritten] at hjoined
      exact ⟨row, hjoined, fun key hkey => ⟨hkey, fun _ => rfl⟩⟩
    | some written =>
      rw [hwritten] at hjoined
      obtain ⟨row', hmerge, hrow'⟩ := hjoined
      refine ⟨row', hrow', fun key hkey => ⟨Dict.mem_keys_joinAll hmerge hkey, fun hunwritten => ?_⟩⟩
      exact Dict.lookup_joinAll_of_not_mem hmerge (hunwritten written rfl)
  · have hjoined := Dict.lookup_joinAll hnd h id
    rw [hnone, hrow] at hjoined
    exact hjoined

namespace Listed
variable {list key : Str} {config config' : Entries} {rows rows' : List (Str × Entries)}

section
variable (h : Listed list key config rows)
include h

theorem congr (hsame : lookup config' list = lookup config list) :
    Listed list key config' rows := ⟨hsame ▸ h.shape, h.ids, h.filled, h.nodup⟩

theorem unique (h' : Listed list key config rows') : rows = rows' := by
  have hids : ∀ {rows rows' : List (Str × Entries)}, (∀ row ∈ rows, lookup row.2 key = some (.str row.1)) →
      (∀ row ∈ rows', lookup row.2 key = some (.str row.1)) →
      rows.map (fun row => Value.dict row.2) = rows'.map (fun row => Value.dict row.2) → rows = rows' := by
    intro rows
    induction rows with
    | nil =>
      intro rows' _ _ heq
      exact (map_eq_nil_iff.mp heq.symm).symm
    | cons row rest ih =>
      intro rows' hrows hrows' heq
      cases rows' with
      | nil => cases heq
      | cons row' rest' =>
        obtain ⟨hhead, hrest⟩ := List.cons.inj heq
        have hrow := hrows row mem_cons_self
        rw [Value.dict.inj hhead, hrows' row' mem_cons_self] at hrow
        have hid : row' = row := Prod.ext (Value.str.inj (Option.some.inj hrow)) (Value.dict.inj hhead).symm
        rw [hid, ih (fun row hin => hrows row (mem_cons_of_mem _ hin))
          (fun row hin => hrows' row (mem_cons_of_mem _ hin)) hrest]
  rcases h.shape with hlist | ⟨rfl, hlist⟩ <;> rcases h'.shape with hlist' | ⟨rfl, hlist'⟩
  · exact hids h.ids h'.ids (Value.list.inj (Option.some.inj (hlist.symm.trans hlist')))
  · rw [hlist] at hlist'
    rcases hlist' with hlist' | hlist' <;> cases hlist'
  · rw [hlist'] at hlist
    rcases hlist with hlist | hlist <;> cases hlist
  · rfl

private theorem nil_of_absent (hnone : lookup config list = none) : rows = [] := by
  rcases h.shape with hlist | ⟨hnil, -⟩
  · rw [hnone] at hlist
    cases hlist
  · exact hnil

private theorem list_of_ne_nil (hne : rows ≠ []) :
    lookup config list = some (.list (rows.map fun row => .dict row.2)) := by
  rcases h.shape with hlist | ⟨hnil, -⟩
  · exact hlist
  · exact absurd hnil hne

private theorem row_loaded (hloaded : Loaded (.dict config)) : ∀ row ∈ rows, Loaded (.dict row.2) := by
  intro row hin
  have hlist := h.list_of_ne_nil (ne_nil_of_mem hin)
  have hitems : Loaded (.list (rows.map fun row => .dict row.2)) := hloaded.entries _ (Dict.mem_of_lookup hlist)
  exact hitems.items _ (mem_map_of_mem hin)

end

private theorem isNamedList_iff (h : Listed list (lit "name") config rows) :
    isNamedList (.list (rows.map fun row => .dict row.2)) = true ↔ rows ≠ [] := by
  rw [isNamedList, Bool.and_eq_true, Bool.not_eq_true', isEmpty_eq_false_iff, all_eq_true]
  refine ⟨fun hboth hnil => hboth.1 (hnil ▸ rfl), fun hne => ⟨fun hnil => hne (map_eq_nil_iff.mp hnil), ?_⟩⟩
  intro item hin
  obtain ⟨row, hrow, rfl⟩ := mem_map.mp hin
  rw [hasName, h.ids row hrow]
  simpa [truthy] using h.filled row hrow

/-- The list as a dictionary's entries under its rows' names. -/
theorem nameOf_row (h : Listed list (lit "name") config rows) :
    ∀ pair ∈ rows.map (Prod.map HashKey.str Value.dict), nameOf pair.2 = .ok pair.1 := by
  intro pair hin
  obtain ⟨row, hrow, rfl⟩ := mem_map.mp hin
  rw [Prod.map_fst, Prod.map_snd, nameOf, h.ids row hrow]
  rfl

end Listed

private theorem not_isNamedList {rows : List (Str × Entries)} (h : ∀ row ∈ rows, lookup row.2 (lit "name") = none) :
    isNamedList (.list (rows.map fun row => .dict row.2)) = false := by
  cases rows with
  | nil => rfl
  | cons row rest =>
    have hrow : hasName (.dict row.2) = false := by
      rw [hasName, h row mem_cons_self]
      rfl
    rw [map_cons, isNamedList, all_cons, hrow, Bool.false_and, Bool.and_false]

section Layered
variable {list key : Str} {base profile merged : Entries} {rows rows' : List (Str × Entries)}

private theorem keeps_of_absent (hrows : Listed list key base rows) (hrows' : Listed list key profile rows')
    (hnone : lookup profile list = none) (hmerged : Joined merge (lookup base list) (lookup profile list) (lookup merged list)) :
    Keeps list key rows rows' merged := by
  rw [hnone] at hmerged
  have hsame : lookup merged list = lookup base list := by
    cases hbase : lookup base list with
    | none | some value =>
      rw [hbase] at hmerged
      exact hmerged
  exact ⟨rows, hrows.congr hsame, hrows'.nil_of_absent hnone ▸ Kept.nil rows⟩

theorem lookup_of_replaced (hrows : Listed list key base rows) (hrows' : Listed list key profile rows')
    (hsome : lookup profile list ≠ none)
    (hplain : ¬(isNamedList (.list (rows.map fun row => .dict row.2)) = true ∧
      isNamedList (.list (rows'.map fun row => .dict row.2)) = true))
    (hmerged : Joined merge (lookup base list) (lookup profile list) (lookup merged list)) :
    lookup merged list = lookup profile list := by
  cases hprofile : lookup profile list with
  | none => exact absurd hprofile hsome
  | some value =>
    rw [hprofile] at hmerged
    cases hbase : lookup base list with
    | none =>
      rw [hbase] at hmerged
      exact hmerged
    | some current =>
      rw [hbase] at hmerged
      obtain ⟨joined, hjoin, hresult⟩ := hmerged
      have hout : Outright current value := by
        rcases hrows'.shape with hlist | ⟨-, hnone | hnull⟩
        · obtain rfl := Option.some.inj (hprofile.symm.trans hlist)
          rcases hrows.shape with hlist' | ⟨-, hnone | hnull⟩
          · obtain rfl := Option.some.inj (hbase.symm.trans hlist')
            exact outright_list hplain
          · rw [hbase] at hnone
            cases hnone
          · obtain rfl := Option.some.inj (hbase.symm.trans hnull)
            exact outright_list fun hboth => absurd hboth.1 Bool.false_ne_true
        · rw [hprofile] at hnone
          cases hnone
        · obtain rfl := Option.some.inj (hprofile.symm.trans hnull)
          exact outright_of_hashable ⟨_, rfl⟩ current
      rw [hresult, Except.ok.inj (hjoin.symm.trans hout)]

private theorem keeps_replaced_iff (hrows' : Listed list key profile rows') (hsame : lookup merged list = lookup profile list) :
    Keeps list key rows rows' merged ↔ Restates rows rows' := by
  rw [← kept_self_iff hrows'.nodup]
  have hlisted := hrows'.congr hsame
  constructor
  · rintro ⟨merged', hmerged', hkept⟩
    exact hmerged'.unique hlisted ▸ hkept
  · exact fun hkept => ⟨rows', hlisted, hkept⟩

private theorem joinRows_ok (hloaded : ∀ row ∈ rows, Loaded (.dict row.2)) (hloaded' : ∀ row ∈ rows', Loaded (.dict row.2)) :
    ∃ joined, joinAll (joinAll merge) rows rows' = .ok joined := by
  obtain ⟨joined, hjoined, -⟩ := @Dict.joinAll_ok _ _ _ _ (joinAll merge) (fun _ row => Loaded (.dict row)) rows rows'
    (fun row hin current hcurrent =>
      merge_ok_dict (fun entry _ base hbase hentry => merge_ok entry.2 base hbase hentry) hcurrent (hloaded' row hin))
    hloaded hloaded'
  exact ⟨joined, hjoined⟩

private theorem merge_rows (hrows : Listed list (lit "name") base rows) (hrows' : Listed list (lit "name") profile rows')
    (hne : rows ≠ []) (hne' : rows' ≠ []) {joined : List (Str × Entries)}
    (hjoined : joinAll (joinAll merge) rows rows' = .ok joined) :
    merge (.list (rows.map fun row => .dict row.2)) (.list (rows'.map fun row => .dict row.2)) =
      .ok (.list (joined.map fun row => .dict row.2)) := by
  have hsnd : ∀ rows : List (Str × Entries),
      rows.map (fun row => Value.dict row.2) = (rows.map (Prod.map HashKey.str Value.dict)).map Prod.snd := by
    intro rows
    rw [map_map]
    rfl
  have hinj : Function.Injective HashKey.str := fun a b => HashKey.str.inj
  have hkeys : ∀ rows : List (Str × Entries), keys (rows.map (Prod.map HashKey.str Value.dict)) = (keys rows).map HashKey.str := by
    intro rows
    rw [Dict.keys, Dict.keys, map_map, map_map]
    rfl
  have hnd : (keys (rows.map (Prod.map HashKey.str Value.dict))).Nodup := hkeys rows ▸ hrows.nodup.map hinj
  have hnamed := hrows.isNamedList_iff.mpr hne
  have hnamed' := hrows'.isNamedList_iff.mpr hne'
  have hall : joinAll merge (rows.map (Prod.map HashKey.str Value.dict)) (rows'.map (Prod.map HashKey.str Value.dict)) =
      .ok (joined.map (Prod.map HashKey.str Value.dict)) := by
    rw [Dict.joinAll_map hinj merge_dict, hjoined]
    rfl
  rw [hsnd] at hnamed hnamed'
  rw [hsnd, hsnd, hsnd]
  exact merge_named hnd hrows.nameOf_row hrows'.nameOf_row hnamed hnamed' hall

private theorem joined_listed (hrows : Listed list key base rows) (hrows' : Listed list key profile rows')
    (hloaded' : ∀ row ∈ rows', Loaded (.dict row.2)) {joined : List (Str × Entries)}
    (hjoined : joinAll (joinAll merge) rows rows' = .ok joined)
    (hmerged : lookup merged list = some (.list (joined.map fun row => .dict row.2))) : Listed list key merged joined := by
  have hnd := Dict.nodup_keys_joinAll hjoined hrows.nodup
  have hrow : ∀ row ∈ joined, lookup row.2 key = some (.str row.1) ∧ row.1 ≠ [] := by
    intro row hin
    have hrow := Dict.lookup_joinAll hrows'.nodup hjoined row.1
    rw [Dict.lookup_of_mem hnd hin] at hrow
    rcases hrow.of_some with ⟨hbase, -⟩ | ⟨-, hprofile⟩ | ⟨current, written, hbase, hprofile, hjoin⟩
    · have hin' := Dict.mem_of_lookup hbase
      exact ⟨hrows.ids _ hin', hrows.filled _ hin'⟩
    · have hin' := Dict.mem_of_lookup hprofile
      exact ⟨hrows'.ids _ hin', hrows'.filled _ hin'⟩
    · have hin' := Dict.mem_of_lookup hprofile
      have hid := Dict.lookup_joinAll (hloaded' _ hin').nodup hjoin key
      rw [hrows.ids _ (Dict.mem_of_lookup hbase), hrows'.ids _ hin'] at hid
      obtain ⟨id, hmerge, hsome⟩ := hid
      obtain rfl := Except.ok.inj hmerge
      have hfilled := hrows'.filled _ hin'
      exact ⟨hsome, hfilled⟩
  exact ⟨.inl hmerged, fun row hin => (hrow row hin).1, fun row hin => (hrow row hin).2, hnd⟩

/-- Two lists keyed by name merge entry by entry. -/
theorem keeps_named (hrows : Listed list (lit "name") base rows) (hrows' : Listed list (lit "name") profile rows')
    (hbase : Loaded (.dict base)) (hprofile : Loaded (.dict profile)) (hne : rows ≠ []) (hne' : rows' ≠ [])
    (hmerged : Joined merge (lookup base list) (lookup profile list) (lookup merged list)) :
    Keeps list (lit "name") rows rows' merged := by
  have hloaded' := hrows'.row_loaded hprofile
  obtain ⟨joined, hjoined⟩ := joinRows_ok (hrows.row_loaded hbase) hloaded'
  rw [hrows.list_of_ne_nil hne, hrows'.list_of_ne_nil hne'] at hmerged
  obtain ⟨value, hmerge, hvalue⟩ := hmerged
  rw [merge_rows hrows hrows' hne hne' hjoined] at hmerge
  obtain rfl := Except.ok.inj hmerge
  exact ⟨joined, joined_listed hrows hrows' hloaded' hjoined hvalue, kept_joinAll hrows'.nodup hjoined⟩

private theorem keeps_entities_iff (hrows : Listed list (lit "name") base rows) (hrows' : Listed list (lit "name") profile rows')
    (hbase : Loaded (.dict base)) (hprofile : Loaded (.dict profile))
    (hmerged : Joined merge (lookup base list) (lookup profile list) (lookup merged list)) :
    Keeps list (lit "name") rows rows' merged ↔ rows = [] ∨ lookup profile list = none ∨ rows' ≠ [] := by
  by_cases habsent : lookup profile list = none
  · exact iff_of_true (keeps_of_absent hrows hrows' habsent hmerged) (.inr (.inl habsent))
  · by_cases hboth : rows ≠ [] ∧ rows' ≠ []
    · exact iff_of_true (keeps_named hrows hrows' hbase hprofile hboth.1 hboth.2 hmerged) (.inr (.inr hboth.2))
    · have hplain : ¬(isNamedList (.list (rows.map fun row => .dict row.2)) = true ∧
          isNamedList (.list (rows'.map fun row => .dict row.2)) = true) := by
        rwa [hrows.isNamedList_iff, hrows'.isNamedList_iff]
      rw [keeps_replaced_iff hrows' (lookup_of_replaced hrows hrows' habsent hplain hmerged)]
      constructor
      · intro hrestates
        by_cases hne : rows = []
        · exact .inl hne
        · refine .inr (.inr fun hnil => hne ?_)
          have hkeys := hrestates.order
          rw [hnil] at hkeys
          exact map_eq_nil_iff.mp (prefix_nil.mp hkeys)
      · rintro (rfl | habsent' | hne')
        · exact Restates.nil rows'
        · exact absurd habsent' habsent
        · have hnil : rows = [] := by
            by_contra hne
            exact hboth ⟨hne, hne'⟩
          exact hnil ▸ Restates.nil rows'

private theorem keeps_points_iff (hrows : Listed list key base rows) (hrows' : Listed list key profile rows')
    (hunnamed : ∀ row ∈ rows, lookup row.2 (lit "name") = none)
    (hmerged : Joined merge (lookup base list) (lookup profile list) (lookup merged list)) :
    Keeps list key rows rows' merged ↔ lookup profile list = none ∨ Restates rows rows' := by
  by_cases habsent : lookup profile list = none
  · exact iff_of_true (keeps_of_absent hrows hrows' habsent hmerged) (.inl habsent)
  · have hplain : ¬(isNamedList (.list (rows.map fun row => .dict row.2)) = true ∧
        isNamedList (.list (rows'.map fun row => .dict row.2)) = true) := by
      rintro ⟨hnamed, -⟩
      rw [not_isNamedList hunnamed] at hnamed
      cases hnamed
    rw [keeps_replaced_iff hrows' (lookup_of_replaced hrows hrows' habsent hplain hmerged)]
    exact ⟨.inr, fun h => h.resolve_left habsent⟩

end Layered

/-- A profile takes nothing away exactly where it does not empty the entities, and leaves the connect points
unwritten or says them all again. -/
theorem profile_keeps_iff {base profile : Entries} {entities points entities' points' : List (Str × Entries)}
    (hbase : Schema base entities points) (hprofile : Schema profile entities' points') :
    ∃ merged, merge (.dict base) (.dict profile) = .ok (.dict merged) ∧
      ((Keeps (lit "entities") (lit "name") entities entities' merged ∧
          Keeps (lit "connect_points") (lit "owner") points points' merged) ↔
        (entities = [] ∨ lookup profile (lit "entities") = none ∨ entities' ≠ []) ∧
          (lookup profile (lit "connect_points") = none ∨ Restates points points')) := by
  obtain ⟨merged, hmerged, -⟩ :=
    merge_ok_dict (fun entry _ base hbase hentry => merge_ok entry.2 base hbase hentry) hbase.loaded hprofile.loaded
  have hat := Dict.lookup_joinAll hprofile.loaded.nodup hmerged
  refine ⟨merged, by rw [merge_dict, hmerged]; rfl, and_congr ?_ ?_⟩
  · exact keeps_entities_iff hbase.entityRows hprofile.entityRows hbase.loaded hprofile.loaded (hat _)
  · exact keeps_points_iff hbase.pointRows hprofile.pointRows hbase.unnamed (hat _)

def webRow : Entries := [(lit "name", .str (lit "web")), (lit "port", .int 443)]

def shopRow : Entries := [(lit "name", .str (lit "shop"))]

def shopPoint : Entries := [(lit "owner", .str (lit "shop")), (lit "consumers", .list [ .str (lit "web")])]

def shopBase : Entries :=
  [(lit "entities", .list [ .dict webRow, .dict shopRow]), (lit "connect_points", .list [ .dict shopPoint])]

def tunedPoint : Entries := [(lit "owner", .str (lit "shop")), (lit "port", .int 9000)]

def tunedProfile : Entries := [(lit "connect_points", .list [ .dict tunedPoint])]

def shopProfile : Entries := [(lit "entities", .list [ .dict [(lit "name", .str (lit "web")), (lit "port", .int 8443)]])]

private theorem loaded_shopRow : Loaded (.dict shopRow) :=
  .dict (by decide) (by simp [shopRow, Hashable, hashKey]) (by simp [shopRow, Loaded.str])

private theorem loaded_webRow (port : Int) : Loaded (.dict [(lit "name", .str (lit "web")), (lit "port", .int port)]) :=
  .dict (show [lit "name", lit "port"].Nodup by decide) (by simp [lit, Hashable, hashKey])
    (by simp [Loaded.str, Loaded.int])

private theorem schema_shopBase :
    Schema shopBase [(lit "web", webRow), (lit "shop", shopRow)] [(lit "shop", shopPoint)] where
  loaded := by
    have hpoint : Loaded (.dict shopPoint) :=
      .dict (by decide) (by simp [shopPoint, lit]) (by simp [shopPoint, Loaded.str, Loaded.list])
    have hentities : Loaded (.list [ .dict webRow, .dict shopRow]) := .list (by simp [webRow, loaded_webRow, loaded_shopRow])
    have hpoints : Loaded (.list [ .dict shopPoint]) := .list (by simp [hpoint])
    exact .dict (by decide) (by simp [shopBase, lit]) (by simp [shopBase, hentities, hpoints])
  entityRows := ⟨.inl rfl, by simp [webRow, shopRow, lookup], by simp [lit], by decide⟩
  pointRows := ⟨.inl rfl, by simp [shopPoint, lookup], by simp [lit], by decide⟩
  unnamed := by
    intro point hin
    obtain rfl := mem_singleton.mp hin
    rfl

private theorem schema_tunedProfile : Schema tunedProfile [] [(lit "shop", tunedPoint)] where
  loaded := by
    have hpoint : Loaded (.dict tunedPoint) :=
      .dict (by decide) (by simp [tunedPoint, lit]) (by simp [tunedPoint, Loaded.str, Loaded.int])
    have hpoints : Loaded (.list [ .dict tunedPoint]) := .list (by simp [hpoint])
    exact .dict (by decide) (by simp [tunedProfile, lit]) (by simp [tunedProfile, hpoints])
  entityRows := ⟨.inr ⟨rfl, .inl (by decide)⟩, by simp, by simp, by decide⟩
  pointRows := ⟨.inl rfl, by simp [tunedPoint, lookup], by simp [lit], by decide⟩
  unnamed := by
    intro point hin
    obtain rfl := mem_singleton.mp hin
    rfl

private theorem schema_shopProfile :
    Schema shopProfile [(lit "web", [(lit "name", .str (lit "web")), (lit "port", .int 8443)])] [] where
  loaded := by
    have hentities : Loaded (.list [ .dict [(lit "name", .str (lit "web")), (lit "port", .int 8443)]]) :=
      .list (by simp [loaded_webRow])
    exact .dict (by decide) (by simp [shopProfile, lit]) (by simp [shopProfile, hentities])
  entityRows := ⟨.inl rfl, by simp [lookup], by simp [lit], by decide⟩
  pointRows := ⟨.inr ⟨rfl, .inl (by decide)⟩, by simp, by simp, by decide⟩
  unnamed := by simp

/-- A profile that tunes the web edge's port leaves everything else as it was. -/
theorem profile_keeps_shop : ∃ merged, merge (.dict shopBase) (.dict shopProfile) = .ok (.dict merged) ∧
    Keeps (lit "entities") (lit "name") [(lit "web", webRow), (lit "shop", shopRow)]
        [(lit "web", [(lit "name", .str (lit "web")), (lit "port", .int 8443)])] merged ∧
      Keeps (lit "connect_points") (lit "owner") [(lit "shop", shopPoint)] [] merged := by
  obtain ⟨merged, hmerged, hiff⟩ := profile_keeps_iff schema_shopBase schema_shopProfile
  exact ⟨merged, hmerged, hiff.mpr ⟨.inr (.inr (cons_ne_nil _ _)), .inl rfl⟩⟩

/-- A profile that tunes the shop's port takes its consumers away. -/
theorem tuned_point_loses_consumers :
    Schema shopBase [(lit "web", webRow), (lit "shop", shopRow)] [(lit "shop", shopPoint)] ∧
      Schema tunedProfile [] [(lit "shop", tunedPoint)] ∧
      merge (.dict shopBase) (.dict tunedProfile) = .ok (.dict (Dict.put shopBase (lit "connect_points") (.list [ .dict tunedPoint]))) ∧
      ¬Keeps (lit "connect_points") (lit "owner") [(lit "shop", shopPoint)] [(lit "shop", tunedPoint)]
        (Dict.put shopBase (lit "connect_points") (.list [ .dict tunedPoint])) := by
  refine ⟨schema_shopBase, schema_tunedProfile, rfl, ?_⟩
  have hsame : lookup (Dict.put shopBase (lit "connect_points") (.list [ .dict tunedPoint])) (lit "connect_points") =
      lookup tunedProfile (lit "connect_points") := rfl
  rw [keeps_replaced_iff schema_tunedProfile.pointRows hsame]
  intro hrestates
  obtain ⟨written, hwritten, hsub⟩ := hrestates.rows (lit "shop") shopPoint rfl
  obtain rfl := Option.some.inj hwritten
  exact absurd (hsub (show lit "consumers" ∈ keys shopPoint by decide)) (by decide)

end SynQt.Config
