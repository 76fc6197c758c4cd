import SynQt.Tools.SynReading

/-! What the checks after a parse let through, said of the tree alone: not of where its nodes stand
nor of the path an error would name. -/
namespace SynQt.Synqtc
open Lib List

section Outcomes
variable {ε : Type} {α β : Type}

private theorem forM_ok {f : α → Except ε Unit} {l : List α} {u : Unit} : l.forM f = .ok u ↔ ∀ a ∈ l, f a = .ok () := by
  induction l with
  | nil => exact iff_of_true rfl fun _ h => by cases h
  | cons a l ih =>
    have hstep : (a :: l).forM f = f a >>= fun _ => l.forM f := rfl
    rw [hstep, bind_ok, forall_mem_cons, ← ih]
    exact ⟨fun ⟨_, ha, hl⟩ => ⟨ha, hl⟩, fun ⟨ha, hl⟩ => ⟨(), ha, hl⟩⟩

private theorem then_ok {x : Except ε Unit} {y : Except ε β} {b : β} : (x >>= fun _ => y) = .ok b ↔ x = .ok () ∧ y = .ok b := by
  rw [bind_ok]
  exact ⟨fun ⟨_, hx, hy⟩ => ⟨hx, hy⟩, fun ⟨hx, hy⟩ => ⟨(), hx, hy⟩⟩

end Outcomes

private theorem refuse_ok {condition : Bool} {raised : Raised} : refuse condition raised = .ok () ↔ condition = false := by
  cases condition with
  | false => exact iff_of_true rfl rfl
  | true => exact iff_of_false (fun h => by cases h) fun h => by cases h

private theorem parseType_ok {spelling path : String} {line col : Nat} {reference : TypeRef} :
    parseType spelling path line col = .ok reference ↔ parseType spelling "" 0 0 = .ok reference := by
  rw [parseType, parseType]
  cases matchType spelling.toList with
  | none => exact iff_of_false (fun h => by cases h) fun h => by cases h
  | some found =>
    obtain ⟨base, size⟩ := found
    cases size with
    | none => exact Iff.rfl
    | some size =>
      simp only
      rw [bind_ok, bind_ok]
      refine exists_congr fun bound => and_congr_right fun _ => ?_
      split
      · exact iff_of_false (fun h => by cases h) fun h => by cases h
      · exact Iff.rfl

def Resolves (recordNames : List String) (type : String) : Prop :=
  ∃ reference, parseType type "" 0 0 = .ok reference ∧
    ((notADeclaration.lookup reference.base).isSome && !recordNames.contains reference.base) = false ∧
    ((builtinTypes.lookup reference.base).isNone && !recordNames.contains reference.base) = false ∧
    (reference.size.isSome && (sizedTypes.lookup reference.base).isNone) = false

variable {recordNames : List String}

private theorem cppType_ok {type path : String} {line col : Nat} :
    (∃ spelled, cppType type recordNames path line col = .ok spelled) ↔ Resolves recordNames type := by
  constructor
  · rintro ⟨spelled, h⟩
    rw [cppType, bind_ok] at h
    obtain ⟨reference, href, h⟩ := h
    simp only [then_ok, refuse_ok] at h
    exact ⟨reference, parseType_ok.mp href, h.1, h.2.1, h.2.2.1⟩
  · rintro ⟨reference, href, hdeclared, hknown, hsized⟩
    refine ⟨(builtinTypes.lookup reference.base).getD reference.base, ?_⟩
    rw [cppType, bind_ok]
    refine ⟨reference, parseType_ok.mpr href, ?_⟩
    simp only [then_ok, refuse_ok]
    exact ⟨hdeclared, hknown, hsized, rfl⟩

theorem matchType_bracket {base rest : List Char} (hbase : identifier base = true) {found : List Char × Option (List Char)}
    (h : matchType (base ++ '[' :: rest) = some found) : found.1 = base ∧ found.2.isSome = true := by
  have hfront : identPrefix (base ++ '[' :: rest) = base := by
    apply identPrefix_append hbase
    intro c hc
    cases hc
    decide
  have hnonempty : base.isEmpty = false := by
    cases base with
    | nil => cases hbase
    | cons c base => rfl
  rw [matchType] at h
  simp only [hfront, hnonempty, drop_left, Bool.false_eq_true, if_false] at h
  split at h
  · cases h
  · split at h
    · cases h
      exact ⟨rfl, rfl⟩
    · cases h
      exact ⟨rfl, rfl⟩
    · cases h

theorem Resolves.sized {base bound : String} (hbase : identifier base.toList = true)
    (h : Resolves recordNames (base ++ "[" ++ bound ++ "]")) : (sizedTypes.lookup base).isSome = true := by
  obtain ⟨reference, href, _, _, hsized⟩ := h
  have hchars : (base ++ "[" ++ bound ++ "]").toList = base.toList ++ '[' :: (bound.toList ++ [']']) := by
    simp
  rw [parseType, hchars] at href
  cases hmatch : matchType (base.toList ++ '[' :: (bound.toList ++ [']'])) with
  | none =>
    rw [hmatch] at href
    cases href
  | some found =>
    obtain ⟨hfound, hsome⟩ := matchType_bracket hbase hmatch
    obtain ⟨found, size⟩ := found
    cases size with
    | none => cases hsome
    | some size =>
      rw [hmatch] at href
      simp only at href hfound
      rw [bind_ok] at href
      obtain ⟨bound', _, href⟩ := href
      split at href
      · cases href
      · cases href
        rw [hfound, String.ofList_toList, Option.isSome_some, Bool.true_and, Option.isNone_eq_false_iff] at hsized
        exact hsized

theorem rejectDuplicates_ok {message : String → String} {path : String} {l : List (String × Nat × Nat)}
    {seen seen' : List String} :
    rejectDuplicates message path seen l = .ok seen' ↔
      ((l.map (·.1)).Nodup ∧ ∀ name ∈ l.map (·.1), name ∉ seen) ∧ seen' = (l.map (·.1)).reverse ++ seen := by
  induction l generalizing seen with
  | nil =>
    rw [rejectDuplicates]
    constructor
    · intro h
      cases h
      exact ⟨⟨nodup_nil, fun _ h => by cases h⟩, rfl⟩
    · rintro ⟨_, rfl⟩
      rfl
  | cons entry l ih =>
    obtain ⟨name, line, col⟩ := entry
    rw [rejectDuplicates]
    by_cases hseen : name ∈ seen
    · rw [if_pos (contains_iff_mem.mpr hseen)]
      exact iff_of_false (fun h => by cases h) fun h => h.1.2 name mem_cons_self hseen
    · rw [if_neg fun h => hseen (contains_iff_mem.mp h), ih, map_cons, nodup_cons, reverse_cons,
        append_assoc, singleton_append, forall_mem_cons]
      refine and_congr_left fun _ => ?_
      constructor
      · rintro ⟨hnodup, hnew⟩
        exact ⟨⟨fun hmem => hnew name hmem mem_cons_self, hnodup⟩, hseen,
          fun other hother hmem => hnew other hother (mem_cons_of_mem name hmem)⟩
      · rintro ⟨⟨hname, hnodup⟩, _, hnew⟩
        refine ⟨hnodup, fun other hother hmem => ?_⟩
        obtain rfl | hmem := mem_cons.mp hmem
        · exact hname hother
        · exact hnew other hother hmem

/-- Its types resolve, and a signal can carry its parameters. -/
def Member.Valid (recordNames : List String) : Member → Prop
  | .prop p => Resolves recordNames p.type
  | .model m => ∀ role ∈ m.roles, Resolves recordNames role.type
  | .signal s => s.params.length ≤ maxSignalParams ∧ ∀ param ∈ s.params, Resolves recordNames param.type
  | .slot s => (∀ type ∈ s.returnType, Resolves recordNames type) ∧ ∀ param ∈ s.params, Resolves recordNames param.type

structure Contract.Valid (recordNames : List String) (c : Contract) : Prop where
  names : (c.members.map Member.name).Nodup
  members : ∀ member ∈ c.members, member.Valid recordNames

structure SynFile.Valid (syn : SynFile) : Prop where
  names : (syn.records.map (·.name) ++ syn.contracts.map (·.name)).Nodup
  fields : ∀ record ∈ syn.records, ∀ field ∈ record.fields, Resolves syn.recordNames field.type
  contracts : ∀ contract ∈ syn.contracts, contract.Valid syn.recordNames

theorem forall_members {c : Contract} {P : Member → Prop} :
    (∀ m ∈ c.members, P m) ↔ (∀ p ∈ c.props, P (.prop p)) ∧ (∀ m ∈ c.models, P (.model m)) ∧
      (∀ s ∈ c.signals, P (.signal s)) ∧ (∀ s ∈ c.slots, P (.slot s)) := by
  rw [Contract.props, Contract.models, Contract.signals, Contract.slots]
  induction c.members with
  | nil => simp
  | cons m members ih =>
    rw [forall_mem_cons, ih]
    cases m with
    | prop p =>
      simp only [filterMap_cons, forall_mem_cons]
      exact ⟨fun ⟨hp, hprops, hrest⟩ => ⟨⟨hp, hprops⟩, hrest⟩, fun ⟨⟨hp, hprops⟩, hrest⟩ => ⟨hp, hprops, hrest⟩⟩
    | model m =>
      simp only [filterMap_cons, forall_mem_cons]
      exact ⟨fun ⟨hm, hprops, hmodels, hrest⟩ => ⟨hprops, ⟨hm, hmodels⟩, hrest⟩,
        fun ⟨hprops, ⟨hm, hmodels⟩, hrest⟩ => ⟨hm, hprops, hmodels, hrest⟩⟩
    | signal s =>
      simp only [filterMap_cons, forall_mem_cons]
      exact ⟨fun ⟨hs, hprops, hmodels, hsignals, hslots⟩ => ⟨hprops, hmodels, ⟨hs, hsignals⟩, hslots⟩,
        fun ⟨hprops, hmodels, ⟨hs, hsignals⟩, hslots⟩ => ⟨hs, hprops, hmodels, hsignals, hslots⟩⟩
    | slot s =>
      simp only [filterMap_cons, forall_mem_cons]
      exact ⟨fun ⟨hs, hprops, hmodels, hsignals, hslots⟩ => ⟨hprops, hmodels, hsignals, hs, hslots⟩,
        fun ⟨hprops, hmodels, hsignals, hs, hslots⟩ => ⟨hs, hprops, hmodels, hsignals, hslots⟩⟩

private theorem validateContract_ok {resolve : String → Nat → Nat → Except Raised Unit}
    (hresolve : ∀ type line col, resolve type line col = .ok () ↔ Resolves recordNames type) {path : String} {c : Contract} :
    validateContract resolve path c = .ok () ↔ c.Valid recordNames := by
  have hnames {seen : List String} (message : String → String) :
      rejectDuplicates message path [] (c.members.map fun member => (member.name, member.line, member.col)) = .ok seen ↔
        (c.members.map Member.name).Nodup ∧ seen = (c.members.map Member.name).reverse := by
    rw [rejectDuplicates_ok, map_map, Function.comp_def, append_nil]
    exact and_congr_left fun _ => and_iff_left fun _ _ => not_mem_nil
  have hvalid : c.Valid recordNames ↔ (c.members.map Member.name).Nodup ∧ ∀ m ∈ c.members, m.Valid recordNames :=
    ⟨fun h => ⟨h.names, h.members⟩, fun h => ⟨h.1, h.2⟩⟩
  rw [hvalid, forall_members, validateContract, bind_ok]
  simp only [hnames, then_ok, forM_ok, refuse_ok, hresolve, decide_eq_false_iff_not, Nat.not_lt, Member.Valid,
    Option.mem_toList]
  constructor
  · rintro ⟨_, ⟨hnodup, _⟩, hrest⟩
    exact ⟨hnodup, hrest⟩
  · rintro ⟨hnodup, hrest⟩
    exact ⟨_, ⟨hnodup, rfl⟩, hrest⟩

/-- Whatever the path, the checks let through just the valid trees. -/
theorem validate_ok {syn : SynFile} {path : String} : validate syn path = .ok () ↔ syn.Valid := by
  have hresolve (type : String) (line col : Nat) :
      (do let _ ← cppType type syn.recordNames path line col : Except Raised Unit) = .ok () ↔
        Resolves syn.recordNames type := by
    rw [← cppType_ok, bind_ok]
    exact exists_congr fun _ => and_iff_left rfl
  have hfield (type : String) (line col : Nat) :
      (∃ spelled, cppType type syn.recordNames path line col = .ok spelled ∧ (pure () : Except Raised Unit) = .ok ()) ↔
        Resolves syn.recordNames type :=
    bind_ok.symm.trans (hresolve type line col)
  have hrecords : (syn.records.map fun record => (record.name, record.line, record.col)).map (·.1) =
      syn.records.map (·.name) := by rw [map_map, Function.comp_def]
  have hcontracts : (syn.contracts.map fun contract => (contract.name, contract.line, contract.col)).map (·.1) =
      syn.contracts.map (·.name) := by rw [map_map, Function.comp_def]
  have hvalid : syn.Valid ↔ (syn.records.map (·.name) ++ syn.contracts.map (·.name)).Nodup ∧
      (∀ record ∈ syn.records, ∀ field ∈ record.fields, Resolves syn.recordNames field.type) ∧
      ∀ contract ∈ syn.contracts, contract.Valid syn.recordNames :=
    ⟨fun h => ⟨h.names, h.fields, h.contracts⟩, fun h => ⟨h.1, h.2.1, h.2.2⟩⟩
  rw [hvalid, validate, bind_ok]
  simp only [bind_ok, rejectDuplicates_ok, hrecords, hcontracts, forM_ok, exists_const, validateContract_ok hresolve, hfield]
  rw [nodup_append]
  have hmem (name : String) : name ∈ (syn.records.map (·.name)).reverse ++ [] ↔ name ∈ syn.records.map (·.name) := by
    rw [append_nil, mem_reverse]
  constructor
  · rintro ⟨_, ⟨⟨hrecs, _⟩, rfl⟩, _, ⟨⟨hcons, hnew⟩, _⟩, hfields, hmembers⟩
    refine ⟨⟨hrecs, hcons, ?_⟩, hfields, hmembers⟩
    rintro name hname _ hname' rfl
    exact hnew name hname' ((hmem name).mpr hname)
  · rintro ⟨⟨hrecs, hcons, hapart⟩, hfields, hmembers⟩
    refine ⟨_, ⟨⟨hrecs, fun _ _ => not_mem_nil⟩, rfl⟩, _, ⟨⟨hcons, fun name hname hmem' => ?_⟩, rfl⟩, hfields, hmembers⟩
    exact hapart name ((hmem name).mp hmem') name hname rfl

end SynQt.Synqtc
