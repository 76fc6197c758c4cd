import SynQt.Generated.SourceHelper
import SynQt.Tools.DesignRendering
import SynQt.Tools.FrontLint

/-! What the check reads of a block that is written out, and what the build makes of it: the same members, each behind
the same gate. -/
namespace SynQt.FrontLint
open Lib Dict EnvLayer TopologyWriter RouteLint ContractGen DesignDoc Synqtc List
open YamlEdit (Str lit strip splitlines)

section
variable {alnum : Char → Bool} {header : List Comment} {name scope : String} {point : Point}
  {owner : List (Synqtc.Line × Inferred)} {items : List (Record ⊕ Member)}

def unscoped (point : Point) : Point := { point with scope := "" }

private theorem exportSource_eq : exportSource alnum header name point owner = contractSource alnum header name (unscoped point) owner := by
  rw [exportSource, contractSource, contractSource, contractLines, contractLines]
  rfl

private theorem blockLines_nil (block : Synqtc.Line) : blockLines [] block = splitlines block := by
  rw [blockLines]
  exact map_id _

/-- An owner that no line is written out from leaves the contract as it is. -/
theorem contractSource_written (hwritten : blockLines owner point.block = splitlines point.block) :
    contractSource alnum header name point owner = contractSource alnum header name point [] := by
  rw [contractSource, contractSource, contractLines_eq, contractLines_eq, hwritten, blockLines_nil]

variable (m : Member)

private theorem withScope_valid (scopes recordNames : List String) :
    (m.withScope scopes).Valid recordNames ↔ m.Valid recordNames := by
  cases m <;> exact Iff.rfl

theorem inherited_valid (recordNames : List String) : (inherited scope m).Valid recordNames ↔ m.Valid recordNames := by
  rw [inherited]
  split
  · exact withScope_valid m _ _
  · exact Iff.rfl

private theorem inherited_name : (inherited scope m).name = m.name := by
  rw [inherited]
  split
  · cases m <;> rfl
  · rfl

private theorem inherited_none : inherited "" m = m := by
  rw [inherited, show ("" : String).isEmpty = true from rfl, Bool.not_true, Bool.and_false, if_neg Bool.false_ne_true]

private theorem exportable_unscoped (h : Exportable name scope items) : Exportable name "" items where
  records := h.records
  members := h.members
  named := h.named
  valid :=
    { names := h.valid.names
      fields := h.valid.fields
      contracts := by
        obtain ⟨hnames, hmembers⟩ := h.valid.contracts _ (mem_singleton_self _)
        rw [declaredContract, forall_mem_singleton]
        refine ⟨?_, ?_⟩
        · rw [map_map, Function.comp_def] at hnames ⊢
          simp only [inherited_name] at hnames ⊢
          exact hnames
        · rw [forall_mem_map] at hmembers ⊢
          exact fun m hm => (inherited_valid m _).mpr ((inherited_valid m _).mp (hmembers m hm)) }

/-- Lines with no gate written on them are read as what they are read as between gates. -/
theorem lexMarked_unscoped (lines : List (Bool × Synqtc.Line)) (isOpen : Bool) :
    lexMarked isOpen (lines.map fun line => (false, line.2)) =
      (lexMarked isOpen lines).map fun read => (read.1.reduceOption.map some, read.2) := by
  induction lines generalizing isOpen with
  | nil => rfl
  | cons line lines ih =>
    obtain ⟨gated, line⟩ := line
    rw [map_cons, lexMarked, lexMarked]
    cases lexFrom isOpen 0 line with
    | none => rfl
    | some read =>
      simp only [Option.bind_some]
      rw [ih]
      cases lexMarked read.2 lines with
      | none => rfl
      | some later =>
        have hmark : (if gated && !isOpen then [(none : Option Word)] else []).reduceOption = [] := by
          split <;> rfl
        simp only [Option.map_some, reduceOption_append, hmark, reduceOption_words, nil_append,
          map_append, Bool.false_and, Bool.false_eq_true, if_false]

private theorem marked_unscoped : (marked scope m).reduceOption.map some = marked "" m := by
  have hmark : (if m.scope.isEmpty && !scope.isEmpty then [(none : Option Word)] else []).reduceOption = [] := by
    split <;> rfl
  rw [marked, marked, reduceOption_append, hmark, reduceOption_words, nil_append,
    show ("" : String).isEmpty = true from rfl, Bool.not_true, Bool.and_false, if_neg Bool.false_ne_true, nil_append]

private theorem flatMap_marked_unscoped (members : List Member) :
    (members.flatMap (marked scope)).reduceOption.map some = members.flatMap (marked "") := by
  induction members with
  | nil => rfl
  | cons m members ih =>
    rw [flatMap_cons, flatMap_cons, reduceOption_append, map_append, ih, marked_unscoped]

private theorem kept_unscoped {lines : List Synqtc.Line} (h : Kept alnum scope items lines) : Kept alnum "" items lines where
  records := h.records
  members := by
    have hlines : memberLines alnum "" lines = (memberLines alnum scope lines).map fun line => (false, line.2) := by
      rw [memberLines, memberLines, map_map]
      exact map_congr_left fun line _ => rfl
    rw [hlines, lexMarked_unscoped, h.members, Option.map_some, flatMap_marked_unscoped]

end

theorem docMember_unplaced (m : Member) : docMember m.unplaced = docMember m := by
  cases m with
  | prop p => rfl
  | model m =>
    have hroles : (m.roles.map Role.unplaced).map docRole = m.roles.map docRole := by
      rw [map_map]
      rfl
    exact congrArg (fun roles => ({ kind := "model", name := m.name, roles := roles, scope := ",".intercalate m.scope } : DocMember)) hroles
  | signal s =>
    have hparams : (s.params.map Param.unplaced).map docParam = s.params.map docParam := by
      rw [map_map]
      rfl
    exact congrArg (fun params => ({ kind := "signal", name := s.name, params := params, scope := ",".intercalate s.scope } : DocMember)) hparams
  | slot s =>
    have hparams : (s.params.map Param.unplaced).map docParam = s.params.map docParam := by
      rw [map_map]
      rfl
    exact congrArg (fun params => ({ kind := "slot", name := s.name, type := s.returnType.getD "", params := params,
                                     scope := ",".intercalate s.scope } : DocMember)) hparams

private theorem map_docMember_unplaced {members members' : List Member} (h : members.map Member.unplaced = members'.map Member.unplaced) :
    members.map docMember = members'.map docMember := by
  have hdoc (l : List Member) : (l.map Member.unplaced).map docMember = l.map docMember := by
    rw [map_map]
    exact map_congr_left fun m _ => docMember_unplaced m
  rw [← hdoc members, h, hdoc]

/-- A file that says what a contract declares has that contract in it and no other. -/
theorem contracts_of_written {name scope : String} {items : List (Record ⊕ Member)} {parsed : SynFile}
    (h : parsed.written = (declaredContract name scope items).written) :
    ∃ c, parsed.contracts = [c] ∧ c.name = name ∧
      c.members.map Member.unplaced = ((items.filterMap Sum.getRight?).map (inherited scope)).map Member.unplaced := by
  obtain ⟨c, hone, hc⟩ := map_eq_singleton_iff.mp (congrArg SynFile.contracts h)
  exact ⟨c, hone, congrArg Contract.name hc, congrArg Contract.members hc⟩

variable (t : Tools) (implemented : Entries → List (Synqtc.Line × Inferred))

/-- No line of the block is a name alone, its lines are records and members, each member beginning on a line of its
own, and the point's scope can be named in a gate. -/
def WrittenOut (point : Entries) : Prop :=
  ∃ written items, contractPoint t point = some written ∧ Exportable (contractOf t point) written.scope items ∧
    (written.scope = "" ∨ IsName written.scope) ∧
    blockLines (implemented point) written.block = splitlines written.block ∧
    Kept t.alnum written.scope items (splitlines written.block)

def defaultGate (point : Entries) : String := String.ofList (strip (textUnder t point "scope").toList)

variable {t implemented}

private theorem scope_of_contractPoint {point : Entries} {written : Point} (h : contractPoint t point = some written) :
    written.scope = defaultGate t point := by
  rw [contractPoint] at h
  split at h
  · cases h
    rfl
  · cases h

theorem ne_empty_of_isName {name : String} (h : IsName name) : name ≠ "" := by
  rintro rfl
  cases h.1

/-- The check and the build read the same members of it; the build puts the point's scope before those with no gate. -/
theorem WrittenOut.reads {point : Entries} (h : WrittenOut t implemented point) :
    ∃ members : List Member, (∀ m ∈ members, ∀ scope ∈ m.scope, IsName scope) ∧
      (defaultGate t point = "" ∨ IsName (defaultGate t point)) ∧
      frontMembers t point = some (members.map docMember) ∧
      ∀ contract, Builds t implemented point contract →
        contract.members.map Member.unplaced = (members.map (inherited (defaultGate t point))).map Member.unplaced := by
  obtain ⟨written, items, hpoint, hexportable, hscope, hwritten, hkept⟩ := h
  rw [← scope_of_contractPoint hpoint]
  have hplain : blockLines [] written.block = splitlines written.block := blockLines_nil _
  refine ⟨items.filterMap Sum.getRight?, fun m hm => (hexportable.members m hm).1.2.1, hscope, ?_, ?_⟩
  · have hkept' : Kept t.alnum "" items (blockLines [] (unscoped written).block) := hplain ▸ kept_unscoped hkept
    obtain ⟨parsed, hparsed, hsays⟩ :=
      @faithful_of_kept t.alnum t.header _ (unscoped written) [] items (pathOf (contractOf t point)) (exportable_unscoped hexportable)
        (.inl (isName_of_gated (.inl rfl) _)) (forall_mem_nil _) hkept'
    obtain ⟨c, hone, hname, hmembers⟩ := contracts_of_written hsays
    have hchosen : chosen parsed (contractOf t point) = some c := by
      rw [chosen, hone, List.find?_cons, hname, beq_self_eq_true]
      rfl
    rw [frontMembers, if_neg (ne_empty_of_isName hexportable.named), hpoint, Option.bind_some, parseExport, parseFromText,
      exportSource_eq, hparsed]
    simp only [membersOf, hchosen]
    rw [map_docMember_unplaced hmembers]
    have hsame : (items.filterMap Sum.getRight?).map (inherited (unscoped written).scope) = items.filterMap Sum.getRight? :=
      (map_congr_left fun m _ => inherited_none m).trans (map_id _)
    rw [hsame]
    rfl
  · rintro contract ⟨written', parsed', hpoint', hparsed', hmem, hname⟩
    obtain rfl := Option.some.inj (hpoint.symm.trans hpoint')
    obtain ⟨parsed, hparsed, hsays⟩ :=
      @faithful_of_kept t.alnum t.header _ written [] items (pathOf (contractOf t point)) hexportable
        (.inl (isName_of_gated hscope _)) (forall_mem_nil _) (hplain ▸ hkept)
    rw [contractSource_written hwritten, hparsed] at hparsed'
    obtain rfl := Except.ok.inj hparsed'
    obtain ⟨c, hone, -, hmembers⟩ := contracts_of_written hsays
    rw [hone, mem_singleton] at hmem
    rw [hmem, hmembers]

end SynQt.FrontLint
