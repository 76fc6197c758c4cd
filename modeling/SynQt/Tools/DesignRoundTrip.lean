import SynQt.Tools.DesignRendering

namespace SynQt.DesignDoc
open Synqtc ContractGen Option List
open YamlEdit (lit endsLine splitlines cutLines strip)

private theorem endsLine_of_printable {c : Char} (hc : 32 ≤ c.toNat ∧ c.toNat ≤ 126) : endsLine c = false := by
  rw [← Bool.not_eq_true]
  intro hends
  simp only [endsLine, Bool.or_eq_true, Bool.and_eq_true, decide_eq_true_eq, beq_iff_eq] at hends
  omega

private theorem cutLines_line {line : Line} (hline : Printable line) (acc rest : Line) :
    cutLines acc (line ++ '\n' :: rest) = (acc.reverse ++ line) :: cutLines [] rest := by
  induction line generalizing acc with
  | nil =>
    rw [nil_append, append_nil, cutLines, if_pos (by decide)]
    exact fun _ h => absurd h (by decide)
  | cons c line ih =>
    obtain ⟨hc, hrest⟩ := forall_mem_cons.mp hline
    rw [cons_append, cutLines, endsLine_of_printable hc, if_neg Bool.false_ne_true, ih hrest, reverse_cons,
      append_assoc, singleton_append]
    rintro _ rfl
    exact absurd hc.1 (by decide)

variable {lines : List Line}

private theorem splitlines_lines (hlines : ∀ line ∈ lines, Printable line) :
    splitlines (lines.flatMap (· ++ ['\n'])) = lines := by
  induction lines with
  | nil => rfl
  | cons line lines ih =>
    obtain ⟨hline, hrest⟩ := forall_mem_cons.mp hlines
    rw [flatMap_cons, append_assoc, singleton_append, splitlines, cutLines_line hline]
    exact congrArg (line :: ·) (ih hrest)

private theorem Rendered.lexed {line : Line} {words : List Word} (h : Rendered line words) :
    lexFrom false 0 (strip line) = some (words, false) := by
  have hread := h.reads [] fun _ hnever => nomatch hnever
  rw [append_nil, lexFrom, map_some, prepend, append_nil] at hread
  apply lexFrom_strip _ hread
  intro hmem
  exact absurd (h.printable _ hmem).1 (by decide)

/-- The lines of a block, and the members they are rendered from. -/
abbrev RenderedLines (lines : List Line) (members : List Member) : Prop :=
  List.Forall₂ (fun line m => Rendered line (uncaptured m).words) lines members

variable {members : List Member}

private theorem renderExport_rendered (hmembers : ∀ m ∈ members, m.Spelled) :
    ∃ lines, renderExport (members.map docMember) = .ok (lines.flatMap (· ++ ['\n'])) ∧ RenderedLines lines members := by
  have hlines : ∃ lines, (members.map docMember).mapM renderMember = .ok lines ∧ RenderedLines lines members := by
    induction members with
    | nil => exact ⟨[], rfl, .nil⟩
    | cons m members ih =>
      obtain ⟨hm, hrest⟩ := forall_mem_cons.mp hmembers
      obtain ⟨line, hline, hrendered⟩ := renderMember_rendered hm
      obtain ⟨lines, hlines, hall⟩ := ih hrest
      refine ⟨line :: lines, ?_, .cons hrendered hall⟩
      rw [map_cons, mapM_cons, hline, hlines]
      rfl
  obtain ⟨lines, hread, hall⟩ := hlines
  refine ⟨lines, ?_, hall⟩
  rw [renderExport, hread]
  rfl

theorem RenderedLines.all (h : RenderedLines lines members) :
    ∀ line ∈ lines, Printable line ∧ Begins line := by
  induction h with
  | nil => exact forall_mem_nil _
  | cons hline _ ih => exact forall_mem_cons.mpr ⟨⟨hline.printable, hline.begins⟩, ih⟩

private theorem RenderedLines.lexed (h : RenderedLines lines members) :
    lexLines false (lines.map strip) = some (members.flatMap fun m => (uncaptured m).words, false) := by
  induction h with
  | nil => rfl
  | cons hline _ ih =>
    rw [map_cons, lexLines, hline.lexed, bind_some, ih]
    rfl

def documented (name : String) (members : List Member) : SynFile where
  stem := name
  contracts := [{ name := name, members := members }]

private theorem documented_words (name : String) (members : List Member) :
    (documented name members).words =
      ident "contract" :: ident name :: mark openBrace :: (members.flatMap Member.words ++ [mark closeBrace]) := by
  rw [documented, SynFile.words, flatMap_singleton, Contract.words]
  rfl

section
variable {alnum : Char → Bool} {header : List Comment} {name : String} {point : Point}

private theorem lexFrom_rendered (hname : IsName name) {lines : List Line} {members : List Member} (h : RenderedLines lines members) :
    lexFrom false 0 (exportSource alnum header name { point with block := lines.flatMap (· ++ ['\n']) } []).toList =
      some ((documented name (members.map uncaptured)).words, false) := by
  have hsame : exportSource alnum header name { point with block := lines.flatMap (· ++ ['\n']) } [] =
      contractSource alnum header name { point with scope := "", block := lines.flatMap (· ++ ['\n']) } [] := rfl
  have hlines : blockLines [] (lines.flatMap (· ++ ['\n'])) = lines := by
    rw [blockLines]
    simp only [List.isEmpty_nil, if_true, List.map_id']
    exact splitlines_lines fun line hline => (h.all line hline).1
  have hplain : ∀ line ∈ lines, isRecord alnum line = false := fun line hline => isRecord_of_begins (h.all line hline).2
  have hrecords : recordLines alnum lines = [] := by
    rw [recordLines, List.filter_eq_nil_iff.mpr, List.map_nil]
    intro line hline
    rw [hplain line hline]
    exact Bool.false_ne_true
  have hmembers : (memberLines alnum "" lines).map (gatedLine "") = lines.map strip := by
    rw [memberLines, List.filter_eq_self.mpr, List.map_map]
    · rfl
    · intro line hline
      rw [hplain line hline]
      rfl
  rw [hsame, lexFrom_contractSource hname
    (fun line hline hgate => newline_not_mem_name (isName_of_gated (.inl rfl) _ line hline hgate)) (List.forall_mem_nil _)]
  dsimp only
  rw [hlines, hrecords, hmembers, List.nil_append, lexLines, lexFrom_contractLine hname, bind_some, lexLines_append,
    h.lexed, bind_some]
  rw [documented_words, List.flatMap_map]
  rfl

end

private theorem uncaptured_length (m : Member) : (uncaptured m).words.length ≤ m.words.length ∧
    ((uncaptured m).words.length = m.words.length → uncaptured m = m) := by
  cases m with
  | slot s =>
    obtain ⟨name, params, returnType, line, col, scope, capture⟩ := s
    cases capture with
    | true =>
      have hlength : (Member.slot ⟨name, params, returnType, line, col, scope, true⟩).words.length =
          (uncaptured (.slot ⟨name, params, returnType, line, col, scope, true⟩)).words.length + 1 := by
        simp [uncaptured, Member.words, Member.bodyWords, Slot.headWords, Member.scope]
        omega
      exact ⟨by omega, fun heq => by omega⟩
    | false => exact ⟨Nat.le_refl _, fun _ => rfl⟩
  | _ => exact ⟨Nat.le_refl _, fun _ => rfl⟩

private theorem uncaptured_of_length
    (h : (members.flatMap Member.words).length = ((members.map uncaptured).flatMap Member.words).length) :
    members.map uncaptured = members := by
  have hall (members : List Member) :
      ((members.map uncaptured).flatMap Member.words).length ≤ (members.flatMap Member.words).length := by
    induction members with
    | nil => exact Nat.le_refl _
    | cons m members ih =>
      rw [map_cons, flatMap_cons, flatMap_cons, length_append, length_append]
      exact Nat.add_le_add (uncaptured_length m).1 ih
  induction members with
  | nil => rfl
  | cons m members ih =>
    rw [map_cons, flatMap_cons, flatMap_cons, length_append, length_append] at h
    have hm := (uncaptured_length m).1
    have hrest := hall members
    rw [map_cons, (uncaptured_length m).2 (by omega), ih (by omega)]

private theorem uncaptured_iff {c : Contract} : c.members.map uncaptured = c.members ↔ ∀ s ∈ c.slots, s.capture = false := by
  have hmap : c.members.map uncaptured = c.members ↔ ∀ m ∈ c.members, uncaptured m = m := by
    conv_lhs => rhs; rw [← map_id c.members]
    exact map_inj_left
  have hslot (s : Slot) : uncaptured (.slot s) = .slot s ↔ s.capture = false := by
    constructor
    · intro heq
      exact (congrArg Slot.capture (Member.slot.inj heq)).symm
    · intro hcapture
      rw [uncaptured, ← hcapture]
  rw [hmap, forall_members]
  simp only [hslot]
  exact ⟨fun h => h.2.2.2, fun h => ⟨fun _ _ => rfl, fun _ _ => rfl, fun _ _ => rfl, h⟩⟩

private theorem uncaptured_spelled {m : Member} (hm : m.Spelled) : (uncaptured m).Spelled := by
  cases m <;> exact hm

private theorem uncaptured_valid {m : Member} {recordNames : List String} (hm : m.Valid recordNames) : (uncaptured m).Valid recordNames := by
  cases m <;> exact hm

section
variable {alnum : Char → Bool} {header : List Comment} {name : String} {point : Point} {owner : List (Line × Inferred)}
  {parsed : SynFile}

/-- The block the members are rendered to parses to the contract it was read from. -/
def Keeps (alnum : Char → Bool) (header : List Comment) (name : String) (point : Point) (owner : List (Line × Inferred))
    (parsed : SynFile) : Prop :=
  ∃ members block again, parseExport alnum header name point owner = .ok members ∧ renderExport members = .ok block ∧
    parseText (exportSource alnum header name { point with block := block } []) (pathOf name) name = .ok again ∧
    again.written = parsed.written

/-- What the document has a place for: one contract, no record, no slot that is captured. -/
structure Carried (name : String) (parsed : SynFile) : Prop where
  records : parsed.records = []
  contract : parsed.contracts.map (·.name) = [name]
  uncaptured : ∀ c ∈ parsed.contracts, ∀ s ∈ c.slots, s.capture = false

private theorem parse_rendered (hname : IsName name) {members : List Member} (hmembers : ∀ m ∈ members, m.Spelled)
    {syn : SynFile} (hsyn : syn.WellFormed) (hstem : syn.stem = name)
    (hwords : syn.words = (documented name (members.map uncaptured)).words) :
    ∃ block again, renderExport (members.map docMember) = .ok block ∧
      parseText (exportSource alnum header name { point with block := block } []) (pathOf name) name = .ok again ∧
      again.written = syn.readAs.written := by
  obtain ⟨lines, hrender, hlines⟩ := renderExport_rendered hmembers
  have hlex := @lexFrom_rendered alnum header name point hname lines _ hlines
  rw [← hwords] at hlex
  obtain ⟨again, hagain, hwritten⟩ := parseText_words hsyn ((@tokenize_iff _ (pathOf name) _).mpr hlex)
  rw [hstem] at hagain
  exact ⟨_, again, hrender, hagain, hwritten⟩

private theorem wellFormed_of_parse {text path stem : String} (h : parseText text path stem = .ok parsed) :
    parsed.WellFormed ∧ parsed.stem = stem := by
  have hvalid := valid_of_parse h
  obtain ⟨decls, -, hspelled, rfl⟩ := words_of_parse h
  refine ⟨⟨fun r hr => ?_, fun c hc => ?_, fun path => validate_ok.mpr hvalid⟩, rfl⟩
  · obtain ⟨decl, hdecl, hleft⟩ := mem_filterMap.mp hr
    cases decl with
    | inl r' =>
      cases hleft
      exact hspelled _ hdecl
    | inr c => cases hleft
  · obtain ⟨decl, hdecl, hright⟩ := mem_filterMap.mp hc
    cases decl with
    | inl r => cases hright
    | inr c' =>
      cases hright
      exact hspelled _ hdecl

private theorem decls_of_parts {decls : List Parser.Declaration} {contracts : List Contract}
    (hrecords : decls.filterMap Sum.getLeft? = []) (hcontracts : decls.filterMap Sum.getRight? = contracts) :
    decls = contracts.map .inr := by
  induction decls generalizing contracts with
  | nil =>
    obtain rfl := hcontracts
    rfl
  | cons decl decls ih =>
    cases decl with
    | inl r => cases hrecords
    | inr c =>
      obtain rfl := hcontracts
      exact congrArg (Sum.inr c :: ·) (ih hrecords rfl)

/-- A parse gives no slot it would read otherwise, as it has just read it. -/
theorem readAs_of_parse {text path stem : String} (h : parseText text path stem = .ok parsed) (hrecords : parsed.records = []) :
    parsed.readAs.written = parsed.written := by
  obtain ⟨hwell, hstem⟩ := wellFormed_of_parse h
  obtain ⟨decls, hlex, -, hparsed⟩ := words_of_parse h
  have hleft : decls.filterMap Sum.getLeft? = [] := by
    rw [hparsed] at hrecords
    exact hrecords
  have hwords : decls.flatMap Parser.declWords = parsed.words := by
    rw [decls_of_parts hleft rfl, hparsed, SynFile.words, Parser.declared, flatMap_map]
    simp only [hleft]
    rfl
  rw [hwords] at hlex
  obtain ⟨parsed', hparsed', hwritten⟩ := parseText_words hwell ((@tokenize_iff _ path _).mpr hlex)
  rw [hstem, h] at hparsed'
  cases hparsed'
  exact hwritten.symm

private theorem mem_of_chosen {c : Contract} (h : chosen parsed name = some c) : c ∈ parsed.contracts := by
  rw [chosen, or_eq_some_iff] at h
  obtain h | ⟨-, h⟩ := h
  · exact mem_of_find?_eq_some h
  · split at h
    · exact mem_of_head? h
    · cases h

private theorem parseExport_ok (hparsed : parseText (exportSource alnum header name point owner) (pathOf name) name = .ok parsed)
    {members : List DocMember} :
    parseExport alnum header name point owner = .ok members ↔
      ∃ c, chosen parsed name = some c ∧ members = c.members.map docMember := by
  rw [parseExport, parseFromText, hparsed]
  dsimp only
  rw [membersOf]
  cases chosen parsed name with
  | none =>
    constructor
    · rintro ⟨⟩
    · rintro ⟨c, ⟨⟩, -⟩
  | some c =>
    constructor
    · intro heq
      exact ⟨c, rfl, (Except.ok.inj heq).symm⟩
    · rintro ⟨c', heq, rfl⟩
      rw [Option.some.inj heq]

section
variable (hname : IsName name)
include hname

theorem documented_only {decls : List Parser.Declaration} {members : List Member} (hmembers : ∀ m ∈ members, ∀ w ∈ m.words, w ≠ ident "record" ∧ w ≠ ident "contract")
    (hwords : decls.flatMap Parser.declWords = (documented name members).words) :
    ∃ c, decls = [.inr c] ∧ c.words = (documented name members).words ∧ c.name = name := by
  rw [documented_words] at hwords
  have hnone : ∀ w ∈ ident name :: mark openBrace :: (members.flatMap Member.words ++ [mark closeBrace]),
      w ≠ ident "record" ∧ w ≠ ident "contract" := by
    rw [forall_mem_cons, forall_mem_cons, forall_mem_append, forall_mem_singleton]
    have hquiet := quiet_ident hname.2
    refine ⟨⟨hquiet.1, hquiet.2.1⟩, by decide, fun w hw => ?_, by decide⟩
    obtain ⟨m, hm, hw⟩ := mem_flatMap.mp hw
    exact hmembers m hm w hw
  cases decls with
  | nil => cases hwords
  | cons decl decls =>
    cases decl with
    | inl r => exact absurd (List.cons.inj hwords).1 (by decide)
    | inr c =>
      have htail := (List.cons.inj hwords).2
      have hall : decls = [] := by
        cases decls with
        | nil => rfl
        | cons decl decls =>
          have hfirst : ∃ w ∈ Parser.declWords decl, w = ident "record" ∨ w = ident "contract" := by
            cases decl with
            | inl r => exact ⟨_, mem_cons_self, .inl rfl⟩
            | inr c => exact ⟨_, mem_cons_self, .inr rfl⟩
          obtain ⟨w, hw, hor⟩ := hfirst
          have hin : w ∈ ident name :: mark openBrace :: (members.flatMap Member.words ++ [mark closeBrace]) := by
            rw [← htail]
            exact mem_append.mpr (.inr (mem_flatMap.mpr ⟨decl, mem_cons_self, hw⟩))
          obtain ⟨hrecord, hcontract⟩ := hnone w hin
          exact (hor.elim hrecord hcontract).elim
      obtain rfl := hall
      rw [flatMap_singleton] at hwords
      refine ⟨c, rfl, by rw [documented_words]; exact hwords, ?_⟩
      exact congrArg Prod.snd (List.cons.inj (List.cons.inj hwords).2).1

/-- Where the document has a place for all of it, the contract comes through. -/
theorem keeps_of_carried (hparsed : parseText (exportSource alnum header name point owner) (pathOf name) name = .ok parsed)
    (h : Carried name parsed) : Keeps alnum header name point owner parsed := by
  obtain ⟨hwell, hstem⟩ := wellFormed_of_parse hparsed
  obtain ⟨c, hc, hcalled⟩ := map_eq_singleton_iff.mp h.contract
  have hmem : c ∈ parsed.contracts := by rw [hc]; exact mem_singleton_self c
  have hchosen : chosen parsed name = some c := by simp [chosen, hc, hcalled]
  have hwords : parsed.words = (documented name (c.members.map uncaptured)).words := by
    rw [uncaptured_iff.mpr (h.uncaptured c hmem), documented_words, SynFile.words, h.records, hc, flatMap_singleton,
      Contract.words, hcalled]
    rfl
  obtain ⟨block, again, hrender, hagain, hwritten⟩ := @parse_rendered alnum header name point hname _
    (hwell.contracts c hmem).2 _ hwell hstem hwords
  refine ⟨_, block, again, (parseExport_ok hparsed).mpr ⟨c, hchosen, rfl⟩, hrender, hagain, ?_⟩
  rw [hwritten, readAs_of_parse hparsed h.records]

theorem carried_of_keeps (hparsed : parseText (exportSource alnum header name point owner) (pathOf name) name = .ok parsed)
    (h : Keeps alnum header name point owner parsed) : Carried name parsed := by
  obtain ⟨hwell, -⟩ := wellFormed_of_parse hparsed
  obtain ⟨members, block, again, hmembers, hrender, hagain, hwritten⟩ := h
  obtain ⟨c, hchosen, rfl⟩ := (parseExport_ok hparsed).mp hmembers
  have hmem := mem_of_chosen hchosen
  have hspelled := (hwell.contracts c hmem).2
  obtain ⟨lines, hrender', hlines⟩ := renderExport_rendered hspelled
  rw [hrender] at hrender'
  cases hrender'
  obtain ⟨decls, hlex, -, rfl⟩ := words_of_parse hagain
  rw [lexFrom_rendered hname hlines] at hlex
  have hvalid := (validate_ok.mp (hwell.valid "")).contracts c hmem
  have hdeclared : ∀ m ∈ c.members.map uncaptured, ∀ w ∈ m.words, w ≠ ident "record" ∧ w ≠ ident "contract" := by
    rw [List.forall_mem_map]
    intro m hm
    have hrecords : ∀ name ∈ parsed.recordNames, keywords.contains name = false := by
      rw [SynFile.recordNames, List.forall_mem_map]
      exact fun r hr => (hwell.records r hr).1.2
    exact member_declares_nothing (uncaptured_spelled (hspelled m hm)) (uncaptured_valid (hvalid.members m hm)) hrecords
  obtain ⟨c', rfl, hwords, hcalled⟩ := documented_only hname hdeclared (Prod.mk.inj (Option.some.inj hlex)).1.symm
  have hrecords : [] = parsed.records.map Record.unplaced := congrArg SynFile.records hwritten
  have hcontracts : [c'.unplaced] = parsed.contracts.map Contract.unplaced := congrArg SynFile.contracts hwritten
  obtain ⟨c'', hone, hsame⟩ := map_eq_singleton_iff.mp hcontracts.symm
  obtain rfl : c = c'' := by
    rw [hone] at hmem
    exact mem_singleton.mp hmem
  have hname' : c.name = name := (congrArg Contract.name hsame).trans hcalled
  have hlength : c.words.length = (documented name (c.members.map uncaptured)).words.length := by
    rw [← hwords, ← contract_words_unplaced c, hsame, contract_words_unplaced]
  rw [documented_words, Contract.words] at hlength
  simp only [length_cons, length_append, length_nil] at hlength
  refine ⟨map_eq_nil_iff.mp hrecords.symm, by rw [hone, map_singleton, hname'], ?_⟩
  rw [hone, forall_mem_singleton]
  exact uncaptured_iff.mp (uncaptured_of_length (by omega))

/-- An edit of one member of such a contract, rendered and parsed, leaves the others what they were. -/
theorem edit_others (hparsed : parseText (exportSource alnum header name point owner) (pathOf name) name = .ok parsed)
    (h : Carried name parsed) (i : Nat) {edited : Member} (hcapture : uncaptured edited = edited)
    (hedited : ∀ c ∈ parsed.contracts, (documented name (c.members.set i edited)).WellFormed) :
    ∃ members block again c', parseExport alnum header name point owner = .ok members ∧
      renderExport (members.set i (docMember edited)) = .ok block ∧
      parseText (exportSource alnum header name { point with block := block } []) (pathOf name) name = .ok again ∧
      again.contracts = [c'] ∧
      ∀ c ∈ parsed.contracts, ∀ j ≠ i, c'.members[j]?.map Member.unplaced = c.members[j]?.map Member.unplaced := by
  obtain ⟨c, hc, hcalled⟩ := map_eq_singleton_iff.mp h.contract
  have hmem : c ∈ parsed.contracts := by rw [hc]; exact mem_singleton_self c
  have hchosen : chosen parsed name = some c := by simp [chosen, hc, hcalled]
  have hwell := hedited c hmem
  have hsame : (c.members.set i edited).map uncaptured = c.members.set i edited := by
    rw [map_set, uncaptured_iff.mpr (h.uncaptured c hmem), hcapture]
  have hspelled := (hwell.contracts _ (mem_singleton_self _)).2
  obtain ⟨block, again, hrender, hagain, hwritten⟩ := @parse_rendered alnum header name point hname _
    hspelled _ hwell rfl (by rw [hsame])
  have hcontracts : again.contracts.map Contract.unplaced = _ := congrArg SynFile.contracts hwritten
  obtain ⟨c', hone, hc'⟩ := map_eq_singleton_iff.mp hcontracts
  rw [map_set] at hrender
  refine ⟨_, block, again, c', (parseExport_ok hparsed).mpr ⟨c, hchosen, rfl⟩, hrender, hagain, hone, ?_⟩
  rw [hc, forall_mem_singleton]
  intro j hj
  -- what is parsed is read as itself, so the others are read as they were
  have hothers : (c.members.map Member.readAs).map Member.unplaced = c.members.map Member.unplaced := by
    have hread := congrArg SynFile.contracts (readAs_of_parse hparsed h.records)
    rw [SynFile.written, SynFile.written, SynFile.readAs, hc] at hread
    exact congrArg Contract.members (List.cons.inj hread).1
  have hmembers : c'.members.map Member.unplaced = ((c.members.set i edited).map Member.readAs).map Member.unplaced :=
    congrArg Contract.members hc'
  calc c'.members[j]?.map Member.unplaced
      = (c'.members.map Member.unplaced)[j]? := List.getElem?_map.symm
    _ = ((c.members.map Member.readAs).map Member.unplaced)[j]? := by
        rw [hmembers, map_set, map_set, List.getElem?_set_ne (Ne.symm hj)]
    _ = c.members[j]?.map Member.unplaced := by rw [hothers, List.getElem?_map]

end

/-- A contract read into the document and rendered back is the same contract exactly where it is one
contract, with no record beside it and no slot captured; and there an edit of one member leaves the others. -/
theorem carried_iff (hname : IsName name)
    (hparsed : parseText (exportSource alnum header name point owner) (pathOf name) name = .ok parsed) :
    (Keeps alnum header name point owner parsed ↔ Carried name parsed) ∧
    (Carried name parsed → ∀ (i : Nat) (edited : Member), uncaptured edited = edited →
      (∀ c ∈ parsed.contracts, (documented name (c.members.set i edited)).WellFormed) →
      ∃ members block again c', parseExport alnum header name point owner = .ok members ∧
        renderExport (members.set i (docMember edited)) = .ok block ∧
        parseText (exportSource alnum header name { point with block := block } []) (pathOf name) name = .ok again ∧
        again.contracts = [c'] ∧
        ∀ c ∈ parsed.contracts, ∀ j ≠ i, c'.members[j]?.map Member.unplaced = c.members[j]?.map Member.unplaced) :=
  ⟨⟨carried_of_keeps hname hparsed, keeps_of_carried hname hparsed⟩,
    fun h i _ hcapture hedited => edit_others hname hparsed h i hcapture hedited⟩

end

def till (block : String) : Point where
  owner := lit "shop"
  ownerLine := by decide
  block := lit block

def tillParsed (capture : Bool) : SynFile where
  stem := "Shop"
  contracts := [{
    name := "Shop", line := 3, col := 1
    members := [.slot {
      name := "pay", params := [{ type := "int", name := "amount", line := 4, col := if capture then 22 else 14 }],
      line := 4, col := 5, capture := capture }] }]

private theorem parsed_till (capture : Bool) :
    parseText (exportSource Char.isAlphanum [] "Shop"
      (till (if capture then "slot capture pay(int amount)" else "slot pay(int amount)")) []) (pathOf "Shop") "Shop" =
        .ok (tillParsed capture) := by
  cases capture
  · decide +kernel
  · decide +kernel

theorem carried_iff_till :
    (Keeps Char.isAlphanum [] "Shop" (till "slot pay(int amount)") [] (tillParsed false) ↔ Carried "Shop" (tillParsed false)) ∧
    (Carried "Shop" (tillParsed false) → ∀ (i : Nat) (edited : Member), uncaptured edited = edited →
      (∀ c ∈ (tillParsed false).contracts, (documented "Shop" (c.members.set i edited)).WellFormed) →
      ∃ members block again c', parseExport Char.isAlphanum [] "Shop" (till "slot pay(int amount)") [] = .ok members ∧
        renderExport (members.set i (docMember edited)) = .ok block ∧
        parseText (exportSource Char.isAlphanum [] "Shop" { till "slot pay(int amount)" with block := block } [])
          (pathOf "Shop") "Shop" = .ok again ∧
        again.contracts = [c'] ∧
        ∀ c ∈ (tillParsed false).contracts, ∀ j ≠ i,
          c'.members[j]?.map Member.unplaced = c.members[j]?.map Member.unplaced) :=
  carried_iff ⟨by decide, by decide⟩ (parsed_till false)

/-- A captured slot comes back as one that is not. -/
theorem capture_lost :
    parseText (exportSource Char.isAlphanum [] "Shop" (till "slot capture pay(int amount)") []) (pathOf "Shop") "Shop" =
        .ok (tillParsed true) ∧
      ¬ Keeps Char.isAlphanum [] "Shop" (till "slot capture pay(int amount)") [] (tillParsed true) := by
  refine ⟨parsed_till true, fun hkeeps => ?_⟩
  have hcarried := carried_of_keeps ⟨by decide, by decide⟩ (parsed_till true) hkeeps
  have hcapture := hcarried.uncaptured _ mem_cons_self _ mem_cons_self
  cases hcapture

end SynQt.DesignDoc
