import SynQt.Tools.BlockLines

/-! The words of a block, told apart as records' and members' by the words that begin these. -/
namespace SynQt.ContractGen
open Synqtc List
open YamlEdit (strip lstrip lit)

def opensMember (w : Word) : Bool := w == mark '<' || Parser.memberWords.any fun keyword => w == ident keyword

/-- A word inside of a record or of a member. -/
def Quiet (w : Word) : Prop := w ≠ ident "record" ∧ w ≠ ident "contract" ∧ opensMember w = false

theorem quiet_ident {name : String} (hname : keywords.contains name = false) : Quiet (ident name) := by
  have hne (keyword : String) (hkeyword : keywords.contains keyword = true) : ident name ≠ ident keyword := by
    intro heq
    cases congrArg Prod.snd heq
    rw [hname] at hkeyword
    cases hkeyword
  refine ⟨hne _ (by decide), hne _ (by decide), ?_⟩
  have hmark : (ident name == mark '<') = false := beq_eq_false_iff_ne.mpr fun heq => by cases congrArg Prod.fst heq
  simp only [opensMember, hmark, Parser.memberWords, any_cons, any_nil, beq_eq_false_iff_ne.mpr (hne "prop" (by decide)),
    beq_eq_false_iff_ne.mpr (hne "model" (by decide)), beq_eq_false_iff_ne.mpr (hne "signal" (by decide)),
    beq_eq_false_iff_ne.mpr (hne "slot" (by decide)), Bool.or_self]

private theorem quiet_of_kind {w : Word} (hident : w.1 ≠ .ident) (hgate : w ≠ mark '<') : Quiet w := by
  have hne (name : String) : w ≠ ident name := fun heq => hident (heq ▸ rfl)
  refine ⟨hne _, hne _, ?_⟩
  rw [opensMember, beq_eq_false_iff_ne.mpr hgate, Bool.false_or, any_eq_false]
  exact fun name _ heq => hne name (beq_iff_eq.mp heq)

private theorem quiet_mark {c : Char} (hc : c ≠ '<') : Quiet (mark c) :=
  quiet_of_kind Kind.noConfusion fun heq => hc (Kind.mark.inj (congrArg Prod.fst heq))

section
variable {recordNames : List String}

private theorem keyword_unresolved {base : String}
    (hknown : ((builtinTypes.lookup base).isNone && !recordNames.contains base) = false)
    (hrecords : ∀ name ∈ recordNames, keywords.contains name = false) : keywords.contains base = false := by
  rw [← Bool.not_eq_true, contains_iff_mem]
  intro hmem
  have hbuiltin : ∀ keyword ∈ keywords, (builtinTypes.lookup keyword).isNone = true := by decide
  rw [hbuiltin base hmem, Bool.true_and, Bool.not_eq_false', contains_iff_mem] at hknown
  have hname := hrecords base hknown
  rw [contains_iff_mem.mpr hmem] at hname
  cases hname

theorem quiet_type {type : String} (htype : IsType type) (hresolves : Resolves recordNames type)
    (hrecords : ∀ name ∈ recordNames, keywords.contains name = false) : ∀ w ∈ typeWords type, Quiet w := by
  obtain ⟨reference, href, -, hknown, -⟩ := hresolves
  have hbase := keyword_unresolved hknown hrecords
  obtain hname | ⟨base, bound, hname, hbound, rfl⟩ := htype
  · have hfront : identPrefix (type.toList ++ []) = type.toList := identPrefix_append hname fun c hc => by cases hc
    have hsome : type.toList.isEmpty = false := by
      cases hchars : type.toList with
      | nil =>
        rw [hchars] at hname
        cases hname
      | cons c word => rfl
    rw [append_nil] at hfront
    rw [parseType, matchType] at href
    simp only [hfront, hsome, Bool.false_eq_true, if_false, drop_length, String.ofList_toList] at href
    cases href
    rw [typeWords_identifier hname, forall_mem_singleton]
    exact quiet_ident hbase
  · have hsame : reference.base = base := by
      have hchars : (base ++ "[" ++ bound ++ "]").toList = base.toList ++ '[' :: (bound.toList ++ [']']) := by simp
      rw [parseType, hchars] at href
      cases hmatch : matchType (base.toList ++ '[' :: (bound.toList ++ [']'])) with
      | none =>
        rw [hmatch] at href
        cases href
      | some found =>
        obtain ⟨hfound, hsized⟩ := matchType_bracket hname hmatch
        obtain ⟨found, size⟩ := found
        cases size with
        | none => cases hsized
        | some size =>
          rw [hmatch] at href
          obtain ⟨bound', -, href⟩ := Lib.bind_ok.mp href
          split at href
          · cases href
          · cases href
            rw [show found = base.toList from hfound, String.ofList_toList]
    rw [typeWords_bounded hname hbound.2, forall_mem_cons, forall_mem_cons, forall_mem_cons,
      forall_mem_singleton]
    refine ⟨quiet_ident (hsame ▸ hbase), quiet_mark (by decide), quiet_of_kind Kind.noConfusion ?_, quiet_mark (by decide)⟩
    exact fun heq => by cases congrArg Prod.fst heq

private theorem quiet_typed {type name : String} (htype : IsType type) (hname : IsName name) (hresolves : Resolves recordNames type)
    (hrecords : ∀ name ∈ recordNames, keywords.contains name = false) : ∀ w ∈ typeWords type ++ [ident name], Quiet w := by
  rw [forall_mem_append, forall_mem_singleton]
  exact ⟨quiet_type htype hresolves hrecords, quiet_ident hname.2⟩

private theorem quiet_enclosed {words : List Word} (h : ∀ w ∈ words, Quiet w) : ∀ w ∈ mark '(' :: (words ++ [mark ')']), Quiet w := by
  rw [forall_mem_cons, forall_mem_append, forall_mem_singleton]
  exact ⟨quiet_mark (by decide), h, quiet_mark (by decide)⟩

private theorem quiet_params {params : List Param} (hspelled : ∀ p ∈ params, p.Spelled) (hvalid : ∀ p ∈ params, Resolves recordNames p.type)
    (hrecords : ∀ name ∈ recordNames, keywords.contains name = false) : ∀ w ∈ paramsWords params, Quiet w :=
  quiet_enclosed (forall_commaWords (quiet_mark (by decide)) fun p hp =>
    quiet_typed (hspelled p hp).1 (hspelled p hp).2 (hvalid p hp) hrecords)

theorem record_words {r : Record} (hr : r.Spelled) (hvalid : ∀ f ∈ r.fields, Resolves recordNames f.type)
    (hrecords : ∀ name ∈ recordNames, keywords.contains name = false) :
    ∃ rest, r.words = ident "record" :: rest ∧ ∀ w ∈ rest, Quiet w := by
  refine ⟨_, rfl, ?_⟩
  rw [forall_mem_cons]
  exact ⟨quiet_ident hr.1.2, quiet_params hr.2.2 hvalid hrecords⟩

/-- A member's own gate past its `<`. -/
def gateRest (scope : List String) : List Word := commaWords (fun name => [ident name]) scope ++ [mark '>']

section
variable {m : Member} (hm : m.Spelled)
include hm

theorem gate_words : ∀ w ∈ gateRest m.scope, Quiet w := by
  rw [gateRest, forall_mem_append, forall_mem_singleton]
  refine ⟨forall_commaWords (quiet_mark (by decide)) fun name hname => ?_, quiet_mark (by decide)⟩
  rw [forall_mem_singleton]
  exact quiet_ident (hm.2.1 name hname).2

theorem body_words (hvalid : m.Valid recordNames)
    (hrecords : ∀ name ∈ recordNames, keywords.contains name = false) :
    ∃ keyword rest, m.bodyWords = ident keyword :: rest ∧ keyword ∈ Parser.memberWords ∧ ∀ w ∈ rest, Quiet w := by
  obtain ⟨hname, -, -, hbody⟩ := hm
  cases m with
  | prop p => exact ⟨"prop", _, rfl, by decide, quiet_typed hbody hname hvalid hrecords⟩
  | model m =>
    refine ⟨"model", _, rfl, by decide, ?_⟩
    rw [forall_mem_cons]
    refine ⟨quiet_ident hname.2, quiet_enclosed (forall_commaWords (quiet_mark (by decide)) fun r hr => ?_)⟩
    exact quiet_typed (hbody.2 r hr).1 (hbody.2 r hr).2 (hvalid r hr) hrecords
  | signal s =>
    refine ⟨"signal", _, rfl, by decide, ?_⟩
    rw [forall_mem_cons]
    exact ⟨quiet_ident hname.2, quiet_params hbody hvalid.2 hrecords⟩
  | slot s =>
    refine ⟨"slot", _, rfl, by decide, ?_⟩
    rw [forall_mem_append, Slot.headWords, forall_mem_append, forall_mem_append, forall_mem_singleton]
    refine ⟨⟨?_, ?_, quiet_ident hname.2⟩, quiet_params hbody.2 hvalid.2 hrecords⟩
    · split
      · rw [forall_mem_singleton]
        exact quiet_ident (by decide)
      · exact forall_mem_nil _
    · cases hreturn : s.returnType with
      | none => exact forall_mem_nil _
      | some type => exact quiet_type (hbody.1 type hreturn) (hvalid.1 type hreturn) hrecords

theorem member_declares_nothing (hvalid : m.Valid recordNames)
    (hrecords : ∀ name ∈ recordNames, keywords.contains name = false) :
    ∀ w ∈ m.words, w ≠ ident "record" ∧ w ≠ ident "contract" := by
  obtain ⟨keyword, rest, hbody, hkeyword, hquiet⟩ := body_words hm hvalid hrecords
  intro w hw
  rw [Member.words, hbody, mem_append, mem_cons] at hw
  obtain hw | rfl | hw := hw
  · rw [gateWords] at hw
    split at hw
    · cases hw
    · obtain rfl | hw := mem_cons.mp hw
      · decide
      · have hown := gate_words hm w hw
        exact ⟨hown.1, hown.2.1⟩
  · have hne : ∀ keyword ∈ Parser.memberWords, ident keyword ≠ ident "record" ∧ ident keyword ≠ ident "contract" := by decide
    exact hne keyword hkeyword
  · exact ⟨(hquiet w hw).1, (hquiet w hw).2.1⟩

end

end

def turn (inRecord : Bool) (w : Word) : Bool := if w == ident "record" then true else if opensMember w then false else inRecord

def part (records : Bool) : Bool → List Word → List Word
  | _, [] => []
  | inRecord, w :: words =>
    if turn inRecord w == records then w :: part records (turn inRecord w) words else part records (turn inRecord w) words

private theorem part_append (records inRecord : Bool) (words later : List Word) :
    part records inRecord (words ++ later) = part records inRecord words ++ part records (words.foldl turn inRecord) later := by
  induction words generalizing inRecord with
  | nil => rfl
  | cons w words ih =>
    rw [cons_append, part, part, ih]
    split
    · rfl
    · rfl

variable {words : List Word}

private theorem part_false_of_true {inRecord : Bool} (h : part true inRecord words = []) :
    part false inRecord words = words := by
  induction words generalizing inRecord with
  | nil => rfl
  | cons w words ih =>
    rw [part] at h ⊢
    cases hturn : turn inRecord w with
    | true =>
      rw [hturn] at h
      cases h
    | false =>
      rw [hturn, if_neg (by decide)] at h
      rw [beq_self_eq_true, if_pos rfl, ih h]

private theorem turn_quiet {w : Word} (hw : Quiet w) (inRecord : Bool) : turn inRecord w = inRecord := by
  rw [turn, beq_eq_false_iff_ne.mpr hw.1, hw.2.2, if_neg Bool.false_ne_true, if_neg Bool.false_ne_true]

private theorem part_steady {inRecord : Bool} (hwords : ∀ w ∈ words, turn inRecord w = inRecord) (records : Bool) :
    part records inRecord words = (if inRecord == records then words else []) ∧ words.foldl turn inRecord = inRecord := by
  induction words with
  | nil => exact ⟨by split <;> rfl, rfl⟩
  | cons w words ih =>
    obtain ⟨hw, hrest⟩ := forall_mem_cons.mp hwords
    obtain ⟨hpart, hlast⟩ := ih hrest
    rw [part, foldl_cons, hw, hpart]
    refine ⟨?_, hlast⟩
    split
    · rfl
    · rfl

/-- What a word begins goes on over the words that begin nothing. -/
theorem part_begun {w : Word} {begun : Bool} (hw : ∀ inRecord, turn inRecord w = begun) (hwords : ∀ v ∈ words, turn begun v = begun) (records inRecord : Bool) :
    part records inRecord (w :: words) = (if begun == records then w :: words else []) ∧
      (w :: words).foldl turn inRecord = begun := by
  obtain ⟨hpart, hlast⟩ := part_steady hwords records
  rw [part, foldl_cons, hw, hpart]
  refine ⟨?_, hlast⟩
  split
  · rfl
  · rfl

private theorem turn_record (inRecord : Bool) : turn inRecord (ident "record") = true := by
  rw [turn, beq_self_eq_true, if_pos rfl]

private theorem turn_opens {w : Word} (hopens : opensMember w = true) (inRecord : Bool) : turn inRecord w = false := by
  have hne : w ≠ ident "record" := by
    rintro rfl
    cases hopens
  rw [turn, beq_eq_false_iff_ne.mpr hne, if_neg Bool.false_ne_true, if_pos hopens]

private theorem opensMember_keyword {keyword : String} (h : keyword ∈ Parser.memberWords) : opensMember (ident keyword) = true := by
  rw [opensMember, Bool.or_eq_true, any_eq_true]
  exact .inr ⟨keyword, h, beq_self_eq_true _⟩

section
variable {name scope : String} {items : List (Record ⊕ Member)}

theorem Exportable.recordNames (h : Exportable name scope items) :
    ∀ name' ∈ (declaredContract name scope items).recordNames, keywords.contains name' = false := by
  rw [SynFile.recordNames, forall_mem_map]
  exact fun r hr => (h.records r hr).1.2

theorem inherited_valid {m : Member} {recordNames : List String} (h : (inherited scope m).Valid recordNames) : m.Valid recordNames := by
  rw [inherited] at h
  split at h
  · cases m <;> exact h
  · exact h

section
variable (h : Exportable name scope items)
include h

theorem Exportable.record_words {r : Record} (hr : .inl r ∈ items) :
    ∃ rest, r.words = ident "record" :: rest ∧ ∀ w ∈ rest, Quiet w := by
  have hmem : r ∈ items.filterMap Sum.getLeft? := mem_filterMap.mpr ⟨_, hr, rfl⟩
  exact ContractGen.record_words (h.records r hmem) (h.valid.fields r hmem) h.recordNames

section
variable {m : Member} (hm : m ∈ items.filterMap Sum.getRight?)
include hm

theorem Exportable.member_valid :
    m.Valid (declaredContract name scope items).recordNames :=
  inherited_valid ((h.valid.contracts _ mem_cons_self).members _ (mem_map_of_mem hm))

theorem Exportable.body_words :
    ∃ keyword rest, m.bodyWords = ident keyword :: rest ∧ keyword ∈ Parser.memberWords ∧ ∀ w ∈ rest, Quiet w :=
  ContractGen.body_words (h.members m hm).1 (h.member_valid hm) h.recordNames

/-- Every word of a member is one of its own. -/
theorem Exportable.part_member (records inRecord : Bool) :
    part records inRecord m.words = (if records then [] else m.words) ∧ m.words.foldl turn inRecord = false := by
  obtain ⟨keyword, rest, hbody, hkeyword, hquiet⟩ := h.body_words hm
  have hbegun := part_begun (turn_opens (opensMember_keyword hkeyword)) (fun w hw => turn_quiet (hquiet w hw) false) records
  rw [Member.words, gateWords, hbody]
  split
  · rw [nil_append]
    refine ⟨?_, (hbegun inRecord).2⟩
    rw [(hbegun inRecord).1]
    cases records <;> rfl
  · have hgate := part_begun (turn_opens (w := mark '<') (by decide))
      (fun w hw => turn_quiet (gate_words (h.members m hm).1 w hw) false) records inRecord
    rw [gateRest] at hgate
    rw [part_append, foldl_append, hgate.1, hgate.2, (hbegun false).1]
    refine ⟨?_, (hbegun false).2⟩
    cases records <;> rfl

end

theorem Exportable.part_items (records inRecord : Bool) :
    part records inRecord (items.flatMap itemWords) =
      if records then (items.filterMap Sum.getLeft?).flatMap Record.words
      else (items.filterMap Sum.getRight?).flatMap Member.words := by
  have hall : ∀ left : List (Record ⊕ Member), left ⊆ items → ∀ inRecord, part records inRecord (left.flatMap itemWords) =
      if records then (left.filterMap Sum.getLeft?).flatMap Record.words
      else (left.filterMap Sum.getRight?).flatMap Member.words := by
    intro left
    induction left with
    | nil =>
      intro _ _
      split <;> rfl
    | cons item left ih =>
      intro hsub inRecord
      obtain ⟨hitem, hleft⟩ := cons_subset.mp hsub
      rw [flatMap_cons, part_append, ih hleft]
      cases item with
      | inl r =>
        obtain ⟨rest, hwords, hquiet⟩ := h.record_words hitem
        have hrest : ∀ w ∈ rest, turn true w = true := fun w hw => turn_quiet (hquiet w hw) true
        rw [itemWords, Sum.elim_inl, hwords, (part_begun turn_record hrest records inRecord).1]
        cases records with
        | true => simp [hwords]
        | false => rfl
      | inr m =>
        have hm : m ∈ items.filterMap Sum.getRight? := mem_filterMap.mpr ⟨_, hitem, rfl⟩
        rw [itemWords, Sum.elim_inr, (h.part_member hm records inRecord).1]
        cases records with
        | true => rfl
        | false => simp
  exact hall items (List.Subset.refl _) inRecord

end

end

/-- Lines of which the ones that begin a record begin no member are told apart as their words are,
once they hold as much of the records as there is. -/
theorem part_lines {lines : List (Bool × List Word)}
    (hrecords : ∀ line ∈ lines, line.1 = true → ∃ rest, line.2 = ident "record" :: rest ∧ ∀ w ∈ rest, opensMember w = false)
    (inRecord : Bool) :
    ((lines.filter Prod.fst).flatMap Prod.snd).length ≤ (part true inRecord (lines.flatMap Prod.snd)).length ∧
      ((part true inRecord (lines.flatMap Prod.snd)).length = ((lines.filter Prod.fst).flatMap Prod.snd).length →
        part false inRecord (lines.flatMap Prod.snd) = (lines.filter (!·.1)).flatMap Prod.snd) := by
  induction lines generalizing inRecord with
  | nil => exact ⟨Nat.le_refl _, fun _ => rfl⟩
  | cons line lines ih =>
    obtain ⟨hline, hlines⟩ := forall_mem_cons.mp hrecords
    obtain ⟨flag, words⟩ := line
    rw [flatMap_cons, part_append, part_append, filter_cons, filter_cons]
    obtain ⟨hle, heq⟩ := ih hlines (words.foldl turn inRecord)
    cases flag with
    | true =>
      obtain ⟨rest, rfl, hrest⟩ := hline rfl
      have hsteady : ∀ w ∈ rest, turn true w = true := by
        intro w hw
        rw [turn, hrest w hw]
        split <;> rfl
      have hpart (records : Bool) := (part_begun turn_record hsteady records inRecord).1
      simp only [hpart, if_true, flatMap_cons, length_append]
      refine ⟨Nat.add_le_add_left hle _, fun hlength => ?_⟩
      exact heq (Nat.add_left_cancel hlength)
    | false =>
      simp only [Bool.false_eq_true, if_false, Bool.not_false, if_true, flatMap_cons, length_append]
      refine ⟨hle.trans (Nat.le_add_left _ _), fun hlength => ?_⟩
      -- nothing of the line is a record's, as the lines below hold what there is of these
      have hnone : part true inRecord words = [] := length_eq_zero_iff.mp (by omega)
      rw [part_false_of_true hnone, heq (by omega)]

end SynQt.ContractGen
