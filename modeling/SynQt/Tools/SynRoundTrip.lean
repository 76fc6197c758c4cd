import SynQt.Tools.SynComments
import SynQt.Tools.SynMembers
import SynQt.Tools.SynValidity

namespace SynQt.Synqtc
open Lib List

private theorem isWord_ident {name : String} (h : identifier name.toList = true) : IsWord (ident name) := h

private theorem isWord_mark {c : Char} (h : c ∈ marks) : IsWord (mark c) := ⟨h, rfl⟩

private theorem isWord_type {type : String} (h : IsType type) : ∀ w ∈ typeWords type, IsWord w := by
  rcases h with hname | ⟨base, bound, hbase, hbound, rfl⟩
  · rw [typeWords_identifier hname, forall_mem_singleton]
    exact hname
  · rw [typeWords_bounded hbase hbound.2]
    simp only [forall_mem_cons, not_mem_nil, false_implies, implies_true, and_true]
    exact ⟨hbase, isWord_mark (by decide), hbound, isWord_mark (by decide)⟩

private theorem isWord_typed {type name : String} (htype : IsType type) (hname : IsName name) :
    ∀ w ∈ typeWords type ++ [ident name], IsWord w := by
  rw [forall_mem_append, forall_mem_singleton]
  exact ⟨isWord_type htype, hname.1⟩

private theorem isWord_commas {α : Type} {words : α → List Word} {l : List α} (h : ∀ a ∈ l, ∀ w ∈ words a, IsWord w) :
    ∀ w ∈ commaWords words l, IsWord w :=
  forall_commaWords (isWord_mark (by decide)) h

/-- Items between two marks. -/
theorem isWord_enclosed {c d : Char} (hc : c ∈ marks) (hd : d ∈ marks) {words : List Word} (h : ∀ w ∈ words, IsWord w) :
    ∀ w ∈ mark c :: (words ++ [mark d]), IsWord w := by
  rw [forall_mem_cons, forall_mem_append, forall_mem_singleton]
  exact ⟨isWord_mark hc, h, isWord_mark hd⟩

private theorem isWord_params {params : List Param} (h : ∀ p ∈ params, p.Spelled) : ∀ w ∈ paramsWords params, IsWord w :=
  isWord_enclosed (by decide) (by decide) (isWord_commas fun p hp => isWord_typed (h p hp).1 (h p hp).2)

variable {m : Member}

theorem isWord_member (hm : m.Spelled) : ∀ w ∈ m.words, IsWord w := by
  obtain ⟨hname, hscope, _, hbody⟩ := hm
  rw [Member.words, forall_mem_append]
  constructor
  · rw [gateWords]
    split
    · exact fun w hw => by cases hw
    · apply isWord_enclosed (by decide) (by decide)
      apply isWord_commas
      intro name hmem
      rw [forall_mem_singleton]
      exact (hscope name hmem).1
  · cases m with
    | prop p =>
      rw [Member.bodyWords, forall_mem_cons]
      exact ⟨isWord_ident (by decide), isWord_typed hbody hname⟩
    | model m =>
      rw [Member.bodyWords, forall_mem_cons, forall_mem_cons]
      refine ⟨isWord_ident (by decide), hname.1, isWord_enclosed (by decide) (by decide) ?_⟩
      exact isWord_commas fun r hr => isWord_typed (hbody.2 r hr).1 (hbody.2 r hr).2
    | signal s =>
      rw [Member.bodyWords, forall_mem_cons, forall_mem_cons]
      exact ⟨isWord_ident (by decide), hname.1, isWord_params hbody⟩
    | slot s =>
      rw [Member.bodyWords, forall_mem_cons, forall_mem_append, Slot.headWords, forall_mem_append,
        forall_mem_append, forall_mem_singleton]
      refine ⟨isWord_ident (by decide), ⟨?_, ?_, hname.1⟩, isWord_params hbody.2⟩
      · split
        · rw [forall_mem_singleton]
          exact isWord_ident (by decide)
        · exact fun w hw => by cases hw
      · cases hreturn : s.returnType with
        | none => exact fun w hw => by cases hw
        | some type => exact isWord_type (hbody.1 type hreturn)

private theorem isWord_record {r : Record} (hr : r.Spelled) : ∀ w ∈ r.words, IsWord w := by
  rw [Record.words, forall_mem_cons, forall_mem_cons]
  exact ⟨isWord_ident (by decide), hr.1.1, isWord_params hr.2.2⟩

private theorem isWord_contract {c : Contract} (hc : c.Spelled) : ∀ w ∈ c.words, IsWord w := by
  rw [Contract.words, forall_mem_cons, forall_mem_cons]
  refine ⟨isWord_ident (by decide), hc.1.1, isWord_enclosed (by decide) (by decide) fun w hw => ?_⟩
  obtain ⟨m, hm, hw⟩ := mem_flatMap.mp hw
  exact isWord_member (hc.2 m hm) w hw

variable {syn : SynFile}

private theorem isWord_file (hrecords : ∀ r ∈ syn.records, r.Spelled) (hcontracts : ∀ c ∈ syn.contracts, c.Spelled) :
    ∀ w ∈ syn.words, IsWord w := by
  rw [SynFile.words, forall_mem_append]
  constructor
  · intro w hw
    obtain ⟨r, hr, hw⟩ := mem_flatMap.mp hw
    exact isWord_record (hrecords r hr) w hw
  · intro w hw
    obtain ⟨c, hc, hw⟩ := mem_flatMap.mp hw
    exact isWord_contract (hcontracts c hc) w hw

private theorem unplaced_name (m : Member) : m.unplaced.name = m.name := by
  cases m <;> rfl

variable {recordNames : List String}

private theorem valid_unplaced :
    m.unplaced.Valid recordNames ↔ m.Valid recordNames := by
  cases m <;> simp [Member.unplaced, Member.Valid, Param.unplaced, Role.unplaced]

theorem valid_written : syn.written.Valid ↔ syn.Valid := by
  have hnames : syn.written.recordNames = syn.recordNames := by
    rw [SynFile.recordNames, SynFile.recordNames, SynFile.written, map_map]
    rfl
  have hrecords : syn.written.records.map (·.name) = syn.records.map (·.name) := hnames
  have hcontracts : syn.written.contracts.map (·.name) = syn.contracts.map (·.name) := by
    rw [SynFile.written, map_map]
    rfl
  have hmembers (c : Contract) : c.unplaced.Valid syn.recordNames ↔ c.Valid syn.recordNames := by
    have hsame : c.unplaced.members.map Member.name = c.members.map Member.name := by
      rw [Contract.unplaced, map_map]
      exact map_congr_left fun m _ => unplaced_name m
    constructor
    · rintro ⟨hnodup, hall⟩
      refine ⟨hsame ▸ hnodup, fun m hm => valid_unplaced.mp (hall _ (mem_map_of_mem hm))⟩
    · rintro ⟨hnodup, hall⟩
      refine ⟨hsame ▸ hnodup, fun m hm => ?_⟩
      obtain ⟨m', hm', rfl⟩ := mem_map.mp hm
      exact valid_unplaced.mpr (hall m' hm')
  constructor
  · rintro ⟨hnodup, hfields, hall⟩
    rw [hrecords, hcontracts] at hnodup
    rw [hnames] at hfields hall
    refine ⟨hnodup, fun r hr f hf => ?_, fun c hc => (hmembers c).mp (hall _ (mem_map_of_mem hc))⟩
    exact hfields r.unplaced (mem_map_of_mem hr) f.unplaced (mem_map_of_mem hf)
  · rintro ⟨hnodup, hfields, hall⟩
    refine ⟨?_, fun r hr f hf => ?_, fun c hc => ?_⟩
    · rw [hrecords, hcontracts]
      exact hnodup
    · obtain ⟨r', hr', rfl⟩ := mem_map.mp hr
      obtain ⟨f', hf', rfl⟩ := mem_map.mp hf
      rw [hnames]
      exact hfields r' hr' f' hf'
    · obtain ⟨c', hc', rfl⟩ := mem_map.mp hc
      rw [hnames]
      exact (hmembers c').mpr (hall c' hc')

private theorem readAs_name (m : Member) : m.readAs.name = m.name := by
  cases m with
  | slot s =>
    rw [Member.readAs, Slot.readAs]
    split <;> rfl
  | _ => rfl

private theorem valid_readAs (h : m.Valid recordNames) : m.readAs.Valid recordNames := by
  cases m with
  | slot s =>
    rw [Member.readAs, Slot.readAs]
    split
    · refine ⟨fun type htype => ?_, h.2⟩
      cases htype
    · exact h
  | _ => exact h

theorem SynFile.Valid.readAs (h : syn.Valid) : syn.readAs.Valid where
  names := by
    rw [SynFile.readAs, map_map]
    exact h.names
  fields := h.fields
  contracts read hread := by
    obtain ⟨c, hc, rfl⟩ := mem_map.mp hread
    obtain ⟨hnodup, hall⟩ := h.contracts c hc
    refine ⟨?_, fun member hmember => ?_⟩
    · rw [Contract.readAs, map_map]
      have hsame : c.members.map (Member.name ∘ Member.readAs) = c.members.map Member.name :=
        map_congr_left fun m _ => readAs_name m
      rw [hsame]
      exact hnodup
    · obtain ⟨m, hm, rfl⟩ := mem_map.mp hmember
      exact valid_readAs (hall m hm)

private theorem Member.Valid.unbounded (h : m.Valid recordNames) : m.Unbounded := by
  cases m with
  | slot s =>
    intro bound hreturn
    have hsized := Resolves.sized (by decide) (h.1 _ hreturn)
    cases hsized
  | _ => trivial

theorem parseText_words (h : syn.WellFormed) {text path : String}
    (hread : ∃ tokens, tokenize text path = .ok tokens ∧ tokens.map Token.word = syn.words ++ [endWord]) :
    ∃ parsed, parseText text path syn.stem = .ok parsed ∧ parsed.written = syn.readAs.written := by
  have hvalid : syn.Valid := validate_ok.mp (h.valid path)
  obtain ⟨tokens, htokens, hwords⟩ := hread
  have hreads : Reads Token.word (Parser.parse path syn.stem) syn.words [endWord] (·.written = syn.readAs.written) :=
    Parser.reads_file h.records fun c hc =>
      ⟨h.contracts c hc, fun m hm => ((hvalid.contracts c hc).members m hm).unbounded⟩
  obtain ⟨parsed, tokens', hparse, _, hwritten⟩ := hreads tokens hwords
  have hstill : validate parsed path = .ok () := by
    rw [validate_ok, ← valid_written, hwritten, valid_written]
    exact hvalid.readAs
  refine ⟨parsed, ?_, hwritten⟩
  rw [parseText, htokens]
  show (do let parsed ← (Parser.parse path syn.stem).run tokens; validate parsed.1 path; return parsed.1) = _
  rw [show (Parser.parse path syn.stem).run tokens = .ok (parsed, tokens') from hparse]
  show (do validate parsed path; return parsed) = _
  rw [hstill]
  rfl

/-- Whatever text lays it out, a well-formed tree is parsed, and comes back as what it is read as. -/
theorem parseText_lays (h : syn.WellFormed) {text : String} (hlays : Lays syn.words text.toList)
    (path : String) : ∃ parsed, parseText text path syn.stem = .ok parsed ∧ parsed.written = syn.readAs.written :=
  parseText_words h (tokenizeFrom_laysOut path not_false (isWord_file h.records h.contracts) (hlays.out (F := fun _ => False)) 1 1)

private theorem readAs_eq_iff (m : Member) :
    m.readAs.unplaced = m.unplaced ↔ ∀ s, m = .slot s → s.capture = false → s.returnType ≠ some "capture" := by
  cases m with
  | slot s =>
    rw [Member.readAs, Slot.readAs]
    split
    · rename_i hmisread
      refine iff_of_false (fun heq => ?_) fun hclear => hclear s rfl hmisread.1 hmisread.2
      have hcapture := congrArg Slot.capture (Member.slot.inj heq)
      exact Bool.false_ne_true (hmisread.1.symm.trans hcapture.symm)
    · rename_i hclear
      refine iff_of_true rfl ?_
      intro s' heq hcapture hreturn
      obtain rfl := Member.slot.inj heq
      exact hclear ⟨hcapture, hreturn⟩
  | _ => exact iff_of_true rfl fun _ heq => by cases heq

/-- It is read as itself exactly when no slot that is not captured returns a type called `capture`. -/
theorem written_readAs_iff (syn : SynFile) :
    syn.readAs.written = syn.written ↔
      ∀ c ∈ syn.contracts, ∀ s ∈ c.slots, s.capture = false → s.returnType ≠ some "capture" := by
  have hcontract (c : Contract) : c.readAs.unplaced = c.unplaced ↔
      ∀ s ∈ c.slots, s.capture = false → s.returnType ≠ some "capture" := by
    have hmembers : c.readAs.unplaced = c.unplaced ↔ ∀ m ∈ c.members, m.readAs.unplaced = m.unplaced := by
      rw [← map_inj_left, Contract.readAs, Contract.unplaced, Contract.unplaced, map_map]
      constructor
      · exact fun heq => congrArg Contract.members heq
      · intro heq
        simp only [Function.comp_def, heq]
    rw [hmembers, forall_members]
    simp only [readAs_eq_iff, reduceCtorEq, false_implies, implies_true, true_and, Member.slot.injEq, forall_eq']
  have hfile : syn.readAs.written = syn.written ↔ ∀ c ∈ syn.contracts, c.readAs.unplaced = c.unplaced := by
    rw [← map_inj_left, SynFile.readAs, SynFile.written, SynFile.written, map_map]
    constructor
    · exact fun heq => congrArg SynFile.contracts heq
    · intro heq
      simp only [Function.comp_def, heq]
  rw [hfile]
  exact forall₂_congr fun c _ => hcontract c

/-- A well-formed tree, laid out as text in whatever way and parsed, gives itself back exactly when
no slot that is not captured returns a type called `capture`. -/
theorem round_trip_iff {syn : SynFile} (h : syn.WellFormed) {text : String} (hlays : Lays syn.words text.toList)
    (path : String) :
    (∃ parsed, parseText text path syn.stem = .ok parsed ∧ parsed.written = syn.written) ↔
      ∀ c ∈ syn.contracts, ∀ s ∈ c.slots, s.capture = false → s.returnType ≠ some "capture" := by
  obtain ⟨parsed, hparse, hwritten⟩ := parseText_lays h hlays path
  rw [← written_readAs_iff, ← hwritten]
  constructor
  · rintro ⟨parsed', hparse', hwritten'⟩
    rw [hparse] at hparse'
    cases hparse'
    exact hwritten'
  · exact fun hsame => ⟨parsed, hparse, hsame⟩

private theorem lays_print (syn : SynFile) : Lays syn.words (print syn).toList := by
  rw [print, String.toList_ofList]
  exact lays_spaced syn.words

def hall (slot : Slot) : SynFile where
  stem := "hall"
  records := [{ name := "capture", fields := [{ type := "int", name := "row" }] }]
  contracts := [{ name := "Hall", members := [.slot slot] }]

private theorem wellFormed_hall {slot : Slot} (hslot : (Member.slot slot).Spelled) (hvalid : validate (hall slot) "" = .ok ()) :
    (hall slot).WellFormed where
  records := by
    rw [hall, forall_mem_singleton]
    refine ⟨⟨by decide, by decide⟩, by decide, ?_⟩
    rw [forall_mem_singleton]
    exact ⟨.inl (by decide), by decide, by decide⟩
  contracts := by
    have hname : IsName "Hall" := ⟨by decide, by decide⟩
    rw [hall, forall_mem_singleton]
    refine ⟨hname, ?_⟩
    rw [forall_mem_singleton]
    exact hslot
  valid _ := validate_ok.mpr (validate_ok.mp hvalid)

/-- `slot capture capture capture(string[32] name)`: captured, it returns a `capture` and is called so. -/
def capturing : Slot where
  name := "capture"
  params := [{ type := "string[32]", name := "name" }]
  returnType := some "capture"
  capture := true

private theorem spelled_capturing : (Member.slot capturing).Spelled := by
  refine ⟨⟨by decide, by decide⟩, forall_mem_nil _, nodup_nil, ?_, ?_⟩
  · intro type htype
    cases htype
    exact .inl (by decide)
  · rw [capturing, forall_mem_singleton]
    exact ⟨.inr ⟨"string", "32", by decide, ⟨by decide, by decide⟩, by decide⟩, by decide, by decide⟩

theorem round_trip_iff_capturing :
    (∃ parsed, parseText (print (hall capturing)) "hall.syn" "hall" = .ok parsed ∧ parsed.written = (hall capturing).written) ↔
      ∀ c ∈ (hall capturing).contracts, ∀ s ∈ c.slots, s.capture = false → s.returnType ≠ some "capture" :=
  round_trip_iff (wellFormed_hall spelled_capturing (by decide)) (lays_print _) "hall.syn"

/-- `slot capture enter()`, which returns a `capture` and captures nothing. -/
def returning : Slot where
  name := "enter"
  params := []
  returnType := some "capture"

private theorem spelled_returning : (Member.slot returning).Spelled := by
  refine ⟨⟨by decide, by decide⟩, forall_mem_nil _, nodup_nil, ?_, forall_mem_nil _⟩
  intro type htype
  cases htype
  exact .inl (by decide)

/-- It comes back as a captured slot that returns nothing. -/
theorem returning_misread : (hall returning).WellFormed ∧
    ¬ ∃ parsed, parseText (print (hall returning)) "hall.syn" "hall" = .ok parsed ∧
      parsed.written = (hall returning).written := by
  have hwell := wellFormed_hall spelled_returning (by decide)
  refine ⟨hwell, ?_⟩
  rintro ⟨parsed, hparse, hsame⟩
  obtain ⟨parsed', hparse', hread⟩ := parseText_lays hwell (lays_print _) "hall.syn"
  have heq := hparse.symm.trans hparse'
  cases heq
  have hclear := (written_readAs_iff (hall returning)).mp (hread.symm.trans hsame)
  exact hclear _ mem_cons_self returning mem_cons_self rfl rfl

end SynQt.Synqtc
