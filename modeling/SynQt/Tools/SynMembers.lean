import SynQt.Tools.SynReading

/-! What the parser makes of a whole file, and of each member on the way. -/
namespace SynQt.Synqtc
open Lib List

/-- What a slot is read as. A return type called `capture` is taken for the modifier. -/
def Slot.readAs (s : Slot) : Slot :=
  if s.capture = false ∧ s.returnType = some "capture" then { s with capture := true, returnType := none } else s

def Member.readAs : Member → Member
  | .slot s => .slot s.readAs
  | m => m

def Contract.readAs (c : Contract) : Contract := { c with members := c.members.map Member.readAs }

def SynFile.readAs (syn : SynFile) : SynFile := { syn with contracts := syn.contracts.map Contract.readAs }

/-- Slots whose return type is no bounded `capture`, which nothing may be. -/
def Member.Unbounded : Member → Prop
  | .slot s => ∀ bound, s.returnType ≠ some ("capture" ++ "[" ++ bound ++ "]")
  | _ => True

namespace Parser
variable {path : String} {rest : List Word}

private theorem reads_capture_other {x : String} (hx : x ≠ "capture") (rest : List Word) :
    Reads Token.word parseCapture [] (ident x :: rest) (· = false) := by
  apply Reads.look (reads_peek (ident x) rest)
  intro token hword
  rw [kind_of_word hword, value_of_word hword, ident, bne_self_eq_false, Bool.false_or, if_pos (bne_iff_ne.mpr hx)]
  exact Reads.pure rfl

private theorem reads_capture_name (rest : List Word) :
    Reads Token.word parseCapture [] (ident "capture" :: mark '(' :: rest) (· = false) := by
  apply Reads.look (reads_peek (ident "capture") _)
  intro token hword
  rw [kind_of_word hword, value_of_word hword, ident, bne_self_eq_false, bne_self_eq_false, Bool.or_self,
    if_neg Bool.false_ne_true]
  apply Reads.look (reads_peek_one _ (mark '(') rest)
  intro after hafter
  rw [kind_of_word hafter, mark, if_pos rfl]
  exact Reads.pure rfl

private theorem reads_capture (x : String) (rest : List Word) :
    Reads Token.word parseCapture [ident "capture"] (ident x :: rest) (· = true) := by
  apply Reads.look (reads_peek (ident "capture") _)
  intro token hword
  rw [kind_of_word hword, value_of_word hword, ident, bne_self_eq_false, bne_self_eq_false, Bool.or_self,
    if_neg Bool.false_ne_true]
  apply Reads.look (reads_peek_one _ (ident x) rest)
  intro after hafter
  rw [kind_of_word hafter, ident, if_neg Kind.noConfusion]
  apply Reads.cons (reads_next Kind.noConfusion _)
  intro _ _
  exact Reads.pure rfl

private theorem no_bracket {name : String} (h : identifier name.toList = true) : name.toList.contains '[' = false := by
  rw [← Bool.not_eq_true, contains_iff_mem]
  intro hmem
  cases hchars : name.toList with
  | nil =>
    rw [hchars] at h
    cases h
  | cons c word =>
    rw [hchars] at h hmem
    obtain ⟨hstart, hword⟩ := Bool.and_eq_true_iff.mp h
    obtain rfl | hmem := mem_cons.mp hmem
    · cases hstart
    · have hbracket := all_eq_true.mp hword '[' hmem
      cases hbracket

private theorem reads_slotHead_none {name : String} (hname : IsName name) (rest : List Word) :
    Reads Token.word (parseSlotHead path) [ident name] (mark '(' :: rest) (· = (name, none)) := by
  have htype : Reads Token.word (parseType path "a slot name or return type") [ident name] (mark '(' :: rest)
      (·.value = name) := by
    rw [← typeWords_identifier hname.1]
    exact reads_type (.inl hname.1) _ (by rw [mark]; decide)
  apply Reads.cons htype
  intro first hfirst
  apply Reads.look (reads_peek (mark '(') rest)
  intro token hword
  rw [kind_of_word hword, mark, if_pos rfl, hfirst, hname.2, if_neg Bool.false_ne_true, no_bracket hname.1,
    if_neg Bool.false_ne_true]
  exact Reads.pure rfl

private theorem reads_slotHead_some {type name : String} (htype : IsType type) (hname : IsName name) (rest : List Word) :
    Reads Token.word (parseSlotHead path) (typeWords type ++ [ident name]) rest (· = (name, some type)) := by
  apply Reads.bind (reads_type htype _ Kind.noConfusion)
  intro first hfirst
  apply Reads.look (reads_peek (ident name) rest)
  intro token hword
  rw [kind_of_word hword, ident, if_neg Kind.noConfusion]
  apply Reads.cons (reads_name hname _ _)
  intro second hsecond
  rw [hfirst, hsecond]
  exact Reads.pure rfl

/-- A slot is read back with its return type or without one; a type `capture` is lost on the modifier. -/
theorem reads_slotHead {s : Slot} (hname : IsName s.name) (htype : ∀ type ∈ s.returnType, IsType type)
    (hunbounded : (Member.slot s).Unbounded) {k : Bool → String × Option String → Parse Member} {words : List Word}
    {Q : Member → Prop}
    (hk : Reads Token.word (k s.readAs.capture (s.name, s.readAs.returnType)) (mark '(' :: words) rest Q) :
    Reads Token.word (do let capture ← parseCapture; let head ← parseSlotHead path; k capture head)
      (s.headWords ++ mark '(' :: words) rest Q := by
  obtain ⟨name, params, returnType, line, col, scope, capture⟩ := s
  rw [Slot.headWords]
  cases capture with
  | true =>
    have hsame : Slot.readAs ⟨name, params, returnType, line, col, scope, true⟩ =
        ⟨name, params, returnType, line, col, scope, true⟩ := if_neg fun h => by cases h.1
    rw [hsame] at hk
    rw [if_pos rfl, append_assoc]
    cases returnType with
    | none =>
      apply Reads.cons (reads_capture name _)
      rintro _ rfl
      apply Reads.cons (reads_slotHead_none hname _)
      rintro _ rfl
      exact hk
    | some type =>
      obtain ⟨base, more, hwords⟩ := typeWords_head (htype type rfl)
      have hcapture : Reads Token.word parseCapture [ident "capture"]
          ((typeWords type ++ [ident name]) ++ mark '(' :: words ++ rest) (· = true) := by
        rw [hwords]
        exact reads_capture base _
      apply Reads.cons hcapture
      rintro _ rfl
      apply Reads.bind (reads_slotHead_some (htype type rfl) hname _)
      rintro _ rfl
      exact hk
  | false =>
    rw [if_neg Bool.false_ne_true, nil_append]
    cases returnType with
    | none =>
      have hsame : Slot.readAs ⟨name, params, none, line, col, scope, false⟩ =
          ⟨name, params, none, line, col, scope, false⟩ := if_neg fun h => by cases h.2
      rw [hsame] at hk
      have hcapture : Reads Token.word parseCapture [] (ident name :: mark '(' :: (words ++ rest)) (· = false) := by
        by_cases hx : name = "capture"
        · rw [hx]
          exact reads_capture_name _
        · exact reads_capture_other hx _
      apply Reads.look hcapture
      rintro _ rfl
      apply Reads.cons (reads_slotHead_none hname _)
      rintro _ rfl
      exact hk
    | some type =>
      by_cases hx : type = "capture"
      · subst hx
        have hmisread : Slot.readAs ⟨name, params, some "capture", line, col, scope, false⟩ =
            ⟨name, params, none, line, col, scope, true⟩ := if_pos ⟨rfl, rfl⟩
        rw [hmisread] at hk
        rw [Option.elim_some, typeWords_identifier (by decide)]
        apply Reads.cons (reads_capture name _)
        rintro _ rfl
        apply Reads.cons (reads_slotHead_none hname _)
        rintro _ rfl
        exact hk
      · have hsame : Slot.readAs ⟨name, params, some type, line, col, scope, false⟩ =
            ⟨name, params, some type, line, col, scope, false⟩ := if_neg fun h => hx (Option.some.inj h.2)
        rw [hsame] at hk
        have hcapture : Reads Token.word parseCapture []
            ((typeWords type ++ [ident name]) ++ mark '(' :: words ++ rest) (· = false) := by
          rcases htype type rfl with hname | ⟨base, bound, hbase, hbound, rfl⟩
          · rw [typeWords_identifier hname]
            exact reads_capture_other hx _
          · rw [typeWords_bounded hbase hbound.2]
            refine reads_capture_other ?_ _
            rintro rfl
            exact hunbounded bound rfl
        apply Reads.look hcapture
        rintro _ rfl
        apply Reads.bind (reads_slotHead_some (htype type rfl) hname _)
        rintro _ rfl
        exact hk

private theorem reads_prop {p : Property} (htype : IsType p.type) (hname : IsName p.name) (keyword : Token) :
    Reads Token.word (parseProp path keyword) (typeWords p.type ++ [ident p.name]) rest
      (fun m => (m.withScope p.scope).unplaced = (Member.prop p).unplaced) := by
  apply reads_typed htype hname
  intro t n ht hn
  rw [Member.withScope, Member.unplaced, Member.unplaced, ht, hn]

private theorem reads_model {m : Model} (hname : IsName m.name) (hsome : m.roles ≠ []) (hroles : ∀ r ∈ m.roles, r.Spelled)
    (keyword : Token) :
    Reads Token.word (parseModel path keyword) (ident m.name :: rolesWords m.roles) rest
      (fun m' => (m'.withScope m.scope).unplaced = (Member.model m).unplaced) := by
  apply Reads.cons (reads_name hname _ _)
  intro name hvalue
  apply Reads.cons (reads_mark '(' _ _)
  intro _ _
  apply Reads.bind (reads_roles hroles _)
  intro roles hread
  apply Reads.cons (reads_mark ')' _ _)
  intro _ _
  have hnonempty : roles.isEmpty = false := by
    rw [isEmpty_eq_false_iff]
    rintro rfl
    exact hsome (map_eq_nil_iff.mp hread.symm)
  rw [hnonempty, if_neg Bool.false_ne_true]
  apply Reads.pure
  rw [Member.withScope, Member.unplaced, Member.unplaced, hvalue]
  simp only [hread]

private theorem reads_signal {s : Signal} (hname : IsName s.name) (hparams : ∀ p ∈ s.params, p.Spelled) (keyword : Token) :
    Reads Token.word (parseSignal path keyword) (ident s.name :: paramsWords s.params) rest
      (fun m => (m.withScope s.scope).unplaced = (Member.signal s).unplaced) := by
  apply Reads.cons (reads_name hname _ _)
  intro name hvalue
  rw [← append_nil (paramsWords s.params)]
  apply Reads.bind (reads_params hparams rest)
  intro params hparams'
  apply Reads.pure
  rw [Member.withScope, Member.unplaced, Member.unplaced, hvalue]
  simp only [hparams']

private theorem reads_slot {s : Slot} (hname : IsName s.name) (htype : ∀ type ∈ s.returnType, IsType type)
    (hparams : ∀ p ∈ s.params, p.Spelled) (hunbounded : (Member.slot s).Unbounded) (keyword : Token) :
    Reads Token.word (parseSlot path keyword) (s.headWords ++ paramsWords s.params) rest
      (fun m => (m.withScope s.scope).unplaced = (Member.slot s.readAs).unplaced) := by
  apply reads_slotHead hname htype hunbounded
  rw [← append_nil (mark '(' :: _)]
  apply Reads.bind (reads_params hparams rest)
  intro params hparams'
  apply Reads.pure
  have hkept : s.readAs.name = s.name ∧ s.readAs.params = s.params ∧ s.readAs.scope = s.scope := by
    rw [Slot.readAs]
    split
    · exact ⟨rfl, rfl, rfl⟩
    · exact ⟨rfl, rfl, rfl⟩
  rw [Member.withScope, Member.unplaced, Member.unplaced, hkept.1, hkept.2.1, hkept.2.2]
  simp only [hparams']

private theorem reads_body {m : Member} (hm : m.Spelled) (hunbounded : m.Unbounded) (rest : List Word) :
    ∃ keyword body, m.bodyWords = ident keyword :: body ∧ memberWords.contains keyword = true ∧
      ∀ token : Token, token.value = keyword → Reads Token.word (parseBody path token) body rest
        (fun m' => (m'.withScope m.scope).unplaced = m.readAs.unplaced) := by
  obtain ⟨hname, _, _, hbody⟩ := hm
  cases m with
  | prop p =>
    refine ⟨"prop", _, rfl, by decide, fun token hvalue => ?_⟩
    rw [parseBody, if_pos hvalue]
    exact reads_prop hbody hname token
  | model m =>
    refine ⟨"model", _, rfl, by decide, fun token hvalue => ?_⟩
    rw [parseBody, hvalue, if_neg (by decide), if_pos rfl]
    exact reads_model hname hbody.1 hbody.2 token
  | signal s =>
    refine ⟨"signal", _, rfl, by decide, fun token hvalue => ?_⟩
    rw [parseBody, hvalue, if_neg (by decide), if_neg (by decide), if_pos rfl]
    exact reads_signal hname hbody token
  | slot s =>
    refine ⟨"slot", _, rfl, by decide, fun token hvalue => ?_⟩
    rw [parseBody, hvalue, if_neg (by decide), if_neg (by decide), if_neg (by decide)]
    exact reads_slot hname hbody.1 hbody.2 hunbounded token

/-- Every member is read back from its own words, whatever follows. -/
theorem reads_member {m : Member} (hm : m.Spelled) (hunbounded : m.Unbounded) (rest : List Word) :
    Reads Token.word (parseMember path) m.words rest (·.unplaced = m.readAs.unplaced) := by
  obtain ⟨keyword, body, hwords, hmember, hread⟩ := @reads_body path m hm hunbounded rest
  rw [Member.words, hwords]
  apply Reads.bind (reads_gate hm.2.1 hm.2.2.1 Kind.noConfusion)
  rintro _ rfl
  apply Reads.look (reads_peek (ident keyword) _)
  intro token hword
  rw [kind_of_word hword, value_of_word hword, ident, hmember, bne_self_eq_false, Bool.not_true, Bool.or_self,
    if_neg Bool.false_ne_true]
  apply Reads.cons (reads_next Kind.noConfusion _)
  intro token' hword'
  rw [← append_nil body]
  apply Reads.bind (hread token' (value_of_word hword'))
  intro member hmember
  exact Reads.pure hmember

private theorem member_words_head (m : Member) :
    ∃ w words, m.words = w :: words ∧ w.1 ≠ .mark closeBrace ∧ w.1 ≠ .eof := by
  rw [Member.words, gateWords]
  by_cases hnone : m.scope = []
  · rw [hnone]
    cases m with
    | prop p => exact ⟨ident "prop", _, rfl, Kind.noConfusion, Kind.noConfusion⟩
    | model m => exact ⟨ident "model", _, rfl, Kind.noConfusion, Kind.noConfusion⟩
    | signal s => exact ⟨ident "signal", _, rfl, Kind.noConfusion, Kind.noConfusion⟩
    | slot s => exact ⟨ident "slot", _, rfl, Kind.noConfusion, Kind.noConfusion⟩
  · rw [isEmpty_eq_false_iff.mpr hnone, if_neg Bool.false_ne_true]
    exact ⟨mark '<', _, rfl, by rw [mark]; decide, Kind.noConfusion⟩

theorem reads_memberLoop {members : List Member} (hmembers : ∀ m ∈ members, m.Spelled ∧ m.Unbounded) {fuel : Nat}
    (hfuel : members.length < fuel) (read : List Member) :
    Reads Token.word (memberLoop path fuel read) (members.flatMap Member.words) (mark closeBrace :: rest)
      (fun members' => members'.map Member.unplaced =
        read.map Member.unplaced ++ members.map fun m => m.readAs.unplaced) := by
  induction members generalizing fuel read with
  | nil =>
    cases fuel with
    | zero => cases hfuel
    | succ fuel =>
      apply Reads.look (reads_peek (mark closeBrace) rest)
      intro token hword
      rw [kind_of_word hword, mark, if_pos rfl]
      exact Reads.pure (by simp)
  | cons m members ih =>
    cases fuel with
    | zero => cases hfuel
    | succ fuel =>
      obtain ⟨w, words, hwords, hclose, hend⟩ := member_words_head m
      have hpeek : Reads Token.word peek [] ((m :: members).flatMap Member.words ++ mark closeBrace :: rest) (·.word = w) := by
        rw [flatMap_cons, hwords]
        exact reads_peek w _
      apply Reads.look hpeek
      intro token hword
      rw [kind_of_word hword, if_neg hclose, if_neg hend, flatMap_cons]
      obtain ⟨hm, hunbounded⟩ := hmembers m mem_cons_self
      apply Reads.bind (reads_member hm hunbounded _)
      intro member hmember
      have hmore := ih (fun m' hm' => hmembers m' (mem_cons_of_mem m hm')) (Nat.lt_of_succ_lt_succ hfuel) (read ++ [member])
      apply hmore.mono
      intro members' hmembers'
      rw [hmembers', map_append, map_singleton, hmember, append_assoc, singleton_append, map_cons]

private theorem length_le_flatMap_words {α : Type} {words : α → List Word} (hwords : ∀ a, words a ≠ []) (l : List α) :
    l.length ≤ (l.flatMap words).length := by
  induction l with
  | nil => exact Nat.le_refl _
  | cons a l ih =>
    have hpos := length_pos_iff.mpr (hwords a)
    rw [flatMap_cons, length_append, length_cons]
    omega

/-- A contract is read back with its members in their order. -/
theorem reads_contract {c : Contract} (hc : c.Spelled) (hunbounded : ∀ m ∈ c.members, m.Unbounded) (rest : List Word) :
    Reads Token.word (parseContract path) c.words rest (·.unplaced = c.readAs.unplaced) := by
  apply Reads.cons (reads_next Kind.noConfusion _)
  intro keyword _
  apply Reads.cons (reads_name hc.1 _ _)
  intro name hname
  apply Reads.cons (reads_mark openBrace _ _)
  intro _ _
  apply Reads.look (reads_remaining _)
  rintro _ rfl
  have hfuel : c.members.length < (c.members.flatMap Member.words ++ [mark closeBrace] ++ rest).length := by
    have hle : c.members.length ≤ (c.members.flatMap Member.words).length := by
      apply length_le_flatMap_words
      intro m
      obtain ⟨w, words, hwords, _⟩ := member_words_head m
      rw [hwords]
      exact cons_ne_nil _ _
    simp only [length_append, length_cons]
    omega
  apply Reads.bind (reads_memberLoop (fun m hm => ⟨hc.2 m hm, hunbounded m hm⟩) hfuel [])
  intro members hmembers
  apply Reads.cons (reads_next Kind.noConfusion _)
  intro _ _
  apply Reads.pure
  rw [Contract.unplaced, Contract.unplaced, Contract.readAs, hname]
  simp only [hmembers, map_nil, nil_append, map_map, Function.comp_def]

private theorem reads_record {r : Record} (hr : r.Spelled) (rest : List Word) :
    Reads Token.word (parseRecord path) r.words rest (·.unplaced = r.unplaced) := by
  apply Reads.cons (reads_next Kind.noConfusion _)
  intro keyword _
  apply Reads.cons (reads_name hr.1 _ _)
  intro name hname
  rw [← append_nil (paramsWords r.fields)]
  apply Reads.bind (reads_params hr.2.2 _)
  intro fields hfields
  have hnonempty : fields.isEmpty = false := by
    rw [isEmpty_eq_false_iff]
    rintro rfl
    exact hr.2.1 (map_eq_nil_iff.mp hfields.symm)
  rw [hnonempty, if_neg Bool.false_ne_true]
  apply Reads.pure
  rw [Record.unplaced, Record.unplaced, hname]
  simp only [hfields]

theorem reads_contracts {contracts : List Contract} (hcontracts : ∀ c ∈ contracts, c.Spelled ∧ ∀ m ∈ c.members, m.Unbounded)
    {fuel : Nat} (hfuel : contracts.length < fuel) (syn : SynFile) :
    Reads Token.word (fileLoop path fuel syn) (contracts.flatMap Contract.words) [endWord]
      (fun syn' => syn'.written =
        { syn.written with contracts := syn.written.contracts ++ contracts.map fun c => c.readAs.unplaced }) := by
  induction contracts generalizing fuel syn with
  | nil =>
    cases fuel with
    | zero => cases hfuel
    | succ fuel =>
      apply Reads.look (reads_peek endWord [])
      intro token hword
      rw [kind_of_word hword, endWord, if_pos rfl]
      exact Reads.pure (by simp)
  | cons c contracts ih =>
    cases fuel with
    | zero => cases hfuel
    | succ fuel =>
      obtain ⟨hc, hunbounded⟩ := hcontracts c mem_cons_self
      rw [flatMap_cons]
      apply Reads.look (reads_peek (ident "contract") _)
      intro token hword
      rw [kind_of_word hword, value_of_word hword, ident, if_neg Kind.noConfusion, bne_self_eq_false,
        if_neg Bool.false_ne_true, if_pos rfl]
      apply Reads.bind (reads_contract hc hunbounded _)
      intro contract hcontract
      have hmore := ih (fun c' hc' => hcontracts c' (mem_cons_of_mem c hc')) (Nat.lt_of_succ_lt_succ hfuel)
        { syn with contracts := syn.contracts ++ [contract] }
      apply hmore.mono
      intro syn' hsyn'
      rw [hsyn', SynFile.written, SynFile.written]
      simp only [map_append, map_cons, map_nil, hcontract, append_assoc, singleton_append]

theorem reads_records {records : List Record} (hrecords : ∀ r ∈ records, r.Spelled) {contracts : List Contract}
    (hcontracts : ∀ c ∈ contracts, c.Spelled ∧ ∀ m ∈ c.members, m.Unbounded) {fuel : Nat}
    (hfuel : records.length + contracts.length < fuel) (syn : SynFile) :
    Reads Token.word (fileLoop path fuel syn) (records.flatMap Record.words ++ contracts.flatMap Contract.words) [endWord]
      (fun syn' => syn'.written =
        { syn.written with
          records := syn.written.records ++ records.map Record.unplaced
          contracts := syn.written.contracts ++ contracts.map fun c => c.readAs.unplaced }) := by
  induction records generalizing fuel syn with
  | nil =>
    rw [length_nil, Nat.zero_add] at hfuel
    apply (reads_contracts hcontracts hfuel syn).mono
    intro syn' hsyn'
    rw [hsyn', map_nil, append_nil]
  | cons r records ih =>
    cases fuel with
    | zero => cases hfuel
    | succ fuel =>
      rw [flatMap_cons, append_assoc]
      apply Reads.look (reads_peek (ident "record") _)
      intro token hword
      rw [kind_of_word hword, value_of_word hword, ident, if_neg Kind.noConfusion, bne_self_eq_false,
        if_neg Bool.false_ne_true, if_neg (by decide), if_pos rfl]
      apply Reads.bind (reads_record (hrecords r mem_cons_self) _)
      intro record hrecord
      rw [length_cons] at hfuel
      have hless : records.length + contracts.length < fuel := by omega
      have hmore := ih (fun r' hr' => hrecords r' (mem_cons_of_mem r hr')) hless
        { syn with records := syn.records ++ [record] }
      apply hmore.mono
      intro syn' hsyn'
      rw [hsyn', SynFile.written, SynFile.written]
      simp only [map_append, map_cons, map_nil, hrecord, append_assoc, singleton_append]

/-- A file is read back whole: its records, and the contracts as their slots are read. -/
theorem reads_file {syn : SynFile} (hrecords : ∀ r ∈ syn.records, r.Spelled)
    (hcontracts : ∀ c ∈ syn.contracts, c.Spelled ∧ ∀ m ∈ c.members, m.Unbounded) :
    Reads Token.word (parse path syn.stem) syn.words [endWord] (·.written = syn.readAs.written) := by
  apply Reads.look (reads_remaining _)
  rintro _ rfl
  have hfuel : syn.records.length + syn.contracts.length < (syn.words ++ [endWord]).length := by
    have hle : syn.records.length ≤ (syn.records.flatMap Record.words).length :=
      length_le_flatMap_words (fun r => cons_ne_nil _ _) _
    have hle' : syn.contracts.length ≤ (syn.contracts.flatMap Contract.words).length :=
      length_le_flatMap_words (fun c => cons_ne_nil _ _) _
    rw [SynFile.words]
    simp only [length_append, length_cons, length_nil]
    omega
  apply (reads_records hrecords hcontracts hfuel { stem := syn.stem }).mono
  intro syn' hsyn'
  rw [hsyn', SynFile.readAs, SynFile.written, SynFile.written]
  simp only [map_nil, nil_append, map_map, Function.comp_def]

end Parser

end SynQt.Synqtc
