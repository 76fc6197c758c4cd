import SynQt.Tools.FrontContracts
import SynQt.Tools.FrontHandover

namespace SynQt.FrontLint
open Lib Dict EnvLayer TopologyWriter RouteLint ContractGen DesignDoc Synqtc List
open YamlEdit (Str lit strip)

/-- Whoever holds the one scope holds the other. -/
def atLeast (order : List String) (ranks : Bool) (held one : String) : Bool :=
  held == one || (ranks && !order.isEmpty &&
    match Ladder.rank order held, Ladder.rank order one with
    | some highest, some required => required ≤ highest
    | _, _ => false)

def relayed (order : ScopeOrder) (held : String) : Generated.Source Unit where
  props _ := ()
  held _ := ()
  caller := some (order.hasScope (some held))

/-- The generated gates let a caller reach this member. -/
def Lets (order : ScopeOrder) (held : String) (m : Member) : Prop := (relayed order held).allows m.scope = true

private theorem reaches_eq (gate held : String) (order : List String) (ranks : Bool) :
    reaches gate held order ranks =
      (gate == "" || ((commaItems gate.toList).map String.ofList).any (atLeast order ranks held)) := by
  have hany (named : List String) (above : String → Bool) (b : Bool) :
      (named.contains held || (b && named.any above)) = named.any fun one => held == one || (b && above one) := by
    induction named with
    | nil => rw [any_nil, any_nil, Bool.and_false, Bool.or_false, contains_nil]
    | cons one named ih =>
      rw [any_cons, any_cons, ← ih, contains_cons]
      cases b with
      | true =>
        simp only [Bool.true_and]
        ac_rfl
      | false => simp only [Bool.false_and, Bool.or_false]
  rw [reaches, Bool.or_assoc, hany]
  rfl

private theorem hasScope_eq (order : ScopeOrder) (held one : String) :
    order.hasScope (some held) one = atLeast order.scopes order.hierarchical held one := by
  rw [ScopeOrder.hasScope, atLeast]
  cases held == one with
  | true => rfl
  | false =>
    cases order.hierarchical && !order.scopes.isEmpty with
    | true => rfl
    | false => rfl

/-- Where there is one scope, nobody holds another by rank. -/
theorem atLeast_singleton (a : String) (ranks : Bool) (held one : String) : atLeast [a] ranks held one = atLeast [] ranks held one := by
  rw [atLeast, atLeast]
  cases hsame : held == one with
  | true => rfl
  | false =>
    cases hheld : Ladder.rank [a] held with
    | none => simp
    | some highest =>
      cases hone : Ladder.rank [a] one with
      | none => simp
      | some required =>
        have hboth : held = one :=
          (mem_singleton.mp (Ladder.mem_of_rank hheld)).trans (mem_singleton.mp (Ladder.mem_of_rank hone)).symm
        exact absurd hboth (beq_eq_false_iff_ne.mp hsame)

section
variable {scopes : List String} (hnames : ∀ s ∈ scopes, IsName s)
include hnames

private theorem commaItems_gate :
    (commaItems (",".intercalate scopes).toList).map String.ofList = scopes := by
  rw [commaItems, String.toList_intercalate]
  cases scopes with
  | nil => rfl
  | cons first rest =>
    have hident : ∀ s ∈ (first :: rest).map String.toList, ∀ c ∈ s, isIdentChar c = true := by
      rw [forall_mem_map]
      exact fun s hs => ident_of_identifier (hnames s hs).1
    have hcomma : ∀ s ∈ (first :: rest).map String.toList, ',' ∉ s := fun s hs hmem => by cases hident s hs ',' hmem
    have hstrip : ((first :: rest).map String.toList).map strip = (first :: rest).map String.toList :=
      (map_congr_left fun s hs => strip_of_spaceless fun c hc => by
        cases hspace : YamlEdit.isSpace c with
        | false => rfl
        | true => exact absurd ((isIdentChar_of_isSpace hspace).symm.trans (hident s hs c hc)) Bool.false_ne_true).trans (map_id _)
    have hsome : ∀ s ∈ (first :: rest).map String.toList, (!s.isEmpty) = true := by
      rw [forall_mem_map]
      intro s hs
      rw [Bool.not_eq_true', isEmpty_eq_false_iff]
      exact fun hnone => ne_empty_of_isName (hnames s hs) (String.toList_eq_nil_iff.mp hnone)
    rw [show (",".toList : List Char) = [','] from rfl, splitOn_intercalate _ hcomma (by simp), hstrip, filter_eq_self.mpr hsome,
      map_map]
    exact (map_congr_left fun s _ => String.ofList_toList).trans (map_id _)

private theorem gate_eq_empty : (",".intercalate scopes == "") = scopes.isEmpty := by
  cases scopes with
  | nil => rfl
  | cons first rest =>
    rw [isEmpty_cons, beq_eq_false_iff_ne]
    intro hempty
    have hitems := commaItems_gate hnames
    rw [hempty] at hitems
    cases hitems

end

private theorem reaches_gate {order : ScopeOrder} {vocab scopes : List String} (held : String) (hnames : ∀ s ∈ scopes, IsName s)
    (hvocab : order.scopes = vocab ∨ vocab = [] ∧ order.scopes = ["anonymous"]) :
    reaches (",".intercalate scopes) held vocab order.hierarchical = (relayed order held).allows scopes := by
  have hsame (one : String) : atLeast vocab order.hierarchical held one = order.hasScope (some held) one := by
    rw [hasScope_eq]
    obtain hvocab | ⟨hnone, hone⟩ := hvocab
    · rw [hvocab]
    · rw [hnone, hone, atLeast_singleton]
  rw [reaches_eq, commaItems_gate hnames, gate_eq_empty hnames, funext hsame]
  rfl

/-- What a member is to a relay: all of it but its gate. -/
def surface (m : Member) : DocMember := { docMember m with scope := "" }

private theorem surface_inherited (scope : String) (m : Member) : surface (inherited scope m) = surface m := by
  rw [inherited]
  split
  · cases m <;> rfl
  · rfl

private theorem surface_unplaced (m : Member) : surface m.unplaced = surface m := by
  rw [surface, surface, docMember_unplaced]

private theorem surface_of_unplaced {scope : String} {m asked : Member} (h : m.unplaced = (inherited scope asked).unplaced) :
    surface m = surface asked := by
  rw [← surface_unplaced, h, surface_unplaced, surface_inherited]

private theorem unplaced_scope (m : Member) : m.unplaced.scope = m.scope := by
  cases m <;> rfl

private theorem docMember_scope (m : Member) : (docMember m).scope = ",".intercalate m.scope := by
  cases m <;> rfl

private theorem ofMember_surface (m : Member) : ofMember (surface m) = ofMember (docMember m) := rfl

/-- The gate of a member, the point's where it has none. -/
theorem inherited_gate {defaultGate : String} {m : Member} (hnames : ∀ s ∈ m.scope, IsName s) :
    (if (docMember m).scope = "" then defaultGate else (docMember m).scope) = ",".intercalate (inherited defaultGate m).scope := by
  have hgate := gate_eq_empty hnames
  rw [docMember_scope, inherited]
  cases hempty : m.scope.isEmpty with
  | true =>
    rw [hempty, beq_iff_eq] at hgate
    rw [if_pos hgate]
    by_cases hdefault : defaultGate = ""
    · rw [hdefault, show ("" : String).isEmpty = true from rfl, Bool.not_true, Bool.and_false, if_neg Bool.false_ne_true, hgate]
    · have hscope : (m.withScope [defaultGate]).scope = [defaultGate] := by cases m <;> rfl
      rw [if_pos (by simpa using hdefault), hscope, String.intercalate_singleton]
  | false =>
    rw [hempty, beq_eq_false_iff_ne] at hgate
    rw [if_neg hgate, Bool.false_and, if_neg Bool.false_ne_true]

private theorem inherited_names {defaultGate : String} {m : Member} (hnames : ∀ s ∈ m.scope, IsName s)
    (hdefault : defaultGate = "" ∨ IsName defaultGate) : ∀ s ∈ (inherited defaultGate m).scope, IsName s := by
  rw [inherited]
  split
  · next hgate =>
    have hscope : (m.withScope [defaultGate]).scope = [defaultGate] := by cases m <;> rfl
    obtain rfl | hname := hdefault
    · rw [show ("" : String).isEmpty = true from rfl, Bool.not_true, Bool.and_false] at hgate
      exact absurd hgate Bool.false_ne_true
    · rw [hscope, forall_mem_singleton]
      exact hname
  · exact hnames

private theorem mem_of_sortedDifference {first second : List (String × String)} (h : sortedDifference first second = [])
    {a : String × String} (ha : a ∈ first) : a ∈ second := by
  by_contra hnot
  have hmem : a ∈ sortedDifference first second := by
    rw [sortedDifference, mem_mergeSort, mem_dedup, mem_filter]
    exact ⟨ha, by simpa using hnot⟩
  rw [h] at hmem
  cases hmem

variable (t : Tools) (implemented : Entries → List (Synqtc.Line × Inferred)) (config point : Entries) (order : ScopeOrder)
  (connectPoint : WebEdgeConnectPoint)

/-- Whoever the edge hands on is handed to the entity the check names, whose contract has everything they reach. -/
structure Answers : Prop where
  handed : ∀ held, tierFor held (reachable t config point) (scopeOrder t config) (hierarchical config) =
    order.entityFor connectPoint held
  carried : ∀ held q front carried, order.entityFor connectPoint held ≠ "" → q ∈ appPoints config →
    textUnder t q "owner" = order.entityFor connectPoint held → Builds t implemented point front → Builds t implemented q carried →
    ∀ m ∈ front.members, Lets order held m → ∃ m' ∈ carried.members, surface m' = surface m

/-- The scopes are a list, or nobody needs the ladder; and what goes by one kind and name on the two sides of a front
is one member, which is there even where the check does not read a block. -/
structure Agree : Prop where
  ladder : isListed config = true ∨ ∀ held entity, entity ≠ "" →
    Ladder.Lands order.scopes order.hierarchical (behind t point) held entity → (held, entity) ∈ behind t point
  carried : ∀ held q front carried, textUnder t q "owner" ≠ "" → q ∈ appPoints config →
    Ladder.Lands order.scopes order.hierarchical (behind t point) held (textUnder t q "owner") →
    Builds t implemented point front → Builds t implemented q carried → ∀ m ∈ front.members, Lets order held m →
      (∀ m' ∈ carried.members, ofMember (docMember m') = ofMember (docMember m) → surface m' = surface m) ∧
      (¬ (isListed config = true ∧ WrittenOut t implemented point ∧ WrittenOut t implemented q) →
        ∃ m' ∈ carried.members, ofMember (docMember m') = ofMember (docMember m))

variable {t implemented config point order connectPoint}

/-- Where both blocks are written out, the check's silence is that what a caller reaches goes by a kind and a name there. -/
theorem counterpart_of_accepted (h : Accepted t config) (hpoint : point ∈ appPoints config) (hfront : isFront point = true)
    (hemitted : Emitted t config point order connectPoint) (hlisted : isListed config = true) (hwritten : WrittenOut t implemented point)
    {q : Entries} (hwritten' : WrittenOut t implemented q) (hq : q ∈ appPoints config) (hsome : textUnder t q "owner" ≠ "")
    {held : String} (htier : tierFor held (behind t point) (scopeOrder t config) (hierarchical config) = textUnder t q "owner")
    {front carried : Contract} (hbuilds : Builds t implemented point front) (hbuilds' : Builds t implemented q carried)
    {m : Member} (hm : m ∈ front.members) (hlets : Lets order held m) :
    ∃ m' ∈ carried.members, ofMember (docMember m') = ofMember (docMember m) := by
  obtain ⟨members, hnames, hdefault, hread, hfronts⟩ := hwritten.reads
  obtain ⟨members', -, -, hread', hcarries⟩ := hwritten'.reads
  obtain ⟨audience, hheld, hnone⟩ := clean_surface h hpoint hfront hread hq hsome htier hread'
  have hmem : m.unplaced ∈ (members.map (inherited (defaultGate t point))).map Member.unplaced :=
    hfronts front hbuilds ▸ mem_map_of_mem hm
  rw [map_map] at hmem
  obtain ⟨asked, hasked, hsame⟩ := mem_map.mp hmem
  have hscope : (inherited (defaultGate t point) asked).scope = m.scope := by
    rw [← unplaced_scope m, ← hsame, ← unplaced_scope]
    rfl
  have hreaches : reaches (if (docMember asked).scope = "" then defaultGate t point else (docMember asked).scope) held
      (scopeOrder t config) (hierarchical config) = true := by
    rw [inherited_gate (hnames asked hasked), hierarchical_of_scopes hemitted.ranks,
      reaches_gate held (inherited_names (hnames asked hasked) hdefault) (scopes_of_listed hlisted hemitted.scopes), hscope]
    exact hlets
  have hwanted : ofMember (docMember asked) ∈
      wantedOf (members.map docMember) (defaultGate t point) audience (scopeOrder t config) (hierarchical config) :=
    mem_map_of_mem (mem_filter.mpr ⟨mem_map_of_mem hasked, any_eq_true.mpr ⟨held, hheld, hreaches⟩⟩)
  obtain ⟨doc, hdoc, hkind⟩ := mem_map.mp (mem_of_sortedDifference hnone hwanted)
  obtain ⟨offered, hoffered, rfl⟩ := mem_map.mp hdoc
  have hmem' : (inherited (defaultGate t q) offered).unplaced ∈ carried.members.map Member.unplaced := by
    rw [hcarries carried hbuilds']
    exact mem_map_of_mem (mem_map_of_mem hoffered)
  obtain ⟨m', hm', hsame'⟩ := mem_map.mp hmem'
  refine ⟨m', hm', ?_⟩
  rw [← ofMember_surface, ← ofMember_surface, surface_of_unplaced hsame', surface_of_unplaced hsame.symm, ofMember_surface,
    ofMember_surface, hkind]

private theorem nodup_of_builds {contract : Contract} (h : Builds t implemented point contract) : (contract.members.map Member.name).Nodup := by
  obtain ⟨written, parsed, -, hparsed, hmem, -⟩ := h
  exact ((valid_of_parse hparsed).contracts contract hmem).names

/-- A front the check passes answers every caller exactly where the two sides agree on what a kind and a name stand for. -/
theorem front_answers_iff (h : Accepted t config) (hpoint : point ∈ appPoints config) (hfront : isFront point = true)
    (hemitted : Emitted t config point order connectPoint) :
    Answers t implemented config point order connectPoint ↔ Agree t implemented config point order := by
  have hhanded := handed_iff hemitted
  rw [← reachable_eq h hpoint hfront] at hhanded
  have hname (m : Member) : (docMember m).name = m.name := by cases m <;> rfl
  constructor
  · intro hanswers
    refine ⟨reachable_eq h hpoint hfront ▸ hhanded.mp hanswers.handed, ?_⟩
    intro held q front carried hsome hq hlands hbuilds hbuilds' m hm hlets
    have hentity := (ScopeOrder.entityFor_eq_iff hemitted.behind nodup_behind hsome).mpr hlands
    obtain ⟨m', hm', hsame⟩ :=
      hanswers.carried held q front carried (hentity.symm ▸ hsome) hq hentity.symm hbuilds hbuilds' m hm hlets
    have hkind : ofMember (docMember m') = ofMember (docMember m) := by rw [← ofMember_surface, hsame, ofMember_surface]
    refine ⟨fun m'' hm'' hkind' => ?_, fun _ => ⟨m', hm', hkind⟩⟩
    have hnames : m''.name = m'.name := by
      rw [← hname, ← hname]
      exact congrArg Prod.snd (hkind'.trans hkind.symm)
    rw [inj_on_of_nodup_map (nodup_of_builds hbuilds') hm'' hm' hnames]
    exact hsame
  · intro hagree
    refine ⟨hhanded.mpr (reachable_eq h hpoint hfront ▸ hagree.ladder), ?_⟩
    intro held q front carried hsome hq howner hbuilds hbuilds' m hm hlets
    rw [← howner] at hsome
    have hlands := (ScopeOrder.entityFor_eq_iff hemitted.behind nodup_behind hsome).mp howner.symm
    obtain ⟨hsurface, hthere⟩ := hagree.carried held q front carried hsome hq hlands hbuilds hbuilds' m hm hlets
    have hcounterpart : ∃ m' ∈ carried.members, ofMember (docMember m') = ofMember (docMember m) := by
      by_cases hread : isListed config = true ∧ WrittenOut t implemented point ∧ WrittenOut t implemented q
      · obtain ⟨hlisted, hwritten, hwritten'⟩ := hread
        have htier : tierFor held (behind t point) (scopeOrder t config) (hierarchical config) = textUnder t q "owner" :=
          (reachable_eq h hpoint hfront ▸ hhanded.mpr (.inl hlisted) held).trans howner.symm
        exact counterpart_of_accepted h hpoint hfront hemitted hlisted hwritten hwritten' hq hsome htier hbuilds hbuilds' hm hlets
      · exact hthere hread
    obtain ⟨m', hm', hkind⟩ := hcounterpart
    exact ⟨m', hm', hsurface m' hm' hkind⟩

def plainTools : Tools where
  casts := { str := fun _ => [], int := fun _ => none, eq := fun _ _ => false }
  upper c := [c.toUpper]
  alnum c := c.isAlphanum
  header := []

def entityOf (name type : String) : Node := .dict [(.str (lit "name"), text (lit name)), (.str (lit "type"), text (lit type))]

def scorePoint (owner consumer type : String) : Entries :=
  [(.str (lit "owner"), text (lit owner)), (.str (lit "consumers"), .list [text (lit consumer)]),
   (.str (lit "export"), text (lit ("prop " ++ type ++ " score")))]

def scoreFront : Entries :=
  scorePoint "edge" "web" "int" ++ [(.str (lit "behind"), .dict [(.str (lit "anonymous"), text (lit "game"))])]

def scored (type : String) : Entries :=
  [(.str (lit "entities"), .list [entityOf "web" "client", entityOf "edge" "web_edge", entityOf "game" "service"]),
   (.str (lit "connect_points"), .list [.dict scoreFront, .dict (scorePoint "game" "edge" type)])]

def everybody : ScopeOrder where
  scopes := ["anonymous"]
  hierarchical := true

def scoreConnectPoint : WebEdgeConnectPoint where
  name := "edge"
  contract := "Edge"
  serverFile := "edge/Edge.qml"
  scope := ""
  shared := false
  behind := [("anonymous", "game")]

def scoreContract (name type : String) : Contract where
  name := name
  members := [.prop { type := type, name := "score", line := 4, col := 5 }]
  line := 3
  col := 1

private theorem emitted_scored (type : String) : Emitted plainTools (scored type) scoreFront everybody scoreConnectPoint where
  scopes := rfl
  ranks := rfl
  behind := .refl _

private theorem accepted_scored : Accepted plainTools (scored "string") where
  owners := fun f hf => eq_false_of_all (by decide +kernel) f hf
  fronts := fun f hf => eq_false_of_all (by decide +kernel) f hf

/-- Two blocks that name the same property. -/
theorem front_answers_iff_scored :
    scoreFront ∈ appPoints (scored "string") ∧
      (Answers plainTools (fun _ => []) (scored "string") scoreFront everybody scoreConnectPoint ↔
        Agree plainTools (fun _ => []) (scored "string") scoreFront everybody) :=
  ⟨mem_cons_self, front_answers_iff accepted_scored mem_cons_self rfl (emitted_scored _)⟩

/-- A number there and a text behind it: the check finds nothing, and the number has no counterpart. -/
theorem number_unanswered :
    Accepted plainTools (scored "string") ∧ scoreFront ∈ appPoints (scored "string") ∧ isFront scoreFront = true ∧
      Emitted plainTools (scored "string") scoreFront everybody scoreConnectPoint ∧
      ¬ Answers plainTools (fun _ => []) (scored "string") scoreFront everybody scoreConnectPoint := by
  refine ⟨accepted_scored, mem_cons_self, rfl, emitted_scored _, fun hanswers => ?_⟩
  have hfront : Builds plainTools (fun _ => []) scoreFront (scoreContract "Edge" "int") :=
    ⟨_, { stem := "Edge", contracts := [scoreContract "Edge" "int"] }, rfl, by decide +kernel, mem_cons_self, by decide +kernel⟩
  have hgame : Builds plainTools (fun _ => []) (scorePoint "game" "edge" "string") (scoreContract "Game" "string") :=
    ⟨_, { stem := "Game", contracts := [scoreContract "Game" "string"] }, rfl, by decide +kernel, mem_cons_self, by decide +kernel⟩
  have hentity : everybody.entityFor scoreConnectPoint "anonymous" = "game" := by decide
  obtain ⟨m', hm', hsame⟩ := hanswers.carried "anonymous" (scorePoint "game" "edge" "string") _ _ (by rw [hentity]; decide)
    (mem_cons_of_mem _ mem_cons_self) (by rw [hentity]; decide +kernel) hfront hgame _ mem_cons_self rfl
  obtain rfl := mem_singleton.mp hm'
  exact absurd (congrArg DocMember.type hsame) (by decide)

end SynQt.FrontLint
