import Mathlib.Data.List.TakeWhile
import SynQt.Lib.Run
import SynQt.Providers.MongoDocumentProvider

namespace SynQt.Documents
open List hiding isEmpty_iff lookup lookup_cons map_map
open Lib Dict Option

/-- An id of MongoDB's as the documents it finds show it. -/
def shownId (hex : String) : QVariant := .record [("$oid", QVariant.string hex)]

/-- The same but for minted ids, of which the pairs are given: MongoDB's is the text an insert answers, or what a
document found shows. -/
def SameScalar (ids : List (String × String)) (a : Scalar) (v' : QVariant) : Prop :=
  v' = .leaf a ∨ ∃ pair ∈ ids, a = .string pair.1 ∧ (v' = QVariant.string pair.2 ∨ v' = shownId pair.2)

def Same (ids : List (String × String)) : QVariant → QVariant → Prop := Nested.Rel (SameScalar ids)

def SameMap (ids : List (String × String)) (map map' : QVariantMap) : Prop := Same ids (.record map) (.record map')

def SameDocument (ids : List (String × String)) (document document' : QVariantMap) : Prop :=
  ∀ key, Option.Rel (Same ids) (lookup document key) (lookup document' key)

/-- One call, with what the memory provider is given and then what MongoDB's is. -/
inductive Call where
  | insert (collection : String) (document document' : QVariantMap)
  | find (collection : String) (filter filter' options : QVariantMap)
  | update (collection : String) (filter filter' change change' : QVariantMap)
  | remove (collection : String) (filter filter' : QVariantMap)

structure Swap where
  memory : MemoryDocumentProvider := {}
  mongo : MongoDocumentProvider := {}
  ids : List (String × String) := []

def mintedPair (document : QVariantMap) : QVariant → QVariant → List (String × String)
  | .leaf (.string id), .leaf (.string id') => if lookup document "_id" = none then [(id, id')] else []
  | _, _ => []

namespace Swap
variable (c : Conversions) (e : Engine)

def step (s : Swap) : Call → Swap
  | .insert collection document document' =>
    let memory := s.memory.insert collection document
    let mongo := s.mongo.insert e collection document'
    { memory := memory.1, mongo := mongo.1, ids := s.ids ++ mintedPair document memory.2 mongo.2 }
  | .find .. => s
  | .update collection filter filter' change change' =>
    { s with memory := (s.memory.update c collection filter change).1
             mongo := (s.mongo.update e collection filter' change').1 }
  | .remove collection filter filter' =>
    { s with memory := (s.memory.remove c collection filter).1
             mongo := (s.mongo.remove e collection filter').1 }

/-- Either provider is given the same, the ids it has minted aside. -/
def SameCall (s : Swap) : Call → Prop
  | .insert _ document document' => SameMap s.ids document document'
  | .find _ filter filter' _ => SameMap s.ids filter filter'
  | .update _ filter filter' change change' => SameMap s.ids filter filter' ∧ SameMap s.ids change change'
  | .remove _ filter filter' => SameMap s.ids filter filter'

def Refused (filter : QVariantMap) : Prop := e.encode (.record filter) = none

/-- The answers to an insert: the caller's own `_id`, or ids that are new. -/
def InsertAgrees (s : Swap) (document document' : QVariantMap) (answer answer' : QVariant) : Prop :=
  match lookup document "_id", lookup document' "_id" with
  | some id, some id' => answer = id ∧ answer' = id'
  | _, _ => ∃ id id', answer = QVariant.string id ∧ answer' = QVariant.string id' ∧
    id ∉ s.ids.map Prod.fst ∧ id' ∉ s.ids.map Prod.snd

/-- The answers to the call are the same, and none counts a document for a filter that is refused. -/
def Agrees (s : Swap) : Call → Prop
  | .insert collection document document' =>
    s.InsertAgrees document document' (s.memory.insert collection document).2 (s.mongo.insert e collection document').2
  | .find collection filter filter' options =>
    List.Forall₂ (SameDocument s.ids) (s.memory.find c collection filter options)
      (s.mongo.find e collection filter' options) ∧
    (Refused e filter' → s.memory.find c collection filter options = [] ∧ s.mongo.find e collection filter' options = [])
  | .update collection filter filter' change change' =>
    (s.memory.update c collection filter change).2 = (s.mongo.update e collection filter' change').2 ∧
    (Refused e filter' → (s.mongo.update e collection filter' change').2 = 0)
  | .remove collection filter filter' =>
    (s.memory.remove c collection filter).2 = (s.mongo.remove e collection filter').2 ∧
    (Refused e filter' → (s.mongo.remove e collection filter').2 = 0)

end Swap

/-- What MongoDB is asked for: `null` where the value is `undefined`. -/
def asked (v : QVariant) : QVariant := if v = .invalid then .null else v

def elements : Bson → List Bson
  | .list items => items
  | _ => []

section Conditions
variable (c : Conversions) (e : Engine)

/-- A field of a filter and what either provider holds under its key: no two different values that Qt calls
equal, no text the one provider spells as another and the other does not, no list that has the value, and no
`null` for a key that is missing. -/
def FieldClear (held : Option QVariant) (held' : Option Bson) (v v' : QVariant) : Prop :=
  match held, held' with
  | some h, some b =>
    (c.equals h v = true → h = v) ∧ (h = v ↔ e.decode b = asked v') ∧ ∀ item ∈ elements b, e.decode item ≠ asked v'
  | _, _ => v ≠ .null

instance FieldClear.decidable :
    ∀ (held : Option QVariant) (held' : Option Bson) (v v' : QVariant), Decidable (FieldClear c e held held' v v')
  | some _, some _, _, _ => inferInstanceAs (Decidable (_ ∧ _ ∧ _))
  | none, _, v, _ => inferInstanceAs (Decidable (v ≠ .null))
  | some _, none, v, _ => inferInstanceAs (Decidable (v ≠ .null))

/-- Every field of the filter is clear for the document, or a field that is clear refuses it. -/
def DocumentClear (document : QVariantMap) (document' : BsonDocument) (filter filter' : QVariantMap) : Prop :=
  (∀ pair ∈ filter.zip filter',
    FieldClear c e (lookup document pair.1.1) (lookup document' pair.1.1) pair.1.2 pair.2.2) ∨
  ∃ pair ∈ filter.zip filter',
    FieldClear c e (lookup document pair.1.1) (lookup document' pair.1.1) pair.1.2 pair.2.2 ∧
      c.equals (value document pair.1.1) pair.1.2 = false

instance DocumentClear.decidable (document : QVariantMap) (document' : BsonDocument) (filter filter' : QVariantMap) :
    Decidable (DocumentClear c e document document' filter filter') := inferInstanceAs (Decidable (_ ∨ _))

def Askable (v : QVariant) : Prop := v = .invalid ∨ Plain v
deriving Decidable

namespace Swap

/-- The filter is made of names and plain values, and is clear for every document held; or none is held. -/
def Clear (s : Swap) (collection : String) (filter filter' : QVariantMap) : Prop :=
  s.memory.held collection = [] ∨
    (∀ field ∈ filter, fieldName field.1 = true ∧ Askable field.2) ∧
      ∀ pair ∈ (s.memory.held collection).zip (s.mongo.held collection), DocumentClear c e pair.1 pair.2 filter filter'

instance Clear.decidable (s : Swap) (collection : String) (filter filter' : QVariantMap) :
    Decidable (s.Clear c e collection filter filter') := inferInstanceAs (Decidable (_ ∨ _))

def Unmatched (s : Swap) (collection : String) (filter : QVariantMap) : Prop :=
  ∀ document ∈ s.memory.held collection, MemoryDocumentProvider.matches c document filter = false

instance Unmatched.decidable (s : Swap) (collection : String) (filter : QVariantMap) :
    Decidable (s.Unmatched c collection filter) := inferInstanceAs (Decidable (∀ _ ∈ _, _))

/-- How many rows of so many a limit lets through. -/
def passed (limit : Int) (rows : Nat) : Nat := if 0 < limit then min limit.toNat rows else rows

/-- The options are none, or a whole limit that lets as many of the documents matched through as what Qt reads it as;
MongoDB goes by a negative limit's size. -/
def LimitAlike (s : Swap) (collection : String) (filter : QVariantMap) : QVariantMap → Prop
  | [] => True
  | [("limit", .leaf (.number (.finite n)))] =>
    n.den = 1 ∧
      passed (c.toInt (QVariant.number n)) ((s.memory.held collection).countP (MemoryDocumentProvider.matches c · filter)) =
        passed n.num.natAbs ((s.memory.held collection).countP (MemoryDocumentProvider.matches c · filter))
  | _ => False

instance LimitAlike.decidable (s : Swap) (collection : String) (filter options : QVariantMap) :
    Decidable (s.LimitAlike c collection filter options) := by
  unfold LimitAlike
  split <;> infer_instance

/-- The change writes plain values to fields other than `_id`, and every document the filter matches is
one that it alters and MongoDB takes. -/
def Alters (s : Swap) (collection : String) (filter change change' : QVariantMap) : Prop :=
  change ≠ [] ∧ (∀ field ∈ change, (fieldName field.1 = true ∧ field.1 ≠ "_id") ∧ Plain field.2) ∧
    ∀ pair ∈ (s.memory.held collection).zip (s.mongo.held collection),
      MemoryDocumentProvider.matches c pair.1 filter = true →
        insertAll pair.2 (e.bsonFromMap change') ≠ pair.2 ∧ e.stores (insertAll pair.2 (e.bsonFromMap change')) = true

instance Alters.decidable (s : Swap) (collection : String) (filter change change' : QVariantMap) :
    Decidable (s.Alters c e collection filter change change') := inferInstanceAs (Decidable (_ ∧ _ ∧ _))

def Alike (s : Swap) : Call → Prop
  | .insert _ document document' =>
    lookup document "_id" = none ∧ Plain (.record document) ∧
      e.stores (e.bsonFromMap document' ++ [("_id", .leaf (.objectId (e.oid s.mongo.minted)))]) = true
  | .find collection filter filter' options =>
    s.Clear c e collection filter filter' ∧ (s.Unmatched c collection filter ∨ s.LimitAlike c collection filter options)
  | .update collection filter filter' change change' =>
    s.Clear c e collection filter filter' ∧ (s.Unmatched c collection filter ∨ s.Alters c e collection filter change change')
  | .remove collection filter filter' => s.Clear c e collection filter filter'

instance Alike.decidable (s : Swap) : ∀ call, Decidable (s.Alike c e call)
  | .insert .. => inferInstanceAs (Decidable (_ ∧ _ ∧ _))
  | .find .. => inferInstanceAs (Decidable (_ ∧ _))
  | .update .. => inferInstanceAs (Decidable (_ ∧ _))
  | .remove .. => inferInstanceAs (Decidable (s.Clear c e _ _ _))

end Swap
end Conditions

private theorem exists_zip {α β : Type} {l : List α} {l' : List β} (hlength : l.length = l'.length) {b : β} (h : b ∈ l') :
    ∃ a, (a, b) ∈ l.zip l' := by
  induction l generalizing l' with
  | nil =>
    rw [length_eq_zero_iff.mp hlength.symm] at h
    cases h
  | cons a rest ih =>
    cases l' with
    | nil => cases h
    | cons b' rest' =>
      rcases mem_cons.mp h with rfl | hin
      · exact ⟨a, mem_cons_self⟩
      · obtain ⟨a', ha'⟩ := ih (Nat.succ.inj hlength) hin
        exact ⟨a', mem_cons_of_mem _ ha'⟩

section Selecting
variable {c : Conversions} {e : Engine} {minted : Nat}

def mintedIds (e : Engine) (minted : Nat) : List (String × String) :=
  (List.range minted).map fun n => (Nat.repr (n + 1), e.oid n)

inductive Holds (e : Engine) (minted : Nat) : Option QVariant → Option Bson → Prop
  | missing : Holds e minted none none
  | value {v v' : QVariant} {b : Bson} (h : Plain v) (hsame : Same (mintedIds e minted) v v') (hb : e.Codes v' b) :
      Holds e minted (some v) (some b)

variable {map map' : QVariantMap}

theorem SameMap.names {ids : List (String × String)} (h : SameMap ids map map')
    (P : String → Prop) (hnames : ∀ field ∈ map, P field.1) : ∀ field' ∈ map', P field'.1 := by
  intro field' hfield'
  obtain ⟨field, hpair⟩ := exists_zip h.fields.length_eq hfield'
  rw [← ((forall₂_iff_zip.mp h.fields).2 hpair).1]
  exact hnames field (of_mem_zip hpair).1

private theorem codes_shown (n : Nat) : e.Codes (shownId (e.oid n)) (.leaf (.objectId (e.oid n))) :=
  ⟨e.extended_oid n, rfl, rfl⟩

variable {v v' : QVariant}

/-- Of a plain value either provider has a form, whichever form its ids are given in. -/
theorem codes_same (hsame : Same (mintedIds e minted) v v') (h : Plain v) : ∃ b, e.Codes v' b := by
  induction v using Nested.induct generalizing v' with
  | leaf a =>
    cases hsame with
    | leaf hscalar =>
      obtain rfl | ⟨pair, hpair, rfl, rfl | rfl⟩ := hscalar
      · obtain ⟨hdecode, hwritten⟩ := Engine.decode_scalar (e := e) h
        exact ⟨.leaf a.bson, rfl, hdecode, hwritten⟩
      · exact ⟨.leaf (.string pair.2), rfl, rfl, rfl⟩
      · obtain ⟨n, -, rfl⟩ := mem_map.mp hpair
        exact ⟨_, codes_shown n⟩
  | list items ih =>
    cases hsame with
    | @list _ items' hitems =>
      have hplain := plain_list.mp h
      obtain ⟨bs, hencode, hdecode, hwritten⟩ := Engine.codes_items (e := e) fun t' ht' => by
        obtain ⟨t, hpair⟩ := exists_zip hitems.length_eq ht'
        have ht := (of_mem_zip hpair).1
        exact ih t ht ((forall₂_iff_zip.mp hitems).2 hpair) (hplain t ht)
      refine ⟨.list bs, ?_, ?_, Nested.everyItem_iff.mpr hwritten⟩
      · rw [Engine.encode, hencode, map_some]
      · rw [Engine.decode, hdecode]
  | record fields ih =>
    cases v' with
    | leaf a => cases hsame
    | list items => cases hsame
    | record fields' =>
      have hplain := plain_record.mp h
      have hfields := hsame.fields
      have hcoded : ∀ field' ∈ fields', literalName field'.1 = true ∧ ∃ b, e.Codes field'.2 b := by
        intro field' hfield'
        obtain ⟨field, hpair⟩ := exists_zip hfields.length_eq hfield'
        have hfield := (of_mem_zip hpair).1
        obtain ⟨hname, hvalue⟩ := (forall₂_iff_zip.mp hfields).2 hpair
        exact ⟨hname ▸ (hplain field hfield).1, ih field hfield hvalue (hplain field hfield).2⟩
      obtain ⟨bs, hcodes, hdecode, hwritten⟩ := Engine.codes_fields hcoded
      refine ⟨.record bs, ?_, ?_, Nested.everyField_iff.mpr hwritten⟩
      · have hliteral := SameMap.names hsame (literalName · = true) fun field hfield => (hplain field hfield).1
        rw [Engine.encode_record hliteral, Engine.encodeFields_eq hcodes, map_some]
      · rw [Engine.decode, hdecode]

variable {ids : List (String × String)}

private theorem Same.leaf_iff (h : Same ids v v') {a : Scalar}
    (ha : ∀ text, a ≠ .string text) : v = .leaf a ↔ v' = .leaf a := by
  cases h with
  | leaf hscalar =>
    obtain rfl | ⟨pair, -, rfl, rfl | rfl⟩ := hscalar
    · exact Iff.rfl
    · exact ⟨fun he => absurd (Nested.leaf.inj he).symm (ha _), fun he => absurd (Nested.leaf.inj he).symm (ha _)⟩
    · exact ⟨fun he => absurd (Nested.leaf.inj he).symm (ha _), fun he => by cases he⟩
  | list _ | record _ _ => exact ⟨nofun, nofun⟩

private theorem Same.invalid_iff (h : Same ids v v') : v = .invalid ↔ v' = .invalid :=
  h.leaf_iff fun text he => by cases he

/-- MongoDB is asked for what the codec makes of `asked v`. -/
theorem codes_asked (hsame : Same (mintedIds e minted) v v') (h : Askable v) :
    ∃ b, e.encode v' = some b ∧ e.Codes (asked v') b := by
  by_cases hv : v' = .invalid
  · exact ⟨.leaf .null, by rw [hv]; rfl, by rw [asked, if_pos hv]; exact ⟨rfl, rfl, rfl⟩⟩
  · obtain ⟨b, hb⟩ := codes_same hsame (h.resolve_left fun hinvalid => hv (hsame.invalid_iff.mp hinvalid))
    exact ⟨b, hb.encode, by rwa [asked, if_neg hv]⟩

private theorem equals_self {v : QVariant} (h : Plain v) : c.equals v v = true := by
  refine Nested.agree_self (fun a ha => ?_) h
  cases a with
  | number n =>
    cases n with
    | finite value => exact beq_self_eq_true value
    | infinity negative => cases ha
    | nan => cases ha
  | null => rfl
  | bool b | string text => exact decide_eq_true rfl
  | invalid => rfl
  | other typeName text => exact decide_eq_true rfl

private theorem equals_invalid (v : QVariant) : c.equals .invalid v = decide (v = .invalid) := by
  cases v with
  | leaf a => cases a <;> rfl
  | list items => rfl
  | record fields => rfl

private theorem meets_some (wanted b : Bson) :
    Engine.meets wanted (some b) = (decide (b = wanted) || decide (wanted ∈ elements b)) := by
  cases b with
  | leaf a => exact (Bool.or_false _).symm
  | list items => rfl
  | record fields => exact (Bool.or_false _).symm

theorem FieldClear.meets {held : Option QVariant} {held' : Option Bson} {b : Bson}
    (h : FieldClear c e held held' v v') (hheld : Holds e minted held held') (hsame : Same (mintedIds e minted) v v')
    (hask : Askable v) (hb : e.encode v' = some b) : c.equals (held.getD .invalid) v = Engine.meets b held' := by
  obtain ⟨b', hb', hcodes⟩ := codes_asked (e := e) hsame hask
  obtain rfl : b' = b := Option.some.inj (hb'.symm.trans hb)
  cases hheld with
  | missing =>
    have hiff : v = .invalid ↔ b' = .leaf .null := by
      constructor
      · intro hv
        rw [hsame.invalid_iff.mp hv] at hb
        exact (Option.some.inj hb).symm
      · intro hleaf
        have hread := hcodes.decode
        rw [hleaf] at hread
        by_contra hv
        have hasked : asked v' = v' := by rw [asked, if_neg fun hv' => hv (hsame.invalid_iff.mpr hv')]
        exact h ((hsame.leaf_iff fun text he => by cases he).mpr (hasked.symm.trans hread.symm))
    rw [getD_none, equals_invalid, Engine.meets]
    exact decide_eq_decide.mpr hiff
  | @value held _ b hplain _ hcoded =>
    obtain ⟨hequal, hboth, hitems⟩ := h
    have hiff : c.equals held v = true ↔ b = b' := by
      constructor
      · intro he
        have hread : e.decode b = asked v' := hboth.mp (hequal he)
        have hcode := hcoded.encode
        rw [← hcoded.decode, hread, hcodes.encode] at hcode
        exact (Option.some.inj hcode).symm
      · rintro rfl
        rw [← hboth.mpr hcodes.decode]
        exact equals_self hplain
    have hitem : b' ∉ elements b := fun hin => hitems b' hin hcodes.decode
    rw [getD_some, meets_some, decide_eq_false hitem, Bool.or_false]
    exact Bool.eq_iff_iff.mpr (hiff.trans (decide_eq_true_iff).symm)

def Engine.wants (e : Engine) (filter : QVariantMap) (document : BsonDocument) : Bool :=
  filter.all fun field => (e.encode field.2).any fun b => meets b (lookup document field.1)

private theorem literalName_of_fieldName {key : String} (h : fieldName key = true) : literalName key = true := by
  rw [fieldName, Bool.and_eq_true, Bool.and_eq_true] at h
  exact h.1.1

variable {filter filter' : QVariantMap}

private theorem codes_filter (hsame : SameMap (mintedIds e minted) filter filter')
    (h : ∀ field ∈ filter, fieldName field.1 = true ∧ Askable field.2) :
    ∃ bs, e.CodesFields filter' bs ∧ ∀ b ∈ bs, fieldName b.1 = true ∧ Written b.2 := by
  have hfields := hsame.fields
  clear hsame
  induction hfields with
  | nil => exact ⟨[], .nil, fun b hb => absurd hb not_mem_nil⟩
  | @cons field field' rest rest' hhead _ ih =>
    obtain ⟨hname, hask⟩ := h _ mem_cons_self
    obtain ⟨b, hb, hcodes⟩ := codes_asked (e := e) hhead.2 hask
    obtain ⟨bs, hrest, hwritten⟩ := ih fun field hfield => h field (mem_cons_of_mem _ hfield)
    exact ⟨(field'.1, b) :: bs, .cons ⟨rfl, hb⟩ hrest,
      forall_mem_cons.mpr ⟨⟨hhead.1 ▸ hname, hcodes.written⟩, hwritten⟩⟩

private theorem not_operand {b : Bson} (h : Written b) : Engine.operand b = false := by
  cases b with
  | leaf a =>
    cases a with
    | typed json => cases h
    | _ => rfl
  | list items => rfl
  | record fields =>
    refine any_eq_false.mpr fun field hfield => ?_
    rw [(Nested.everyField_iff.mp h field hfield).1]
    exact Bool.false_ne_true

/-- What MongoDB makes of a filter of names and plain values: it is not refused, and selects what it wants. -/
theorem selects_askable (hsame : SameMap (mintedIds e minted) filter filter')
    (h : ∀ field ∈ filter, fieldName field.1 = true ∧ Askable field.2) :
    ¬ Swap.Refused e filter' ∧ e.selects (e.bsonFromMap filter') = some (e.wants filter') := by
  obtain ⟨bs, hcodes, hwritten⟩ := codes_filter (e := e) hsame h
  have hliteral := hsame.names (literalName · = true) fun field hfield => literalName_of_fieldName (h field hfield).1
  refine ⟨fun hrefused => ?_, ?_⟩
  · rw [Swap.Refused, Engine.encode_record hliteral, Engine.encodeFields_eq hcodes] at hrefused
    cases hrefused
  · rw [Engine.bsonFromMap_eq hliteral hcodes]
    have hoperates : bs.any Engine.operates = false := by
      refine any_eq_false.mpr fun b hb => ?_
      obtain ⟨hname, hwrite⟩ := hwritten b hb
      rw [Engine.operates, hname, not_operand hwrite]
      exact Bool.false_ne_true
    rw [Engine.selects, hoperates, if_neg Bool.false_ne_true]
    refine congrArg some (funext fun document => ?_)
    rw [Engine.wants]
    clear h hsame hliteral hwritten hoperates
    induction hcodes with
    | nil => rfl
    | cons hhead _ ih => rw [all_cons, all_cons, ih, hhead.1, hhead.2, any_some]

private theorem all_eq_all {α β : Type} {P : α → Bool} {Q : β → Bool} {l : List α} {l' : List β} (hlength : l.length = l'.length)
    (h : ∀ pair ∈ l.zip l', P pair.1 = Q pair.2) : l.all P = l'.all Q := by
  induction l generalizing l' with
  | nil => rw [length_eq_zero_iff.mp hlength.symm]; rfl
  | cons a rest ih =>
    cases l' with
    | nil => cases hlength
    | cons b rest' =>
      have hrest := ih (Nat.succ.inj hlength) fun pair hpair => h pair (mem_cons_of_mem _ hpair)
      have hhead : P a = Q b := h (a, b) mem_cons_self
      rw [all_cons, all_cons, hhead, hrest]

theorem SameMap.zip (h : SameMap ids map map') :
    map.length = map'.length ∧ ∀ pair ∈ map.zip map', pair.1.1 = pair.2.1 ∧ Same ids pair.1.2 pair.2.2 := by
  obtain ⟨hlength, hpairs⟩ := forall₂_iff_zip.mp h.fields
  exact ⟨hlength, fun pair hpair => hpairs hpair⟩

/-- What the two hold of one document. -/
structure Stored (e : Engine) (minted : Nat) (document : QVariantMap) (document' : BsonDocument) : Prop where
  holds : ∀ key, Holds e minted (lookup document key) (lookup document' key)
  own : ∃ n < minted, lookup document' "_id" = some (.leaf (.objectId (e.oid n)))

variable {document' : BsonDocument} {document : QVariantMap}

/-- A document for which the filter is clear is matched by both or by neither. -/
theorem matches_eq (hsame : SameMap (mintedIds e minted) filter filter') (hstored : Stored e minted document document')
    (hask : ∀ field ∈ filter, fieldName field.1 = true ∧ Askable field.2)
    (h : DocumentClear c e document document' filter filter') :
    MemoryDocumentProvider.matches c document filter = e.wants filter' document' := by
  obtain ⟨hlength, hpairs⟩ := hsame.zip
  have hfield (pair : (String × QVariant) × (String × QVariant)) (hpair : pair ∈ filter.zip filter')
      (hclear : FieldClear c e (lookup document pair.1.1) (lookup document' pair.1.1) pair.1.2 pair.2.2) :
      c.equals (value document pair.1.1) pair.1.2 =
        (e.encode pair.2.2).any fun b => Engine.meets b (lookup document' pair.2.1) := by
    obtain ⟨hkey, hvalue⟩ := hpairs pair hpair
    have hin : pair.1 ∈ filter := (of_mem_zip hpair).1
    obtain ⟨b, hb, -⟩ := codes_asked (e := e) hvalue (hask _ hin).2
    have hmeets := hclear.meets (hstored.holds pair.1.1) hvalue (hask _ hin).2 hb
    rw [hb, any_some, ← hkey]
    exact hmeets
  rw [MemoryDocumentProvider.matches, Engine.wants]
  rcases h with hall | ⟨pair, hpair, hclear, hrefused⟩
  · exact all_eq_all hlength fun pair hpair => hfield pair hpair (hall pair hpair)
  · have hwants := (hfield pair hpair hclear).symm.trans hrefused
    obtain ⟨hin, hin'⟩ := of_mem_zip hpair
    rw [all_eq_false.mpr ⟨pair.1, hin, ne_of_eq_of_ne hrefused Bool.false_ne_true⟩,
      all_eq_false.mpr ⟨pair.2, hin', ne_of_eq_of_ne hwants Bool.false_ne_true⟩]

private theorem mintedIds_mono {later : Nat} (hle : minted ≤ later) : mintedIds e minted ⊆ mintedIds e later :=
  map_subset _ fun _ hn => mem_range.mpr (Nat.lt_of_lt_of_le (mem_range.mp hn) hle)

theorem Holds.mono {held : Option QVariant} {held' : Option Bson} (h : Holds e minted held held') {later : Nat}
    (hle : minted ≤ later) : Holds e later held held' := by
  cases h with
  | missing => exact .missing
  | value hplain hsame hb =>
    refine .value hplain (hsame.mono fun a t h => ?_) hb
    exact h.imp_right fun ⟨pair, hpair, hshown⟩ => ⟨pair, mintedIds_mono hle hpair, hshown⟩

theorem Stored.mono (h : Stored e minted document document') {later : Nat}
    (hle : minted ≤ later) : Stored e later document document' := by
  obtain ⟨n, hn, hown⟩ := h.own
  exact ⟨fun key => (h.holds key).mono hle, n, Nat.lt_of_lt_of_le hn hle, hown⟩

/-- A field as the caller of the one has it and as the other's codec writes it. -/
def Coded (e : Engine) (minted : Nat) (field : String × QVariant) (b : String × Bson) : Prop :=
  field.1 = b.1 ∧ ∃ v', Plain field.2 ∧ Same (mintedIds e minted) field.2 v' ∧ e.Codes v' b.2

private theorem coded_fields (h : SameMap (mintedIds e minted) map map')
    (hplain : ∀ field ∈ map, Plain field.2) : ∃ bs, List.Forall₂ (Coded e minted) map bs ∧ e.CodesFields map' bs := by
  have hfields := h.fields
  clear h
  induction hfields with
  | nil => exact ⟨[], .nil, .nil⟩
  | @cons field field' rest rest' hhead _ ih =>
    obtain ⟨bs, hcoded, hcodes⟩ := ih fun field hfield => hplain field (mem_cons_of_mem _ hfield)
    have hvalue := hplain field mem_cons_self
    obtain ⟨b, hb⟩ := codes_same (e := e) hhead.2 hvalue
    exact ⟨(field'.1, b) :: bs, .cons ⟨hhead.1, field'.2, hvalue, hhead.2, hb⟩ hcoded, .cons ⟨rfl, hb.encode⟩ hcodes⟩

variable {bs : BsonDocument}

section
variable {map : QVariantMap} (h : List.Forall₂ (Coded e minted) map bs)
include h

private theorem holds_coded (key : String) :
    Holds e minted (lookup map key) (lookup bs key) := by
  induction h with
  | nil => exact .missing
  | @cons field b rest bs hhead _ ih =>
    obtain ⟨name, v⟩ := field
    obtain ⟨name', b⟩ := b
    obtain ⟨hname, v', hv, hv', hb⟩ := hhead
    have hsame : name = name' := hname
    rw [lookup_cons, lookup_cons, ← hsame]
    split
    · exact .value hv hv' hb
    · exact ih

private theorem keys_coded : keys map = keys bs := by
  induction h with
  | nil => rfl
  | cons hhead _ ih => exact congrArg₂ List.cons hhead.1 ih

end

theorem Stored.put (h : Stored e minted document document')
    {field : String × QVariant} {b : String × Bson} (hcoded : Coded e minted field b) (hid : b.1 ≠ "_id") :
    Stored e minted (put document field.1 field.2) (put document' b.1 b.2) := by
  obtain ⟨hkey, v', hv, hv', hb⟩ := hcoded
  obtain ⟨n, hn, hown⟩ := h.own
  refine ⟨fun key => ?_, n, hn, ?_⟩
  · rw [lookup_put, lookup_put, hkey]
    split
    · exact .value hv hv' hb
    · exact h.holds key
  · rw [lookup_put, if_neg hid.symm]
    exact hown

theorem Stored.insertAll (h : Stored e minted document document')
    {change : QVariantMap} (hcoded : List.Forall₂ (Coded e minted) change bs) (hid : ∀ b ∈ bs, b.1 ≠ "_id") :
    Stored e minted (insertAll document change) (insertAll document' bs) := by
  induction hcoded generalizing document document' with
  | nil => exact h
  | cons hhead _ ih =>
    exact ih (h.put hhead (hid _ mem_cons_self)) fun b hb => hid b (mem_cons_of_mem _ hb)

private theorem lookup_decodeFields (document : BsonDocument) (key : String) :
    lookup (e.mapFromBson document) key = (lookup document key).map e.decode := by
  induction document with
  | nil => rfl
  | cons field rest ih =>
    rw [Engine.mapFromBson, Engine.decodeFields, lookup_cons, lookup_cons]
    split
    · rfl
    · exact ih

private theorem Stored.sameDocument (h : Stored e minted document document') :
    SameDocument (mintedIds e minted) document (e.mapFromBson document') := by
  intro key
  rw [lookup_decodeFields]
  generalize lookup document key = held, lookup document' key = held', h.holds key = hholds
  cases hholds with
  | missing => exact .none
  | value _ hsame hb => exact .some (by rw [hb.decode]; exact hsame)

private theorem MemoryDocumentProvider.held_store (p : MemoryDocumentProvider) (collection collection' : String)
    (documents : List QVariantMap) :
    (p.store collection documents).held collection' = if collection' = collection then documents else p.held collection' := by
  rw [held, store]
  dsimp only
  rw [lookup_put]
  split <;> rfl

private theorem MongoDocumentProvider.held_store (p : MongoDocumentProvider) (collection collection' : String)
    (documents : List BsonDocument) :
    (p.store collection documents).held collection' = if collection' = collection then documents else p.held collection' := by
  rw [held, store]
  dsimp only
  rw [lookup_put]
  split <;> rfl

/-- Both hold the same documents in the same order, and have minted as many ids. -/
structure Swap.Paired (e : Engine) (s : Swap) : Prop where
  connected : s.mongo.connected = true
  next : s.memory.nextId = s.mongo.minted + 1
  ids : s.ids = mintedIds e s.mongo.minted
  stored : ∀ collection, List.Forall₂ (Stored e s.mongo.minted) (s.memory.held collection) (s.mongo.held collection)

/-- Both write a collection, and nothing else. -/
theorem Swap.Paired.store {s : Swap} (h : s.Paired e) {collection : String} {documents : List QVariantMap}
    {documents' : List BsonDocument} (hstored : List.Forall₂ (Stored e s.mongo.minted) documents documents') :
    Swap.Paired e { s with memory := s.memory.store collection documents, mongo := s.mongo.store collection documents' } := by
  refine ⟨h.connected, h.next, h.ids, fun collection' => ?_⟩
  dsimp only
  rw [MemoryDocumentProvider.held_store, MongoDocumentProvider.held_store]
  split
  · exact hstored
  · exact h.stored collection'

theorem Swap.Paired.select {s : Swap} (h : s.Paired e) {collection : String} {filter filter' : QVariantMap}
    (hsame : SameMap s.ids filter filter') (hclear : s.Clear c e collection filter filter') :
    (s.memory.held collection = [] ∧ s.mongo.held collection = []) ∨
      ¬ Refused e filter' ∧ e.selects (e.bsonFromMap filter') = some (e.wants filter') ∧
        ∀ pair ∈ (s.memory.held collection).zip (s.mongo.held collection),
          MemoryDocumentProvider.matches c pair.1 filter = e.wants filter' pair.2 := by
  rcases hclear with hnone | ⟨hask, hall⟩
  · have hstored := h.stored collection
    rw [hnone, forall₂_nil_left_iff] at hstored
    exact .inl ⟨hnone, hstored⟩
  · rw [h.ids] at hsame
    obtain ⟨hrefused, hselects⟩ := selects_askable hsame hask
    refine .inr ⟨hrefused, hselects, fun pair hpair => ?_⟩
    exact matches_eq hsame ((forall₂_iff_zip.mp (h.stored collection)).2 hpair) hask (hall pair hpair)

namespace MongoDocumentProvider

/-- A filter that is refused, or selects nothing that is held. -/
def Idle (e : Engine) (p : MongoDocumentProvider) (collection : String) (filter : QVariantMap) : Prop :=
  ∀ selected, e.selects (e.bsonFromMap filter) = some selected → ∀ document ∈ p.held collection, selected document = false

variable {p : MongoDocumentProvider} {collection : String} {filter : QVariantMap}

theorem Idle.find (h : p.Idle e collection filter) (options : QVariantMap) : p.find e collection filter options = [] := by
  rw [MongoDocumentProvider.find]
  split
  · rfl
  · split
    · rfl
    · next selected hselects =>
      have hrows : (p.held collection).filter selected = [] :=
        filter_eq_nil_iff.mpr fun document hin => ne_of_eq_of_ne (h selected hselects document hin) Bool.false_ne_true
      rw [hrows, Engine.limited_nil]
      rfl

private theorem setMany_none {selected : BsonDocument → Bool} {documents : List BsonDocument}
    (h : ∀ document ∈ documents, selected document = false) (changes : BsonDocument) :
    e.setMany selected changes documents = (documents, 0) := by
  rw [Engine.setMany]
  split
  · exact e.settings_none selected changes documents h
  · have htaken : ∀ document ∈ documents,
        (!selected document || e.stores (Documents.insertAll document changes)) = true := fun document hin => by
      rw [h document hin]
      rfl
    have hsame : documents.map (fun document => if selected document then Documents.insertAll document changes else document) =
        documents := by
      conv_rhs => rw [← map_id documents]
      exact map_congr_left fun document hin => if_neg (ne_of_eq_of_ne (h document hin) Bool.false_ne_true)
    have hcount : documents.countP (fun document => selected document && decide (Documents.insertAll document changes ≠ document)) =
        0 := countP_eq_zero.mpr fun document hin => by
      rw [h document hin]
      exact Bool.false_ne_true
    dsimp only
    rw [takeWhile_eq_self_iff.mpr htaken, dropWhile_eq_nil_iff.mpr htaken, append_nil, hsame, hcount, ite_self]

structure Kept (p p' : MongoDocumentProvider) : Prop where
  connected : p'.connected = p.connected
  minted : p'.minted = p.minted
  held : ∀ collection, p'.held collection = p.held collection

private theorem kept_store (p : MongoDocumentProvider) {collection : String} {documents : List BsonDocument}
    (h : documents = p.held collection) : Kept p (p.store collection documents) := by
  refine ⟨rfl, rfl, fun collection' => ?_⟩
  rw [held_store]
  split
  · next he => rw [h, he]
  · rfl

theorem Idle.update (h : p.Idle e collection filter) (change : QVariantMap) :
    (p.update e collection filter change).2 = 0 ∧ Kept p (p.update e collection filter change).1 := by
  have hkept : Kept p p := ⟨rfl, rfl, fun _ => rfl⟩
  rw [MongoDocumentProvider.update]
  split
  · exact ⟨rfl, hkept⟩
  · split
    · next selected changes hselects _ =>
      rw [setMany_none (h selected hselects)]
      exact ⟨rfl, kept_store p rfl⟩
    · exact ⟨rfl, hkept⟩

theorem Idle.remove (h : p.Idle e collection filter) :
    (p.remove e collection filter).2 = 0 ∧ Kept p (p.remove e collection filter).1 := by
  have hkept : Kept p p := ⟨rfl, rfl, fun _ => rfl⟩
  rw [MongoDocumentProvider.remove]
  split
  · exact ⟨rfl, hkept⟩
  · split
    · exact ⟨rfl, hkept⟩
    · next selected hselects =>
      have hnone := h selected hselects
      refine ⟨countP_eq_zero.mpr fun document hin => ?_, kept_store p (filter_eq_self.mpr fun document hin => ?_)⟩
      · exact ne_of_eq_of_ne (hnone document hin) Bool.false_ne_true
      · rw [hnone document hin]
        rfl

end MongoDocumentProvider

/-- Lists paired by a relation and selected from alike stay paired. -/
theorem filter_pairs {α β : Type} {R : α → β → Prop} {P : α → Bool} {Q : β → Bool} {l : List α} {l' : List β}
    (h : List.Forall₂ R l l') (hpairs : ∀ pair ∈ l.zip l', P pair.1 = Q pair.2) :
    List.Forall₂ R (l.filter P) (l'.filter Q) := by
  induction h with
  | nil => exact .nil
  | @cons a b rest rest' hhead _ ih =>
    have hrest := ih fun pair hpair => hpairs pair (mem_cons_of_mem _ hpair)
    have hfirst : P a = Q b := hpairs (a, b) mem_cons_self
    rw [filter_cons, filter_cons, hfirst]
    split
    · exact .cons hhead hrest
    · exact hrest

/-- Documents paired and selected alike, those selected altered on both sides, stay paired; MongoDB takes
every one and counts those the memory provider counts. -/
theorem update_pairs {documents : List QVariantMap} {documents' : List BsonDocument} {filter change : QVariantMap}
    {wants : BsonDocument → Bool} (h : List.Forall₂ (Stored e minted) documents documents')
    (hpairs : ∀ pair ∈ documents.zip documents', MemoryDocumentProvider.matches c pair.1 filter = wants pair.2)
    (halters : ∀ pair ∈ documents.zip documents', MemoryDocumentProvider.matches c pair.1 filter = true →
      insertAll pair.2 bs ≠ pair.2 ∧ e.stores (insertAll pair.2 bs) = true)
    (hcoded : List.Forall₂ (Coded e minted) change bs) (hid : ∀ b ∈ bs, b.1 ≠ "_id") :
    (∀ document ∈ documents', (!wants document || e.stores (insertAll document bs)) = true) ∧
      List.Forall₂ (Stored e minted)
        (documents.map fun document =>
          if MemoryDocumentProvider.matches c document filter then insertAll document change else document)
        (documents'.map fun document => if wants document then insertAll document bs else document) ∧
      (documents.countP fun document => MemoryDocumentProvider.matches c document filter) =
        documents'.countP fun document => wants document && decide (insertAll document bs ≠ document) := by
  induction h with
  | nil => exact ⟨fun _ hin => absurd hin not_mem_nil, .nil, rfl⟩
  | @cons document document' rest rest' hhead _ ih =>
    obtain ⟨htaken, hstored, hcount⟩ := ih (fun pair hpair => hpairs pair (mem_cons_of_mem _ hpair))
      fun pair hpair => halters pair (mem_cons_of_mem _ hpair)
    have hfirst : MemoryDocumentProvider.matches c document filter = wants document' := hpairs _ mem_cons_self
    have halter := halters _ mem_cons_self
    dsimp only at halter
    rw [hfirst] at halter
    rw [map_cons, map_cons, countP_cons, countP_cons, hfirst, hcount]
    cases hwants : wants document' with
    | true =>
      obtain ⟨hother, htakes⟩ := halter hwants
      refine ⟨forall_mem_cons.mpr ⟨?_, htaken⟩, .cons (hhead.insertAll hcoded hid) hstored, ?_⟩
      · rw [htakes, Bool.or_true]
      · rw [decide_eq_true hother]
        rfl
    | false =>
      refine ⟨forall_mem_cons.mpr ⟨?_, htaken⟩, .cons hhead hstored, rfl⟩
      rw [hwants]
      rfl

namespace Swap.Paired
variable {s : Swap} {collection : String} {filter filter' : QVariantMap}

/-- Where the filter is clear and matches nothing in the one provider, it selects nothing in the other. -/
theorem idle (h : s.Paired e) (hsame : SameMap s.ids filter filter') (hclear : s.Clear c e collection filter filter')
    (hnone : s.Unmatched c collection filter) : s.mongo.Idle e collection filter' := by
  intro selected hselects document' hin
  rcases h.select hsame hclear with ⟨-, hempty⟩ | ⟨-, hwants, hpairs⟩
  · rw [hempty] at hin
    cases hin
  · obtain rfl : selected = e.wants filter' := Option.some.inj (hselects.symm.trans hwants)
    obtain ⟨document, hpair⟩ := exists_zip (h.stored collection).length_eq hin
    exact (hpairs _ hpair).symm.trans (hnone document (of_mem_zip hpair).1)

private theorem of_kept (h : s.Paired e) {memory : MemoryDocumentProvider} {mongo : MongoDocumentProvider}
    (hnext : memory.nextId = s.memory.nextId) (hheld : ∀ collection, memory.held collection = s.memory.held collection)
    (hkept : s.mongo.Kept mongo) : Swap.Paired e { s with memory := memory, mongo := mongo } := by
  refine ⟨hkept.connected.trans h.connected, hnext.trans (h.next.trans ?_), h.ids.trans ?_, fun collection => ?_⟩
  · dsimp only
    rw [hkept.minted]
  · dsimp only
    rw [hkept.minted]
  · dsimp only
    rw [hheld, hkept.held, hkept.minted]
    exact h.stored collection

/-- The loop of the memory provider's find: the first of the documents that match, up to the limit. -/
theorem findFrom_eq {limit : Int} (documents results : List QVariantMap) (hroom : 0 < limit → results.length < limit) :
    MemoryDocumentProvider.findFrom c filter limit results documents = results ++
      (documents.filter (MemoryDocumentProvider.matches c · filter)).take (passed (limit - results.length)
        (documents.countP (MemoryDocumentProvider.matches c · filter))) := by
  induction documents generalizing results with
  | nil => rw [MemoryDocumentProvider.findFrom, filter_nil, take_nil, append_nil]
  | cons document rest ih =>
    rw [MemoryDocumentProvider.findFrom]
    by_cases hmatch : MemoryDocumentProvider.matches c document filter = true
    · have hlength : (results ++ [document]).length = results.length + 1 := length_append
      simp only [hmatch, if_true, filter_cons, countP_cons]
      split
      · next hfull =>
        have hone : passed (limit - results.length) (rest.countP (MemoryDocumentProvider.matches c · filter) + 1) = 1 := by
          unfold passed
          split <;> omega
        rw [hone, take_succ_cons, take_zero]
      · next hmore =>
        have hstep : passed (limit - results.length) (rest.countP (MemoryDocumentProvider.matches c · filter) + 1) =
            passed (limit - (results ++ [document]).length) (rest.countP (MemoryDocumentProvider.matches c · filter)) + 1 := by
          have := hroom
          unfold passed
          split <;> split <;> omega
        rw [ih _ fun hlimit => by have := hroom hlimit; omega, hstep, take_succ_cons, append_assoc,
          singleton_append]
    · simp only [hmatch, filter_cons, countP_cons]
      exact ih results hroom

/-- What MongoDB makes of a limit it reads as Qt does. -/
theorem limited_alike {options : QVariantMap} (h : s.LimitAlike c collection filter options) {rows : List BsonDocument}
    (hrows : rows.length = (s.memory.held collection).countP (MemoryDocumentProvider.matches c · filter)) :
    e.limited (e.bsonFromMap options) rows =
      rows.take (passed (MemoryDocumentProvider.limitOf c options) rows.length) := by
  unfold LimitAlike at h
  split at h
  · exact take_length.symm
  · next n =>
    obtain ⟨hwhole, hpassed⟩ := h
    have hoptions : e.bsonFromMap [("limit", QVariant.number n)] = [("limit", .leaf (.number n))] := rfl
    have hlimit : MemoryDocumentProvider.limitOf c [("limit", QVariant.number n)] = c.toInt (QVariant.number n) := rfl
    rw [hoptions, hlimit, hrows, hpassed, ← hrows, Engine.limited, if_neg (not_not.mpr hwhole)]
    split
    · next hzero => rw [hzero]; exact take_length.symm
    · next hlimits =>
      have hsome : 0 < (n.num.natAbs : Int) := by omega
      rw [passed, if_pos hsome, Int.toNat_natCast, ← take_eq_take_min]
  · exact h.elim

theorem find (h : s.Paired e) (hsame : SameMap s.ids filter filter') (hclear : s.Clear c e collection filter filter')
    {options : QVariantMap} (hlimit : s.Unmatched c collection filter ∨ s.LimitAlike c collection filter options) :
    s.Agrees c e (.find collection filter filter' options) := by
  have hmemory : s.memory.find c collection filter options = _ := findFrom_eq (s.memory.held collection) [] id
  rcases hlimit with hnone | halike
  · have hempty : (s.memory.held collection).filter (MemoryDocumentProvider.matches c · filter) = [] :=
      filter_eq_nil_iff.mpr fun document hin => ne_of_eq_of_ne (hnone document hin) Bool.false_ne_true
    have hmongo : s.mongo.find e collection filter' options = [] := (h.idle hsame hclear hnone).find options
    rw [Agrees, hmemory, hmongo, hempty, take_nil]
    exact ⟨.nil, fun _ => ⟨rfl, rfl⟩⟩
  · rcases h.select hsame hclear with ⟨hempty, hempty'⟩ | ⟨hrefused, hwants, hpairs⟩
    · have hmongo : s.mongo.find e collection filter' options = [] :=
        (h.idle hsame hclear fun document hin => by rw [hempty] at hin; cases hin).find options
      rw [Agrees, hmemory, hmongo, hempty, filter_nil, take_nil]
      exact ⟨.nil, fun _ => ⟨rfl, rfl⟩⟩
    · have hrows := filter_pairs (P := (MemoryDocumentProvider.matches c · filter)) (h.stored collection) hpairs
      have hcount := hrows.length_eq.symm.trans countP_eq_length_filter.symm
      have hmongo : s.mongo.find e collection filter' options =
          (((s.mongo.held collection).filter (e.wants filter')).take
            (passed (MemoryDocumentProvider.limitOf c options)
              ((s.mongo.held collection).filter (e.wants filter')).length)).map e.mapFromBson := by
        rw [MongoDocumentProvider.find, h.connected, if_neg Bool.false_ne_true.symm, hwants]
        exact congrArg (List.map e.mapFromBson) (limited_alike halike hcount)
      rw [Agrees, hmemory, hmongo, hcount, length_nil, Int.natCast_zero, Int.sub_zero, nil_append, h.ids]
      refine ⟨forall₂_map_right_iff.mpr ?_, fun hr => absurd hr hrefused⟩
      exact (forall₂_take _ hrows).imp fun _ _ hstored => hstored.sameDocument

theorem remove (h : s.Paired e) (hsame : SameMap s.ids filter filter') (hclear : s.Clear c e collection filter filter') :
    s.Agrees c e (.remove collection filter filter') ∧ (s.step c e (.remove collection filter filter')).Paired e := by
  rcases h.select hsame hclear with ⟨hempty, -⟩ | ⟨hrefused, hwants, hpairs⟩
  · have hnone : s.Unmatched c collection filter := fun document hin => by
      rw [hempty] at hin
      cases hin
    obtain ⟨hcount, hkept⟩ := (h.idle hsame hclear hnone).remove
    have hmemory : (s.memory.remove c collection filter).2 = 0 := by
      rw [MemoryDocumentProvider.remove, hempty]
      rfl
    refine ⟨⟨hmemory.trans hcount.symm, fun _ => hcount⟩, h.of_kept rfl (fun collection' => ?_) hkept⟩
    rw [MemoryDocumentProvider.remove, MemoryDocumentProvider.held_store, hempty]
    split
    · next he => rw [he, hempty]; rfl
    · rfl
  · have hfiltered := filter_pairs (P := fun document => !MemoryDocumentProvider.matches c document filter)
      (Q := fun document => !e.wants filter' document) (h.stored collection)
      fun pair hpair => congrArg not (hpairs pair hpair)
    have hcount : (s.memory.held collection).countP (MemoryDocumentProvider.matches c · filter) =
        (s.mongo.held collection).countP (e.wants filter') := by
      rw [countP_eq_length_filter, countP_eq_length_filter]
      exact (filter_pairs (h.stored collection) hpairs).length_eq
    have hmongo : s.mongo.remove e collection filter' =
        (s.mongo.store collection ((s.mongo.held collection).filter fun document => !e.wants filter' document),
          (s.mongo.held collection).countP (e.wants filter')) := by
      rw [MongoDocumentProvider.remove, h.connected, if_neg Bool.false_ne_true.symm, hwants]
    rw [Agrees, step, hmongo]
    exact ⟨⟨hcount, fun hr => absurd hr hrefused⟩, h.store hfiltered⟩

private theorem update_unmatched (h : s.Paired e) {change change' : QVariantMap} (hsame : SameMap s.ids filter filter')
    (hclear : s.Clear c e collection filter filter') (hnone : s.Unmatched c collection filter) :
    s.Agrees c e (.update collection filter filter' change change') ∧
      (s.step c e (.update collection filter filter' change change')).Paired e := by
  obtain ⟨hcount, hkept⟩ := (h.idle hsame hclear hnone).update change'
  have hmemory : (s.memory.update c collection filter change).2 = 0 :=
    countP_eq_zero.mpr fun document hin => ne_of_eq_of_ne (hnone document hin) Bool.false_ne_true
  have hdocuments : (s.memory.held collection).map (fun document =>
      if MemoryDocumentProvider.matches c document filter then insertAll document change else document) =
        s.memory.held collection := by
    conv_rhs => rw [← map_id (s.memory.held collection)]
    exact map_congr_left fun document hin => if_neg (ne_of_eq_of_ne (hnone document hin) Bool.false_ne_true)
  refine ⟨⟨hmemory.trans hcount.symm, fun _ => hcount⟩, h.of_kept rfl (fun collection' => ?_) hkept⟩
  rw [MemoryDocumentProvider.update, MemoryDocumentProvider.held_store]
  split
  · next he => rw [he, hdocuments]
  · rfl

private theorem bsonFromMap_set {change : QVariantMap} {bs : BsonDocument} (h : e.encode (.record change) = some (.record bs)) :
    e.bsonFromMap [("$set", .record change)] = [("$set", .record bs)] := by
  have hset : ([("$set", Nested.record change)].any fun field => extendedKeys.contains field.1) = false := rfl
  rw [Engine.bsonFromMap, Engine.encode, hset, if_neg Bool.false_ne_true, Engine.encodeFields, h]
  rfl

/-- A `$set` of plain fields that MongoDB takes for every document selected. -/
theorem setMany_taken {selected : BsonDocument → Bool} {bs : BsonDocument} {documents : List BsonDocument} (hbs : bs ≠ [])
    (hnames : ∀ b ∈ bs, fieldName b.1 = true ∧ b.1 ≠ "_id")
    (htaken : ∀ document ∈ documents, (!selected document || e.stores (insertAll document bs)) = true) :
    e.setMany selected bs documents =
      (documents.map fun document => if selected document then insertAll document bs else document,
        documents.countP fun document => selected document && decide (insertAll document bs ≠ document)) := by
  have hplain : (bs.isEmpty || bs.any fun b => b.1 == "_id" || !fieldName b.1) = false := by
    rw [Bool.or_eq_false_iff]
    constructor
    · rw [Bool.eq_false_iff, ne_eq, List.isEmpty_iff]
      exact hbs
    · refine any_eq_false.mpr fun b hb => ?_
      rw [(hnames b hb).1, beq_false_of_ne (hnames b hb).2]
      exact Bool.false_ne_true
  rw [Engine.setMany, hplain, if_neg Bool.false_ne_true]
  dsimp only
  rw [takeWhile_eq_self_iff.mpr htaken, dropWhile_eq_nil_iff.mpr htaken, append_nil,
    if_pos (all_eq_true.mpr htaken)]

section
variable (h : s.Paired e)
include h

theorem update {change change' : QVariantMap} (hsame : SameMap s.ids filter filter')
    (hchange : SameMap s.ids change change') (hclear : s.Clear c e collection filter filter')
    (halters : s.Alters c e collection filter change change') :
    s.Agrees c e (.update collection filter filter' change change') ∧
      (s.step c e (.update collection filter filter' change change')).Paired e := by
  rcases h.select hsame hclear with ⟨hempty, -⟩ | ⟨hrefused, hwants, hpairs⟩
  · exact h.update_unmatched hsame hclear fun document hin => by
      rw [hempty] at hin
      cases hin
  · obtain ⟨hwrites, hfields, haltered⟩ := halters
    rw [h.ids] at hchange
    obtain ⟨bs, hcoded, hcodes⟩ := coded_fields (e := e) hchange fun field hfield => (hfields field hfield).2
    have hliteral := hchange.names (literalName · = true) fun field hfield => literalName_of_fieldName (hfields field hfield).1.1
    have hencode : e.encode (.record change') = some (.record bs) := by
      rw [Engine.encode_record hliteral, Engine.encodeFields_eq hcodes, map_some]
    rw [Engine.bsonFromMap_eq hliteral hcodes] at haltered
    have hnames (b : String × Bson) (hb : b ∈ bs) : fieldName b.1 = true ∧ b.1 ≠ "_id" := by
      obtain ⟨field, hfield⟩ := exists_zip hcodes.length_eq hb
      rw [← ((forall₂_iff_zip.mp hcodes).2 hfield).1]
      exact hchange.names (fun name => fieldName name = true ∧ name ≠ "_id") (fun field hfield => (hfields field hfield).1) field (of_mem_zip hfield).1
    obtain ⟨htaken, hstored, hcount⟩ :=
      update_pairs (h.stored collection) hpairs haltered hcoded fun b hb => (hnames b hb).2
    have hbs : bs ≠ [] := by
      rintro rfl
      exact hwrites (forall₂_nil_right_iff.mp hcoded)
    have hmongo : s.mongo.update e collection filter' change' =
        (s.mongo.store collection ((s.mongo.held collection).map fun document =>
            if e.wants filter' document then insertAll document bs else document),
          (s.mongo.held collection).countP fun document =>
            e.wants filter' document && decide (insertAll document bs ≠ document)) := by
      rw [MongoDocumentProvider.update, h.connected, if_neg Bool.false_ne_true.symm, hwants, bsonFromMap_set hencode]
      exact congrArg (fun written => (s.mongo.store collection written.1, written.2)) (setMany_taken hbs hnames htaken)
    rw [Agrees, step, hmongo]
    exact ⟨⟨hcount, fun hr => absurd hr hrefused⟩, h.store hstored⟩

private theorem fresh_id : Nat.repr s.memory.nextId ∉ s.ids.map Prod.fst ∧
    e.oid s.mongo.minted ∉ s.ids.map Prod.snd := by
  have hrepr {m n : Nat} (he : Nat.repr m = Nat.repr n) : m = n := by
    have htext := congrArg (fun text : String => Nat.ofDigitChars 10 text.toList 0) he
    simpa using htext
  rw [h.ids, h.next, mintedIds, List.map_map, List.map_map]
  constructor
  · intro hin
    obtain ⟨n, hn, he⟩ := mem_map.mp hin
    have hsame : n + 1 = s.mongo.minted + 1 := hrepr he
    have hlt : n < s.mongo.minted := mem_range.mp hn
    omega
  · intro hin
    obtain ⟨n, hn, he⟩ := mem_map.mp hin
    have hsame : n = s.mongo.minted := e.oid_injective he
    have hlt : n < s.mongo.minted := mem_range.mp hn
    omega

/-- The ids MongoDB's provider minted are those of what it holds. -/
theorem fresh_own {document : BsonDocument} (hin : document ∈ s.mongo.held collection) :
    lookup document "_id" ≠ some (.leaf (.objectId (e.oid s.mongo.minted))) := by
  obtain ⟨document', hpair⟩ := exists_zip (h.stored collection).length_eq hin
  obtain ⟨n, hn, hown⟩ := ((forall₂_iff_zip.mp (h.stored collection)).2 hpair).own
  rw [hown]
  intro he
  have hid : e.oid n = e.oid s.mongo.minted := BsonScalar.objectId.inj (Nested.leaf.inj (Option.some.inj he))
  exact absurd (e.oid_injective hid) (Nat.ne_of_lt hn)

theorem insert {document document' : QVariantMap} (hsame : SameMap s.ids document document')
    (halike : s.Alike c e (.insert collection document document')) :
    s.Agrees c e (.insert collection document document') ∧
      (s.step c e (.insert collection document document')).Paired e := by
  obtain ⟨hnew, hplain, hstores⟩ := halike
  have hfields := plain_record.mp hplain
  rw [h.ids] at hsame
  obtain ⟨bs, hcoded, hcodes⟩ := coded_fields (e := e) hsame fun field hfield => (hfields field hfield).2
  have hbson := Engine.bsonFromMap_eq (hsame.names (literalName · = true) fun field hfield => (hfields field hfield).1) hcodes
  rw [hbson] at hstores
  have hnone : "_id" ∉ keys bs := by
    rw [← keys_coded hcoded]
    exact (lookup_eq_none_iff document "_id").mp hnew
  have hput := put_of_not_mem hnone (.leaf (.objectId (e.oid s.mongo.minted)))
  have hfresh : (s.mongo.held collection).all (fun other =>
      decide (lookup other "_id" ≠ lookup (bs ++ [("_id", .leaf (.objectId (e.oid s.mongo.minted)))]) "_id")) = true := by
    refine all_eq_true.mpr fun other hin => decide_eq_true ?_
    rw [← hput, lookup_put, if_pos rfl]
    exact h.fresh_own hin
  have hmongo : s.mongo.insert e collection document' =
      ({ s.mongo with minted := s.mongo.minted + 1 }.store collection
          (s.mongo.held collection ++ [put bs "_id" (.leaf (.objectId (e.oid s.mongo.minted)))]),
        QVariant.string (e.oid s.mongo.minted)) := by
    rw [MongoDocumentProvider.insert, if_neg (ne_of_eq_of_ne h.connected Bool.false_ne_true.symm), hbson]
    dsimp only
    rw [if_pos ((lookup_eq_none_iff bs "_id").mpr hnone)]
    dsimp only
    rw [← hput] at hstores hfresh ⊢
    refine if_pos ?_
    rw [hstores]
    exact hfresh
  have hstored : Stored e (s.mongo.minted + 1) (put document "_id" (QVariant.string (Nat.repr s.memory.nextId)))
      (put bs "_id" (.leaf (.objectId (e.oid s.mongo.minted)))) := by
    refine ⟨fun key => ?_, s.mongo.minted, Nat.lt_succ_self _, ?_⟩
    · rw [lookup_put, lookup_put, h.next]
      split
      · have hown : (Nat.repr (s.mongo.minted + 1), e.oid s.mongo.minted) ∈ mintedIds e (s.mongo.minted + 1) :=
          mem_map.mpr ⟨_, mem_range.mpr (Nat.lt_succ_self _), rfl⟩
        exact .value rfl (.leaf (.inr ⟨_, hown, rfl, .inr rfl⟩)) (codes_shown _)
      · exact (holds_coded hcoded key).mono (Nat.le_succ _)
    · rw [lookup_put, if_pos rfl]
  have hids : mintedPair document (s.memory.insert collection document).2 (QVariant.string (e.oid s.mongo.minted)) =
      [(Nat.repr s.memory.nextId, e.oid s.mongo.minted)] := if_pos hnew
  constructor
  · rw [Agrees, InsertAgrees, hnew, hmongo]
    exact ⟨_, _, rfl, rfl, h.fresh_id⟩
  · rw [step, hmongo]
    dsimp only
    rw [hids]
    refine ⟨h.connected, congrArg (· + 1) h.next, ?_, fun collection' => ?_⟩
    · dsimp only
      rw [h.ids, h.next]
      exact (map_append.symm.trans (congrArg (List.map _) range_succ.symm))
    · have hold := (h.stored collection').imp fun _ _ hold => hold.mono (Nat.le_succ s.mongo.minted)
      have hheld : (s.memory.insert collection document).1.held collection' =
          (s.memory.store collection (s.memory.held collection ++
            [put document "_id" (QVariant.string (Nat.repr s.memory.nextId))])).held collection' := rfl
      dsimp only
      rw [hheld, MemoryDocumentProvider.held_store, MongoDocumentProvider.held_store]
      split
      · next he =>
        rw [he] at hold
        exact rel_append hold (.cons hstored .nil)
      · exact hold

/-- A call made where the two are alike is answered alike, and leaves them alike. -/
theorem step {call : Call} (hsame : s.SameCall call) (halike : s.Alike c e call) :
    s.Agrees c e call ∧ (s.step c e call).Paired e := by
  cases call with
  | insert collection document document' => exact h.insert hsame halike
  | find collection filter filter' options => exact ⟨h.find hsame halike.1 halike.2, h⟩
  | update collection filter filter' change change' =>
    obtain ⟨hclear, hnone | halters⟩ := halike
    · exact h.update_unmatched hsame.1 hclear hnone
    · exact h.update hsame.1 hsame.2 hclear halters
  | remove collection filter filter' => exact h.remove hsame halike

end

end Swap.Paired

private theorem paired_start (e : Engine) : Swap.Paired e {} :=
  ⟨rfl, rfl, rfl, fun _ => .nil⟩

end Selecting

theorem Swap.Paired.run {c : Conversions} {e : Engine} {s : Swap} (h : s.Paired e) {calls : List Call}
    (hsame : Each (Swap.step c e) Swap.SameCall s calls) (halike : Each (Swap.step c e) (Swap.Alike c e) s calls) :
    Each (Swap.step c e) (Swap.Agrees c e) s calls := by
  induction calls generalizing s with
  | nil => trivial
  | cons call rest ih =>
    obtain ⟨hagrees, hnext⟩ := h.step hsame.1 halike.1
    exact ⟨hagrees, ih hnext hsame.2 halike.2⟩

/-- Over a run of the same calls to both, each made where the two are alike, every answer is the same. -/
theorem swap_agrees (c : Conversions) (e : Engine) (calls : List Call)
    (hsame : Each (Swap.step c e) Swap.SameCall {} calls) (halike : Each (Swap.step c e) (Swap.Alike c e) {} calls) :
    Each (Swap.step c e) (Swap.Agrees c e) {} calls := (paired_start e).run hsame halike

def qtConversions : Conversions where
  toDouble text := text.toInt?.map fun n => .finite n
  toBool text := decide (text ∉ ["", "0", "false"])
  toInt
    | .leaf (.number (.finite n)) => n.floor
    | .leaf (.bool b) => if b then 1 else 0
    | _ => 0

/-- A hexadecimal digit as MongoDB writes it. -/
def isHexDigit (digit : Char) : Bool := digit.isDigit || ('a' ≤ digit && digit ≤ 'f')

/-- A driver that has of the extended forms only ObjectIds, which are of 24 hexadecimal digits or more. -/
def plainEngine : Engine where
  oid n := "65f0c0de65f0c0de65f0c0d" ++ Nat.repr n
  oid_injective m n h := by
    have htext := congrArg String.toList h
    rw [String.toList_append, String.toList_append] at htext
    have hrepr := congrArg (fun digits => Nat.ofDigitChars 10 digits 0) (append_cancel_left htext)
    simpa using hrepr
  extended
    | [("$oid", .leaf (.string hex))] =>
      if 24 ≤ hex.toList.length ∧ hex.toList.all isHexDigit then some (.leaf (.objectId hex)) else none
    | _ => none
  extended_oid n := by
    have hdigits : (Nat.repr n).toList.all isHexDigit = true := all_eq_true.mpr fun digit hin => by
      rw [isHexDigit, Nat.isDigit_of_mem_toDigits (by decide) (by decide) (Nat.toList_repr ▸ hin), Bool.true_or]
    have hsome : 0 < (Nat.repr n).toList.length := length_pos_iff.mpr (by simp)
    refine if_pos ⟨?_, ?_⟩
    · rw [String.toList_append, length_append]
      exact Nat.add_le_add_left hsome 23
    · rw [String.toList_append, all_append, hdigits]
      rfl
  relaxed json := QVariant.string json
  operators _ := none
  settings _ _ documents := (documents, 0)
  settings_none _ _ _ _ := rfl
  cursor _ rows := rows
  cursor_nil _ := rfl
  stores document := document.all fun field => fieldName field.1

theorem Same.refl (ids : List (String × String)) (v : QVariant) : Same ids v v := by
  induction v using Nested.induct with
  | leaf a => exact .leaf (.inl rfl)
  | list items ih => exact .list (forall₂_same.mpr ih)
  | record fields ih =>
    refine .record rfl (forall₂_same.mpr fun t ht => ?_)
    obtain ⟨field, hfield, rfl⟩ := mem_map.mp ht
    exact ih field hfield

/-- A document found and altered by the id it shows; then one that names it by its id, looked for and removed. -/
def ownerRemoved : List Call :=
  [ .insert "people" [("name", QVariant.string "ada"), ("age", QVariant.number 36)]
      [("name", QVariant.string "ada"), ("age", QVariant.number 36)],
    .insert "people" [("name", QVariant.string "bob")] [("name", QVariant.string "bob")],
    .find "people" [("name", QVariant.string "ada")] [("name", QVariant.string "ada")] [("limit", QVariant.number 1)],
    .update "people" [("_id", QVariant.string "1")] [("_id", shownId (plainEngine.oid 0))]
      [("age", QVariant.number 37)] [("age", QVariant.number 37)],
    .insert "pets" [("owner", QVariant.string "1")] [("owner", QVariant.string (plainEngine.oid 0))],
    .find "pets" [("owner", QVariant.string "1")] [("owner", QVariant.string (plainEngine.oid 0))] [],
    .remove "pets" [("owner", QVariant.string "1")] [("owner", QVariant.string (plainEngine.oid 0))],
    .find "people" [("name", QVariant.string "eve")] [("name", QVariant.string "eve")] []]

/-- A remove by an id that is no ObjectId, of two documents neither of which has it. -/
def refusedRemove : List Call :=
  [ .insert "pets" [("owner", QVariant.string "ada")] [("owner", QVariant.string "ada")],
    .insert "pets" [("owner", QVariant.string "bob")] [("owner", QVariant.string "bob")],
    .remove "pets" [("owner", .record [("$oid", QVariant.string "ada")])] [("owner", .record [("$oid", QVariant.string "ada")])]]

theorem refusedRemove_differs :
    Each (Swap.step qtConversions plainEngine) Swap.SameCall {} refusedRemove ∧
      ¬ Each (Swap.step qtConversions plainEngine) (Swap.Agrees qtConversions plainEngine) {} refusedRemove := by
  refine ⟨⟨Same.refl _ _, Same.refl _ _, Same.refl _ _, trivial⟩, ?_⟩
  rintro ⟨-, -, ⟨hsame, -⟩, -⟩
  exact absurd hsame (by decide)

theorem ownerRemoved_agrees :
    Each (Swap.step qtConversions plainEngine) (Swap.Agrees qtConversions plainEngine) {} ownerRemoved := by
  refine swap_agrees qtConversions plainEngine ownerRemoved ?_ (by decide)
  have hsame {ids : List (String × String)} (h : ("1", plainEngine.oid 0) ∈ ids) (key : String) {v' : QVariant}
      (hv : v' = QVariant.string (plainEngine.oid 0) ∨ v' = shownId (plainEngine.oid 0)) :
      SameMap ids [(key, QVariant.string "1")] [(key, v')] :=
    .record rfl (.cons (.leaf (.inr ⟨_, h, rfl, hv⟩)) .nil)
  exact ⟨Same.refl _ _, Same.refl _ _, Same.refl _ _, ⟨hsame (by decide) _ (.inr rfl), Same.refl _ _⟩,
    hsame (by decide) _ (.inl rfl), hsame (by decide) _ (.inl rfl), hsame (by decide) _ (.inl rfl), Same.refl _ _, trivial⟩

end SynQt.Documents
