import SynQt.Providers.MemoryDocumentProvider

/-! The provider that sends its documents and filters to MongoDB, as BSON made from their JSON text. -/
namespace SynQt.Documents
open Lib Dict Option

/-- A BSON value that is neither an array nor a document. -/
inductive BsonScalar where
  | null
  | bool (b : Bool)
  | number (value : Rat)
  | string (text : String)
  | objectId (hex : String)
  /-- A value of another type, under its extended JSON. -/
  | typed (json : String)
deriving DecidableEq

abbrev Bson := Nested BsonScalar

abbrev BsonDocument := List (String × Bson)

/-- The keys by which an object of extended JSON is a value of another type. -/
def extendedKeys : List String :=
  ["$oid", "$date", "$numberInt", "$numberLong", "$numberDouble", "$numberDecimal", "$binary", "$type", "$uuid",
    "$regularExpression", "$regex", "$options", "$timestamp", "$code", "$scope", "$symbol", "$dbPointer", "$ref",
    "$id", "$db", "$minKey", "$maxKey", "$undefined"]

def literalName (key : String) : Bool := decide (key.toList.head? ≠ some '$')

def fieldName (key : String) : Bool := literalName key && !key.isEmpty && !key.toList.contains '.'

/-- MongoDB and its driver, where this does not spell them out. -/
structure Engine where
  oid : Nat → String
  oid_injective : Function.Injective oid
  /-- The value that an object with an extended key stands for, unless the codec refuses it. -/
  extended : QVariantMap → Option Bson
  extended_oid : ∀ n, extended [("$oid", QVariant.string (oid n))] = some (.leaf (.objectId (oid n)))
  relaxed : String → QVariant
  /-- What a filter with an operator, a path or an extended value selects, unless it is refused. -/
  operators : BsonDocument → Option (BsonDocument → Bool)
  /-- A `$set` of nothing, of `_id` or of a path, with the count it answers. -/
  settings : (BsonDocument → Bool) → BsonDocument → List BsonDocument → List BsonDocument × Nat
  settings_none : ∀ selected changes documents, (∀ document ∈ documents, selected document = false) →
    settings selected changes documents = (documents, 0)
  cursor : BsonDocument → List BsonDocument → List BsonDocument
  cursor_nil : ∀ options, cursor options [] = []
  /-- The documents whose names and size are in order. -/
  stores : BsonDocument → Bool

/-- The JSON of a value has `null` for what JSON has no form for, and the text of what is of another type. -/
def Scalar.bson : Scalar → BsonScalar
  | .invalid => .null
  | .null => .null
  | .bool b => .bool b
  | .number (.finite value) => .number value
  | .number _ => .null
  | .string text => .string text
  | .other _ text => if text.isEmpty then .null else .string text

namespace Engine
variable (e : Engine)

mutual

def encode : QVariant → Option Bson
  | .leaf a => some (.leaf a.bson)
  | .list items => (encodeItems items).map .list
  | .record fields =>
    if fields.any fun field => extendedKeys.contains field.1 then e.extended fields
    else (encodeFields fields).map .record

def encodeItems : List QVariant → Option (List Bson)
  | [] => some []
  | t :: rest => (encode t).bind fun b => (encodeItems rest).map (b :: ·)

def encodeFields : List (String × QVariant) → Option (List (String × Bson))
  | [] => some []
  | (key, t) :: rest => (encode t).bind fun b => (encodeFields rest).map ((key, b) :: ·)

end

def decodeScalar : BsonScalar → QVariant
  | .null => QVariant.null
  | .bool b => QVariant.bool b
  | .number value => QVariant.number value
  | .string text => QVariant.string text
  | .objectId hex => .record [("$oid", QVariant.string hex)]
  | .typed json => e.relaxed json

mutual

/-- From BSON through relaxed extended JSON to a value. -/
def decode : Bson → QVariant
  | .leaf b => e.decodeScalar b
  | .list items => .list (decodeItems items)
  | .record fields => .record (decodeFields fields)

def decodeItems : List Bson → List QVariant
  | [] => []
  | b :: rest => decode b :: decodeItems rest

def decodeFields : List (String × Bson) → List (String × QVariant)
  | [] => []
  | (key, b) :: rest => (key, decode b) :: decodeFields rest

end

def bsonFromMap (map : QVariantMap) : BsonDocument :=
  match e.encode (.record map) with
  | some (.record fields) => fields
  | _ => []

def mapFromBson (document : BsonDocument) : QVariantMap := e.decodeFields document

def operand : Bson → Bool
  | .record fields => fields.any fun field => !literalName field.1
  | .leaf (.typed _) => true
  | _ => false

def operates (field : String × Bson) : Bool := !fieldName field.1 || operand field.2

/-- A value is met by itself and by an array that has it; a missing field is as `null`. -/
def meets (wanted : Bson) : Option Bson → Bool
  | some (.list items) => decide (Nested.list items = wanted) || decide (wanted ∈ items)
  | some held => decide (held = wanted)
  | none => decide (wanted = .leaf .null)

def selects (filter : BsonDocument) : Option (BsonDocument → Bool) :=
  if filter.any operates then e.operators filter
  else some fun document => filter.all fun field => meets field.2 (lookup document field.1)

/-- The options are a document too, of which a limit is one field. -/
def limited (options : BsonDocument) (rows : List BsonDocument) : List BsonDocument :=
  match options with
  | [] => rows
  | [("limit", .leaf (.number n))] =>
    if n.den ≠ 1 then e.cursor options rows else if n.num = 0 then rows else rows.take n.num.natAbs
  | _ => e.cursor options rows

theorem limited_nil (options : BsonDocument) : e.limited options [] = [] := by
  unfold limited
  split
  · rfl
  · split
    · exact e.cursor_nil _
    · split
      · rfl
      · exact List.take_nil
  · exact e.cursor_nil _

/-- An update of many by `$set`: one by one, up to a document the server does not take; what it answers counts
the documents that are not as they were. -/
def setMany (selected : BsonDocument → Bool) (changes : BsonDocument) (documents : List BsonDocument) :
    List BsonDocument × Nat :=
  if changes.isEmpty || changes.any (fun change => change.1 == "_id" || !fieldName change.1) then
    e.settings selected changes documents
  else
    let taken := fun document => !selected document || e.stores (insertAll document changes)
    ((documents.takeWhile taken).map (fun document => if selected document then insertAll document changes else document)
        ++ documents.dropWhile taken,
      if documents.all taken then
        documents.countP fun document => selected document && decide (insertAll document changes ≠ document)
      else 0)

end Engine

structure MongoDocumentProvider where
  connected : Bool := true
  minted : Nat := 0
  collections : List (String × List BsonDocument) := []

namespace MongoDocumentProvider
variable (e : Engine)

def held (p : MongoDocumentProvider) (collection : String) : List BsonDocument :=
  (lookup p.collections collection).getD []

def store (p : MongoDocumentProvider) (collection : String) (documents : List BsonDocument) : MongoDocumentProvider :=
  { p with collections := put p.collections collection documents }

/-- A document without an `_id` is given one; what is answered is the `_id` it goes with. -/
def insert (p : MongoDocumentProvider) (collection : String) (document : QVariantMap) :
    MongoDocumentProvider × QVariant :=
  if p.connected = false then (p, .invalid)
  else
    let doc := e.bsonFromMap document
    let (p, doc, insertedId) :=
      if lookup doc "_id" = none then
        ({ p with minted := p.minted + 1 }, doc ++ [("_id", .leaf (.objectId (e.oid p.minted)))],
          QVariant.string (e.oid p.minted))
      else (p, doc, value (e.mapFromBson doc) "_id")
    if e.stores doc && (p.held collection).all (fun other => decide (lookup other "_id" ≠ lookup doc "_id")) then
      (p.store collection (p.held collection ++ [doc]), insertedId)
    else (p, .invalid)

def find (p : MongoDocumentProvider) (collection : String) (filter options : QVariantMap) : List QVariantMap :=
  if p.connected = false then []
  else
    match e.selects (e.bsonFromMap filter) with
    | none => []
    | some selected =>
      (e.limited (e.bsonFromMap options) ((p.held collection).filter selected)).map e.mapFromBson

def update (p : MongoDocumentProvider) (collection : String) (filter change : QVariantMap) :
    MongoDocumentProvider × Nat :=
  if p.connected = false then (p, 0)
  else
    match e.selects (e.bsonFromMap filter), e.bsonFromMap [("$set", .record change)] with
    | some selected, [("$set", .record changes)] =>
      let (documents, modifiedCount) := e.setMany selected changes (p.held collection)
      (p.store collection documents, modifiedCount)
    | _, _ => (p, 0)

def remove (p : MongoDocumentProvider) (collection : String) (filter : QVariantMap) : MongoDocumentProvider × Nat :=
  if p.connected = false then (p, 0)
  else
    match e.selects (e.bsonFromMap filter) with
    | none => (p, 0)
    | some selected =>
      (p.store collection ((p.held collection).filter fun document => !selected document),
        (p.held collection).countP selected)

end MongoDocumentProvider

def plainScalar : Scalar → Bool
  | .null => true
  | .bool _ => true
  | .number (.finite _) => true
  | .string _ => true
  | _ => false

def Plain (t : QVariant) : Prop := Nested.every plainScalar literalName t = true
deriving Decidable

private theorem not_extended {key : String} (h : literalName key = true) : extendedKeys.contains key = false := by
  have hall : ∀ key ∈ extendedKeys, literalName key = false := by decide
  rw [Bool.eq_false_iff]
  intro hin
  rw [hall key (List.contains_iff_mem.mp hin)] at h
  cases h

theorem plain_list {items : List QVariant} : Plain (.list items) ↔ ∀ t ∈ items, Plain t := Nested.everyItem_iff

theorem plain_record {fields : QVariantMap} :
    Plain (.record fields) ↔ ∀ field ∈ fields, literalName field.1 = true ∧ Plain field.2 := Nested.everyField_iff

/-- What a plain value or an id is written as: no value of yet another type, and no operator. -/
def writtenScalar : BsonScalar → Bool
  | .typed _ => false
  | _ => true

def Written (b : Bson) : Prop := Nested.every writtenScalar literalName b = true

namespace Engine
variable {e : Engine}

/-- `b` is what the codec makes of `t`, and reads back as it. -/
structure Codes (e : Engine) (t : QVariant) (b : Bson) : Prop where
  encode : e.encode t = some b
  decode : e.decode b = t
  written : Written b

theorem decode_scalar {a : Scalar} (h : plainScalar a = true) :
    e.decodeScalar a.bson = .leaf a ∧ writtenScalar a.bson = true := by
  cases a with
  | null | bool b | string text => exact ⟨rfl, rfl⟩
  | number n =>
    cases n with
    | finite value => exact ⟨rfl, rfl⟩
    | infinity negative => cases h
    | nan => cases h
  | invalid => cases h
  | other typeName text => cases h

theorem codes_items {items : List QVariant} (h : ∀ t ∈ items, ∃ b, Codes e t b) :
    ∃ bs, e.encodeItems items = some bs ∧ e.decodeItems bs = items ∧ ∀ b ∈ bs, Written b := by
  induction items with
  | nil => exact ⟨[], rfl, rfl, fun b hb => absurd hb List.not_mem_nil⟩
  | cons t rest ih =>
    obtain ⟨b, hb⟩ := h t List.mem_cons_self
    obtain ⟨bs, hencode, hdecode, hwritten⟩ := ih fun t ht => h t (List.mem_cons_of_mem _ ht)
    refine ⟨b :: bs, ?_, ?_, ?_⟩
    · rw [encodeItems, hb.encode, bind_some, hencode, map_some]
    · rw [decodeItems, hb.decode, hdecode]
    · exact List.forall_mem_cons.mpr ⟨hb.written, hwritten⟩

def CodesFields (e : Engine) (fields : QVariantMap) (bs : BsonDocument) : Prop :=
  List.Forall₂ (fun field b => field.1 = b.1 ∧ e.encode field.2 = some b.2) fields bs

variable {fields : QVariantMap}

theorem encodeFields_eq {bs : BsonDocument} (h : CodesFields e fields bs) :
    e.encodeFields fields = some bs := by
  induction h with
  | nil => rfl
  | @cons field b rest bs hhead _ ih =>
    obtain ⟨key, t⟩ := field
    obtain ⟨key', b⟩ := b
    obtain ⟨hkey, hencode⟩ := hhead
    dsimp only at hkey hencode
    rw [encodeFields, hencode, bind_some, ih, map_some, hkey]

theorem codes_fields (h : ∀ field ∈ fields, literalName field.1 = true ∧ ∃ b, Codes e field.2 b) :
    ∃ bs, CodesFields e fields bs ∧ e.decodeFields bs = fields ∧ ∀ b ∈ bs, literalName b.1 = true ∧ Written b.2 := by
  induction fields with
  | nil => exact ⟨[], .nil, rfl, fun b hb => absurd hb List.not_mem_nil⟩
  | cons field rest ih =>
    obtain ⟨key, t⟩ := field
    obtain ⟨hkey, b, hb⟩ := h _ List.mem_cons_self
    obtain ⟨bs, hcodes, hdecode, hwritten⟩ := ih fun field hfield => h field (List.mem_cons_of_mem _ hfield)
    refine ⟨(key, b) :: bs, .cons ⟨rfl, hb.encode⟩ hcodes, ?_, List.forall_mem_cons.mpr ⟨⟨hkey, hb.written⟩, hwritten⟩⟩
    rw [decodeFields, hb.decode, hdecode]

theorem encode_record (h : ∀ field ∈ fields, literalName field.1 = true) :
    e.encode (.record fields) = (e.encodeFields fields).map .record := by
  have hany : (fields.any fun field => extendedKeys.contains field.1) = false :=
    List.any_eq_false.mpr fun field hfield => by rw [not_extended (h field hfield)]; exact Bool.false_ne_true
  rw [encode, hany]
  rfl

theorem bsonFromMap_eq {bs : BsonDocument} (hnames : ∀ field ∈ fields, literalName field.1 = true)
    (h : CodesFields e fields bs) : e.bsonFromMap fields = bs := by
  rw [bsonFromMap, encode_record hnames, encodeFields_eq h, map_some]

end Engine

end SynQt.Documents
