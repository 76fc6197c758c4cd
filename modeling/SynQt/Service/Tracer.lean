import SynQt.Lib.SortedMap
import SynQt.Monitor.EventStore
import SynQt.Service.SecretNames
import Mathlib.Tactic.NormNum

/-! What a tracer stores of an event: its secrets held back, and the rest within bounds. -/
namespace SynQt.Tracer
open List

def MaxMessageChars : Nat := 512
def MaxAttributeChars : Nat := 512
def MaxAttributes : Nat := 32

/-- A sequence whose size a `qsizetype` says. -/
structure Counted (α : Type) where
  items : List α
  counted : items.length < 2 ^ 63
deriving DecidableEq

/-- A list or a map is the compact JSON it serializes to. -/
inductive AttributeValue where
  | text (value : Text)
  | byteArray (value : Counted UInt8)
  | url (value : Counted QChar)
  | variants (compact : Counted UInt8)
  | int (value : Int)
  | boolean (value : Bool)
  | double (bits : UInt64)
  | dateTime (msecs : Int)
deriving DecidableEq

abbrev Attributes := Std.TreeMap Text AttributeValue

structure Event where
  timestampMs : Int := 0
  severity : Severity := .info
  category : Category := .lifecycle
  entity : Text := []
  traceId : Text := []
  spanId : Text := []
  parentSpanId : Text := []
  durationUs : Int := -1
  ok : Bool := true
  message : Text := []
  attributes : Attributes := ∅
  untrusted : Bool := false

def redacted : Text := utf16 "[redacted]"

def attributesDropped : Text := utf16 "attributesDropped"

def attributeSpan : AttributeValue → Nat
  | .text value => value.length
  | .byteArray value => value.items.length
  | .url value => value.items.length
  | .variants compact => compact.items.length
  | .int _ | .boolean _ | .double _ | .dateTime _ => 0

def redactAttributes (folding : CaseFolding) (attributes : Attributes) : Attributes :=
  if attributes.toList.any fun entry => isSecretAttributeName folding entry.1 then
    attributes.map fun name value => if isSecretAttributeName folding name then .text redacted else value
  else attributes

def redact (folding : CaseFolding) (event : Event) : Event :=
  { event with attributes := redactAttributes folding event.attributes }

/-- What is written in the place of a value with no meaningful first half. -/
def valueDropped (span : Nat) : AttributeValue :=
  .text (utf16 s!"[value of {span} bytes dropped: over {MaxAttributeChars}]")

def boundValue : AttributeValue → AttributeValue
  | .text value => .text (value.take MaxAttributeChars)
  | value => if MaxAttributeChars < attributeSpan value then valueDropped (attributeSpan value) else value

def boundStep (state : Attributes × Nat) (entry : Text × AttributeValue) : Attributes × Nat :=
  if MaxAttributes - 1 ≤ state.1.size then (state.1, state.2 + 1)
  else (state.1.insert (entry.1.take MaxAttributeChars) (boundValue entry.2), state.2)

def oversized (attributes : Attributes) : Bool :=
  decide (MaxAttributes < attributes.size) || attributes.toList.any fun entry =>
    decide (MaxAttributeChars < entry.1.length) || decide (MaxAttributeChars < attributeSpan entry.2)

def boundAttributes (attributes : Attributes) : Attributes :=
  if oversized attributes then
    let (bounded, skipped) := attributes.toList.foldl boundStep (∅, 0)
    if 0 < skipped then bounded.insert attributesDropped (.int skipped) else bounded
  else attributes

def bound (event : Event) : Event :=
  { event with
    message := event.message.take MaxMessageChars
    attributes := boundAttributes event.attributes }

/-- The event as it goes into the ring. `current` is the span open on the thread, where there is one. -/
def record (folding : CaseFolding) (entity : Text) (now : Int) (current : Option (Text × Text)) (event : Event) : Event :=
  let event := if event.timestampMs = 0 then { event with timestampMs := now } else event
  let event := if event.entity.isEmpty then { event with entity := entity } else event
  let event :=
    match current with
    | some (traceId, spanId) => if event.traceId.isEmpty then { event with traceId := traceId, spanId := spanId } else event
    | none => event
  bound (redact folding event)

open SortedMap

variable {folding : CaseFolding}

def recordedAs (folding : CaseFolding) (entry : Text × AttributeValue) : Text × AttributeValue :=
  (entry.1.take MaxAttributeChars, if isSecretAttributeName folding entry.1 then .text redacted else boundValue entry.2)

def stillThere (folding : CaseFolding) (original stored : Attributes) : Finset (Text × AttributeValue) :=
  entries stored ∩ (entries original).image (recordedAs folding)

def AttributeValue.figure : AttributeValue → Option Int
  | .int value => some value
  | _ => none

def figureOf (stored : Attributes) : Int := (stored[attributesDropped]?.bind AttributeValue.figure).getD 0

structure Recorded (folding : CaseFolding) (event stored : Event) : Prop where
  message : stored.message.length ≤ MaxMessageChars
  within : ∀ entry ∈ stored.attributes.toList,
    entry.1.length ≤ MaxAttributeChars ∧ attributeSpan entry.2 ≤ MaxAttributeChars
  few : stored.attributes.size ≤ MaxAttributes
  redacted : ∀ entry ∈ stored.attributes.toList,
    entry.1 = attributesDropped ∨ ∃ original ∈ event.attributes.toList, entry = recordedAs folding original
  counted : (event.attributes.size : Int) - (stillThere folding event.attributes stored.attributes).card =
    figureOf stored.attributes
  settled : bound stored = stored

/-- The names that are placed before there is no more room, under what is left of them. -/
def placed (seen : Finset Text) : List Text → List Text
  | [] => []
  | name :: rest =>
    if MaxAttributes - 1 ≤ seen.card then [] else name :: placed (insert (name.take MaxAttributeChars) seen) rest

/-- As many attributes are lost as the stored map goes on to say. Of those placed, `coinciding` are lost to others
whose names begin alike; with some left out, an attribute that has the name of the figure gives way to it, unless it
says the same. -/
def DropsTold (folding : CaseFolding) (attributes : Attributes) : Prop :=
  let names := attributes.toList.map Prod.fst
  let reached := if oversized (redactAttributes folding attributes) then placed ∅ names else names
  let skipped := names.length - reached.length
  let coinciding := reached.length - (reached.map (List.take MaxAttributeChars)).toFinset.card
  if skipped = 0 then (coinciding : Int) = figureOf attributes
  else
    coinciding + (if attributesDropped ∈ reached then 1 else 0) =
      if attributes[attributesDropped]? = some (.int skipped) then 1 else 0

private theorem length_utf16 (text : String) : (utf16 text).length = text.length := by
  rw [utf16, length_map, String.length_toList]

private theorem valueDropped_within {span : Nat} (h : span < 2 ^ 63) : attributeSpan (valueDropped span) ≤ MaxAttributeChars := by
  have hdigits : (toString span).length ≤ 19 := (Nat.length_repr_le_iff (by decide)).mpr (Nat.lt_trans h (by norm_num))
  have hfirst : (toString "[value of ").length = 10 := by decide
  have hthen : (toString " bytes dropped: over ").length = 21 := by decide
  have hlimit : (toString 512).length = 3 := by decide
  have hlast : (toString "]").length = 1 := by decide
  rw [valueDropped, attributeSpan, length_utf16]
  simp only [String.length_append, MaxAttributeChars, hfirst, hthen, hlimit, hlast]
  omega

private theorem boundValue_within (value : AttributeValue) : attributeSpan (boundValue value) ≤ MaxAttributeChars := by
  have hother (h : attributeSpan value < 2 ^ 63) :
      attributeSpan (if MaxAttributeChars < attributeSpan value then valueDropped (attributeSpan value) else value) ≤
        MaxAttributeChars := by
    split
    · exact valueDropped_within h
    · next hwithin => exact Nat.not_lt.mp hwithin
  have hzero : 0 < 2 ^ 63 := Nat.two_pow_pos 63
  cases value with
  | text value => exact length_take_le _ _
  | byteArray value | url value => exact hother value.counted
  | variants compact => exact hother compact.counted
  | int value | boolean value | double bits | dateTime msecs => exact hother hzero

variable {value : AttributeValue}

private theorem boundValue_of_within (h : attributeSpan value ≤ MaxAttributeChars) :
    boundValue value = value := by
  cases value with
  | text value => exact congrArg AttributeValue.text (take_of_length_le h)
  | byteArray value | url value | variants compact => exact if_neg (Nat.not_lt.mpr h)
  | int value | boolean value | double bits | dateTime msecs => rfl

/-- A value is stored as a figure exactly where it is that figure. -/
theorem boundValue_int {n : Int} : boundValue value = .int n ↔ value = .int n := by
  have hother (hnot : value ≠ .int n) :
      (if MaxAttributeChars < attributeSpan value then valueDropped (attributeSpan value) else value) ≠ .int n := by
    split
    · exact nofun
    · exact hnot
  cases value with
  | text value => exact iff_of_false nofun nofun
  | byteArray value | url value | variants compact => exact iff_of_false (hother nofun) nofun
  | int value => exact Iff.rfl
  | boolean value | double bits | dateTime msecs => exact iff_of_false (hother nofun) nofun

/-- Nothing in the map is over its limit. -/
def Within (attributes : Attributes) : Prop :=
  ∀ entry ∈ attributes.toList, entry.1.length ≤ MaxAttributeChars ∧ attributeSpan entry.2 ≤ MaxAttributeChars

private theorem oversized_iff (attributes : Attributes) :
    oversized attributes = false ↔ attributes.size ≤ MaxAttributes ∧ Within attributes := by
  simp only [oversized, Within, Bool.or_eq_false_iff, decide_eq_false_iff_not, any_eq_false, Bool.or_eq_true,
    decide_eq_true_eq, not_or, Nat.not_lt]

private theorem within_iff (attributes : Attributes) :
    Within attributes ↔ ∀ entry ∈ entries attributes,
      entry.1.length ≤ MaxAttributeChars ∧ attributeSpan entry.2 ≤ MaxAttributeChars := by
  simp only [Within, entries, mem_toFinset]

variable {attributes : Attributes}

private theorem within_insert (h : Within attributes) {name : Text}
    (hname : name.length ≤ MaxAttributeChars) (hvalue : attributeSpan value ≤ MaxAttributeChars) :
    Within (attributes.insert name value) := by
  rw [within_iff] at h ⊢
  intro entry hin
  rw [entries_insert, Finset.mem_insert] at hin
  rcases hin with rfl | hrest
  · exact ⟨hname, hvalue⟩
  · exact h entry (Finset.mem_filter.mp hrest).1

section
variable (attributes : Attributes)

private theorem toList_redactAttributes :
    (redactAttributes folding attributes).toList = attributes.toList.map fun entry =>
      (entry.1, if isSecretAttributeName folding entry.1 then .text redacted else entry.2) := by
  rw [redactAttributes]
  split
  · rw [Std.TreeMap.toList_map]
  · next hnone =>
    have hsame : ∀ entry ∈ attributes.toList,
        (entry.1, if isSecretAttributeName folding entry.1 then .text redacted else entry.2) = entry := by
      intro entry hin
      have hplain : ¬ isSecretAttributeName folding entry.1 = true := fun hsecret =>
        hnone (any_eq_true.mpr ⟨entry, hin, hsecret⟩)
      rw [if_neg hplain]
    rw [map_congr_left hsame, map_id']

private theorem names_redactAttributes :
    (redactAttributes folding attributes).toList.map Prod.fst = attributes.toList.map Prod.fst := by
  rw [toList_redactAttributes, map_map]
  rfl

private theorem size_redactAttributes :
    (redactAttributes folding attributes).size = attributes.size := by
  rw [← Std.TreeMap.length_toList, toList_redactAttributes, length_map, Std.TreeMap.length_toList]

end

private theorem redacted_within : attributeSpan (.text redacted) ≤ MaxAttributeChars := by decide

private theorem recordedAs_redact (entry : Text × AttributeValue) :
    (entry.1.take MaxAttributeChars,
      boundValue (if isSecretAttributeName folding entry.1 then .text redacted else entry.2)) =
        recordedAs folding entry := by
  rw [recordedAs]
  split
  · rw [boundValue_of_within redacted_within]
  · rfl

/-- What the walk makes of the attributes, from the map and the count it starts with. -/
structure Walked (before : Attributes) (skipped : Nat) (attributes : List (Text × AttributeValue))
    (after : Attributes × Nat) : Prop where
  keys : keySet after.1 =
    keySet before ∪ ((placed (keySet before) (attributes.map Prod.fst)).map (List.take MaxAttributeChars)).toFinset
  count : after.2 + (placed (keySet before) (attributes.map Prod.fst)).length = skipped + attributes.length
  source : ∀ entry ∈ entries after.1, entry ∈ entries before ∨
    ∃ original ∈ attributes, entry = (original.1.take MaxAttributeChars, boundValue original.2)
  room : before.size ≤ MaxAttributes - 1 → after.1.size ≤ MaxAttributes - 1
  filled : after.2 ≠ skipped → MaxAttributes - 1 ≤ after.1.size
  within : Within before → Within after.1

theorem walked (attributes : List (Text × AttributeValue)) (before : Attributes) (skipped : Nat) :
    Walked before skipped attributes (attributes.foldl boundStep (before, skipped)) := by
  induction attributes generalizing before skipped with
  | nil =>
    refine ⟨?_, rfl, fun entry hin => .inl hin, fun h => h, fun h => absurd rfl h, fun h => h⟩
    exact (Finset.union_empty _).symm
  | cons entry rest ih =>
    rw [foldl_cons, boundStep]
    dsimp only
    by_cases hfull : MaxAttributes - 1 ≤ before.size
    · have hcard : MaxAttributes - 1 ≤ (keySet before).card := by
        rw [card_keySet]
        exact hfull
      have hnone (names : List Text) : placed (keySet before) names = [] := by
        cases names with
        | nil => rfl
        | cons name names => exact if_pos hcard
      obtain ⟨hkeys, hskipped, hsource, hroom, hfilled, hwithin⟩ := ih before (skipped + 1)
      rw [hnone] at hkeys hskipped
      rw [if_pos hfull]
      refine ⟨?_, ?_, fun e hin => ?_, hroom, fun _ => ?_, hwithin⟩
      · rw [hnone]
        exact hkeys
      · rw [hnone, length_cons]
        rw [length_nil] at hskipped ⊢
        omega
      · exact (hsource e hin).imp_right fun h => h.imp fun _ h => ⟨mem_cons_of_mem _ h.1, h.2⟩
      · rw [map_nil, toFinset_nil, Finset.union_empty] at hkeys
        rw [← card_keySet, hkeys]
        exact hcard
    · have hcard : ¬ MaxAttributes - 1 ≤ (keySet before).card := by
        rw [card_keySet]
        exact hfull
      have hstep : placed (keySet before) ((entry :: rest).map Prod.fst) =
          entry.1 :: placed (insert (entry.1.take MaxAttributeChars) (keySet before)) (rest.map Prod.fst) := if_neg hcard
      obtain ⟨hkeys, hskipped, hsource, hroom, hfilled, hwithin⟩ :=
        ih (before.insert (entry.1.take MaxAttributeChars) (boundValue entry.2)) skipped
      rw [keySet_insert] at hkeys hskipped
      rw [if_neg hfull]
      refine ⟨?_, ?_, fun e hin => ?_, fun _ => hroom ?_, hfilled, fun h => hwithin ?_⟩
      · rw [hkeys, hstep, map_cons, toFinset_cons, Finset.insert_union, Finset.union_insert]
      · rw [hstep, length_cons, length_cons]
        omega
      · rcases hsource e hin with hnew | hrest
        · rw [entries_insert, Finset.mem_insert] at hnew
          rcases hnew with rfl | hold
          · exact .inr ⟨entry, mem_cons_self, rfl⟩
          · exact .inl (Finset.mem_filter.mp hold).1
        · exact .inr (hrest.imp fun _ h => ⟨mem_cons_of_mem _ h.1, h.2⟩)
      · have hsize := @Std.TreeMap.size_insert_le _ _ compare before _ (entry.1.take MaxAttributeChars) (boundValue entry.2)
        omega
      · exact within_insert h (length_take_le _ _) (boundValue_within _)

private theorem figure_eq_some {n : Int} : value.figure = some n ↔ value = .int n := by
  cases value with
  | int value => exact Option.some_inj.trans (AttributeValue.int.injEq value n).to_iff.symm
  | _ => exact iff_of_false nofun nofun

private theorem figureOf_congr {stored original : Attributes}
    (h : ∀ n : Int, stored[attributesDropped]? = some (.int n) ↔ original[attributesDropped]? = some (.int n)) :
    figureOf stored = figureOf original := by
  have hfigure (attributes : Attributes) (n : Int) :
      attributes[attributesDropped]?.bind AttributeValue.figure = some n ↔
        attributes[attributesDropped]? = some (.int n) := by
    rw [Option.bind_eq_some_iff]
    simp only [figure_eq_some, exists_eq_right]
  rw [figureOf, figureOf, Option.ext fun n => (hfigure stored n).trans ((h n).trans (hfigure original n).symm)]

private theorem take_eq_attributesDropped {name : Text} :
    name.take MaxAttributeChars = attributesDropped ↔ name = attributesDropped := by
  constructor
  · intro h
    by_cases hshort : name.length ≤ MaxAttributeChars
    · rwa [take_of_length_le hshort] at h
    · have hlength := congrArg List.length h
      rw [length_take, Nat.min_eq_left (Nat.le_of_not_le hshort)] at hlength
      exact absurd hlength (by decide)
  · rintro rfl
    decide

private theorem folded_ascii (before : Option QChar) {text : Text} (h : ∀ c ∈ text, c < 0x80) :
    folding.folded before text = text.map fun c => (lowerCase c).toNat := by
  induction text generalizing before with
  | nil => rfl
  | cons c rest ih =>
    rw [CaseFolding.folded, foldCase_ascii folding before (h c mem_cons_self),
      ih (some c) fun d hd => h d (mem_cons_of_mem c hd)]
    rfl

private theorem attributesDropped_plain : isSecretAttributeName folding attributesDropped = false := by
  have hascii : (attributesDropped.all fun c => decide (c < 0x80)) = true := by decide
  have hsearch : ∀ needle ∈ secretAttributeNames, ∀ rest ∈ attributesDropped.tails,
      (rest.take needle.length).map (fun c => (lowerCase c).toNat) ≠ needle.map fun c => (lowerCase c).toNat := by
    decide
  rw [Bool.eq_false_iff]
  intro hsecret
  obtain ⟨needle, hneedle, hcontains, -⟩ := (isSecretAttributeName_eq folding _).mp hsecret
  obtain ⟨rest, hrest, hsame⟩ := any_eq_true.mp hcontains
  have hsub : ∀ c ∈ rest.take needle.length, c < 0x80 := fun c hc =>
    decide_eq_true_eq.mp (all_eq_true.mp hascii c (((mem_tails _ _).mp hrest).subset (mem_of_mem_take hc)))
  have hneedles : ∀ c ∈ needle, c < 0x80 := fun c hc => (needle_ascii hneedle hc).1
  rw [beq_iff_eq, folded_ascii none hsub, folded_ascii none hneedles] at hsame
  exact hsearch needle hneedle rest hrest hsame

/-- The figure stands for an attribute of the original exactly where there is one of its name that says the same. -/
theorem figure_recorded {original : Attributes} {n : Int} :
    (attributesDropped, AttributeValue.int n) ∈ (entries original).image (recordedAs folding) ↔
      original[attributesDropped]? = some (.int n) := by
  rw [Finset.mem_image]
  constructor
  · rintro ⟨⟨name, value⟩, hin, he⟩
    obtain ⟨hname, hvalue⟩ := Prod.mk.inj he
    obtain rfl : name = attributesDropped := take_eq_attributesDropped.mp hname
    dsimp only at hvalue
    rw [attributesDropped_plain, if_neg Bool.false_ne_true, boundValue_int] at hvalue
    rw [← hvalue]
    exact mem_entries.mp hin
  · intro hown
    refine ⟨(attributesDropped, .int n), mem_entries.mpr hown, Prod.ext (take_eq_attributesDropped.mpr rfl) ?_⟩
    rw [recordedAs]
    dsimp only
    rw [attributesDropped_plain, if_neg Bool.false_ne_true]
    exact boundValue_int.mpr rfl

variable {attributes bounded : Attributes}

private theorem source_recorded (h : ∀ entry ∈ entries bounded, ∃ original ∈ (redactAttributes folding attributes).toList,
      entry = (original.1.take MaxAttributeChars, boundValue original.2)) :
    entries bounded ⊆ (entries attributes).image (recordedAs folding) := by
  intro entry hin
  obtain ⟨redactedEntry, hredacted, rfl⟩ := h entry hin
  rw [toList_redactAttributes] at hredacted
  obtain ⟨original, horiginal, rfl⟩ := mem_map.mp hredacted
  exact Finset.mem_image.mpr ⟨original, mem_toFinset.mpr horiginal, (recordedAs_redact original).symm⟩

/-- The figure carried with nothing left out is the event's own. -/
theorem figureOf_kept (hsource : entries bounded ⊆ (entries attributes).image (recordedAs folding))
    (hkeys : attributesDropped ∈ keySet attributes → attributesDropped ∈ keySet bounded) :
    figureOf bounded = figureOf attributes := by
  refine figureOf_congr fun n => ?_
  constructor
  · intro hn
    exact figure_recorded.mp (hsource (mem_entries.mpr hn))
  · intro hown
    obtain ⟨value, hvalue⟩ := mem_keySet.mp (hkeys (mem_keySet.mpr ⟨_, hown⟩))
    obtain ⟨⟨name, own⟩, hin, he⟩ := Finset.mem_image.mp (hsource (mem_entries.mpr hvalue))
    obtain ⟨hname, hsame⟩ := Prod.mk.inj he
    obtain rfl : name = attributesDropped := take_eq_attributesDropped.mp hname
    rw [mem_entries, hown] at hin
    dsimp only at hsame
    rw [attributesDropped_plain, if_neg Bool.false_ne_true, ← Option.some.inj hin] at hsame
    rw [hvalue, ← hsame]
    rfl

/-- What is stored of the attributes: all of them, or those placed, or those placed and the figure. -/
inductive Stored (folding : CaseFolding) (attributes : Attributes) : Attributes → Prop
  | whole (hwhole : oversized (redactAttributes folding attributes) = false) :
    Stored folding attributes (redactAttributes folding attributes)
  | placed (bounded : Attributes) (hover : oversized (redactAttributes folding attributes) = true)
      (hwalk : Walked ∅ 0 (redactAttributes folding attributes).toList (bounded, 0)) :
    Stored folding attributes bounded
  | leftOut (bounded : Attributes) (skipped : Nat) (hover : oversized (redactAttributes folding attributes) = true)
      (hsome : 0 < skipped) (hwalk : Walked ∅ 0 (redactAttributes folding attributes).toList (bounded, skipped)) :
    Stored folding attributes (bounded.insert attributesDropped (.int skipped))

private theorem boundAttributes_stored (folding : CaseFolding) (attributes : Attributes) :
    Stored folding attributes (boundAttributes (redactAttributes folding attributes)) := by
  rw [boundAttributes]
  by_cases hover : oversized (redactAttributes folding attributes) = true
  · rw [if_pos hover]
    have hwalk := walked (redactAttributes folding attributes).toList ∅ 0
    generalize List.foldl boundStep (∅, 0) (redactAttributes folding attributes).toList = after at hwalk
    obtain ⟨bounded, skipped⟩ := after
    dsimp only
    by_cases hsome : 0 < skipped
    · rw [if_pos hsome]
      exact .leftOut bounded skipped hover hsome hwalk
    · obtain rfl : skipped = 0 := Nat.eq_zero_of_not_pos hsome
      rw [if_neg hsome]
      exact .placed bounded hover hwalk
  · rw [if_neg hover]
    exact .whole (Bool.eq_false_iff.mpr hover)

variable {skipped : Nat}

private theorem Walked.source_nil {attributes : List (Text × AttributeValue)} {bounded : Attributes} (h : Walked ∅ 0 attributes (bounded, skipped)) :
    ∀ entry ∈ entries bounded, ∃ original ∈ attributes,
      entry = (original.1.take MaxAttributeChars, boundValue original.2) := by
  intro entry hin
  rcases h.source entry hin with hnone | hsource
  · cases hnone
  · exact hsource

private theorem whole_source (hwithin : Within attributes) :
    ∀ entry ∈ entries attributes, ∃ original ∈ attributes.toList,
      entry = (original.1.take MaxAttributeChars, boundValue original.2) := by
  intro entry hin
  have hlist := mem_toFinset.mp hin
  obtain ⟨hname, hvalue⟩ := hwithin entry hlist
  refine ⟨entry, hlist, ?_⟩
  rw [take_of_length_le hname, boundValue_of_within hvalue]

variable {attributes kept : Attributes}

theorem Stored.bounds (h : Stored folding attributes kept) :
    kept.size ≤ MaxAttributes ∧ Within kept := by
  have hempty : Within ∅ := fun entry hin => absurd hin not_mem_nil
  have hnone : (∅ : Attributes).size ≤ MaxAttributes - 1 := Nat.zero_le 31
  cases h with
  | whole hwhole => exact (oversized_iff _).mp hwhole
  | placed bounded hover hwalk => exact ⟨Nat.le_succ_of_le (hwalk.room hnone), hwalk.within hempty⟩
  | leftOut bounded skipped hover hsome hwalk =>
    have hsize := @Std.TreeMap.size_insert_le _ _ compare bounded _ attributesDropped (.int skipped)
    have hroom := hwalk.room hnone
    exact ⟨Nat.le_trans hsize (Nat.succ_le_succ hroom), within_insert (hwalk.within hempty) (by decide) (Nat.zero_le _)⟩

theorem Stored.source (h : Stored folding attributes kept) :
    ∀ entry ∈ entries kept, entry.1 = attributesDropped ∨ entry ∈ (entries attributes).image (recordedAs folding) := by
  intro entry hin
  cases h with
  | whole hwhole => exact .inr (source_recorded (whole_source ((oversized_iff _).mp hwhole).2) hin)
  | placed bounded hover hwalk => exact .inr (source_recorded hwalk.source_nil hin)
  | leftOut bounded skipped hover hsome hwalk =>
    rw [entries_insert, Finset.mem_insert] at hin
    rcases hin with rfl | hrest
    · exact .inl rfl
    · exact .inr (source_recorded hwalk.source_nil (Finset.mem_filter.mp hrest).1)

private theorem length_names (attributes : Attributes) : (attributes.toList.map Prod.fst).length = attributes.size := by
  rw [length_map, Std.TreeMap.length_toList]

private theorem stillThere_card (h : entries kept ⊆ (entries attributes).image (recordedAs folding)) :
    (stillThere folding attributes kept).card = kept.size := by
  rw [stillThere, Finset.inter_eq_left.mpr h, card_entries]

private theorem whole_told (hwhole : oversized (redactAttributes folding attributes) = false) :
    (attributes.size : Int) - (stillThere folding attributes (redactAttributes folding attributes)).card =
        figureOf (redactAttributes folding attributes) ↔ DropsTold folding attributes := by
  obtain ⟨-, hwithin⟩ := (oversized_iff _).mp hwhole
  have hsource : entries (redactAttributes folding attributes) ⊆ (entries attributes).image (recordedAs folding) :=
    source_recorded (whole_source hwithin)
  have hkeys : keySet (redactAttributes folding attributes) = keySet attributes := by
    rw [keySet, keySet, names_redactAttributes]
  have hredacted : (redactAttributes folding attributes).toList.map Prod.fst = attributes.toList.map Prod.fst :=
    names_redactAttributes attributes
  have hnames : (attributes.toList.map Prod.fst).map (List.take MaxAttributeChars) = attributes.toList.map Prod.fst := by
    rw [← hredacted, map_map]
    exact map_congr_left fun entry hin => take_of_length_le (hwithin entry hin).1
  rw [stillThere_card hsource, size_redactAttributes, figureOf_kept hsource fun hin => hkeys ▸ hin, DropsTold]
  rw [hwhole, if_neg Bool.false_ne_true, Nat.sub_self, if_pos rfl, hnames, ← keySet, card_keySet, length_names, Nat.sub_self,
    Int.sub_self]
  exact Iff.rfl

private theorem Walked.placed_eq (h : Walked ∅ 0 (redactAttributes folding attributes).toList (bounded, skipped)) :
    keySet bounded =
        ((placed ∅ (attributes.toList.map Prod.fst)).map (List.take MaxAttributeChars)).toFinset ∧
      skipped + (placed ∅ (attributes.toList.map Prod.fst)).length = attributes.size := by
  have hnone : keySet (∅ : Attributes) = ∅ := rfl
  have hkeys := h.keys
  have hcount := h.count
  rw [names_redactAttributes, hnone] at hkeys hcount
  rw [Finset.empty_union] at hkeys
  rw [Nat.zero_add, Std.TreeMap.length_toList, size_redactAttributes] at hcount
  exact ⟨hkeys, hcount⟩

private theorem placed_front (seen : Finset Text) (names : List Text) : placed seen names <+: names := by
  induction names generalizing seen with
  | nil => exact prefix_rfl
  | cons name rest ih =>
    rw [placed]
    split
    · exact nil_prefix
    · exact cons_prefix_cons.mpr ⟨rfl, ih _⟩

/-- An attribute that has the name of the figure is in the map where it is placed. -/
theorem Walked.own (h : Walked ∅ 0 (redactAttributes folding attributes).toList (bounded, skipped)) :
    attributesDropped ∈ keySet bounded ↔ attributesDropped ∈ placed ∅ (attributes.toList.map Prod.fst) := by
  rw [h.placed_eq.1, mem_toFinset, mem_map]
  simp only [take_eq_attributesDropped, exists_eq_right]

section
variable (hover : oversized (redactAttributes folding attributes) = true)
include hover

private theorem placed_told (hwalk : Walked ∅ 0 (redactAttributes folding attributes).toList (bounded, 0)) :
    (attributes.size : Int) - (stillThere folding attributes bounded).card = figureOf bounded ↔
      DropsTold folding attributes := by
  have hsource := source_recorded hwalk.source_nil
  obtain ⟨hkeys, hcount⟩ := hwalk.placed_eq
  rw [Nat.zero_add] at hcount
  have hall : placed ∅ (attributes.toList.map Prod.fst) = attributes.toList.map Prod.fst :=
    (placed_front ∅ _).eq_of_length (hcount.trans (length_names attributes).symm)
  have hkept : attributesDropped ∈ keySet attributes → attributesDropped ∈ keySet bounded := by
    rw [hwalk.own, hall, keySet, mem_toFinset]
    exact id
  have hdistinct : bounded.size ≤ attributes.size := by
    rw [← card_keySet, hkeys, ← hcount, ← length_map (List.take MaxAttributeChars)]
    exact toFinset_card_le _
  rw [stillThere_card hsource, figureOf_kept hsource hkept, DropsTold]
  rw [hover, if_pos rfl, length_names, hcount, ← hkeys, card_keySet, Nat.sub_self, if_pos rfl, Nat.cast_sub hdistinct]

theorem leftOut_told (hsome : 0 < skipped)
    (hwalk : Walked ∅ 0 (redactAttributes folding attributes).toList (bounded, skipped)) :
    (attributes.size : Int) -
        (stillThere folding attributes (bounded.insert attributesDropped (.int skipped))).card =
      figureOf (bounded.insert attributesDropped (.int skipped)) ↔ DropsTold folding attributes := by
  have hsource := source_recorded hwalk.source_nil
  obtain ⟨hkeys, hcount⟩ := hwalk.placed_eq
  have hfull : bounded.size = MaxAttributes - 1 :=
    Nat.le_antisymm (hwalk.room (Nat.zero_le 31)) (hwalk.filled (Nat.ne_of_gt hsome))
  have hfigure : figureOf (bounded.insert attributesDropped (.int skipped)) = skipped := by
    rw [figureOf, lookup_insert, if_pos rfl]
    rfl
  have hthere : stillThere folding attributes (bounded.insert attributesDropped (.int skipped)) =
      ((entries bounded).filter fun entry => entry.1 ≠ attributesDropped) ∪
        if attributes[attributesDropped]? = some (.int skipped) then {(attributesDropped, .int skipped)} else ∅ := by
    have hfrom := (Finset.filter_subset (fun entry => entry.1 ≠ attributesDropped) _).trans hsource
    rw [stillThere, entries_insert]
    split
    · next hsays =>
      rw [Finset.insert_inter_of_mem (figure_recorded.mpr hsays), Finset.inter_eq_left.mpr hfrom, Finset.union_singleton]
    · next hnot =>
      rw [Finset.insert_inter_of_notMem fun hin => hnot (figure_recorded.mp hin), Finset.inter_eq_left.mpr hfrom,
        Finset.union_empty]
  have hcard : (stillThere folding attributes (bounded.insert attributesDropped (.int skipped))).card =
      ((entries bounded).filter fun entry => entry.1 ≠ attributesDropped).card +
        if attributes[attributesDropped]? = some (.int skipped) then 1 else 0 := by
    rw [hthere, Finset.card_union_of_disjoint]
    · congr 1
      split <;> rfl
    · split
      · exact Finset.disjoint_singleton_right.mpr fun hin => (Finset.mem_filter.mp hin).2 rfl
      · exact Finset.disjoint_empty_right _
  have hothers := card_others (m := bounded) attributesDropped
  have hleft : attributes.size - (placed ∅ (attributes.toList.map Prod.fst)).length = skipped := by omega
  have hfew : bounded.size ≤ (placed ∅ (attributes.toList.map Prod.fst)).length := by
    rw [← card_keySet, hkeys, ← length_map (List.take MaxAttributeChars)]
    exact toFinset_card_le _
  rw [hcard, hfigure, DropsTold]
  rw [hover, if_pos rfl, length_names, hleft, ← hkeys, card_keySet, if_neg (Nat.ne_of_gt hsome)]
  simp only [hwalk.own] at hothers
  omega

end

theorem Stored.told (h : Stored folding attributes kept) :
    (attributes.size : Int) - (stillThere folding attributes kept).card = figureOf kept ↔
      DropsTold folding attributes := by
  cases h with
  | whole hwhole => exact whole_told hwhole
  | placed bounded hover hwalk => exact placed_told hover hwalk
  | leftOut bounded skipped hover hsome hwalk => exact leftOut_told hover hsome hwalk

private theorem record_attributes (folding : CaseFolding) (entity : Text) (now : Int) (current : Option (Text × Text))
    (event : Event) :
    (record folding entity now current event).attributes = boundAttributes (redactAttributes folding event.attributes) := by
  unfold record
  cases current with
  | none => dsimp only; split <;> split <;> rfl
  | some span => dsimp only; split <;> split <;> split <;> rfl

private theorem bound_bound (event : Event) (h : oversized (boundAttributes event.attributes) = false) :
    bound (bound event) = bound event := by
  have hmessage : (event.message.take MaxMessageChars).take MaxMessageChars = event.message.take MaxMessageChars := by
    rw [take_take, Nat.min_self]
  have hattributes : boundAttributes (boundAttributes event.attributes) = boundAttributes event.attributes :=
    if_neg (Bool.eq_false_iff.mp h)
  rw [bound, bound]
  dsimp only
  rw [hmessage, hattributes]

/-- An event is stored as it should be exactly where what it loses is what it says. -/
theorem record_iff (folding : CaseFolding) (entity : Text) (now : Int) (current : Option (Text × Text)) (event : Event) :
    Recorded folding event (record folding entity now current event) ↔ DropsTold folding event.attributes := by
  have hattributes := record_attributes folding entity now current event
  have hstored := boundAttributes_stored folding event.attributes
  rw [← hattributes] at hstored
  rw [← hstored.told]
  refine ⟨Recorded.counted, fun hcounted => ⟨?_, hstored.bounds.2, hstored.bounds.1, ?_, hcounted, ?_⟩⟩
  · exact length_take_le _ _
  · intro entry hin
    refine (hstored.source entry (mem_toFinset.mpr hin)).imp id fun himage => ?_
    obtain ⟨original, horiginal, he⟩ := Finset.mem_image.mp himage
    exact ⟨original, mem_toFinset.mp horiginal, he.symm⟩
  · exact bound_bound _ ((oversized_iff _).mpr hstored.bounds)

/-- Two attributes whose names are alike in their first 512 units. -/
def alike : Event where
  attributes := ((∅ : Attributes).insert (List.replicate 513 0x61) (.int 1)).insert (List.replicate 512 0x61 ++ [0x62]) (.int 2)

set_option maxRecDepth 20000 in
theorem alike_lost : ¬ Recorded plainFolding alike (record plainFolding (utf16 "web") 1 none alike) := by
  intro h
  have hstored := boundAttributes_stored plainFolding alike.attributes
  rw [← record_attributes plainFolding (utf16 "web") 1 none alike] at hstored
  have htold := hstored.told.mp h.counted
  unfold DropsTold at htold
  revert htold
  decide

end SynQt.Tracer
