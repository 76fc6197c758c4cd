import SynQt.Monitor.OtlpExporter

/-! What a run of the exporter posts, as its collector reads it: each event taken is one record
of one request or is counted as dropped, and a record says what its event says. -/
namespace SynQt
open Lib Json Otlp

def attributeText (attributes : List Json) (key : QString) : QString :=
  match attributes.find? fun entry => (value entry.toObject "key").toString == key with
  | some entry => (value (value entry.toObject "value").toObject "stringValue").toString
  | none => ""

def readsUntrusted (record : QJsonObject) : Bool :=
  (value record "attributes").toArray.any fun entry =>
    (value entry.toObject "key").toString == "synqt.untrusted" &&
      (value (value entry.toObject "value").toObject "stringValue").toString == "true"

def readsOk (record : QJsonObject) : Bool := (value (value record "status").toObject "code").toInt != 2

structure Carries (event : TraceEvent) (record : QJsonObject) : Prop where
  traceId : (value record "traceId").toString = event.traceId
  spanId : (value record "spanId").toString = event.spanId
  parentSpanId : (value record "parentSpanId").toString = event.parentSpanId
  outcome : readsOk record = event.ok
  untrusted : event.untrusted → readsUntrusted record

/-- The event brings the mark among its own attributes. -/
def markedItself (v : VariantLibrary) (attributes : QVariantMap) : Bool :=
  attributes.any fun entry =>
    entry.1 == "synqt.untrusted" && (value (Otlp.anyValue v entry.2) "stringValue").toString == "true"

/-- A log record has no place for a parent span or a failure, a span none for the mark. -/
def OtlpSignal.Tells (v : VariantLibrary) : OtlpSignal → TraceEvent → Prop
  | .logs, event => event.parentSpanId = "" ∧ event.ok
  | .traces, event => event.untrusted → markedItself v event.attributes

variable (v : VariantLibrary)

variable (event : TraceEvent)

private theorem logRecord_traceId :
    (value (logRecord v event) "traceId").toString = event.traceId := by
  by_cases h : event.traceId = "" <;> by_cases h' : event.spanId = "" <;> simp [logRecord, value_cons, h, h']

private theorem logRecord_spanId :
    (value (logRecord v event) "spanId").toString = event.spanId := by
  by_cases h : event.traceId = "" <;> by_cases h' : event.spanId = "" <;> simp [logRecord, value_cons, h, h']

private theorem logRecord_parentSpanId :
    (value (logRecord v event) "parentSpanId").toString = "" := by
  by_cases h : event.traceId = "" <;> by_cases h' : event.spanId = "" <;> simp [logRecord, value_cons, h, h']

/-- There is no place for a failure. -/
theorem readsOk_logRecord : readsOk (logRecord v event) = true := by
  by_cases h : event.traceId = "" <;> by_cases h' : event.spanId = "" <;>
    simp [readsOk, logRecord, value_cons, h, h']

private theorem readsUntrusted_logRecord (h : event.untrusted) :
    readsUntrusted (logRecord v event) = true := by
  have hattributes : ∃ before, (value (logRecord v event) "attributes").toArray =
      before ++ [stringAttribute "synqt.untrusted" "true"] :=
    ⟨attributeList v event.attributes ++ [stringAttribute "synqt.category" (categoryName event.category)],
      by simp [logRecord, value_cons, h]⟩
  obtain ⟨before, hattributes⟩ := hattributes
  rw [readsUntrusted, hattributes, List.any_append]
  simp [stringAttribute, value_cons]

/-- A log record carries its event exactly when the event has no parent and went well. -/
theorem carries_logRecord :
    Carries event (logRecord v event) ↔ OtlpSignal.logs.Tells v event := by
  constructor
  · intro carries
    exact ⟨carries.parentSpanId.symm.trans (logRecord_parentSpanId v event),
      carries.outcome.symm.trans (readsOk_logRecord v event)⟩
  · intro ⟨hparent, hok⟩
    exact ⟨logRecord_traceId v event, logRecord_spanId v event, (logRecord_parentSpanId v event).trans hparent.symm,
      (readsOk_logRecord v event).trans hok.symm, readsUntrusted_logRecord v event⟩

private theorem spanRecord_traceId :
    (value (spanRecord v event) "traceId").toString = event.traceId := rfl

private theorem spanRecord_spanId :
    (value (spanRecord v event) "spanId").toString = event.spanId := by
  simp [spanRecord, value_cons]

private theorem spanRecord_parentSpanId :
    (value (spanRecord v event) "parentSpanId").toString = event.parentSpanId := by
  by_cases h : event.parentSpanId = "" <;> simp [spanRecord, value_cons, h]

private theorem readsOk_spanRecord : readsOk (spanRecord v event) = event.ok := by
  cases h : event.ok <;> simp [readsOk, spanRecord, value_cons, h]

/-- A span is marked by nothing but the event's own attributes. -/
theorem readsUntrusted_spanRecord :
    readsUntrusted (spanRecord v event) = markedItself v event.attributes := by
  have hattributes : (value (spanRecord v event) "attributes").toArray =
      attributeList v event.attributes ++
        [stringAttribute "synqt.category" (categoryName event.category)] := by
    simp [spanRecord, value_cons]
  rw [readsUntrusted, hattributes, List.any_append, attributeList, List.any_map]
  simp [markedItself, Function.comp_def, stringAttribute, value_cons]

/-- A span carries its event exactly when the event was not browser-reported, or says so itself. -/
theorem carries_spanRecord :
    Carries event (spanRecord v event) ↔ OtlpSignal.traces.Tells v event := by
  constructor
  · intro carries huntrusted
    rw [← readsUntrusted_spanRecord]
    exact carries.untrusted huntrusted
  · intro told
    exact ⟨spanRecord_traceId v event, spanRecord_spanId v event, spanRecord_parentSpanId v event,
      readsOk_spanRecord v event, fun h => (readsUntrusted_spanRecord v event).trans (told h)⟩

theorem carries_record (signal : OtlpSignal) (event : TraceEvent) :
    Carries event (signal.record v event) ↔ signal.Tells v event := by
  cases signal with
  | logs => exact carries_logRecord v event
  | traces => exact carries_spanRecord v event

def serviceName (resource : Json) : QString :=
  attributeText (value (value resource.toObject "resource").toObject "attributes").toArray "service.name"

/-- The records of one kind in a request, each under the service it is filed under. -/
def OtlpSignal.records (signal : OtlpSignal) (body : QJsonObject) : List (QString × QJsonObject) :=
  (value body signal.resourcesKey).toArray.flatMap fun resource =>
    (value resource.toObject signal.scopesKey).toArray.flatMap fun scope =>
      (value scope.toObject signal.recordsKey).toArray.map fun record => (serviceName resource, record.toObject)

namespace OtlpSignal
variable (signal : OtlpSignal) (events : List TraceEvent)

private theorem scopesKey_ne : (signal.scopesKey = "resource") = False := by
  cases signal <;> simp [scopesKey]

private theorem recordsKey_ne : (signal.recordsKey = "scope") = False := by
  cases signal <;> simp [recordsKey]

private theorem resourcesKey_inj {signal other : OtlpSignal} : other.resourcesKey = signal.resourcesKey → other = signal := by
  cases signal <;> cases other <;> simp [resourcesKey]

theorem holds_iff_spans (event : TraceEvent) : (decide (0 ≤ event.durationUs) != signal.spans) = !signal.holds event := by
  cases signal with
  | logs =>
    by_cases h : 0 ≤ event.durationUs
    · simp [holds, spans, h, Int.not_lt.mpr h]
    · simp [holds, spans, h, Int.not_le.mp h]
  | traces => simp [holds, spans]

private theorem entityOrder_eq :
    entityOrder events signal.spans = firstSeen TraceEvent.entity (events.filter signal.holds) := by
  rw [firstSeen, List.foldl_filter, entityOrder]
  congr 1
  funext order event
  rw [holds_iff_spans]
  cases signal.holds event <;> rfl

private theorem serviceName_resource (entity : QString) (rest : QJsonObject) :
    serviceName (.object (("resource", .object (resourceFor entity)) :: rest)) = entity := by
  simp [serviceName, attributeText, resourceFor, stringAttribute, value_cons]

theorem request_eq (hsome : events.filter signal.holds ≠ []) :
    ∃ resources, signal.request v events = [(signal.resourcesKey, .array resources)] ∧
      resources = (firstSeen TraceEvent.entity (events.filter signal.holds)).map fun entity =>
        Json.object [("resource", .object (resourceFor entity)),
          (signal.scopesKey, .array [.object [("scope", .object scopeObject),
            (signal.recordsKey, .array (((events.filter signal.holds).filter (·.entity = entity)).map
              fun event => .object (signal.record v event)))]])] := by
  refine ⟨_, ?_, rfl⟩
  obtain ⟨event, hevent⟩ := List.exists_mem_of_ne_nil _ hsome
  have hfirst : firstSeen TraceEvent.entity (events.filter signal.holds) ≠ [] := by
    apply List.ne_nil_of_mem
    exact (mem_firstSeen _ _ event.entity).mpr ⟨event, hevent, rfl⟩
  have hgroup : ∀ entity, (events.filter fun event => signal.holds event && event.entity == entity) =
      (events.filter signal.holds).filter (·.entity = entity) := by
    intro entity
    rw [List.filter_filter]
    congr 1
    funext event
    rw [Bool.and_comm, beq_eq_decide]
  unfold request
  dsimp only
  rw [entityOrder_eq, if_neg (by simpa using hfirst)]
  simp only [hgroup]

/-- What a collector finds in a request: the events of its kind, grouped by entity. -/
theorem records_request (hsome : events.filter signal.holds ≠ []) :
    signal.records (signal.request v events) =
      (grouped TraceEvent.entity (events.filter signal.holds)).map fun event =>
        (event.entity, signal.record v event) := by
  obtain ⟨resources, hrequest, rfl⟩ := request_eq v signal events hsome
  rw [hrequest, records, grouped, List.map_flatMap, value_cons, if_pos rfl, toArray_array, List.flatMap_map]
  congr 1
  funext entity
  have hmembers : ∀ event ∈ (events.filter signal.holds).filter (·.entity = entity), event.entity = entity := by
    intro event hevent
    exact of_decide_eq_true (List.mem_filter.mp hevent).2
  simp only [serviceName_resource, toObject_object, toArray_array, value_cons, scopesKey_ne, recordsKey_ne, if_false,
    if_true, List.flatMap_singleton, List.map_map]
  exact List.map_congr_left fun event hevent => by rw [hmembers event hevent]; rfl

theorem records_request_other {other : OtlpSignal} (hother : other ≠ signal) :
    other.records (signal.request v events) = [] := by
  have habsent : value (signal.request v events) other.resourcesKey = .null := by
    unfold request
    dsimp only
    split
    case isTrue => rfl
    case isFalse => rw [value_cons, if_neg (resourcesKey_inj.mt hother), value_nil]
  rw [records, habsent]
  rfl

end OtlpSignal

end SynQt
