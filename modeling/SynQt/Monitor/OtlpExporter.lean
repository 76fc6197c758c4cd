import SynQt.Lib.Grouping
import SynQt.Lib.Json
import SynQt.Monitor.EventStore

/-! The OTLP exporter: batches of events rendered as log records and as spans, and posted to a
collector while no more than so many requests are waiting on it. -/
namespace SynQt
open Lib

abbrev QJsonObject := List (QString × Json)

inductive MetaType where
  | bool | int | uInt | longLong | uLongLong | double | float | other
deriving DecidableEq

/-- What the library says of an attribute's value. A double stands under the text of its value. -/
structure VariantLibrary where
  typeId : QString → MetaType
  toBool : QString → Bool
  toLongLong : QString → Int
  toDouble : QString → QString
  toString : QString → QString

structure CollectorUrl where
  isValid : Bool := true
  scheme : QString := "http"
  host : QString := "localhost"
  path : QString := ""
deriving DecidableEq

structure OtlpSettings where
  endpoint : CollectorUrl := {}
  headers : List (QString × QString) := []
  maxInFlight : Int := 8

structure OtlpPost where
  url : CollectorUrl
  headers : List (QString × QString)
  body : QJsonObject

inductive OtlpSignal where
  | logs | traces
deriving DecidableEq

def severityName : Severity → QString
  | .trace => "trace" | .debug => "debug" | .info => "info"
  | .warning => "warning" | .error => "error" | .fatal => "fatal"

def categoryName : Category → QString
  | .lifecycle => "lifecycle" | .transport => "transport" | .authorization => "authorization"
  | .call => "call" | .data => "data" | .application => "application"

namespace Otlp
variable (v : VariantLibrary)

def scopeName : QString := "synqt"

/-- A 64-bit integer is a string in the JSON mapping. -/
def nanoString (milliseconds : Int) (microsecondsBefore : Int := 0) : QString :=
  toString (milliseconds * 1000000 - microsecondsBefore * 1000)

def anyValue (value : QString) : QJsonObject :=
  match v.typeId value with
  | .bool => [("boolValue", .bool (v.toBool value))]
  | .int | .uInt | .longLong | .uLongLong => [("intValue", .string (toString (v.toLongLong value)))]
  | .double | .float => [("doubleValue", .double (v.toDouble value))]
  | .other => [("stringValue", .string (v.toString value))]

def attributeList (attributes : QVariantMap) : List Json :=
  attributes.map fun entry =>
    .object [("key", .string entry.1), ("value", .object (anyValue v entry.2))]

def stringAttribute (key value : QString) : Json :=
  .object [("key", .string key), ("value", .object [("stringValue", .string value)])]

def resourceFor (entity : QString) : QJsonObject :=
  [("attributes", .array [stringAttribute "service.name" entity, stringAttribute "telemetry.sdk.name" scopeName,
    stringAttribute "telemetry.sdk.language" "cpp"])]

def scopeObject : QJsonObject := [("name", .string scopeName)]

def entityOrder (events : List TraceEvent) (spans : Bool) : List QString :=
  events.foldl
    (fun order event =>
      if decide (0 ≤ event.durationUs) != spans then order
      else if order.contains event.entity then order else order ++ [event.entity]) []

def otlpSeverityNumber : Severity → Int
  | .trace => 1 | .debug => 5 | .info => 9 | .warning => 13 | .error => 17 | .fatal => 21

/-- A browser-reported fact stays marked as one. An identifier that is empty is left out. -/
def logRecord (event : TraceEvent) : QJsonObject :=
  let attributes := attributeList v event.attributes ++ [stringAttribute "synqt.category" (categoryName event.category)]
  let attributes := if event.untrusted then attributes ++ [stringAttribute "synqt.untrusted" "true"] else attributes
  [("timeUnixNano", .string (nanoString event.timestampMs)),
   ("observedTimeUnixNano", .string (nanoString event.timestampMs)),
   ("severityNumber", .int (otlpSeverityNumber event.severity)),
   ("severityText", .string (severityName event.severity)),
   ("body", .object [("stringValue", .string event.message)]),
   ("attributes", .array attributes)]
    ++ (if event.traceId.isEmpty then [] else [("traceId", .string event.traceId)])
    ++ (if event.spanId.isEmpty then [] else [("spanId", .string event.spanId)])

/-- The start is derived: an event holds when its span ended and how long it took. -/
def spanRecord (event : TraceEvent) : QJsonObject :=
  let attributes := attributeList v event.attributes ++ [stringAttribute "synqt.category" (categoryName event.category)]
  let status := [("code", Json.int (if event.ok then 1 else 2))]
  let status :=
    if event.ok then status
    else status ++ [("message", .string (v.toString ((event.attributes.lookup "outcome").getD "")))]
  [("traceId", .string event.traceId),
   ("spanId", .string event.spanId),
   ("name", .string event.message),
   ("kind", .int 1),
   ("startTimeUnixNano", .string (nanoString event.timestampMs event.durationUs)),
   ("endTimeUnixNano", .string (nanoString event.timestampMs)),
   ("attributes", .array attributes),
   ("status", .object status)]
    ++ (if event.parentSpanId.isEmpty then [] else [("parentSpanId", .string event.parentSpanId)])

end Otlp

namespace OtlpSignal
variable (v : VariantLibrary)

/-- An event that closed a span is a span, any other is a log record. -/
def holds : OtlpSignal → TraceEvent → Bool
  | .logs, event => event.durationUs < 0
  | .traces, event => 0 ≤ event.durationUs

def record : OtlpSignal → TraceEvent → QJsonObject
  | .logs => Otlp.logRecord v
  | .traces => Otlp.spanRecord v

def spans : OtlpSignal → Bool
  | .logs => false
  | .traces => true

def path : OtlpSignal → QString
  | .logs => "/v1/logs"
  | .traces => "/v1/traces"

def resourcesKey : OtlpSignal → QString
  | .logs => "resourceLogs"
  | .traces => "resourceSpans"

def scopesKey : OtlpSignal → QString
  | .logs => "scopeLogs"
  | .traces => "scopeSpans"

def recordsKey : OtlpSignal → QString
  | .logs => "logRecords"
  | .traces => "spans"

/-- One resource for each entity, holding its records of this kind. -/
def request (signal : OtlpSignal) (events : List TraceEvent) : QJsonObject :=
  let resources := (Otlp.entityOrder events signal.spans).map fun entity =>
    let records := (events.filter fun event => signal.holds event && event.entity == entity).map
      fun event => Json.object (signal.record v event)
    let scope := [("scope", Json.object Otlp.scopeObject), (signal.recordsKey, .array records)]
    Json.object [("resource", .object (Otlp.resourceFor entity)), (signal.scopesKey, .array [.object scope])]
  if resources.isEmpty then [] else [(signal.resourcesKey, .array resources)]

end OtlpSignal

def otlpLogsRequest (v : VariantLibrary) (events : List TraceEvent) : QJsonObject := OtlpSignal.logs.request v events

def otlpTracesRequest (v : VariantLibrary) (events : List TraceEvent) : QJsonObject := OtlpSignal.traces.request v events

/-- https anywhere, and plain http to this machine only. -/
def isExportableCollector (endpoint : CollectorUrl) : Bool :=
  endpoint.scheme == "https" ||
  endpoint.scheme == "http" &&
    (endpoint.host == "localhost" || endpoint.host == "127.0.0.1" || endpoint.host == "::1")

/-- The exporter, with the network it posts to: every request posted, and the places of
those that are not answered yet. -/
structure OtlpExporter where
  settings : OtlpSettings
  refused : Bool
  inFlight : Int := 0
  exported : Nat := 0
  dropped : Nat := 0
  posted : List OtlpPost := []
  waiting : List Nat := []

namespace OtlpExporter

def make (settings : OtlpSettings) : OtlpExporter where
  settings := settings
  refused := settings.endpoint.isValid && !isExportableCollector settings.endpoint

/-- Past the ceiling a request is dropped and counted, never queued. -/
def post (s : OtlpExporter) (signalPath : QString) (body : QJsonObject) (count : Nat) : OtlpExporter :=
  if body.isEmpty then s
  else if max 1 s.settings.maxInFlight ≤ s.inFlight then { s with dropped := s.dropped + count }
  else
    let url := { s.settings.endpoint with path := s.settings.endpoint.path ++ signalPath }
    { s with
      inFlight := s.inFlight + 1
      exported := s.exported + count
      posted := s.posted ++ [⟨url, s.settings.headers, body⟩]
      waiting := s.waiting ++ [s.posted.length] }

def take (v : VariantLibrary) (s : OtlpExporter) (events : List TraceEvent) : OtlpExporter :=
  if events.isEmpty || !s.settings.endpoint.isValid then s
  else if s.refused then { s with dropped := s.dropped + events.length }
  else
    let logs := events.countP OtlpSignal.logs.holds
    let spans := events.countP OtlpSignal.traces.holds
    let s := if 0 < logs then s.post OtlpSignal.logs.path (otlpLogsRequest v events) logs else s
    if 0 < spans then s.post OtlpSignal.traces.path (otlpTracesRequest v events) spans else s

/-- The answer of a request, which is given once. -/
def finished (s : OtlpExporter) (reply : Nat) : OtlpExporter :=
  if reply ∈ s.waiting then { s with inFlight := s.inFlight - 1, waiting := s.waiting.erase reply } else s

end OtlpExporter

end SynQt
