import SynQt.Monitor.ExportLedger

namespace SynQt
open Lib Json Function List

inductive ExportOp where
  | take (events : List TraceEvent)
  | finished (reply : Nat)

namespace OtlpExporter

/-- The most requests that may wait on the collector at once. -/
def ceiling (s : OtlpExporter) : Int := max 1 s.settings.maxInFlight

def step (v : VariantLibrary) (s : OtlpExporter) : ExportOp → OtlpExporter
  | .take events => s.take v events
  | .finished reply => s.finished reply

def filed (s : OtlpExporter) (signal : OtlpSignal) : List (QString × QJsonObject) :=
  s.posted.flatMap fun post => signal.records post.body

def urlOf (s : OtlpExporter) (signal : OtlpSignal) : CollectorUrl :=
  { s.settings.endpoint with path := s.settings.endpoint.path ++ signal.path }

/-- One kind of record of a batch, posted when there is any. -/
def half (v : VariantLibrary) (s : OtlpExporter) (signal : OtlpSignal) (events : List TraceEvent) : OtlpExporter :=
  if 0 < events.countP signal.holds then
    s.post signal.path (signal.request v events) (events.countP signal.holds)
  else s

/-- A request of this kind would be posted, and not dropped, were this batch taken now. -/
def Posts (s : OtlpExporter) (events : List TraceEvent) : OtlpSignal → Prop
  | .logs => s.refused = false ∧ s.inFlight < s.ceiling
  | .traces => s.refused = false ∧ s.inFlight + (if events.any OtlpSignal.logs.holds then 1 else 0) < s.ceiling

/-- A batch brings nothing to be posted that its record could not tell. -/
def Tellable (v : VariantLibrary) (s : OtlpExporter) : ExportOp → Prop
  | .take events => ∀ signal : OtlpSignal, s.Posts events signal → ∀ event ∈ events.filter signal.holds, signal.Tells v event
  | .finished _ => True

end OtlpExporter

def takenOf : ExportOp → List TraceEvent
  | .take events => events
  | .finished _ => []

/-- The exporter's books over the events taken: those it kept, by the kind of record they
became, and those it dropped. -/
structure Account (v : VariantLibrary) (taken : List TraceEvent) (kept : OtlpSignal → List TraceEvent)
    (lost : List TraceEvent) (s : OtlpExporter) : Prop where
  partition : (kept .logs ++ kept .traces ++ lost).Perm taken
  ordered : ∀ signal, (kept signal).Sublist (taken.filter signal.holds)
  records : ∀ signal, (s.filed signal).Perm ((kept signal).map fun event => (event.entity, signal.record v event))
  entityOrdered : ∀ signal entity, (s.filed signal).filter (·.1 = entity) =
    ((kept signal).filter (·.entity = entity)).map fun event => (entity, signal.record v event)
  addressed : ∀ post ∈ s.posted, ∃ signal, post.url = s.urlOf signal ∧ ∀ other ≠ signal, other.records post.body = []
  exported : s.exported = (kept .logs).length + (kept .traces).length
  dropped : s.dropped = lost.length

def AllCarried (v : VariantLibrary) (kept : OtlpSignal → List TraceEvent) : Prop :=
  ∀ signal, ∀ event ∈ kept signal, Carries event (signal.record v event)

variable {v : VariantLibrary}

namespace OtlpExporter

private theorem take_eq (s : OtlpExporter) (events : List TraceEvent) (hvalid : s.settings.endpoint.isValid) :
    s.take v events =
      if s.refused then { s with dropped := s.dropped + events.length }
      else (s.half v .logs events).half v .traces events := by
  cases events with
  | nil => split <;> rfl
  | cons event events =>
    unfold take
    rw [if_neg (by simp [hvalid])]
    rfl

/-- What a half of a batch does: it is posted as one request, or dropped at the ceiling. -/
theorem half_cases (s : OtlpExporter) (signal : OtlpSignal) (events : List TraceEvent) :
    (events.filter signal.holds = [] ∧ s.half v signal events = s) ∨
    (events.filter signal.holds ≠ [] ∧ s.ceiling ≤ s.inFlight ∧
      s.half v signal events = { s with dropped := s.dropped + (events.filter signal.holds).length }) ∨
    (events.filter signal.holds ≠ [] ∧ s.inFlight < s.ceiling ∧
      s.half v signal events = { s with
        inFlight := s.inFlight + 1
        exported := s.exported + (events.filter signal.holds).length
        posted := s.posted ++ [⟨s.urlOf signal, s.settings.headers, signal.request v events⟩]
        waiting := s.waiting ++ [s.posted.length] }) := by
  unfold half
  rw [countP_eq_length_filter]
  by_cases hsome : events.filter signal.holds = []
  · exact .inl ⟨hsome, by rw [hsome]; rfl⟩
  · right
    obtain ⟨resources, hrequest, -⟩ := OtlpSignal.request_eq v signal events hsome
    rw [if_pos (length_pos_of_ne_nil hsome)]
    unfold post
    rw [if_neg (by simp [hrequest])]
    by_cases hroom : s.ceiling ≤ s.inFlight
    · exact .inl ⟨hsome, hroom, if_pos hroom⟩
    · exact .inr ⟨hsome, Int.not_le.mp hroom, if_neg hroom⟩

private theorem half_logs_room (s : OtlpExporter) (events : List TraceEvent) :
    (s.half v .logs events).inFlight < (s.half v .logs events).ceiling ↔
      s.inFlight + (if events.any OtlpSignal.logs.holds then 1 else 0) < s.ceiling := by
  have hany : events.any OtlpSignal.logs.holds = true ↔ events.filter OtlpSignal.logs.holds ≠ [] := by
    simp [any_eq_true]
  obtain ⟨hnone, hstays⟩ | ⟨hsome, hfull, hdrops⟩ | ⟨hsome, hroom, hposts⟩ := s.half_cases (v := v) .logs events
  · rw [hstays, if_neg (by simp [hany, hnone]), Int.add_zero]
  · rw [hdrops, if_pos (hany.mpr hsome)]
    exact iff_of_false (Int.not_lt.mpr hfull) (by omega)
  · rw [hposts, if_pos (hany.mpr hsome)]
    rfl

end OtlpExporter

namespace OtlpSignal

private theorem traces_holds : OtlpSignal.traces.holds = fun event => !OtlpSignal.logs.holds event := by
  funext event
  have h := OtlpSignal.logs.holds_iff_spans event
  rw [← h]
  simp [holds, spans]

private theorem kinds_perm (events : List TraceEvent) :
    (events.filter OtlpSignal.logs.holds ++ events.filter OtlpSignal.traces.holds).Perm events := by
  rw [traces_holds]
  exact filter_append_perm OtlpSignal.logs.holds events

/-- Taking a batch apart by kind changes the order between the kinds only. -/
theorem filter_kinds (signal : OtlpSignal) (events : List TraceEvent) :
    (events.filter OtlpSignal.logs.holds ++ events.filter OtlpSignal.traces.holds).filter signal.holds =
      events.filter signal.holds := by
  rw [traces_holds, filter_append, filter_filter, filter_filter]
  cases signal with
  | logs => simp
  | traces => simp [traces_holds]

end OtlpSignal

namespace Account
variable {taken taken' lost : List TraceEvent} {kept : OtlpSignal → List TraceEvent} {s s' : OtlpExporter}

theorem make (settings : OtlpSettings) : Account v [] (fun _ => []) [] (OtlpExporter.make settings) where
  partition := List.Perm.refl _
  ordered _ := List.Sublist.refl _
  records _ := List.Perm.refl _
  entityOrdered _ _ := rfl
  addressed _ hpost := (not_mem_nil hpost).elim
  exported := rfl
  dropped := rfl

section
variable (h : Account v taken kept lost s)
include h

theorem total : s.exported + s.dropped = taken.length := by
  rw [h.exported, h.dropped, ← h.partition.length_eq, length_append, length_append]

theorem frame (hsettings : s'.settings = s.settings) (hposted : s'.posted = s.posted)
    (hexported : s'.exported = s.exported) (hdropped : s'.dropped = s.dropped) : Account v taken kept lost s' where
  partition := h.partition
  ordered := h.ordered
  records signal := by
    rw [OtlpExporter.filed, hposted]
    exact h.records signal
  entityOrdered signal entity := by
    rw [OtlpExporter.filed, hposted]
    exact h.entityOrdered signal entity
  addressed post hpost := by
    obtain ⟨signal, hurl, hother⟩ := h.addressed post (hposted ▸ hpost)
    exact ⟨signal, by rw [hurl, OtlpExporter.urlOf, OtlpExporter.urlOf, hsettings], hother⟩
  exported := hexported.trans h.exported
  dropped := hdropped.trans h.dropped

/-- The books know the events taken up to the order between the two kinds. -/
theorem reorder (hperm : taken.Perm taken')
    (hkinds : ∀ signal : OtlpSignal, taken.filter signal.holds = taken'.filter signal.holds) :
    Account v taken' kept lost s :=
  { h with
    partition := h.partition.trans hperm
    ordered := fun signal => hkinds signal ▸ h.ordered signal }

theorem drop (events : List TraceEvent) :
    Account v (taken ++ events) kept (lost ++ events) { s with dropped := s.dropped + events.length } :=
  { h with
    partition := by
      rw [← append_assoc]
      exact h.partition.append_right events
    ordered := fun signal => (h.ordered signal).trans (by rw [filter_append]; exact sublist_append_left _ _)
    dropped := by rw [h.dropped, length_append] }

end

private theorem filter_map_entity (events : List TraceEvent) (record : TraceEvent → QJsonObject) (entity : QString) :
    (events.map fun event => (event.entity, record event)).filter (·.1 = entity) =
      (events.filter (·.entity = entity)).map fun event => (entity, record event) := by
  rw [filter_map]
  apply map_congr_left
  intro event hevent
  rw [show event.entity = entity from of_decide_eq_true (mem_filter.mp hevent).2]

theorem post (h : Account v taken kept lost s) {signal : OtlpSignal} {events : List TraceEvent}
    (hsome : events.filter signal.holds ≠ []) (hsettings : s'.settings = s.settings)
    (hexported : s'.exported = s.exported + (events.filter signal.holds).length) (hdropped : s'.dropped = s.dropped)
    (hposted : s'.posted = s.posted ++ [⟨s.urlOf signal, s.settings.headers, signal.request v events⟩]) :
    Account v (taken ++ events.filter signal.holds)
      (update kept signal (kept signal ++ events.filter signal.holds)) lost s' := by
  have hrecords := OtlpSignal.records_request v signal events hsome
  have hother : ∀ other ≠ signal, other.records (signal.request v events) = [] := fun other =>
    OtlpSignal.records_request_other v signal events
  have hfiled : ∀ other : OtlpSignal, s'.filed other = s.filed other ++ other.records (signal.request v events) := by
    intro other
    simp [OtlpExporter.filed, hposted]
  constructor
  case partition =>
    rw [perm_iff_count]
    intro event
    have hcount := perm_iff_count.mp h.partition event
    cases signal <;> simp [count_append] at hcount ⊢ <;> omega
  case ordered =>
    intro other
    rw [filter_append]
    by_cases hsame : other = signal
    · subst hsame
      rw [update_self, filter_filter]
      simpa using h.ordered other
    · rw [update_of_ne hsame]
      exact (h.ordered other).trans (sublist_append_left _ _)
  case records =>
    intro other
    rw [hfiled]
    by_cases hsame : other = signal
    · subst hsame
      rw [update_self, hrecords, map_append]
      exact (h.records other).append ((grouped_perm _ _).map _)
    · rw [update_of_ne hsame, hother other hsame, append_nil]
      exact h.records other
  case entityOrdered =>
    intro other entity
    rw [hfiled, filter_append, h.entityOrdered]
    by_cases hsame : other = signal
    · subst hsame
      rw [update_self, hrecords, filter_map_entity, filter_grouped, filter_append, map_append]
    · rw [update_of_ne hsame, hother other hsame, filter_nil, append_nil]
  case addressed =>
    have hurl : ∀ signal, s'.urlOf signal = s.urlOf signal := fun signal => by
      rw [OtlpExporter.urlOf, OtlpExporter.urlOf, hsettings]
    intro post hpost
    simp only [hurl]
    rcases mem_append.mp (hposted ▸ hpost) with hpost | hpost
    · exact h.addressed post hpost
    · obtain rfl := mem_singleton.mp hpost
      exact ⟨signal, rfl, hother⟩
  case exported =>
    rw [hexported, h.exported]
    cases signal <;> simp <;> omega
  case dropped => exact hdropped.trans h.dropped

private theorem allCarried_update (signal : OtlpSignal) (events : List TraceEvent) :
    AllCarried v (update kept signal (kept signal ++ events)) ↔
      AllCarried v kept ∧ ∀ event ∈ events, signal.Tells v event := by
  constructor
  · intro hall
    constructor
    · intro other event hevent
      by_cases hsame : other = signal
      · subst hsame
        exact hall other event (by simp [hevent])
      · exact hall other event (by rwa [update_of_ne hsame])
    · intro event hevent
      exact (carries_record v signal event).mp (hall signal event (by simp [hevent]))
  · intro ⟨hkept, hevents⟩ other event hevent
    by_cases hsame : other = signal
    · subst hsame
      rw [update_self] at hevent
      rcases mem_append.mp hevent with hevent | hevent
      · exact hkept other event hevent
      · exact (carries_record v other event).mpr (hevents event hevent)
    · rw [update_of_ne hsame] at hevent
      exact hkept other event hevent

/-- A half of a batch is booked whole, as kept when there is room and as lost when there is none. -/
theorem half (h : Account v taken kept lost s) (signal : OtlpSignal) (events : List TraceEvent) :
    ∃ kept' lost', Account v (taken ++ events.filter signal.holds) kept' lost' (s.half v signal events) ∧
      (AllCarried v kept' ↔
        AllCarried v kept ∧ (s.inFlight < s.ceiling → ∀ event ∈ events.filter signal.holds, signal.Tells v event)) := by
  obtain ⟨hnone, hstays⟩ | ⟨-, hfull, hdrops⟩ | ⟨hsome, hroom, hposts⟩ := s.half_cases (v := v) signal events
  · refine ⟨kept, lost, ?_, by simp [hnone]⟩
    rw [hstays, hnone, append_nil]
    exact h
  · refine ⟨kept, lost ++ events.filter signal.holds, ?_, by simp [Int.not_lt.mpr hfull]⟩
    rw [hdrops]
    exact h.drop _
  · refine ⟨update kept signal (kept signal ++ events.filter signal.holds), lost, ?_, ?_⟩
    swap
    · rw [allCarried_update]
      simp only [hroom, true_imp_iff]
    rw [hposts]
    exact h.post hsome rfl rfl rfl rfl

theorem take (h : Account v taken kept lost s) (hvalid : s.settings.endpoint.isValid) (events : List TraceEvent) :
    ∃ kept' lost', Account v (taken ++ events) kept' lost' (s.take v events) ∧
      (AllCarried v kept' ↔ AllCarried v kept ∧ s.Tellable v (.take events)) := by
  rw [OtlpExporter.take_eq s events hvalid]
  split
  case isTrue hrefused =>
    have hnever : s.Tellable v (.take events) := by
      intro signal hposts
      cases signal <;> simp [OtlpExporter.Posts, hrefused] at hposts
    exact ⟨kept, lost ++ events, h.drop events, by simp [hnever]⟩
  case isFalse hopen =>
    obtain ⟨kept₁, lost₁, hlogs, hcarried₁⟩ := h.half .logs events
    obtain ⟨kept₂, lost₂, hspans, hcarried₂⟩ := hlogs.half .traces events
    refine ⟨kept₂, lost₂, hspans.reorder ?_ ?_, ?_⟩
    · rw [append_assoc]
      exact (OtlpSignal.kinds_perm events).append_left taken
    · intro signal
      rw [append_assoc, filter_append taken, OtlpSignal.filter_kinds, filter_append]
    · rw [hcarried₂, hcarried₁, and_assoc, OtlpExporter.half_logs_room]
      have hall : s.Tellable v (.take events) ↔
          (s.Posts events .logs → ∀ event ∈ events.filter OtlpSignal.logs.holds, OtlpSignal.logs.Tells v event) ∧
          (s.Posts events .traces → ∀ event ∈ events.filter OtlpSignal.traces.holds, OtlpSignal.traces.Tells v event) :=
        ⟨fun h => ⟨h .logs, h .traces⟩, fun h signal => by cases signal; exacts [h.1, h.2]⟩
      have hrefused : s.refused = false := by simpa using hopen
      rw [hall]
      simp only [OtlpExporter.Posts, hrefused, true_and]

end Account

namespace OtlpExporter

/-- The requests counted as in flight are those that wait, and there is never one too many. -/
structure WithinCeiling (s : OtlpExporter) : Prop where
  counted : s.inFlight = s.waiting.length
  bounded : s.inFlight ≤ s.ceiling

theorem WithinCeiling.make (settings : OtlpSettings) : (make settings).WithinCeiling where
  counted := rfl
  bounded := by
    change (0 : Int) ≤ max 1 settings.maxInFlight
    omega

variable {s : OtlpExporter}

theorem WithinCeiling.half (h : s.WithinCeiling) (signal : OtlpSignal) (events : List TraceEvent) :
    (s.half v signal events).WithinCeiling := by
  obtain ⟨-, hstays⟩ | ⟨-, -, hdrops⟩ | ⟨-, hroom, hposts⟩ := s.half_cases (v := v) signal events
  · rw [hstays]
    exact h
  · rw [hdrops]
    exact ⟨h.counted, h.bounded⟩
  · rw [hposts]
    exact ⟨by simp [h.counted], hroom⟩

theorem WithinCeiling.take (h : s.WithinCeiling) (hvalid : s.settings.endpoint.isValid)
    (events : List TraceEvent) : (s.take v events).WithinCeiling := by
  rw [take_eq s events hvalid]
  split
  case isTrue => exact ⟨h.counted, h.bounded⟩
  case isFalse => exact (h.half .logs events).half .traces events

theorem WithinCeiling.finished (h : s.WithinCeiling) (reply : Nat) :
    (s.finished reply).WithinCeiling := by
  unfold OtlpExporter.finished
  split
  case isTrue hwaits =>
    have hlength := length_erase_of_mem hwaits
    have hpos := length_pos_of_mem hwaits
    have hcounted := h.counted
    have hbounded := h.bounded
    exact ⟨by simp only [hlength]; omega, by simp only [ceiling] at hbounded ⊢; omega⟩
  case isFalse => exact h

private theorem half_settings (s : OtlpExporter) (signal : OtlpSignal) (events : List TraceEvent) :
    (s.half v signal events).settings = s.settings := by
  obtain ⟨-, hstays⟩ | ⟨-, -, hdrops⟩ | ⟨-, -, hposts⟩ := s.half_cases (v := v) signal events
  · rw [hstays]
  · rw [hdrops]
  · rw [hposts]

private theorem step_settings (s : OtlpExporter) (hvalid : s.settings.endpoint.isValid) (op : ExportOp) :
    (s.step v op).settings = s.settings := by
  cases op with
  | take events =>
    rw [step, take_eq s events hvalid]
    split
    case isTrue => rfl
    case isFalse => rw [half_settings, half_settings]
  | finished reply =>
    rw [step, finished]
    split <;> rfl

theorem WithinCeiling.step (h : s.WithinCeiling) (hvalid : s.settings.endpoint.isValid)
    (op : ExportOp) : (s.step v op).WithinCeiling := by
  cases op with
  | take events => exact h.take hvalid events
  | finished reply => exact h.finished reply

end OtlpExporter

section
variable {taken lost : List TraceEvent} {kept : OtlpSignal → List TraceEvent} {s : OtlpExporter} (h : Account v taken kept lost s)
include h

theorem Account.step (hvalid : s.settings.endpoint.isValid) (op : ExportOp) :
    ∃ kept' lost', Account v (taken ++ takenOf op) kept' lost' (s.step v op) ∧
      (AllCarried v kept' ↔ AllCarried v kept ∧ s.Tellable v op) := by
  cases op with
  | take events => exact h.take hvalid events
  | finished reply =>
    refine ⟨kept, lost, ?_, by simp [OtlpExporter.Tellable]⟩
    rw [takenOf, append_nil, OtlpExporter.step, OtlpExporter.finished]
    split
    case isTrue => exact h.frame rfl rfl rfl rfl
    case isFalse => exact h

theorem Account.run (hwithin : s.WithinCeiling) (hvalid : s.settings.endpoint.isValid)
    (ops : List ExportOp) :
    (Lib.run (OtlpExporter.step v) s ops).WithinCeiling ∧
    (Lib.run (OtlpExporter.step v) s ops).settings = s.settings ∧
    ∃ kept' lost', Account v (taken ++ ops.flatMap takenOf) kept' lost' (Lib.run (OtlpExporter.step v) s ops) ∧
      (AllCarried v kept' ↔ AllCarried v kept ∧ Each (OtlpExporter.step v) (OtlpExporter.Tellable v) s ops) := by
  induction ops generalizing taken lost kept s with
  | nil => exact ⟨hwithin, rfl, kept, lost, by simpa using h, by simp [Each]⟩
  | cons op ops ih =>
    have hsettings := s.step_settings (v := v) hvalid op
    obtain ⟨kept₁, lost₁, hstep, hcarried₁⟩ := h.step hvalid op
    obtain ⟨hwithin', hsettings', kept₂, lost₂, hrest, hcarried₂⟩ :=
      ih hstep (hwithin.step hvalid op) (hsettings ▸ hvalid)
    refine ⟨hwithin', hsettings'.trans hsettings, kept₂, lost₂, ?_, ?_⟩
    · rw [flatMap_cons, ← append_assoc]
      exact hrest
    · rw [hcarried₂, hcarried₁, and_assoc]
      rfl

end

/-- Over every run, each event taken is one record of one request or is counted as dropped, the
records of an entity are in the order taken, and the requests waiting keep to the ceiling; every
record carries its event exactly when each batch brought, of what was posted, only spans that
are not browser-reported and log records that went well and have no parent. -/
theorem export_keeps_iff (v : VariantLibrary) (settings : OtlpSettings) (hvalid : settings.endpoint.isValid)
    (ops : List ExportOp) :
    let s := Lib.run (OtlpExporter.step v) (OtlpExporter.make settings) ops
    let taken := ops.flatMap takenOf
    (s.waiting.length : Int) ≤ max 1 settings.maxInFlight ∧ s.exported + s.dropped = taken.length ∧
    ∃ kept lost, Account v taken kept lost s ∧
      (AllCarried v kept ↔ Each (OtlpExporter.step v) (OtlpExporter.Tellable v) (OtlpExporter.make settings) ops) := by
  obtain ⟨hwithin, hsettings, kept, lost, haccount, hcarried⟩ :=
    (Account.make settings).run (v := v) (OtlpExporter.WithinCeiling.make settings) hvalid ops
  have hnone : AllCarried v fun _ => [] := fun _ _ hevent => (not_mem_nil hevent).elim
  refine ⟨?_, haccount.total, kept, lost, haccount, hcarried.trans (and_iff_right hnone)⟩
  rw [← hwithin.counted]
  have hbounded := hwithin.bounded
  rw [OtlpExporter.ceiling, hsettings] at hbounded
  exact hbounded

def textVariants : VariantLibrary where
  typeId _ := .other
  toBool _ := false
  toLongLong _ := 0
  toDouble _ := "0"
  toString text := text

def reportedCall : TraceEvent where
  timestampMs := 1750000000123
  category := .call
  entity := "web"
  traceId := "4bf92f3577b34da6a3ce929d0e0e4736"
  spanId := "00f067aa0ba902b7"
  durationUs := 4500
  message := "placeBid"
  untrusted := true

/-- A batch with a browser's report among its log records keeps it marked. -/
theorem reported_log_marked :
    let ops := [ExportOp.take [{ reportedCall with durationUs := -1 }, { reportedCall with untrusted := false }],
      .finished 1, .finished 0]
    ∃ kept lost, Account textVariants (ops.flatMap takenOf) kept lost
        (Lib.run (OtlpExporter.step textVariants) (OtlpExporter.make {}) ops) ∧
      AllCarried textVariants kept := by
  obtain ⟨-, -, kept, lost, haccount, hcarried⟩ := export_keeps_iff textVariants {} rfl
    [ExportOp.take [{ reportedCall with durationUs := -1 }, { reportedCall with untrusted := false }],
      .finished 1, .finished 0]
  refine ⟨kept, lost, haccount, hcarried.mpr ⟨?_, trivial, trivial, trivial⟩⟩
  rintro signal - event hevent
  cases signal with
  | logs =>
    obtain rfl : event = { reportedCall with durationUs := -1 } := mem_singleton.mp hevent
    exact ⟨rfl, rfl⟩
  | traces =>
    obtain rfl : event = { reportedCall with untrusted := false } := mem_singleton.mp hevent
    intro huntrusted
    cases huntrusted

/-- The same report closing a span is exported, and nothing on the record marks it. -/
theorem reported_span_unmarked :
    let s := Lib.run (OtlpExporter.step textVariants) (OtlpExporter.make {}) [.take [reportedCall]]
    s.exported = 1 ∧ ¬∃ kept lost, Account textVariants [reportedCall] kept lost s ∧ AllCarried textVariants kept := by
  refine ⟨rfl, ?_⟩
  rintro ⟨kept, lost, haccount, hall⟩
  have hlost : lost = [] := length_eq_zero_iff.mp haccount.dropped.symm
  have hmem : reportedCall ∈ kept .logs ++ kept .traces ++ lost :=
    haccount.partition.mem_iff.mpr mem_cons_self
  rw [hlost, append_nil, mem_append] at hmem
  rcases hmem with hlog | hspan
  · exact not_mem_nil ((haccount.ordered .logs).subset hlog)
  · have htold := (carries_record textVariants .traces reportedCall).mp (hall .traces reportedCall hspan)
    exact Bool.noConfusion (htold rfl)

end SynQt
