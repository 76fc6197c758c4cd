import SynQt.Monitor.JsonlFiles

namespace SynQt
open List hiding isEmpty_iff map_map
open Lib Option

namespace JsonlExporter
variable {line : TraceEvent → QByteArray} {s : JsonlExporter}

def content (s : JsonlExporter) (n : Nat) : Option QByteArray := if n = 0 then (s.disk 0).map (· ++ s.buffer) else s.disk n

private theorem content_spill (s : JsonlExporter) (n : Nat) : (s.spill n).content = s.content := by
  funext m
  rw [content, content]
  split
  · simp only [spill, putFile, if_true, map_map, Function.comp_def, append_assoc, take_append_drop]
  · next hm => simp only [spill, putFile, if_neg hm]

private theorem content_of_buffer (hbuffer : s.buffer = []) : s.content = s.disk := by
  funext n
  rw [content, hbuffer]
  split
  · next hn => rw [hn]; simp
  · rfl

/-- The lines written are those in the files after those removed with a file. -/
def Accounted (s : JsonlExporter) : Prop :=
  ∃ lost lines, s.gone = unlines lost ∧ lost ++ lines = s.log ∧ Holds s.maxBytes s.keep s.content lines

structure Filed (s : JsonlExporter) : Prop where
  accounted : s.Accounted
  opened : s.isOpen = true → ∃ log, s.content 0 = some log ∧ s.written = log.length
  shut : s.isOpen = false → s.buffer = []
  bared : s.bared = false

section
variable (h : Filed s)
include h

theorem Filed.drop : Filed s.drop := ⟨h.accounted, h.opened, h.shut, h.bared⟩

theorem Filed.spill (hopen : s.isOpen = true) (n : Nat) : Filed (s.spill n) := by
  refine ⟨?_, fun _ => ?_, fun hshut => absurd (hopen.symm.trans hshut) (by decide), h.bared⟩
  · obtain ⟨lost, lines, hgone, horder, hholds⟩ := h.accounted
    exact ⟨lost, lines, hgone, horder, (content_spill s n).symm ▸ hholds⟩
  · rw [content_spill]
    exact h.opened hopen

theorem Filed.flush (n : Nat) : Filed (s.flush n) := by
  rw [JsonlExporter.flush]
  split
  · next hopen => exact h.spill hopen n
  · exact h

theorem Filed.ensureOpen (opens : Bool) : Filed (s.ensureOpen opens).1 := by
  rw [JsonlExporter.ensureOpen]
  split
  · exact h
  next hshut =>
  rw [Bool.not_eq_true] at hshut
  split
  swap
  · exact h
  have hbuffer := h.shut hshut
  obtain ⟨lost, lines, hgone, horder, hholds⟩ := h.accounted
  rw [content_of_buffer hbuffer] at hholds
  refine ⟨⟨lost, lines, hgone, horder, ?_⟩, fun _ => ⟨(s.disk 0).getD [], ?_, rfl⟩, nofun, h.bared⟩
  · refine hholds.congr fun n hn => ?_
    rw [content_of_buffer (by exact hbuffer)]
    dsimp only
    rw [putFile]
    split
    · next hzero => rw [hzero]; rfl
    · rfl
  · rw [content_of_buffer (by exact hbuffer)]
    rfl

theorem Filed.close {n : Nat} (hcloses : s.isOpen = true → s.buffer.length ≤ n) :
    (s.close n).disk = s.content ∧ (s.close n).buffer = [] ∧ (s.close n).isOpen = false := by
  rw [JsonlExporter.close]
  split
  · next hopen =>
    have hall : (s.spill n).buffer = [] := drop_eq_nil_of_le (hcloses hopen)
    exact ⟨(content_of_buffer hall).symm.trans (content_spill s n), rfl, rfl⟩
  · next hshut =>
    rw [Bool.not_eq_true] at hshut
    exact ⟨(content_of_buffer (h.shut hshut)).symm, h.shut hshut, hshut⟩

end

private theorem close_same (s : JsonlExporter) (n : Nat) :
    (s.close n).keep = s.keep ∧ (s.close n).maxBytes = s.maxBytes ∧ (s.close n).log = s.log ∧ (s.close n).gone = s.gone ∧
      (s.close n).bared = s.bared ∧ (s.close n).failed = s.failed := by
  rw [JsonlExporter.close]
  split
  · exact ⟨rfl, rfl, rfl, rfl, rfl, rfl⟩
  · exact ⟨rfl, rfl, rfl, rfl, rfl, rfl⟩

theorem Filed.rotate (h : Filed s) {outcome : RotationOutcome} (hcloses : s.isOpen = true → s.buffer.length ≤ outcome.closes)
    (hbare : s.failed = true → (s.content 0).getD [] = [] → s.keep = 0 ∨ (s.disk s.keep).getD [] = [] ∨ outcome.remove = false) :
    Filed (s.rotate outcome) := by
  have hclosed := h.close hcloses
  have hsame := close_same s outcome.closes
  obtain ⟨lost, lines, hgone, horder, hholds⟩ := h.accounted
  obtain ⟨removed, rest, hsplit, hremoved, hrotated⟩ := hholds.rotated outcome
  refine ⟨⟨lost ++ removed, rest, ?_, ?_, ?_⟩, fun hopen => ?_, fun _ => ?_, ?_⟩
  · rw [JsonlExporter.rotate]
    dsimp only
    rw [hsame.1, hsame.2.2.2.1, hclosed.1, hgone, ← hremoved, unlines, unlines, unlines, flatMap_append]
  · rw [JsonlExporter.rotate, append_assoc, hsplit, horder]
    exact hsame.2.2.1.symm
  · rw [content_of_buffer (by exact hclosed.2.1)]
    rw [JsonlExporter.rotate]
    dsimp only
    rw [hsame.1, hsame.2.1, hclosed.1]
    exact hrotated
  · exact absurd (hclosed.2.2.symm.trans hopen) (by decide)
  · exact hclosed.2.1
  · rw [JsonlExporter.rotate]
    dsimp only
    rw [hsame.1, hsame.2.2.2.2.1, hsame.2.2.2.2.2, hclosed.1, h.bared, Bool.false_or, Bool.eq_false_iff]
    intro hbared
    simp only [Bool.and_eq_true, decide_eq_true_eq, Bool.not_eq_true', List.isEmpty_iff] at hbared
    obtain ⟨⟨⟨⟨hfailed, hkeep⟩, harchive⟩, hremoves⟩, hnone⟩ := hbared
    rw [content, if_neg (Nat.ne_of_gt hkeep)] at harchive
    obtain hzero | hfree | hstays := hbare hfailed hnone
    · exact Nat.ne_of_gt hkeep hzero
    · rw [hfree] at harchive
      exact absurd harchive (by decide)
    · exact absurd (hstays.symm.trans hremoves) (by decide)

/-- The rotation's own account of the log's place: it is free or empty where every call works that it needs, or the log
was empty. -/
theorem rotate_room (h : Filed s) {outcome : RotationOutcome} (hcloses : s.isOpen = true → s.buffer.length ≤ outcome.closes)
    (hroom : (s.content 0).getD [] = [] ∨ Works s.keep s.disk outcome) : ((s.rotate outcome).disk 0).getD [] = [] := by
  obtain ⟨hdisk, -, -⟩ := h.close hcloses
  have hkeep := (close_same s outcome.closes).1
  rw [JsonlExporter.rotate]
  dsimp only
  rw [hkeep, hdisk]
  obtain hempty | hworks := hroom
  · obtain hstays | hgoes := rotated_zero s.keep outcome s.content
    · rw [hstays, hempty]
    · rw [hgoes]
      rfl
  · have hsame (j : Nat) : s.content (j + 1) = s.disk (j + 1) := if_neg (Nat.succ_ne_zero j)
    have hworks' : Works s.keep s.content outcome := by
      simpa only [Works, hsame] using hworks
    rw [free_of_works hworks']
    rfl

def append (s : JsonlExporter) (data : QByteArray) : JsonlExporter := { s with buffer := s.buffer ++ data }

private theorem content_append {log data : QByteArray} (hlog : s.content 0 = some log) :
    (s.append data).content = putFile s.content 0 (some (log ++ data)) := by
  funext n
  rw [putFile, content]
  by_cases hn : n = 0
  · rw [if_pos hn, if_pos hn]
    rw [content, if_pos rfl, map_eq_some_iff] at hlog
    obtain ⟨written, hdisk, rfl⟩ := hlog
    simp only [append, hdisk, map_some, append_assoc]
  · rw [if_neg hn, if_neg hn, content, if_neg hn]
    rfl

private theorem write_shut (hshut : s.isOpen = false) (data : QByteArray) (outcome : WriteOutcome) : s.write data outcome = (s, false) := by
  rw [write, hshut]
  rfl

private theorem write_refused (hopen : s.isOpen = true) {outcome : WriteOutcome} (hrefused : outcome.taken = none) (data : QByteArray) :
    s.write data outcome = (s.spill outcome.spilled, false) := by
  rw [write, hopen, hrefused]
  rfl

private theorem write_all (hopen : s.isOpen = true) {outcome : WriteOutcome} {n : Nat} (htaken : outcome.taken = some n) {data : QByteArray}
    (hall : data.length ≤ n) : s.write data outcome = ((s.append data).spill outcome.spilled, true) := by
  have hopen' : ¬ (!s.isOpen) = true := by
    rw [hopen]
    decide
  rw [write, if_neg hopen', htaken]
  dsimp only
  rw [take_of_length_le hall]
  rfl

def WritesWhole (text : QByteArray) (outcome : EventOutcome) : Prop :=
  outcome.text.taken = none ∨
    outcome.text.taken.any (fun n => decide (text.length ≤ n)) = true ∧ outcome.newline.taken.any (fun n => decide (1 ≤ n)) = true
deriving Decidable

theorem Filed.writeLine (h : Filed s) {event : TraceEvent} {outcome : EventOutcome}
    (hwhole : s.isOpen = true → WritesWhole (line event) outcome)
    (hroom : 0 < s.maxBytes → outcome.text.taken.isSome = true → s.written = 0 ∨ s.written + (line event).length + 1 ≤ s.maxBytes) :
    Filed (s.writeLine line event outcome) := by
  cases hopen : s.isOpen with
  | false =>
    have hshut : s.writeLine line event outcome = s.drop := by
      rw [JsonlExporter.writeLine, write_shut hopen]
      rfl
    rw [hshut]
    exact h.drop
  | true =>
    obtain hrefused | ⟨htext, hnewline⟩ := hwhole hopen
    · have hdropped : s.writeLine line event outcome = (s.spill outcome.text.spilled).drop := by
        rw [JsonlExporter.writeLine, write_refused hopen hrefused]
        rfl
      rw [hdropped]
      exact (h.spill hopen _).drop
    obtain ⟨n, htext, hall⟩ := (any_eq_true _ _).mp htext
    obtain ⟨m, hnewline, hone⟩ := (any_eq_true _ _).mp hnewline
    rw [decide_eq_true_eq] at hall hone
    obtain ⟨log, hlog, hwritten⟩ := h.opened hopen
    have htext' : (s.append (line event)).content 0 = some (log ++ line event) := by
      rw [content_append hlog]
      rfl
    let texted := (s.append (line event)).spill outcome.text.spilled
    have hended : s.writeLine line event outcome =
        { (texted.append [lineFeed]).spill outcome.newline.spilled with
          written := s.written + (line event).length + 1
          exported := s.exported + 1
          log := s.log ++ [line event]
          failed := false } := by
      have hopen' : texted.isOpen = true := hopen
      rw [JsonlExporter.writeLine, write_all hopen htext hall]
      dsimp only
      have hone' : ([lineFeed] : QByteArray).length ≤ m := hone
      rw [write_all hopen' hnewline hone']
      rfl
    have hcontent : (s.writeLine line event outcome).content = putFile s.content 0 (some (log ++ (line event ++ [lineFeed]))) := by
      have hspilled : (s.writeLine line event outcome).content = (texted.append [lineFeed]).content := by
        rw [hended]
        exact content_spill _ _
      have htexted : texted.content 0 = some (log ++ line event) := by
        rw [content_spill, htext']
      rw [hspilled, content_append htexted, content_spill, content_append hlog]
      funext k
      rw [putFile, putFile, putFile, append_assoc]
      split
      · rfl
      · rfl
    obtain ⟨lost, lines, hgone, horder, hholds⟩ := h.accounted
    refine ⟨⟨lost, lines ++ [line event], ?_, ?_, ?_⟩, fun _ => ⟨log ++ (line event ++ [lineFeed]), ?_, ?_⟩, fun hshut => ?_, ?_⟩
    · rw [hended]
      exact hgone
    · rw [hended, ← append_assoc, horder]
    · have hlonger : Holds s.maxBytes s.keep (putFile s.content 0 (some ((s.content 0).getD [] ++ (line event ++ [lineFeed]))))
          (lines ++ [line event]) := hholds.append fun hmax => by
        rw [hlog, getD_some]
        refine (hroom hmax (by rw [htext]; rfl)).imp (fun hempty => ?_) fun hfits => ?_
        · rw [hwritten] at hempty
          exact length_eq_zero_iff.mp (Int.natCast_eq_zero.mp hempty)
        · rw [← hwritten]
          exact hfits
      rw [hlog, getD_some] at hlonger
      rw [hcontent, hended]
      exact hlonger
    · rw [hcontent]
      rfl
    · rw [hended]
      dsimp only
      rw [hwritten, length_append, length_append, length_singleton]
      push_cast
      omega
    · rw [hended] at hshut
      exact absurd (hopen.symm.trans hshut) (by decide)
    · rw [hended]
      exact h.bared

private theorem ensureOpen_shut (hshut : s.isOpen = false) (opens : Bool) :
    (s.ensureOpen opens).2 = opens ∧ (opens = true → (s.ensureOpen opens).1.written = ((s.disk 0).getD []).length) := by
  have hshut' : ¬ s.isOpen = true := by
    rw [hshut]
    decide
  rw [ensureOpen, if_neg hshut']
  cases opens with
  | false => exact ⟨rfl, nofun⟩
  | true => exact ⟨rfl, fun _ => rfl⟩

/-- What an event's calls may not do. A line is not cut short, and its end is written where it is. Where the log is full:
closing it writes what is in the buffer; after a failure that left the log missing or empty, no archived line is removed;
and for a line that is then written, the calls work that the rotation needs or the log was empty. -/
structure SoundOne (line : TraceEvent → QByteArray) (s : JsonlExporter) (given : TraceEvent × EventOutcome) : Prop where
  writes : (if s.overflows line given.1 then given.2.reopens else s.isOpen) = true → WritesWhole (line given.1) given.2
  closes : s.overflows line given.1 = true → s.isOpen = true → s.buffer.length ≤ given.2.rotation.closes
  bares : s.overflows line given.1 = true → s.failed = true → (s.content 0).getD [] = [] →
    s.keep = 0 ∨ (s.disk s.keep).getD [] = [] ∨ given.2.rotation.remove = false
  room : s.overflows line given.1 = true → given.2.reopens = true → given.2.text.taken.isSome = true →
    (s.content 0).getD [] = [] ∨ Works s.keep s.disk given.2.rotation

instance (line : TraceEvent → QByteArray) (s : JsonlExporter) (given : TraceEvent × EventOutcome) :
    Decidable (SoundOne line s given) :=
  decidable_of_iff (_ ∧ _ ∧ _ ∧ _) ⟨fun ⟨writes, closes, bares, room⟩ => ⟨writes, closes, bares, room⟩,
    fun ⟨writes, closes, bares, room⟩ => ⟨writes, closes, bares, room⟩⟩

theorem Filed.takeOne (h : Filed s) {given : TraceEvent × EventOutcome} (hsound : SoundOne line s given) :
    Filed (s.takeOne line given) := by
  have hcounted : Filed { s with taken := s.taken + 1 } := ⟨h.accounted, h.opened, h.shut, h.bared⟩
  have hover : ({ s with taken := s.taken + 1 } : JsonlExporter).overflows line given.1 = s.overflows line given.1 := rfl
  have hwrites := hsound.writes
  rw [JsonlExporter.takeOne]
  dsimp only
  rw [hover]
  cases hfull : s.overflows line given.1 with
  | false =>
    rw [hfull] at hwrites
    refine hcounted.writeLine hwrites fun hmax _ => .inr ?_
    have hfits : ¬ s.written + (line given.1).length + 1 > s.maxBytes := by
      rw [overflows, decide_eq_true hmax, Bool.true_and] at hfull
      exact of_decide_eq_false hfull
    exact Int.not_lt.mp hfits
  | true =>
    rw [hfull] at hwrites
    rw [if_pos rfl]
    have hrotated : Filed (({ s with taken := s.taken + 1 } : JsonlExporter).rotate given.2.rotation) :=
      hcounted.rotate (hsound.closes hfull) (hsound.bares hfull)
    have hopened := hrotated.ensureOpen given.2.reopens
    split
    · exact hopened.drop
    · next hreopened =>
      rw [Bool.not_eq_true, Bool.not_eq_false'] at hreopened
      have hshut : (({ s with taken := s.taken + 1 } : JsonlExporter).rotate given.2.rotation).isOpen = false :=
        (hcounted.close (hsound.closes hfull)).2.2
      obtain ⟨hresult, hcounts⟩ := ensureOpen_shut hshut given.2.reopens
      have hreopens : given.2.reopens = true := hresult.symm.trans hreopened
      refine hopened.writeLine (fun _ => hwrites hreopens) fun _ htaken => .inl ?_
      rw [hcounts hreopens, rotate_room hcounted (hsound.closes hfull) (hsound.room hfull hreopens htaken)]
      rfl

/-- Where the log opens, each event's calls are sound in turn and the flush at the end writes what is in the buffer. -/
def Sound (line : TraceEvent → QByteArray) (s : JsonlExporter) (taking : Taking) : Prop :=
  taking.events ≠ [] → (s.ensureOpen taking.opens).2 = true →
    Each (takeOne line) (SoundOne line) (s.ensureOpen taking.opens).1 taking.events ∧
      (run (takeOne line) (s.ensureOpen taking.opens).1 taking.events).buffer.length ≤ taking.flushes
deriving Decidable

theorem Filed.take (h : Filed s) (hbuffer : s.buffer = []) {taking : Taking} (hsound : Sound line s taking) :
    Filed (s.take line taking) ∧ (s.take line taking).buffer = [] := by
  rw [JsonlExporter.take]
  cases hevents : taking.events with
  | nil => exact ⟨h, hbuffer⟩
  | cons given rest =>
    rw [← hevents]
    have hsome : taking.events ≠ [] := by
      rw [hevents]
      exact cons_ne_nil _ _
    have hopened := h.ensureOpen taking.opens
    rw [if_neg (by rw [List.isEmpty_iff]; exact hsome)]
    dsimp only
    cases hresult : (s.ensureOpen taking.opens).2 with
    | false =>
      have hsame : (s.ensureOpen taking.opens).1.buffer = s.buffer := by
        rw [JsonlExporter.ensureOpen]
        split
        · rfl
        · split
          · rfl
          · rfl
      exact ⟨⟨hopened.accounted, hopened.opened, hopened.shut, hopened.bared⟩, hsame.trans hbuffer⟩
    | true =>
      obtain ⟨heach, hflushes⟩ := hsound hsome hresult
      have hwritten : Filed (run (JsonlExporter.takeOne line) (s.ensureOpen taking.opens).1 taking.events) :=
        heach.invariant Filed (fun _ _ hfiled hone => hfiled.takeOne hone) hopened
      refine ⟨hwritten.flush taking.flushes, ?_⟩
      rw [Bool.not_true, if_neg Bool.false_ne_true, JsonlExporter.flush]
      split
      · exact drop_eq_nil_of_le hflushes
      · next hshut =>
        rw [Bool.not_eq_true] at hshut
        exact hwritten.shut hshut

/-- Every event is counted once and every line written is one exported; no archive is past the last. -/
structure Counted (earlier : List QByteArray) (s : JsonlExporter) : Prop where
  all : s.exported + s.dropped = s.taken
  reached : s.log.length = earlier.length + s.exported
  archives : ∀ n, s.keep < n → s.disk n = none

/-- Between two events only the files change, and none past the last archive. -/
structure Quiet (s s' : JsonlExporter) : Prop where
  keep : s'.keep = s.keep
  exported : s'.exported = s.exported
  dropped : s'.dropped = s.dropped
  taken : s'.taken = s.taken
  log : s'.log = s.log
  archives : ∀ n, s.keep < n → s'.disk n = s.disk n

theorem Quiet.refl (s : JsonlExporter) : Quiet s s := ⟨rfl, rfl, rfl, rfl, rfl, fun _ _ => rfl⟩

theorem Quiet.trans {s s' s'' : JsonlExporter} (h : Quiet s s') (h' : Quiet s' s'') : Quiet s s'' :=
  ⟨h'.keep.trans h.keep, h'.exported.trans h.exported, h'.dropped.trans h.dropped, h'.taken.trans h.taken, h'.log.trans h.log,
    fun n hn => (h'.archives n (h.keep ▸ hn)).trans (h.archives n hn)⟩

section
variable (s : JsonlExporter)

private theorem quiet_spill (n : Nat) : Quiet s (s.spill n) :=
  ⟨rfl, rfl, rfl, rfl, rfl, fun _ hm => if_neg (Nat.ne_of_gt (Nat.zero_lt_of_lt hm))⟩

private theorem quiet_flush (n : Nat) : Quiet s (s.flush n) := by
  rw [flush]
  split
  · exact quiet_spill s n
  · exact Quiet.refl s

private theorem quiet_ensureOpen (opens : Bool) : Quiet s (s.ensureOpen opens).1 := by
  rw [ensureOpen]
  split
  · exact Quiet.refl s
  · split
    · exact ⟨rfl, rfl, rfl, rfl, rfl, fun _ hm => if_neg (Nat.ne_of_gt (Nat.zero_lt_of_lt hm))⟩
    · exact Quiet.refl s

private theorem quiet_rotate (outcome : RotationOutcome) : Quiet s (s.rotate outcome) := by
  have hclosed : Quiet s (s.close outcome.closes) := by
    rw [close]
    split
    · have hspilled := quiet_spill s outcome.closes
      exact ⟨hspilled.keep, hspilled.exported, hspilled.dropped, hspilled.taken, hspilled.log, hspilled.archives⟩
    · exact Quiet.refl s
  refine hclosed.trans ⟨rfl, rfl, rfl, rfl, rfl, fun n hn => ?_⟩
  rw [rotate]
  exact rotated_above hn outcome _

private theorem quiet_write (data : QByteArray) (outcome : WriteOutcome) : Quiet s (s.write data outcome).1 := by
  rw [write]
  split
  · exact Quiet.refl s
  · split
    · exact quiet_spill s outcome.spilled
    · next n _ =>
      have hspilled := quiet_spill { s with buffer := s.buffer ++ data.take n } outcome.spilled
      exact ⟨hspilled.keep, hspilled.exported, hspilled.dropped, hspilled.taken, hspilled.log, hspilled.archives⟩

private theorem writeLine_cases (event : TraceEvent) (outcome : EventOutcome) :
    ∃ s', Quiet s s' ∧ (s.writeLine line event outcome = s'.drop ∨ ∃ written,
      s.writeLine line event outcome =
        { s' with written := written, exported := s'.exported + 1, log := s'.log ++ [line event], failed := false }) := by
  rw [writeLine]
  dsimp only
  have htext := quiet_write s (line event) outcome.text
  split
  · exact ⟨_, htext, .inl rfl⟩
  · have hended := htext.trans (quiet_write (s.write (line event) outcome.text).1 [lineFeed] outcome.newline)
    split
    · exact ⟨_, hended, .inl rfl⟩
    · exact ⟨_, hended, .inr ⟨_, rfl⟩⟩

end

variable {earlier : List QByteArray}

section
variable {start : JsonlExporter} (h : Counted earlier start)
include h

/-- One more event that the files leave alone is dropped. -/
theorem Counted.drop (hquiet : Quiet { start with taken := start.taken + 1 } s) :
    Counted earlier s.drop := by
  have hexported : s.exported = start.exported := hquiet.exported
  have hdropped : s.dropped = start.dropped := hquiet.dropped
  have htaken : s.taken = start.taken + 1 := hquiet.taken
  have hlog : s.log = start.log := hquiet.log
  refine ⟨?_, ?_, fun n hn => ?_⟩
  · have hall := h.all
    rw [JsonlExporter.drop]
    dsimp only
    omega
  · have hreached := h.reached
    rw [JsonlExporter.drop]
    dsimp only
    rw [hlog, hexported]
    exact hreached
  · exact (hquiet.archives n (hquiet.keep ▸ hn)).trans (h.archives n (hquiet.keep ▸ hn))

theorem Counted.writeLine (hquiet : Quiet { start with taken := start.taken + 1 } s)
    (event : TraceEvent) (outcome : EventOutcome) : Counted earlier (s.writeLine line event outcome) := by
  obtain ⟨s', hquiet', hcase⟩ := writeLine_cases s event outcome
  have hsame := hquiet.trans hquiet'
  obtain hdropped | ⟨written, hwritten⟩ := hcase
  · rw [hdropped]
    exact h.drop hsame
  have hexported : s'.exported = start.exported := hsame.exported
  have hdropped : s'.dropped = start.dropped := hsame.dropped
  have htaken : s'.taken = start.taken + 1 := hsame.taken
  have hlog : s'.log = start.log := hsame.log
  rw [hwritten]
  refine ⟨?_, ?_, fun n hn => ?_⟩
  · have hall := h.all
    dsimp only
    omega
  · have hreached := h.reached
    dsimp only
    rw [hlog, length_append, length_singleton]
    omega
  · exact (hsame.archives n (hsame.keep ▸ hn)).trans (h.archives n (hsame.keep ▸ hn))

end

theorem Counted.takeOne (h : Counted earlier s) (given : TraceEvent × EventOutcome) : Counted earlier (s.takeOne line given) := by
  rw [JsonlExporter.takeOne]
  dsimp only
  split
  · have hquiet := (quiet_rotate { s with taken := s.taken + 1 } given.2.rotation).trans (quiet_ensureOpen _ given.2.reopens)
    split
    · exact h.drop hquiet
    · exact h.writeLine hquiet given.1 given.2
  · exact h.writeLine (Quiet.refl _) given.1 given.2

theorem Counted.take (h : Counted earlier s) (taking : Taking) : Counted earlier (s.take line taking) := by
  rw [JsonlExporter.take]
  split
  · exact h
  have hquiet := quiet_ensureOpen s taking.opens
  have hopened : Counted earlier (s.ensureOpen taking.opens).1 := by
    refine ⟨?_, ?_, fun n hn => (hquiet.archives n (hquiet.keep ▸ hn)).trans (h.archives n (hquiet.keep ▸ hn))⟩
    · rw [hquiet.exported, hquiet.dropped, hquiet.taken]
      exact h.all
    · rw [hquiet.log, hquiet.exported]
      exact h.reached
  dsimp only
  split
  · have hall := hopened.all
    exact ⟨by dsimp only; omega, hopened.reached, hopened.archives⟩
  · have hwritten : Counted earlier (run (JsonlExporter.takeOne line) (s.ensureOpen taking.opens).1 taking.events) :=
      run_invariant (Counted earlier) (fun _ given hcounted => hcounted.takeOne given) hopened taking.events
    have hflushed := quiet_flush (run (JsonlExporter.takeOne line) (s.ensureOpen taking.opens).1 taking.events) taking.flushes
    change Counted earlier ((run (JsonlExporter.takeOne line) (s.ensureOpen taking.opens).1 taking.events).flush taking.flushes)
    refine ⟨?_, ?_, fun n hn => (hflushed.archives n (hflushed.keep ▸ hn)).trans (hwritten.archives n (hflushed.keep ▸ hn))⟩
    · rw [hflushed.exported, hflushed.dropped, hflushed.taken]
      exact hwritten.all
    · rw [hflushed.log, hflushed.exported]
      exact hwritten.reached

/-- The record at rest: the files hold the lines written after those removed with a file, whole and in order, each file
within the size or a single line; every event is counted once; and no failure to open or write removed an archived line. -/
structure Recorded (earlier : List QByteArray) (s : JsonlExporter) : Prop where
  record : ∃ lost lines, s.gone = unlines lost ∧ lost ++ lines = s.log ∧ Holds s.maxBytes s.keep s.disk lines
  counted : Counted earlier s
  bared : s.bared = false

/-- The record is whole after every run of sound takes that started from a whole one. -/
theorem record_whole (line : TraceEvent → QByteArray) (maxBytes : Int) (keep : Nat) (disk : Nat → Option QByteArray)
    (earlier : List QByteArray) (gone : QByteArray) (hleft : Recorded earlier (make maxBytes keep disk earlier gone))
    (takings : List Taking) (hsound : Each (take line) (Sound line) (make maxBytes keep disk earlier gone) takings) :
    Recorded earlier (run (take line) (make maxBytes keep disk earlier gone) takings) := by
  have hstart : Filed (make maxBytes keep disk earlier gone) ∧ (make maxBytes keep disk earlier gone).buffer = [] := by
    refine ⟨⟨?_, nofun, fun _ => rfl, rfl⟩, rfl⟩
    obtain ⟨lost, lines, hgone, horder, hholds⟩ := hleft.record
    exact ⟨lost, lines, hgone, horder, by rw [content_of_buffer rfl]; exact hholds⟩
  obtain ⟨hfiled, hbuffer⟩ := hsound.invariant (fun s => Filed s ∧ s.buffer = [])
    (fun _ _ hs hone => hs.1.take hs.2 hone) hstart
  refine ⟨?_, ?_, hfiled.bared⟩
  · obtain ⟨lost, lines, hgone, horder, hholds⟩ := hfiled.accounted
    rw [content_of_buffer hbuffer] at hholds
    exact ⟨lost, lines, hgone, horder, hholds⟩
  · exact run_invariant (Counted earlier) (fun _ taking hcounted => hcounted.take taking) hleft.counted takings

def upLine : QByteArray :=
  "\x7b\"category\":\"lifecycle\",\"entity\":\"\",\"message\":\"up\",\"ok\":true,\"severity\":\"info\",\"ts\":1\x7d".toList.map
    fun c => UInt8.ofNat c.toNat

def up : TraceEvent := { timestampMs := 1, message := "up" }

def allWorks : EventOutcome := { rotation := { closes := 200 }, text := { taken := some 200 }, newline := { taken := some 1 } }

/-- A log of one line, and one archive with another. -/
def twoFiles (n : Nat) : Option QByteArray := if n ≤ 1 then some (unlines [upLine]) else none

private theorem recorded_twoFiles : Recorded [upLine, upLine] (make 100 1 twoFiles [upLine, upLine] []) := by
  refine ⟨⟨[], [upLine, upLine], rfl, rfl, fun _ => [upLine], rfl, fun n hn => ⟨?_, fun _ => .inr rfl⟩⟩, ⟨rfl, rfl, fun n hn => ?_⟩, rfl⟩
  · exact congrArg (Option.getD · []) (if_pos hn)
  · exact if_neg (Nat.not_le.mpr hn)

/-- The second of three lines is refused, and the file that is full meanwhile is rotated twice. -/
def twoTakes : List Taking :=
  [{ events := [(up, allWorks), (up, { allWorks with text := { taken := none } })], flushes := 200 },
    { events := [(up, allWorks)], flushes := 200 }]

theorem record_whole_twoTakes :
    Recorded [upLine, upLine] (run (take fun _ => upLine) (make 100 1 twoFiles [upLine, upLine] []) twoTakes) :=
  record_whole (fun _ => upLine) 100 1 twoFiles [upLine, upLine] [] recorded_twoFiles twoTakes (by decide +kernel)

/-- The log does not open again after the first rotation, and the second removes the archive. -/
theorem archive_bared :
    Recorded [upLine, upLine] (make 100 1 twoFiles [upLine, upLine] []) ∧
      ¬ Recorded [upLine, upLine] (run (take fun _ => upLine) (make 100 1 twoFiles [upLine, upLine] [])
        [{ events := [(up, { allWorks with reopens := false }), (up, allWorks)], flushes := 200 }]) := by
  refine ⟨recorded_twoFiles, fun hrecorded => ?_⟩
  have hbared : (run (take fun _ => upLine) (make 100 1 twoFiles [upLine, upLine] [])
      [{ events := [(up, { allWorks with reopens := false }), (up, allWorks)], flushes := 200 }]).bared = true := by
    decide +kernel
  exact absurd (hbared.symm.trans hrecorded.bared) (by decide)

end JsonlExporter
end SynQt
