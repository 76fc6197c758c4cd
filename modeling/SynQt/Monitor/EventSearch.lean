import SynQt.Lib.TextSearch
import SynQt.Monitor.OtlpExporter
import SynQt.Monitor.StoreRun
import SynQt.Providers.RedisCacheProvider

/-! What an operator's search is answered with: the newest events of the store that fit, by the full-text index
or, where there is none, by a pattern. -/
namespace SynQt
open Lib List

structure EventQuery where
  entities : List QString := []
  categories : List Category := []
  minimumSeverity : Severity := .trace
  fromMs : Int := 0
  toMs : Int := 0
  traceId : QString := ""
  search : QString := ""
  limit : Int := 200

def EventQuery.maxRows : Nat := 2000

def Severity.all : List Severity := [.trace, .debug, .info, .warning, .error, .fatal]

def Severity.ofInt (n : Nat) : Severity := Severity.all.getD n .trace

def severityFromName (name : QString) : Option Severity := Severity.all.find? fun severity => severityName severity == name

def Category.ofInt (n : Nat) : Category :=
  [Category.lifecycle, .transport, .authorization, .call, .data, .application].getD n .lifecycle

namespace EventStore
variable (fts : Fts5) (attributesFromJson : QString → QVariantMap)

/-- A row read back; `attributesFromJson` is the JSON reader. -/
def eventOf (row : EventRow) : TraceEvent where
  timestampMs := row.ts
  severity := .ofInt row.severity
  category := .ofInt row.category
  entity := row.entity
  traceId := row.traceId
  spanId := row.spanId
  parentSpanId := row.parentSpanId
  durationUs := row.durationUs
  ok := row.ok != 0
  untrusted := row.untrusted != 0
  message := row.message
  attributes := attributesFromJson row.attributes

/-- The conditions of a question besides its search. -/
def fits (request : EventQuery) (row : EventRow) : Bool :=
  (request.entities.isEmpty || request.entities.contains row.entity) &&
    (request.categories.isEmpty || (request.categories.map Category.toInt).contains row.category) &&
    (request.minimumSeverity == .trace || decide (request.minimumSeverity.toInt ≤ row.severity)) &&
    (!decide (request.fromMs > 0) || decide (request.fromMs ≤ row.ts)) &&
    (!decide (request.toMs > 0) || decide (row.ts ≤ request.toMs)) &&
    (request.traceId.isEmpty || row.traceId == request.traceId)

/-- `message LIKE ? OR attributes LIKE ?`. -/
def likeSearch (search : QString) (row : EventRow) : Bool :=
  let pattern := '%' :: (search.toList ++ ['%'])
  like pattern row.message.toList || like pattern row.attributes.toList

/-- `id IN (SELECT rowid FROM events_fts WHERE events_fts MATCH ?)`, which fails for a malformed query. -/
def matchSearch (search : QString) (table : List FtsRow) : Option (EventRow → Bool) :=
  (fts.parse search.toList).map fun selects row =>
    (table.filter fun f => selects (fts.tokens f.message.toList) (fts.tokens f.attributes.toList)).any (·.rowid == row.id)

def searches (hasFts : Bool) (search : QString) (t : Tables) : Option (EventRow → Bool) :=
  if search.isEmpty then some fun _ => true
  else if hasFts then matchSearch fts search t.fts
  else some (likeSearch search)

/-- `ORDER BY ts DESC, id DESC`. -/
def newestFirst (rows : List EventRow) : List EventRow := rows.insertionSort fun r r' => earlier r r' = false

def query (s : EventStore) (request : EventQuery) : List TraceEvent :=
  if !s.isOpen then []
  else
    match searches fts s.hasFts request.search s.db.view with
    | none => []
    | some selects =>
      let rows := s.db.view.events.filter fun row => fits request row && selects row
      let limit := (max 1 (min request.limit EventQuery.maxRows)).toNat
      ((newestFirst rows).take limit).map (eventOf attributesFromJson)

end EventStore

namespace MonitorService
variable (fts : Fts5) (attributesFromJson : QString → QVariantMap)

def trimmed (text : QString) : QString := String.ofList (trim isSpaceChar text.toList)

/-- What a console's question comes to. A word that is no severity asks for everything. -/
def request (text entity minimumSeverity : QString) (limit : Int) : EventQuery where
  search := trimmed text
  entities := if (trimmed entity).isEmpty then [] else [trimmed entity]
  minimumSeverity := (severityFromName minimumSeverity).getD .trace
  limit := if limit > 0 then limit else 200

def ask (store : Option EventStore) (text entity minimumSeverity : QString) (limit : Int) : List TraceEvent :=
  match store with
  | none => []
  | some store => store.query fts attributesFromJson (request text entity minimumSeverity limit)

end MonitorService

namespace EventStore
variable {fts : Fts5} {attributesFromJson : QString → QVariantMap} {s : EventStore} {request : EventQuery}

/-- The text is in the message or in the attributes as they are stored. -/
def Contains (text : QString) (row : EventRow) : Prop :=
  text.toList <:+: row.message.toList ∨ text.toList <:+: row.attributes.toList

/-- An answer: events newest first, each of them wanted, and no wanted one left out but for the limit, which keeps
the newest. -/
structure Answers (wants : EventRow → Prop) (limit : Nat) (rows answer : List EventRow) : Prop where
  ordered : answer.Pairwise fun r r' => earlier r' r = true
  wanted : ∀ r ∈ answer, r ∈ rows ∧ wants r
  bounded : answer.length ≤ limit
  complete : ∀ r ∈ rows, wants r → r ∈ answer ∨ answer.length = limit ∧ ∀ a ∈ answer, earlier r a = true

def rowLimit (request : EventQuery) : Nat := (max 1 (min request.limit EventQuery.maxRows)).toNat

/-- What an operator is shown is the newest events that fit and contain the text; and a text that the index cannot
parse is not answered with nothing. -/
def Exact (fts : Fts5) (attributesFromJson : QString → QVariantMap) (request : EventQuery) (s : EventStore) (shown : List TraceEvent) : Prop :=
  (∃ answer, shown = answer.map (eventOf attributesFromJson) ∧
    Answers (fun row => fits request row = true ∧ Contains request.search row) (rowLimit request) s.db.view.events answer) ∧
  (s.hasFts = true → request.search.isEmpty = false → fts.parse request.search.toList = none → shown ≠ [])

/-- A search that is the same with an index, or by a pattern: there is no text, or there is no index and no character
of the text stands for others. -/
def Plain (hasFts : Bool) (search : QString) : Prop :=
  search.isEmpty = true ∨ hasFts = false ∧ ∀ c ∈ search.toList, isLoose c = false

private theorem earlier_false_iff (r r' : EventRow) : earlier r r' = false ↔ r'.ts < r.ts ∨ r'.ts = r.ts ∧ r'.id ≤ r.id := by
  rw [← Bool.not_eq_true, earlier_iff]
  omega

private theorem newestFirst_sorted (rows : List EventRow) : (newestFirst rows).Pairwise fun r r' => earlier r r' = false := by
  have htotal : Std.Total fun r r' : EventRow => earlier r r' = false := ⟨fun r r' => by
    rw [earlier_false_iff, earlier_false_iff]
    omega⟩
  have htrans : IsTrans EventRow fun r r' => earlier r r' = false := ⟨fun r r' r'' h h' => by
    rw [earlier_false_iff] at h h' ⊢
    omega⟩
  exact pairwise_insertionSort _ rows

private theorem newestFirst_perm (rows : List EventRow) : (newestFirst rows).Perm rows := perm_insertionSort _ rows

private theorem answers_take {rows : List EventRow} (hids : (rows.map (·.id)).Nodup) (p : EventRow → Bool) (limit : Nat) :
    Answers (fun row => p row = true) limit rows ((newestFirst (rows.filter p)).take limit) := by
  have hperm := newestFirst_perm (rows.filter p)
  have hids' : ((newestFirst (rows.filter p)).map (·.id)).Nodup :=
    (hperm.map _).nodup_iff.mpr (hids.sublist (filter_sublist.map _))
  have hstrict : (newestFirst (rows.filter p)).Pairwise fun r r' => earlier r' r = true := by
    refine ((newestFirst_sorted _).and (pairwise_map.mp hids')).imp ?_
    rintro r r' ⟨hnot, hne⟩
    rw [earlier_false_iff] at hnot
    rw [earlier_iff]
    omega
  have hmem {r : EventRow} : r ∈ newestFirst (rows.filter p) ↔ r ∈ rows ∧ p r = true := by
    rw [hperm.mem_iff, mem_filter]
  refine ⟨hstrict.sublist (take_sublist _ _), fun r hr => hmem.mp (mem_of_mem_take hr), length_take_le _ _,
    fun r hr hp => ?_⟩
  have hin := hmem.mpr ⟨hr, hp⟩
  rw [← take_append_drop limit (newestFirst (rows.filter p))] at hin hstrict
  refine (mem_append.mp hin).imp_right fun hdrop => ⟨?_, fun a ha => ?_⟩
  · rw [length_take, Nat.min_eq_left]
    by_contra hlt
    rw [drop_eq_nil_of_le (by omega)] at hdrop
    cases hdrop
  · exact (pairwise_append.mp hstrict).2.2 a ha r hdrop

variable {search : QString}

private theorem likeSearch_iff (hsearch : ∀ c ∈ search.toList, isLoose c = false) (row : EventRow) :
    likeSearch search row = true ↔ Contains search row := by
  have hlike (text : List Char) : like ('%' :: (search.toList ++ ['%'])) text = true ↔ search.toList <:+: text := by
    rw [like_between]
    simp only [like_iff_of_strict hsearch, exists_eq_right]
  rw [likeSearch, Bool.or_eq_true, hlike, hlike, Contains]

private theorem contains_of_isEmpty (hsearch : search.isEmpty = true) (row : EventRow) : Contains search row := by
  rw [String.isEmpty_iff.mp hsearch]
  exact .inl nil_infix

private theorem exact_of_plain (hready : Ready s) (hplain : Plain s.hasFts request.search) :
    Exact fts attributesFromJson request s (s.query fts attributesFromJson request) := by
  obtain ⟨selects, hsearches, hselects⟩ : ∃ selects, searches fts s.hasFts request.search s.db.view = some selects ∧
      ∀ row, selects row = true ↔ Contains request.search row := by
    rw [searches]
    by_cases hempty : request.search.isEmpty = true
    · rw [if_pos hempty]
      exact ⟨_, rfl, fun row => iff_of_true rfl (contains_of_isEmpty hempty row)⟩
    · obtain ⟨hfts, hstrict⟩ := hplain.resolve_left hempty
      rw [if_neg hempty, hfts, if_neg Bool.false_ne_true]
      exact ⟨_, rfl, likeSearch_iff hstrict⟩
  have hwants (row : EventRow) : (fits request row && selects row) = true ↔ fits request row = true ∧ Contains request.search row := by
    rw [Bool.and_eq_true, hselects]
  refine ⟨⟨(newestFirst (s.db.view.events.filter fun row => fits request row && selects row)).take (rowLimit request), ?_, ?_⟩,
    fun hfts hsome => ?_⟩
  · rw [query, hready.isOpen, hsearches]
    rfl
  · have hids : (s.db.view.events.map (·.id)).Nodup := by
      rw [hready.view_eq]
      exact hready.sane.ids
    have hanswers := answers_take hids (fun row => fits request row && selects row) (rowLimit request)
    simp only [hwants] at hanswers
    exact hanswers
  · obtain hempty | ⟨hnone, -⟩ := hplain
    · exact nomatch hsome.symm.trans hempty
    · exact nomatch hfts.symm.trans hnone

def holding (hasFts : Bool) (row : EventRow) : EventStore where
  db := ⟨⟨[row], if hasFts then [ftsOf row] else []⟩, none⟩
  hasFts := hasFts

private theorem ready_holding (hasFts : Bool) (row : EventRow) : Ready (holding hasFts row) where
  isOpen := rfl
  idle := rfl
  sane := ⟨nodup_singleton _, by cases hasFts <;> rfl⟩

private theorem rowLimit_pos (request : EventQuery) : 0 < rowLimit request := by
  rw [rowLimit]
  omega

private theorem query_holding {hasFts : Bool} {row : EventRow} (hfits : fits request row = true) :
    (holding hasFts row).query fts attributesFromJson request =
      match searches fts hasFts request.search (holding hasFts row).db.view with
      | none => []
      | some selects => if selects row then [eventOf attributesFromJson row] else [] := by
  rw [query]
  simp only [holding, Bool.not_true, Bool.false_eq_true, if_false, Connection.view_idle]
  cases searches fts hasFts request.search ⟨[row], if hasFts then [ftsOf row] else []⟩ with
  | none => rfl
  | some selects =>
    obtain ⟨limit, hlimit⟩ := Nat.exists_eq_succ_of_ne_zero (Nat.ne_of_gt (rowLimit_pos request))
    rw [rowLimit] at hlimit
    simp only [hlimit, filter_singleton, hfits, Bool.true_and]
    cases selects row with
    | false => rfl
    | true => simp only [cond_true, newestFirst, insertionSort_cons, insertionSort_nil, orderedInsert_nil,
        take_succ_cons, take_nil, map_singleton, if_true]

private theorem not_exact_holding {hasFts : Bool} {row : EventRow} (hfits : fits request row = true)
    (hmistaken : ∀ selects, searches fts hasFts request.search (holding hasFts row).db.view = some selects →
      ¬ (selects row = true ↔ Contains request.search row))
    (hrefused : searches fts hasFts request.search (holding hasFts row).db.view = none → Contains request.search row) :
    ¬ Exact fts attributesFromJson request (holding hasFts row)
      ((holding hasFts row).query fts attributesFromJson request) := by
  rintro ⟨⟨answer, hshown, hanswers⟩, -⟩
  have hleft (hcontains : Contains request.search row) : answer ≠ [] := by
    rintro rfl
    obtain hin | ⟨hlength, -⟩ := hanswers.complete row (mem_singleton.mpr rfl) ⟨hfits, hcontains⟩
    · cases hin
    · exact absurd hlength (Nat.ne_of_lt (rowLimit_pos request))
  rw [query_holding hfits] at hshown
  cases hsearches : searches fts hasFts request.search (holding hasFts row).db.view with
  | none =>
    rw [hsearches] at hshown
    exact hleft (hrefused hsearches) (map_eq_nil_iff.mp hshown.symm)
  | some selects =>
    rw [hsearches] at hshown
    dsimp only at hshown
    refine hmistaken selects hsearches ⟨fun hselects => ?_, fun hcontains => ?_⟩
    · rw [if_pos hselects] at hshown
      obtain ⟨r, hr⟩ := exists_mem_of_ne_nil answer (by
        rintro rfl
        cases hshown)
      obtain ⟨hin, -, hcontains⟩ := hanswers.wanted r hr
      rwa [mem_singleton.mp hin] at hcontains
    · by_contra hnot
      rw [if_neg hnot] at hshown
      exact hleft hcontains (map_eq_nil_iff.mp hshown.symm)

/-- An event of one message, which everything but a search lets through. -/
def told (request : EventQuery) (message : List Char) : EventRow :=
  rowOf (fun _ => "") 1 { entity := request.entities.headD "", severity := .fatal, message := String.ofList message }

private theorem contains_told (request : EventQuery) (hsearch : search.isEmpty = false) (message : List Char) :
    Contains search (told request message) ↔ search.toList <:+: message := by
  have hnot : ¬ search.toList <:+: [] := by
    rw [infix_nil, ← String.toList_empty, String.toList_inj]
    rintro rfl
    cases hsearch
  rw [Contains, told, rowOf]
  simp only [String.toList_ofList]
  exact or_iff_left hnot

private theorem fits_told (request : EventQuery) (hcategories : request.categories = []) (hfrom : request.fromMs = 0) (hto : request.toMs = 0)
    (htrace : request.traceId = "") (message : List Char) : fits request (told request message) = true := by
  have hentities : (request.entities.isEmpty || request.entities.contains (request.entities.headD "")) = true := by
    cases request.entities with
    | nil => rfl
    | cons entity entities => simp
  have hseverity : (request.minimumSeverity == .trace || decide (request.minimumSeverity.toInt ≤ Severity.fatal.toInt)) = true := by
    cases request.minimumSeverity <;> rfl
  simp only [fits, told, rowOf, hcategories, hfrom, hto, htrace, hentities, hseverity]
  rfl

theorem exists_not_exact {hasFts : Bool} (hplain : ¬ Plain hasFts request.search) (hcategories : request.categories = [])
    (hfrom : request.fromMs = 0) (hto : request.toMs = 0) (htrace : request.traceId = "") :
    ∃ s, Ready s ∧ s.hasFts = hasFts ∧
      ¬ Exact fts attributesFromJson request s (s.query fts attributesFromJson request) := by
  have hfits := fits_told request hcategories hfrom hto htrace
  have hsearch : request.search.isEmpty = false := Bool.eq_false_iff.mpr fun h => hplain (.inl h)
  have hne : request.search.toList ≠ [] := by
    rw [Ne, ← String.toList_empty, String.toList_inj]
    rintro hempty
    rw [hempty] at hsearch
    cases hsearch
  obtain ⟨message, hmistaken, hrefused⟩ : ∃ message,
      (∀ selects, searches fts hasFts request.search (holding hasFts (told request message)).db.view = some selects →
        ¬ (selects (told request message) = true ↔ request.search.toList <:+: message)) ∧
      (searches fts hasFts request.search (holding hasFts (told request message)).db.view = none →
        request.search.toList <:+: message) := by
    have hsearches (message : List Char) : searches fts hasFts request.search (holding hasFts (told request message)).db.view =
        if hasFts then matchSearch fts request.search (holding hasFts (told request message)).db.view.fts
        else some (likeSearch request.search) := by
      rw [searches, hsearch, if_neg Bool.false_ne_true]
    simp only [hsearches]
    cases hasFts with
    | false =>
      have hloose : ∃ c ∈ request.search.toList, isLoose c = true := by
        by_contra hnone
        exact hplain (.inr ⟨rfl, fun c hc => Bool.eq_false_iff.mpr fun h => hnone ⟨c, hc, h⟩⟩)
      obtain ⟨message, hlike, hnot⟩ := exists_loose hloose
      refine ⟨message, fun selects hselects hiff => hnot (hiff.mp ?_), fun h => by cases h⟩
      rw [← Option.some.inj hselects, likeSearch, told, rowOf]
      simp only [String.toList_ofList, hlike, Bool.true_or]
    | true =>
      simp only [if_true, matchSearch]
      cases hparse : fts.parse request.search.toList with
      | none => exact ⟨request.search.toList, (fun _ h => by cases h), fun _ => infix_rfl⟩
      | some selects =>
        obtain ⟨message, hmistaken⟩ := Fts5.exists_mistaken hne hparse
        refine ⟨message, fun selected hselected => ?_, fun h => by cases h⟩
        rw [← Option.some.inj hselected]
        have hrow : (holding true (told request message)).db.view.fts = [⟨1, String.ofList message, ""⟩] := rfl
        simp only [hrow, filter_singleton, String.toList_ofList, String.toList_empty, Fts5.tokens_nil]
        cases hselects : selects (fts.tokens message) [] with
        | false => simpa [hselects] using hmistaken
        | true => simpa [hselects, told, rowOf] using hmistaken
  refine ⟨holding hasFts (told request message), ready_holding hasFts _, rfl, not_exact_holding (hfits message) ?_ ?_⟩
  · simpa only [contains_told request hsearch] using hmistaken
  · simpa only [contains_told request hsearch] using hrefused

end EventStore

namespace MonitorService
open EventStore

/-- What an operator asks is answered exactly over every store, with the index or without it, when the text is plain
once its blanks are taken off, and then only. -/
theorem ask_exact_iff (fts : Fts5) (attributesFromJson : QString → QVariantMap) (hasFts : Bool) (text entity minimumSeverity : QString)
    (limit : Int) :
    (∀ s : EventStore, Ready s → s.hasFts = hasFts →
      Exact fts attributesFromJson (request text entity minimumSeverity limit) s
        (ask fts attributesFromJson (some s) text entity minimumSeverity limit)) ↔
      Plain hasFts (trimmed text) := by
  constructor
  · intro hexact
    by_contra hplain
    have hplain' : ¬ Plain hasFts (request text entity minimumSeverity limit).search := hplain
    obtain ⟨s, hready, hfts, hnot⟩ : ∃ s, Ready s ∧ s.hasFts = hasFts ∧
        ¬ Exact fts attributesFromJson (request text entity minimumSeverity limit) s
          (s.query fts attributesFromJson (request text entity minimumSeverity limit)) :=
      exists_not_exact hplain' rfl rfl rfl rfl
    exact hnot (hexact s hready hfts)
  · rintro hplain s hready rfl
    exact exact_of_plain hready hplain

/-- FTS5 over ASCII, as far as queries of one bareword. -/
def ascii : Fts5 where
  isToken := Char.isAlphanum
  fold c := [c.toLower]
  parse query :=
    haveI : Decidable (∀ c ∈ query, c.isAlphanum = true ∨ 128 ≤ c.toNat) := List.decidableBAll _ query
    if query ≠ [] ∧ (∀ c ∈ query, c.isAlphanum = true ∨ 128 ≤ c.toNat) ∧ query ∉ ["AND".toList, "OR".toList, "NOT".toList] then
      some fun first second => first.contains (query.flatMap fun c => [c.toLower]) || second.contains (query.flatMap fun c => [c.toLower])
    else none
  ascii _ _ := rfl
  folded _ _ := rfl
  bareword word hne hbare _ hoperator := by
    rw [if_pos ⟨hne, hbare, hoperator⟩]
    exact ⟨_, rfl, fun first second => by rw [Bool.or_eq_true, contains_iff_mem, contains_iff_mem]⟩

/-- A time is looked for while there is an event that tells it: the colon is no part of a query. -/
theorem ask_time_refused : ¬ Exact ascii (fun _ => []) (request "10:42" "" "" 0)
    (holding true (rowOf (fun _ => "") 1 { message := "refused at 10:42" }))
    (ask ascii (fun _ => []) (some (holding true (rowOf (fun _ => "") 1 { message := "refused at 10:42" }))) "10:42" "" "" 0) := by
  rintro ⟨-, hnever⟩
  exact hnever (by decide +kernel) (by decide +kernel) (by decide +kernel) (by decide +kernel)

end MonitorService
end SynQt
