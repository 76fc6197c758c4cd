import SynQt.Edge.PageAgreement

/-! The edge's pages while their files change: what the watcher reports, the reads that follow, and the
watch put back around them. Files may change between any two steps of the edge. -/
namespace SynQt
open Lib List

structure PageTexts where
  /-- The path of a file of the pages directory. -/
  filePath : QString → QString
  fromUtf8 : QByteArray → QString
  sha256 : QByteArray → QString

inductive FileChange where
  | write (path : QString) (bytes : QByteArray)
  | replace (path : QString) (bytes : QByteArray)
  | remove (path : QString)

namespace FileChange

def path : FileChange → QString
  | write path _ | replace path _ | remove path => path

def contents : FileChange → Option QByteArray
  | write _ bytes | replace _ bytes => some bytes
  | remove _ => none

/-- The file that was watched is not the one of that name any more. -/
def unwatches : FileChange → Bool
  | write .. => false
  | replace .. | remove _ => true

end FileChange

inductive PageTask where
  | read (route : QString)
  | settle (route before : QString)
  | finish
  | addPath (path : QString)
  deriving DecidableEq

structure HotReload where
  files : QString → Option QByteArray
  store : PageStore
  routeByFile : Hash QString QString
  watching : Bool
  watched : List QString
  /-- Those whose file is the one that was there when it was put under watch. -/
  armed : List QString
  /-- Changes the watcher has not told yet, with whether the path leaves its list. -/
  notices : List (QString × Bool)
  pending : Hash QString Int
  timer : Bool
  todo : List PageTask
  emitted : List (QString × QString)

inductive PageEvent where
  | change (c : FileChange)
  | addPage (arrangement : Arrangement) (locked : Bool) (route file scope graphics : QString)
  | setWatching (watching : Bool)
  | fileChanged
  /-- The timer runs out; the routes come in the order their hash has. -/
  | timeout (routes : List QString)
  /-- The thread goes on. A read may find the file locked by another program. -/
  | proceed (locked : Bool)

namespace HotReload
variable (qt : PageTexts)

def reloadAttempts : Int := 20

def readable (s : HotReload) (locked : Bool) : PageFiles :=
  ⟨fun file => if locked then none else s.files (qt.filePath file), qt.fromUtf8, qt.sha256⟩

def watchPath (s : HotReload) (path : QString) : HotReload :=
  if path ∈ s.watched ∨ s.files path = none then s
  else { s with watched := s.watched ++ [path], armed := s.armed ++ [path] }

def change (s : HotReload) (c : FileChange) : HotReload :=
  { s with
    files := fun path => if path = c.path then c.contents else s.files path
    armed := if c.unwatches then s.armed.filter (· ≠ c.path) else s.armed
    notices := if c.path ∈ s.armed then s.notices ++ [(c.path, c.unwatches)] else s.notices }

def addPage (s : HotReload) (arrangement : Arrangement) (locked : Bool) (route file scope graphics : QString) :
    HotReload :=
  { s with
    store := s.store.addPage (s.readable qt locked) arrangement route file scope graphics
    routeByFile := s.routeByFile.insert (qt.filePath file) route
    todo := if s.watching then [.addPath (qt.filePath file)] else [] }

def setWatching (s : HotReload) (watching : Bool) : HotReload :=
  if watching = false then
    { s with watching := false, watched := [], armed := [], notices := [], timer := false, pending := ∅ }
  else if s.watching then s
  else { s with watching := true, todo := s.store.pages.map fun entry => .addPath (qt.filePath entry.2.file) }

def onFileChanged (s : HotReload) (path : QString) : HotReload :=
  let route := (s.routeByFile.find path).getD ""
  if route = "" then s
  else { s with pending := s.pending.insert route reloadAttempts, timer := s.watching }

/-- A path whose file is gone leaves the list before the store hears of it. -/
def fileChanged (s : HotReload) : HotReload :=
  match s.notices with
  | [] => s
  | (path, gone) :: notices =>
    ({ s with notices := notices, watched := if gone then s.watched.filter (· ≠ path) else s.watched } :
      HotReload).onFileChanged path

def flushPending (s : HotReload) (routes : List QString) : HotReload :=
  if s.timer = true ∧ routes.Perm (s.pending.entries.map Prod.fst) then
    { s with timer := false, todo := routes.map .read ++ [.finish] }
  else s

/-- A turn of the loop: the read, and what it counts down when it fails. -/
def readPending (s : HotReload) (locked : Bool) (route : QString) : HotReload :=
  let before := s.store.hashFor route
  if route ∈ s.store.declaredRoutes ∧ ((s.readable qt locked).read (s.store.value route).file).isSome then
    { s with
      store := s.store.reload (s.readable qt locked) route
      pending := s.pending.erase route
      todo := .settle route before :: s.todo }
  else
    let attemptsLeft := (s.pending.find route).getD 0 - 1
    { s with pending := if 0 < attemptsLeft then s.pending.insert route attemptsLeft else s.pending.erase route }

def announce (s : HotReload) (route before : QString) : HotReload :=
  if s.store.hashFor route ≠ before then { s with emitted := s.emitted ++ [(route, s.store.hashFor route)] } else s

def settle (s : HotReload) (route before : QString) : HotReload :=
  (if s.watching then s.watchPath (qt.filePath (s.store.value route).file) else s).announce route before

def finish (s : HotReload) : HotReload :=
  if s.pending.size ≠ 0 ∧ s.watching = true then { s with timer := true } else s

def proceed (s : HotReload) (locked : Bool) : HotReload :=
  match s.todo with
  | [] => s
  | .read route :: todo => ({ s with todo := todo } : HotReload).readPending qt locked route
  | .settle route before :: todo => ({ s with todo := todo } : HotReload).settle qt route before
  | .finish :: todo => ({ s with todo := todo } : HotReload).finish
  | .addPath path :: todo => ({ s with todo := todo } : HotReload).watchPath path

/-- The thread of the edge takes nothing new before it has ended what it began. -/
def step (s : HotReload) : PageEvent → HotReload
  | .change c => s.change c
  | .addPage arrangement locked route file scope graphics =>
    if s.todo = [] then s.addPage qt arrangement locked route file scope graphics else s
  | .setWatching watching => if s.todo = [] then s.setWatching qt watching else s
  | .fileChanged => if s.todo = [] then s.fileChanged else s
  | .timeout routes => if s.todo = [] then s.flushPending routes else s
  | .proceed locked => s.proceed qt locked

def start (files : QString → Option QByteArray) : HotReload :=
  ⟨files, ⟨[]⟩, ∅, false, [], [], [], ∅, false, [], []⟩

/-- The page holds the contents and the hash of its file, if there is one. -/
def Current (files : QString → Option QByteArray) (page : Page) : Prop :=
  ∀ bytes, files (qt.filePath page.file) = some bytes → page.source = qt.fromUtf8 bytes ∧ page.hash = qt.sha256 bytes

/-- Nothing is left to be told, to be read or to be done. -/
structure Settled (s : HotReload) : Prop where
  notices : s.notices = []
  timer : s.timer = false
  todo : s.todo = []

/-- The hashes that one step moved, of the routes that were served before it. -/
def moves (store store' : PageStore) : List (QString × QString) :=
  store.pages.filterMap fun entry =>
    if store'.hashFor entry.1 = entry.2.hash then none else some (entry.1, store'.hashFor entry.1)

def movesOf (s : HotReload) : List PageEvent → List (QString × QString)
  | [] => []
  | event :: events => moves s.store (s.step qt event).store ++ (s.step qt event).movesOf events

/-- A change the watcher has not told yet makes the route wait once it is told. -/
def Told (routeByFile : Hash QString QString) (notices : List (QString × Bool)) (route : QString) : Prop :=
  route ≠ "" ∧ ∃ notice ∈ notices, routeByFile.find notice.1 = some route

def Waits (s : HotReload) (route : QString) : Prop :=
  s.pending.contains route = true ∨ Told s.routeByFile s.notices route

def reading : List PageTask → Option QString
  | .read route :: _ => some route
  | _ => none

/-- What a step has to meet. A file that changes under a page leaves it current, or the page's route waits, or
the file is under watch and known by that route. A page that is added finds its file free, moves no hash
that is served, and takes no other route's name off a change that is not told yet. The watch is not taken
off before the pages are current, and the last read a route is allowed does not fail on a file that is
there and that the page is behind. -/
def Held (s : HotReload) : PageEvent → Prop
  | .change c =>
    ∀ entry ∈ s.store.pages, qt.filePath entry.2.file = c.path →
      Current qt (s.change c).files entry.2 ∨ s.Waits entry.1 ∨
        (c.path ∈ s.armed ∧ s.routeByFile.find c.path = some entry.1 ∧ entry.1 ≠ "")
  | .addPage _ locked route file _ _ =>
    s.todo = [] →
      (locked = true → s.files (qt.filePath file) = none) ∧
      (route ∈ s.store.declaredRoutes → (s.files (qt.filePath file)).elim "" qt.sha256 = s.store.hashFor route) ∧
      ∀ entry ∈ s.store.pages, entry.1 ≠ route →
        Current qt s.files entry.2 ∨ s.pending.contains entry.1 = true ∨
          Told (s.routeByFile.insert (qt.filePath file) route) s.notices entry.1
  | .setWatching watching => s.todo = [] → watching = false → ∀ entry ∈ s.store.pages, Current qt s.files entry.2
  | .proceed locked =>
    ∀ route ∈ reading s.todo, locked = true → (s.pending.find route).getD 0 ≤ 1 →
      Current qt s.files (s.store.value route) ∨ Told s.routeByFile s.notices route
  | _ => True

end HotReload

namespace PageStore
variable {store : PageStore} {route : QString} {page : Page} {entry : QString × Page}

private theorem mem_setPage (pages : List (QString × Page)) (route : QString) (page : Page) (h : entry ∈ setPage pages route page) :
    entry = (route, page) ∨ entry ∈ pages ∧ entry.1 ≠ route := by
  obtain ⟨old, hold, rfl⟩ := mem_map.mp h
  split
  · exact .inl rfl
  · rename_i hother
    exact .inr ⟨hold, hother⟩

private theorem mem_setPage_of_ne (page : Page) {pages : List (QString × Page)} (hmem : entry ∈ pages) (hne : entry.1 ≠ route) :
    entry ∈ setPage pages route page :=
  mem_map.mpr ⟨entry, hmem, if_neg hne⟩

private theorem mem_setPage_self {pages : List (QString × Page)} (hmem : route ∈ pages.map (·.1)) (page : Page) :
    (route, page) ∈ setPage pages route page := by
  obtain ⟨old, hold, rfl⟩ := mem_map.mp hmem
  exact mem_map.mpr ⟨old, hold, if_pos rfl⟩

theorem exists_of_declared (h : route ∈ store.declaredRoutes) : ∃ page, (route, page) ∈ store.pages := by
  obtain ⟨entry, hentry, rfl⟩ := mem_map.mp h
  exact ⟨entry.2, hentry⟩

private theorem declared_of_mem (h : entry ∈ store.pages) : entry.1 ∈ store.declaredRoutes := mem_map_of_mem h

/-- The pages of a store after one route is given a page: that one, and the others as they were. -/
structure Gives (store' store : PageStore) (route : QString) (page : Page) : Prop where
  nodup : store'.declaredRoutes.Nodup
  given : (route, page) ∈ store'.pages
  others : ∀ entry, entry.1 ≠ route → (entry ∈ store'.pages ↔ entry ∈ store.pages)

namespace Gives
variable {store' store'' : PageStore} {page' : Page}

theorem cases (h : Gives store' store route page) (hmem : entry ∈ store'.pages) :
    entry = (route, page) ∨ entry ∈ store.pages ∧ entry.1 ≠ route := by
  by_cases hroute : entry.1 = route
  · have hsame : entry = (route, page) := inj_on_of_nodup_map h.nodup hmem h.given hroute
    exact .inl hsame
  · exact .inr ⟨(h.others entry hroute).mp hmem, hroute⟩

theorem trans (h : Gives store'' store' route page') (h' : Gives store' store route page) :
    Gives store'' store route page' :=
  ⟨h.nodup, h.given, fun entry hne => (h.others entry hne).trans (h'.others entry hne)⟩

theorem value_self (h : Gives store' store route page) : store'.value route = page := value_of_mem h.nodup h.given

private theorem hashFor_other (h : Gives store' store route page) (hmem : entry ∈ store.pages) (hne : entry.1 ≠ route) :
    store'.hashFor entry.1 = entry.2.hash := by
  rw [hashFor, value_of_mem h.nodup ((h.others entry hne).mpr hmem)]

end Gives

section
variable (hnd : store.declaredRoutes.Nodup)
include hnd

private theorem gives_setPage (hdeclared : route ∈ store.declaredRoutes) (page : Page) :
    Gives ⟨setPage store.pages route page⟩ store route page := by
  refine ⟨?_, mem_setPage_self hdeclared page, fun entry hne => ⟨fun h => ?_, fun h => mem_setPage_of_ne page h hne⟩⟩
  · rw [declaredRoutes, declaredRoutes_setPage]
    exact hnd
  · rcases mem_setPage _ _ _ h with rfl | ⟨hold, -⟩
    · exact absurd rfl hne
    · exact hold

private theorem gives_insertPage (arrangement : Arrangement) (route : QString) (page : Page) :
    Gives (store.insertPage arrangement route page) store route page := by
  rw [insertPage]
  split
  · rename_i hdeclared
    exact gives_setPage hnd (contains_iff_mem.mp hdeclared) page
  · rename_i hnew
    have hperm := arrangement.perm (store.pages ++ [(route, page)])
    refine ⟨?_, hperm.mem_iff.mpr (mem_append_right _ mem_cons_self), fun entry hne => ?_⟩
    · rw [declaredRoutes, (hperm.map (·.1)).nodup_iff, map_append]
      refine nodup_append.mpr ⟨hnd, nodup_singleton _, fun a ha b hb heq => hnew ?_⟩
      obtain rfl : b = route := mem_singleton.mp hb
      exact contains_iff_mem.mpr (heq ▸ ha)
    · rw [hperm.mem_iff, mem_append, mem_singleton]
      refine ⟨fun h => h.resolve_right fun heq => hne ?_, .inl⟩
      rw [heq]

def loaded (files : PageFiles) (page : Page) : Page :=
  match files.read page.file with
  | none => page
  | some bytes => { page with source := files.fromUtf8 bytes, hash := files.sha256 bytes }

theorem gives_reload (hmem : (route, page) ∈ store.pages) (files : PageFiles) :
    Gives (store.reload files route) store route (loaded files page) := by
  have hvalue : store.value route = page := value_of_mem hnd hmem
  have hdeclared : route ∈ store.declaredRoutes := declared_of_mem hmem
  rw [reload, if_pos (contains_iff_mem.mpr hdeclared), loaded, hvalue]
  cases files.read page.file with
  | none => exact ⟨hnd, hmem, fun _ _ => Iff.rfl⟩
  | some bytes => exact gives_setPage hnd hdeclared _

theorem gives_addPage (files : PageFiles) (arrangement : Arrangement)
    (route file scope graphics : QString) :
    Gives (store.addPage files arrangement route file scope graphics) store route
      (loaded files ⟨file, scope, "", "", graphics⟩) := by
  have hinsert := gives_insertPage hnd arrangement route ⟨file, scope, "", "", graphics⟩
  exact (gives_reload hinsert.nodup hinsert.given files).trans hinsert

end

end PageStore

namespace HotReload
variable {qt : PageTexts} {s : HotReload}
open PageStore

variable {route : QString}

/-- Only the route that is given a page can have its hash moved. -/
theorem moves_gives {store store' : PageStore} {page : Page} (h : Gives store' store route page)
    (hnd : store.declaredRoutes.Nodup) :
    moves store store' =
      if route ∈ store.declaredRoutes ∧ page.hash ≠ store.hashFor route then [(route, page.hash)] else [] := by
  have hquiet (l : List (QString × Page)) (hsub : ∀ entry ∈ l, entry ∈ store.pages ∧ entry.1 ≠ route) :
      (l.filterMap fun entry =>
        if store'.hashFor entry.1 = entry.2.hash then none else some (entry.1, store'.hashFor entry.1)) = [] := by
    refine filterMap_eq_nil_iff.mpr fun entry hentry => if_pos ?_
    exact h.hashFor_other (hsub entry hentry).1 (hsub entry hentry).2
  by_cases hdeclared : route ∈ store.declaredRoutes
  · obtain ⟨old, hold⟩ := exists_of_declared hdeclared
    obtain ⟨before, after, hsplit⟩ := append_of_mem hold
    have hnodup : (before.map (·.1) ++ route :: after.map (·.1)).Nodup := by
      have hkeys := hnd
      rwa [declaredRoutes, hsplit, map_append, map_cons] at hkeys
    obtain ⟨hbefore, hafter⟩ := nodup_middle.mp hnodup |> nodup_cons.mp
    have hnew : store'.hashFor route = page.hash := congrArg Page.hash h.value_self
    have hwas : store.hashFor route = old.hash := congrArg Page.hash (value_of_mem hnd hold)
    have hapart (l : List (QString × Page)) (hsub : l ⊆ store.pages) (hkeys : ∀ entry ∈ l, entry.1 ∈ before.map (·.1) ++ after.map (·.1))
        (entry : QString × Page) (hentry : entry ∈ l) : entry ∈ store.pages ∧ entry.1 ≠ route :=
      ⟨hsub hentry, fun heq => hbefore (heq ▸ hkeys entry hentry)⟩
    rw [moves, hsplit, filterMap_append, filterMap_cons,
      hquiet before (hapart before (by rw [hsplit]; exact subset_append_left _ _) fun entry hentry =>
        mem_append_left _ (mem_map_of_mem hentry)),
      hquiet after (hapart after (by rw [hsplit]; exact fun _ ha => mem_append_right _ (mem_cons_of_mem _ ha))
        fun entry hentry => mem_append_right _ (mem_map_of_mem hentry)), hnew, hwas]
    by_cases hsame : page.hash = old.hash
    · rw [if_pos hsame, if_neg fun hboth => hboth.2 hsame]
      rfl
    · rw [if_neg hsame, if_pos ⟨hdeclared, hsame⟩]
      rfl
  · rw [if_neg fun hboth => hdeclared hboth.1]
    refine hquiet store.pages fun entry hentry => ⟨hentry, fun heq => hdeclared ?_⟩
    rw [← heq]
    exact declared_of_mem hentry

theorem moves_self {store : PageStore} (hnd : store.declaredRoutes.Nodup) : moves store store = [] := by
  refine filterMap_eq_nil_iff.mpr fun entry hentry => if_pos ?_
  exact congrArg Page.hash (value_of_mem hnd hentry)

/-- The emission that the turn in hand still owes. -/
def owed (store : PageStore) : List PageTask → List (QString × QString)
  | .settle route before :: _ => if store.hashFor route = before then [] else [(route, store.hashFor route)]
  | _ => []

structure Inv (qt : PageTexts) (s : HotReload) : Prop where
  nodup : s.store.declaredRoutes.Nodup
  fresh : ∀ entry ∈ s.store.pages, Current qt s.files entry.2 ∨ s.Waits entry.1
  /-- Only a watcher has a path under watch, tells a change and makes a route wait. -/
  armed : s.armed ≠ [] → s.watching = true
  notices : s.notices ≠ [] → s.watching = true
  waiting : ∀ route, s.pending.contains route = true → s.watching = true ∧ (s.timer = true ∨ .finish ∈ s.todo)
  settles : ∀ route before, .settle route before ∉ s.todo.tail
  paths : ∀ path, .addPath path ∈ s.todo → s.watching = true

theorem start_inv (qt : PageTexts) (files : QString → Option QByteArray) : Inv qt (start files) where
  nodup := nodup_nil
  fresh := nofun
  armed h := absurd rfl h
  notices h := absurd rfl h
  waiting route h := by
    rw [start, Hash.contains, Hash.find_empty] at h
    cases h
  settles := nofun
  paths := nofun

/-- What waits still waits when the tables that say so have only grown. -/
theorem Waits.mono {s' : HotReload} (h : s.Waits route)
    (hpending : s.pending.contains route = true → s'.pending.contains route = true)
    (htold : Told s.routeByFile s.notices route → Told s'.routeByFile s'.notices route ∨ s'.pending.contains route = true) :
    s'.Waits route := by
  rcases h with hpend | ht
  · exact .inl (hpending hpend)
  · rcases htold ht with ht' | hp'
    · exact .inr ht'
    · exact .inl hp'

theorem Told.append {routeByFile : Hash QString QString} {notices : List (QString × Bool)}
    (h : Told routeByFile notices route) (more : List (QString × Bool)) : Told routeByFile (notices ++ more) route := by
  obtain ⟨hne, notice, hmem, hfind⟩ := h
  exact ⟨hne, notice, mem_append_left _ hmem, hfind⟩

theorem watchPath_cases (s : HotReload) (path : QString) :
    s.watchPath path = s ∨
    s.watchPath path = { s with watched := s.watched ++ [path], armed := s.armed ++ [path] } := by
  rw [watchPath]
  split
  · exact .inl rfl
  · exact .inr rfl

section
variable (h : Inv qt s)
include h

theorem Inv.change {c : FileChange} (hheld : s.Held qt (.change c)) : Inv qt (s.change c) := by
  have hnotices : (s.change c).notices ≠ [] → s.watching = true := by
    intro hne
    by_cases harmed : c.path ∈ s.armed
    · exact h.armed (ne_nil_of_mem harmed)
    · refine h.notices ?_
      simpa only [HotReload.change, if_neg harmed] using hne
  refine ⟨h.nodup, fun entry hentry => ?_, fun hne => h.armed ?_, hnotices, h.waiting, h.settles, h.paths⟩
  · have hgrown : s.Waits entry.1 → (s.change c).Waits entry.1 := by
      intro hwaits
      refine hwaits.mono id fun htold => .inl ?_
      simp only [HotReload.change]
      split
      · exact htold.append _
      · exact htold
    by_cases hpath : qt.filePath entry.2.file = c.path
    · rcases hheld entry hentry hpath with hcurrent | hwaits | ⟨harmed, howner, hne⟩
      · exact .inl hcurrent
      · exact .inr (hgrown hwaits)
      · refine .inr (.inr ⟨hne, (c.path, c.unwatches), ?_, howner⟩)
        simp only [HotReload.change, if_pos harmed]
        exact mem_append_right _ mem_cons_self
    · rcases h.fresh entry hentry with hcurrent | hwaits
      · refine .inl fun bytes hbytes => hcurrent bytes ?_
        simpa only [HotReload.change, if_neg hpath] using hbytes
      · exact .inr (hgrown hwaits)
  · intro hnil
    refine hne ?_
    simp only [HotReload.change, hnil]
    split <;> rfl

theorem Inv.addPage {arrangement : Arrangement} {locked : Bool} {route file scope graphics : QString}
    (hidle : s.todo = []) (hheld : s.Held qt (.addPage arrangement locked route file scope graphics)) :
    Inv qt (s.addPage qt arrangement locked route file scope graphics) := by
  obtain ⟨hfree, -, hothers⟩ := hheld hidle
  have hgives := gives_addPage h.nodup (s.readable qt locked) arrangement route file scope graphics
  refine ⟨hgives.nodup, fun entry hentry => ?_, h.armed, h.notices, fun r hr => ?_, fun r before hmem => ?_,
    fun path hmem => ?_⟩
  · rcases hgives.cases hentry with rfl | ⟨hold, hne⟩
    · refine .inl fun bytes hbytes => ?_
      have hunlocked : locked ≠ true := fun hlocked => by
        have hnone : s.files (qt.filePath (loaded (s.readable qt locked) ⟨file, scope, "", "", graphics⟩).file) = none := by
          rw [loaded]
          split <;> exact hfree hlocked
        rw [HotReload.addPage, hnone] at hbytes
        cases hbytes
      have hread : (s.readable qt locked).read file = some bytes := by
        have hfile : (loaded (s.readable qt locked) ⟨file, scope, "", "", graphics⟩).file = file := by
          rw [loaded]
          split <;> rfl
        rw [hfile] at hbytes
        simp only [readable, if_neg hunlocked]
        exact hbytes
      simp only [loaded, hread]
      exact ⟨rfl, rfl⟩
    · rcases hothers entry hold hne with hcurrent | hpending | htold
      · exact .inl hcurrent
      · exact .inr (.inl hpending)
      · exact .inr (.inr htold)
  · obtain ⟨hwatching, htimer⟩ := h.waiting r hr
    rw [hidle] at htimer
    exact ⟨hwatching, .inl (htimer.resolve_right not_mem_nil)⟩
  · simp only [HotReload.addPage] at hmem
    split at hmem <;> exact absurd hmem not_mem_nil
  · simp only [HotReload.addPage] at hmem
    split at hmem
    · assumption
    · exact absurd hmem not_mem_nil

theorem Inv.setWatching {watching : Bool} (hidle : s.todo = [])
    (hheld : s.Held qt (.setWatching watching)) : Inv qt (s.setWatching qt watching) := by
  rw [HotReload.setWatching]
  split
  · rename_i hoff
    refine ⟨h.nodup, fun entry hentry => .inl (hheld hidle hoff entry hentry), fun hne => absurd rfl hne,
      fun hne => absurd rfl hne, fun r hr => ?_, h.settles, fun path hmem => ?_⟩
    · rw [Hash.contains, Hash.find_empty] at hr
      cases hr
    · rw [hidle] at hmem
      exact absurd hmem not_mem_nil
  · split
    · exact h
    · refine ⟨h.nodup, h.fresh, fun _ => rfl, fun _ => rfl, fun r hr => ?_, fun r before hmem => ?_, fun _ _ => rfl⟩
      · obtain ⟨-, htimer⟩ := h.waiting r hr
        rw [hidle] at htimer
        exact ⟨rfl, .inl (htimer.resolve_right not_mem_nil)⟩
      · obtain ⟨entry, -, heq⟩ := mem_map.mp (mem_of_mem_tail hmem)
        cases heq

theorem Inv.fileChanged : Inv qt s.fileChanged := by
  rw [HotReload.fileChanged]
  split
  · exact h
  · rename_i path gone notices hnotices
    have hwatching : s.watching = true := h.notices (by rw [hnotices]; exact cons_ne_nil _ _)
    simp only [onFileChanged]
    have hbehind : ∀ entry ∈ s.store.pages, Current qt s.files entry.2 ∨ s.pending.contains entry.1 = true ∨
        Told s.routeByFile notices entry.1 ∨ (entry.1 ≠ "" ∧ s.routeByFile.find path = some entry.1) := by
      intro entry hentry
      rcases h.fresh entry hentry with hcurrent | hpending | ⟨hne, notice, hmem, hfind⟩
      · exact .inl hcurrent
      · exact .inr (.inl hpending)
      · rw [hnotices] at hmem
        rcases mem_cons.mp hmem with rfl | hlater
        · exact .inr (.inr (.inr ⟨hne, hfind⟩))
        · exact .inr (.inr (.inl ⟨hne, notice, hlater, hfind⟩))
    split
    · rename_i hnone
      refine ⟨h.nodup, fun entry hentry => ?_, h.armed, fun _ => hwatching, h.waiting, h.settles, h.paths⟩
      rcases hbehind entry hentry with hcurrent | hpending | htold | ⟨hne, hfind⟩
      · exact .inl hcurrent
      · exact .inr (.inl hpending)
      · exact .inr (.inr htold)
      · rw [hfind] at hnone
        exact absurd hnone hne
    · refine ⟨h.nodup, fun entry hentry => ?_, h.armed, fun _ => hwatching, fun r _ => ⟨hwatching, .inl hwatching⟩,
        h.settles, h.paths⟩
      have hinserted (r value : QString) (n : Int) (hr : r = value ∨ s.pending.contains r = true) :
          (s.pending.insert value n).contains r = true := by
        rw [Hash.contains, Hash.find_insert]
        split
        · rfl
        · rename_i hother
          exact hr.resolve_left hother
      rcases hbehind entry hentry with hcurrent | hpending | htold | ⟨-, hfind⟩
      · exact .inl hcurrent
      · exact .inr (.inl (hinserted _ _ _ (.inr hpending)))
      · exact .inr (.inr htold)
      · exact .inr (.inl (hinserted _ _ _ (.inl (by rw [hfind]; rfl))))

theorem Inv.flushPending (routes : List QString) : Inv qt (s.flushPending routes) := by
  rw [HotReload.flushPending]
  split
  · have hsettle (route before : QString) : .settle route before ∉ routes.map PageTask.read ++ [.finish] := by simp
    refine ⟨h.nodup, h.fresh, h.armed, h.notices, fun r hr => ⟨(h.waiting r hr).1, .inr ?_⟩,
      fun route before hmem => hsettle route before (mem_of_mem_tail hmem), fun path hmem => ?_⟩
    · exact mem_append_right _ mem_cons_self
    · simp at hmem
  · exact h

theorem Inv.drop {task : PageTask} {todo : List PageTask} (htodo : s.todo = task :: todo)
    (hother : task ≠ .finish) : Inv qt { s with todo := todo } := by
  refine ⟨h.nodup, h.fresh, h.armed, h.notices, fun r hr => ?_, fun route before hmem => ?_, fun path hmem => ?_⟩
  · obtain ⟨hwatching, htimer⟩ := h.waiting r hr
    rw [htodo] at htimer
    refine ⟨hwatching, htimer.imp id fun hmem => ?_⟩
    exact (mem_cons.mp hmem).resolve_left hother.symm
  · refine h.settles route before ?_
    rw [htodo]
    exact mem_of_mem_tail hmem
  · refine h.paths path ?_
    rw [htodo]
    exact mem_cons_of_mem _ hmem

private theorem Inv.watchPath (hwatching : s.watching = true) (path : QString) : Inv qt (s.watchPath path) := by
  rcases watchPath_cases s path with hsame | hadded
  · rw [hsame]
    exact h
  · rw [hadded]
    exact ⟨h.nodup, h.fresh, fun _ => hwatching, h.notices, h.waiting, h.settles, h.paths⟩

theorem Inv.announce (route before : QString) : Inv qt (s.announce route before) := by
  rw [HotReload.announce]
  split
  · exact ⟨h.nodup, h.fresh, h.armed, h.notices, h.waiting, h.settles, h.paths⟩
  · exact h

theorem Inv.settle (route before : QString) : Inv qt (s.settle qt route before) := by
  rw [HotReload.settle]
  split
  · rename_i hwatching
    exact (h.watchPath hwatching _).announce route before
  · exact h.announce route before

theorem Inv.finish {todo : List PageTask} (htodo : s.todo = .finish :: todo) :
    Inv qt ({ s with todo := todo } : HotReload).finish := by
  have hsettles (route before : QString) (hmem : .settle route before ∈ todo.tail) : False := by
    refine h.settles route before ?_
    rw [htodo]
    exact mem_of_mem_tail hmem
  have hpaths (path : QString) (hmem : .addPath path ∈ todo) : s.watching = true := by
    refine h.paths path ?_
    rw [htodo]
    exact mem_cons_of_mem _ hmem
  rw [HotReload.finish]
  split
  · exact ⟨h.nodup, h.fresh, h.armed, h.notices, fun r hr => ⟨(h.waiting r hr).1, .inl rfl⟩, hsettles, hpaths⟩
  · rename_i hquiet
    refine ⟨h.nodup, h.fresh, h.armed, h.notices, fun r hr => ?_, hsettles, hpaths⟩
    have hwatching := (h.waiting r hr).1
    have hsize := Hash.size_erase hr
    exact absurd ⟨by omega, hwatching⟩ hquiet

theorem Inv.readPending {locked : Bool} (hnone : ∀ r before, .settle r before ∉ s.todo)
    (hheld : locked = true → (s.pending.find route).getD 0 ≤ 1 →
      Current qt s.files (s.store.value route) ∨ Told s.routeByFile s.notices route) :
    Inv qt (s.readPending qt locked route) := by
  have herased {r : QString} (hr : (s.pending.erase route).contains r = true) : s.pending.contains r = true := by
    rw [Hash.contains, Hash.find_erase] at hr
    split at hr
    · cases hr
    · exact hr
  have hkept {r : QString} (hne : r ≠ route) (hr : s.pending.contains r = true) :
      (s.pending.erase route).contains r = true := by
    rw [Hash.contains, Hash.find_erase, if_neg hne]
    exact hr
  have htail (r before : QString) (hmem : .settle r before ∈ s.todo.tail) : False :=
    hnone r before (mem_of_mem_tail hmem)
  rw [HotReload.readPending]
  simp only
  split
  · rename_i hread
    obtain ⟨hdeclared, hsome⟩ := hread
    obtain ⟨page, hmem⟩ := exists_of_declared hdeclared
    have hvalue : s.store.value route = page := value_of_mem h.nodup hmem
    obtain ⟨bytes, hbytes⟩ := Option.isSome_iff_exists.mp hsome
    rw [hvalue] at hbytes
    have hgives := gives_reload h.nodup hmem (s.readable qt locked)
    refine ⟨hgives.nodup, fun entry hentry => ?_, h.armed, h.notices, fun r hr => ?_, hnone, fun path hp => ?_⟩
    · rcases hgives.cases hentry with rfl | ⟨hold, hne⟩
      · refine .inl fun found hfound => ?_
        have hfiles : s.files (qt.filePath page.file) = some bytes := by
          have hunlocked := hbytes
          simp only [readable] at hunlocked
          split at hunlocked
          · cases hunlocked
          · exact hunlocked
        simp only [loaded, hbytes] at hfound ⊢
        rw [hfiles] at hfound
        obtain rfl := Option.some.inj hfound
        exact ⟨rfl, rfl⟩
      · rcases h.fresh entry hold with hcurrent | hwaits
        · exact .inl hcurrent
        · exact .inr (hwaits.mono (hkept hne) .inl)
    · obtain ⟨hwatching, htimer⟩ := h.waiting r (herased hr)
      exact ⟨hwatching, htimer.imp id (mem_cons_of_mem _)⟩
    · refine h.paths path ?_
      exact (mem_cons.mp hp).resolve_left fun h => by cases h
  · rename_i hunread
    split
    · rename_i hleft
      have hinserted {r : QString} (n : Int) (hr : s.pending.contains r = true) :
          (s.pending.insert route n).contains r = true := by
        rw [Hash.contains, Hash.find_insert]
        split
        · rfl
        · exact hr
      refine ⟨h.nodup, fun entry hentry => ?_, h.armed, h.notices, fun r hr => h.waiting r ?_, htail, h.paths⟩
      · exact (h.fresh entry hentry).imp id fun hwaits => hwaits.mono (hinserted _) .inl
      · rw [Hash.contains, Hash.find_insert] at hr
        split at hr
        · rename_i hsame
          rw [hsame, Hash.contains]
          cases hfind : s.pending.find route with
          | none =>
            rw [hfind] at hleft
            exact absurd hleft (by decide)
          | some n => rfl
        · exact hr
    · rename_i hleft
      refine ⟨h.nodup, fun entry hentry => ?_, h.armed, h.notices, fun r hr => h.waiting r (herased hr), htail, h.paths⟩
      by_cases hroute : entry.1 = route
      · have hvalue : s.store.value route = entry.2 := value_of_mem h.nodup (by rw [← hroute]; exact hentry)
        by_cases hlocked : locked = true
        · have hbehind := hheld hlocked (by omega)
          rw [hvalue, ← hroute] at hbehind
          exact hbehind.imp id .inr
        · refine .inl fun bytes hbytes => absurd ⟨?_, ?_⟩ hunread
          · rw [← hroute]
            exact declared_of_mem hentry
          · have hthere : s.files (qt.filePath entry.2.file) = some bytes := hbytes
            rw [hvalue]
            simp only [readable, if_neg hlocked, hthere]
            rfl
      · exact (h.fresh entry hentry).imp id fun hwaits => hwaits.mono (hkept hroute) .inl

theorem Inv.step {event : PageEvent} (hheld : s.Held qt event) : Inv qt (s.step qt event) := by
  cases event with
  | change c => exact h.change hheld
  | addPage arrangement locked route file scope graphics =>
    rw [HotReload.step]
    split
    · rename_i hidle
      exact h.addPage hidle hheld
    · exact h
  | setWatching watching =>
    rw [HotReload.step]
    split
    · rename_i hidle
      exact h.setWatching hidle hheld
    · exact h
  | fileChanged =>
    rw [HotReload.step]
    split
    · exact h.fileChanged
    · exact h
  | timeout routes =>
    rw [HotReload.step]
    split
    · exact h.flushPending routes
    · exact h
  | proceed locked =>
    rw [HotReload.step, HotReload.proceed]
    split
    · exact h
    · rename_i route todo htodo
      refine (h.drop htodo (by nofun)).readPending (fun r before hmem => h.settles r before ?_) (hheld route ?_)
      · rw [htodo]
        exact hmem
      · rw [htodo]
        rfl
    · rename_i route before todo htodo
      exact (h.drop htodo (by nofun)).settle route before
    · rename_i todo htodo
      exact h.finish htodo
    · rename_i path todo htodo
      refine (h.drop htodo (by nofun)).watchPath (h.paths path ?_) path
      rw [htodo]
      exact mem_cons_self

end

end HotReload
end SynQt
