import SynQt.Edge.HotReload

namespace SynQt
open Lib List

namespace HotReload
variable {qt : PageTexts} {s : HotReload}
open PageStore

private theorem owed_of_settles (store : PageStore) {todo : List PageTask} (hnone : ∀ route before, .settle route before ∉ todo) :
    owed store todo = [] := by
  cases todo with
  | nil => rfl
  | cons task todo =>
    cases task with
    | settle route before => exact absurd mem_cons_self (hnone route before)
    | read route => rfl
    | finish => rfl
    | addPath path => rfl

/-- The emissions of a step, with those it still owes, are those owed before it and the hashes it moved. -/
def Tells (s s' : HotReload) : Prop :=
  s'.emitted ++ owed s'.store s'.todo = s.emitted ++ owed s.store s.todo ++ moves s.store s'.store

/-- A step that leaves the pages alone, with no turn in hand before or after it, tells nothing. -/
theorem Tells.nothing {s' : HotReload} (hnd : s.store.declaredRoutes.Nodup) (hstore : s'.store = s.store)
    (hemitted : s'.emitted = s.emitted) (howed : owed s.store s.todo = []) (howed' : owed s'.store s'.todo = []) :
    Tells s s' := by
  rw [Tells, howed', hstore, hemitted, howed, moves_self hnd, append_nil, append_nil]

private theorem readPending_tells (h : Inv qt s) (locked : Bool) (route : QString) (hnone : ∀ r before, .settle r before ∉ s.todo) :
    Tells s (s.readPending qt locked route) := by
  have howed : owed s.store s.todo = [] := owed_of_settles s.store hnone
  rw [readPending]
  simp only
  split
  · rename_i hread
    obtain ⟨page, hmem⟩ := exists_of_declared hread.1
    have hgives := gives_reload h.nodup hmem (s.readable qt locked)
    have hnew : (s.store.reload (s.readable qt locked) route).hashFor route =
        (loaded (s.readable qt locked) page).hash := congrArg Page.hash hgives.value_self
    rw [Tells, howed, append_nil, moves_gives hgives h.nodup]
    simp only [owed, hnew]
    by_cases hsame : (loaded (s.readable qt locked) page).hash = s.store.hashFor route
    · rw [if_pos hsame, if_neg fun hboth => hboth.2 hsame]
    · rw [if_neg hsame, if_pos ⟨hread.1, hsame⟩]
  · exact Tells.nothing h.nodup rfl rfl howed howed

private theorem addPage_tells (h : Inv qt s) {arrangement : Arrangement} {locked : Bool} {route file scope graphics : QString}
    (hidle : s.todo = []) (hheld : s.Held qt (.addPage arrangement locked route file scope graphics)) :
    Tells s (s.addPage qt arrangement locked route file scope graphics) := by
  obtain ⟨hfree, hsame, -⟩ := hheld hidle
  have hgives := gives_addPage h.nodup (s.readable qt locked) arrangement route file scope graphics
  have hquiet : moves s.store (s.addPage qt arrangement locked route file scope graphics).store = [] := by
    refine (moves_gives hgives h.nodup).trans (if_neg ?_)
    rintro ⟨hdeclared, hmoved⟩
    refine hmoved (Eq.trans ?_ (hsame hdeclared))
    simp only [loaded, readable]
    cases hlocked : locked with
    | true =>
      rw [hfree hlocked]
      rfl
    | false =>
      simp only [Bool.false_eq_true, if_false]
      cases s.files (qt.filePath file) <;> rfl
  have howed (store : PageStore) : owed store (s.addPage qt arrangement locked route file scope graphics).todo = [] := by
    simp only [addPage]
    split <;> rfl
  rw [Tells, howed, hquiet, hidle]
  simp only [owed, append_nil]
  rfl

private theorem setWatching_tells (h : Inv qt s) (hidle : s.todo = []) (watching : Bool) : Tells s (s.setWatching qt watching) := by
  have howed : owed s.store s.todo = [] := by rw [hidle]; rfl
  rw [setWatching]
  split
  · exact Tells.nothing h.nodup rfl rfl howed howed
  · split
    · exact Tells.nothing h.nodup rfl rfl howed howed
    · refine Tells.nothing h.nodup rfl rfl howed (owed_of_settles _ fun route before hmem => ?_)
      obtain ⟨entry, -, heq⟩ := mem_map.mp hmem
      cases heq

private theorem onFileChanged_same (s : HotReload) (path : QString) : (s.onFileChanged path).store = s.store ∧
    (s.onFileChanged path).emitted = s.emitted ∧ (s.onFileChanged path).todo = s.todo := by
  simp only [onFileChanged]
  split <;> exact ⟨rfl, rfl, rfl⟩

private theorem fileChanged_tells (h : Inv qt s) (hidle : s.todo = []) : Tells s s.fileChanged := by
  have howed : owed s.store s.todo = [] := by rw [hidle]; rfl
  rw [fileChanged]
  split
  · exact Tells.nothing h.nodup rfl rfl howed howed
  · rename_i path gone notices hnotices
    obtain ⟨hstore, hemitted, htodo⟩ := onFileChanged_same
      { s with notices := notices, watched := if gone then s.watched.filter (· ≠ path) else s.watched } path
    refine Tells.nothing h.nodup hstore hemitted howed ?_
    rw [hstore, htodo]
    exact howed

private theorem flushPending_tells (h : Inv qt s) (hidle : s.todo = []) (routes : List QString) : Tells s (s.flushPending routes) := by
  have howed : owed s.store s.todo = [] := by rw [hidle]; rfl
  rw [flushPending]
  split
  · refine Tells.nothing h.nodup rfl rfl howed ?_
    cases routes <;> rfl
  · exact Tells.nothing h.nodup rfl rfl howed howed

private theorem settle_tells (hnd : s.store.declaredRoutes.Nodup) {route before : QString} {todo : List PageTask}
    (htodo : s.todo = .settle route before :: todo) (hnone : ∀ r b, .settle r b ∉ todo) :
    Tells s (({ s with todo := todo } : HotReload).settle qt route before) := by
  have hannounced (w : HotReload) (hstore : w.store = s.store) (hemitted : w.emitted = s.emitted) (hrest : w.todo = todo) :
      Tells s (w.announce route before) := by
    have hlater : owed s.store todo = [] := owed_of_settles s.store hnone
    rw [announce, hstore]
    split
    · rename_i hmoved
      have hown : owed s.store (.settle route before :: todo) = [(route, s.store.hashFor route)] := if_neg hmoved
      rw [Tells, htodo, hown]
      simp only [hemitted, hrest, hlater, moves_self hnd, append_nil]
    · rename_i hsame
      have hown : owed s.store (.settle route before :: todo) = [] := if_pos (not_not.mp hsame)
      rw [Tells, htodo, hown]
      simp only [hemitted, hrest, hstore, hlater, moves_self hnd, append_nil]
  rw [settle]
  split
  · rcases watchPath_cases { s with todo := todo } (qt.filePath (s.store.value route).file) with hsame | hadded
    · rw [hsame]
      exact hannounced _ rfl rfl rfl
    · rw [hadded]
      exact hannounced _ rfl rfl rfl
  · exact hannounced _ rfl rfl rfl

theorem step_tells (h : Inv qt s) {event : PageEvent} (hheld : s.Held qt event) : Tells s (s.step qt event) := by
  have hidle_tells : Tells s s := by
    rw [Tells, moves_self h.nodup, append_nil]
  cases event with
  | change c =>
    rw [Tells]
    exact hidle_tells
  | addPage arrangement locked route file scope graphics =>
    rw [step]
    split
    · rename_i hidle
      exact addPage_tells h hidle hheld
    · exact hidle_tells
  | setWatching watching =>
    rw [step]
    split
    · rename_i hidle
      exact setWatching_tells h hidle watching
    · exact hidle_tells
  | fileChanged =>
    rw [step]
    split
    · rename_i hidle
      exact fileChanged_tells h hidle
    · exact hidle_tells
  | timeout routes =>
    rw [step]
    split
    · rename_i hidle
      exact flushPending_tells h hidle routes
    · exact hidle_tells
  | proceed locked =>
    rw [step, proceed]
    split
    · exact hidle_tells
    all_goals
      rename_i htodo
    · rename_i route todo
      have hnone (r before : QString) : .settle r before ∉ todo := fun hmem => h.settles r before (by rw [htodo]; exact hmem)
      have hread := readPending_tells (h.drop htodo (fun h => by cases h)) locked route hnone
      rw [Tells] at hread ⊢
      rw [hread, htodo]
      exact congrArg (s.emitted ++ · ++ _) (owed_of_settles s.store hnone)
    · rename_i route before todo
      exact settle_tells h.nodup htodo fun r b hmem => h.settles r b (by rw [htodo]; exact hmem)
    · rename_i todo
      have hnone (r before : QString) : .settle r before ∉ todo := fun hmem => h.settles r before (by rw [htodo]; exact hmem)
      have howed : owed s.store s.todo = [] := by rw [htodo]; rfl
      rw [finish]
      split <;> exact Tells.nothing h.nodup rfl rfl howed (owed_of_settles _ hnone)
    · rename_i path todo
      have hnone (r before : QString) : .settle r before ∉ todo := fun hmem => h.settles r before (by rw [htodo]; exact hmem)
      have howed : owed s.store s.todo = [] := by rw [htodo]; rfl
      rcases watchPath_cases { s with todo := todo } path with hsame | hadded
      · rw [hsame]
        exact Tells.nothing h.nodup rfl rfl howed (owed_of_settles _ hnone)
      · rw [hadded]
        exact Tells.nothing h.nodup rfl rfl howed (owed_of_settles _ hnone)

private theorem run_tells {events : List PageEvent} (h : Inv qt s) (hheld : Each (step qt) (Held qt) s events) :
    (run (step qt) s events).emitted ++ owed (run (step qt) s events).store (run (step qt) s events).todo =
      s.emitted ++ owed s.store s.todo ++ movesOf qt s events := by
  induction events generalizing s with
  | nil => rw [movesOf, append_nil, run_nil]
  | cons event events ih =>
    rw [run_cons, ih (h.step hheld.1) hheld.2, movesOf, ← append_assoc]
    exact congrArg (· ++ _) (step_tells h hheld.1)

/-- Once nothing is left to be told, read or done, no route waits. -/
theorem Inv.current (h : Inv qt s) (hsettled : Settled s) : ∀ entry ∈ s.store.pages, Current qt s.files entry.2 := by
  intro entry hentry
  rcases h.fresh entry hentry with hcurrent | hpending | ⟨-, notice, hmem, -⟩
  · exact hcurrent
  · obtain ⟨-, htimer | hmem⟩ := h.waiting entry.1 hpending
    · rw [hsettled.timer] at htimer
      cases htimer
    · rw [hsettled.todo] at hmem
      cases hmem
  · rw [hsettled.notices] at hmem
    cases hmem

/-- In a run whose steps are all held to the condition, hot reload converges: what is emitted is what
moved, and once the files and the timer are still, every page is its file's. -/
theorem hot_reload_converges (qt : PageTexts) (files : QString → Option QByteArray) (events : List PageEvent)
    (hheld : Each (step qt) (Held qt) (start files) events) :
    ((run (step qt) (start files) events).todo = [] →
      (run (step qt) (start files) events).emitted = movesOf qt (start files) events) ∧
    (Settled (run (step qt) (start files) events) → ∀ entry ∈ (run (step qt) (start files) events).store.pages,
      Current qt (run (step qt) (start files) events).files entry.2) := by
  refine ⟨fun hidle => ?_, fun hsettled => ?_⟩
  · have htells := run_tells (start_inv qt files) hheld
    rw [hidle] at htells
    have hnone (store : PageStore) : owed store [] = [] := rfl
    rw [hnone, append_nil] at htells
    exact htells
  · have hinv := hheld.invariant (Inv qt) (fun s event h hok => h.step hok) (start_inv qt files)
    exact hinv.current hsettled

instance (files : QString → Option QByteArray) (page : Page) : Decidable (Current qt files page) :=
  inferInstanceAs (Decidable (∀ bytes ∈ files (qt.filePath page.file), page.source = qt.fromUtf8 bytes ∧ page.hash = qt.sha256 bytes))

instance (routeByFile : Hash QString QString) (notices : List (QString × Bool)) (route : QString) :
    Decidable (Told routeByFile notices route) :=
  inferInstanceAs (Decidable (route ≠ "" ∧ ∃ notice ∈ notices, routeByFile.find notice.1 = some route))

instance (s : HotReload) (route : QString) : Decidable (s.Waits route) :=
  inferInstanceAs (Decidable (s.pending.contains route = true ∨ Told s.routeByFile s.notices route))

instance (s : HotReload) : (event : PageEvent) → Decidable (s.Held qt event)
  | .change c =>
    inferInstanceAs (Decidable (∀ entry ∈ s.store.pages, qt.filePath entry.2.file = c.path →
      Current qt (s.change c).files entry.2 ∨ s.Waits entry.1 ∨
        (c.path ∈ s.armed ∧ s.routeByFile.find c.path = some entry.1 ∧ entry.1 ≠ "")))
  | .addPage _ locked route file _ _ =>
    inferInstanceAs (Decidable (s.todo = [] →
      (locked = true → s.files (qt.filePath file) = none) ∧
      (route ∈ s.store.declaredRoutes → (s.files (qt.filePath file)).elim "" qt.sha256 = s.store.hashFor route) ∧
      ∀ entry ∈ s.store.pages, entry.1 ≠ route →
        Current qt s.files entry.2 ∨ s.pending.contains entry.1 = true ∨
          Told (s.routeByFile.insert (qt.filePath file) route) s.notices entry.1))
  | .setWatching watching =>
    inferInstanceAs (Decidable (s.todo = [] → watching = false → ∀ entry ∈ s.store.pages, Current qt s.files entry.2))
  | .proceed locked =>
    inferInstanceAs (Decidable (∀ route ∈ reading s.todo, locked = true → (s.pending.find route).getD 0 ≤ 1 →
      Current qt s.files (s.store.value route) ∨ Told s.routeByFile s.notices route))
  | .fileChanged | .timeout _ => .isTrue trivial

def item : QByteArray := [73, 116, 101, 109]
def text : QByteArray := [84, 101, 120, 116]

def twoPages : PageTexts where
  filePath file := "/srv/pages/" ++ file
  fromUtf8 bytes := String.ofList (bytes.map fun byte => Char.ofNat byte.toNat)
  sha256 bytes :=
    if bytes = item then "652bcc3a478428893cc505ae19f847b49be52f861bedc64bb192ceed409fa733"
    else if bytes = text then "71988c4d8e0803ba4519f0b2864c1331c14a1890bf8694e251379177bfedb5c3"
    else ""

def oneFile (path : QString) : Option QByteArray := if path = "/srv/pages/C.qml" then some (item) else none

def inOrder : Arrangement := ⟨id, fun _ => List.Perm.refl _⟩

def declare (route : QString) : PageEvent := .addPage inOrder false route "C.qml" "" ""

/-- A page is saved by an editor that writes beside it and renames, while a scanner holds the file once. -/
def savedByRename : List PageEvent :=
  [declare "/c", .setWatching true, .proceed false, .change (.remove "/srv/pages/C.qml"), .fileChanged,
    .change (.write "/srv/pages/C.qml" text), .timeout ["/c"], .proceed true, .proceed false,
    .timeout ["/c"], .proceed false, .proceed false, .proceed false]

theorem hot_reload_converges_savedByRename :
    (run (step twoPages) (start oneFile) savedByRename).emitted = [("/c", twoPages.sha256 text)] ∧
    ∀ entry ∈ (run (step twoPages) (start oneFile) savedByRename).store.pages,
      Current twoPages (run (step twoPages) (start oneFile) savedByRename).files entry.2 := by
  have hheld : Each (step twoPages) (Held twoPages) (start oneFile) savedByRename := by decide
  obtain ⟨hemitted, hcurrent⟩ := hot_reload_converges twoPages oneFile savedByRename hheld
  refine ⟨(hemitted (by decide)).trans (by decide), hcurrent ⟨by decide, by decide, by decide⟩⟩

/-- Two routes name one file, which is written to. -/
def sharedFile : List PageEvent :=
  [declare "/a", declare "/b", .setWatching true, .proceed false, .proceed false,
    .change (.write "/srv/pages/C.qml" text), .fileChanged, .timeout ["/b"], .proceed false, .proceed false,
    .proceed false]

theorem shared_page_stale :
    Settled (run (step twoPages) (start oneFile) sharedFile) ∧
      ¬ ∀ entry ∈ (run (step twoPages) (start oneFile) sharedFile).store.pages,
        Current twoPages (run (step twoPages) (start oneFile) sharedFile).files entry.2 :=
  ⟨⟨by decide, by decide, by decide⟩, by decide⟩

end HotReload
end SynQt
