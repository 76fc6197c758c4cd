import SynQt.Client.HistoryPaths

namespace SynQt
open Lib List

/-- An address written as the browser will show it: rooted at one slash, of plain segments, and with a plain query or
none. -/
def IsWritten (text : List Char) : Prop :=
  let path := text.takeWhile (· != '?')
  let more := text.dropWhile (· != '?')
  path.head? = some '/' ∧ path.tail.head? ≠ some '/' ∧ (∀ part ∈ path.tail.splitOn '/', Url.IsPlainSegment part) ∧
    (more = [] ∨ more.tail ≠ [] ∧ ∀ c ∈ more.tail, Url.inSpecialQuerySet c = false)

/-- A path of the application that the browser shows as it is, behind the base. -/
def IsShown (base : List Char) (path : QString) : Prop :=
  path.toList.head? = some '/' ∧ IsWritten (if base = ['/'] then path.toList else base ++ path.toList)

namespace IsWritten
variable {A : Type}

theorem parse {text : List Char} (h : IsWritten text) (elsewhere : List Char → Option (Url A)) (base : Url A) :
    ∃ url, Url.parse elsewhere base text = some url ∧ url.scheme = base.scheme ∧ url.authority = base.authority ∧
      url.pathname ++ url.search = text := by
  obtain ⟨hslash, hsingle, hparts, hmore⟩ := h
  have htext := takeWhile_append_dropWhile (p := (· != '?')) (l := text)
  generalize text.takeWhile (· != '?') = path at hslash hsingle hparts htext
  obtain ⟨body, rfl⟩ : ∃ body, path = '/' :: body := by
    cases path with
    | nil => cases hslash
    | cons c body => exact ⟨body, by rw [Option.some.inj hslash]⟩
  obtain ⟨parts, last, hsplit, hbody, -⟩ := exists_parts '/' body
  rw [tail_cons] at hsingle hparts
  rw [hsplit] at hparts
  have hrooted : (parts ++ [last]).head? = some [] → parts = [] := by
    intro hfirst
    cases parts with
    | nil => rfl
    | cons part parts =>
      obtain rfl := Option.some.inj hfirst
      rw [hbody] at hsingle
      exact absurd rfl hsingle
  have hquery : text.dropWhile (· != '?') = [] ∨ ∃ query, query ≠ [] ∧ text.dropWhile (· != '?') = '?' :: query ∧
      ∀ c ∈ query, Url.inSpecialQuerySet c = false := by
    refine hmore.imp_right fun ⟨hne, hplain⟩ => ?_
    have hhead := List.head?_dropWhile_not (· != '?') text
    cases hrest : text.dropWhile (· != '?') with
    | nil =>
      rw [hrest] at hne
      exact absurd rfl hne
    | cons c query =>
      rw [hrest] at hhead hne hplain
      have hc : c = '?' := by simpa using hhead
      exact ⟨query, hne, by rw [hc], hplain⟩
  obtain ⟨url, hparse, hscheme, hauthority, hshown⟩ := Url.parse_written elsewhere base hparts hrooted hquery
  rw [← hbody, ← cons_append, htext] at hparse hshown
  exact ⟨url, hparse, hscheme, hauthority, hshown⟩

end IsWritten

namespace BrowserHistory

private theorem toApplicationPath_toBrowserPath (base : List Char) {path : List Char} (hpath : path.head? = some '/') :
    toApplicationPath base (toBrowserPath base path) = path := by
  cases path with
  | nil => cases hpath
  | cons c path =>
    obtain rfl := Option.some.inj hpath
    rw [toApplicationPath, toBrowserPath]
    split
    · rfl
    · rw [if_neg (by simp), if_pos, drop_left]
      rw [ isPrefixOf_iff_prefix]
      exact ⟨path, by simp⟩

theorem toApplicationPath_iff (base : List Char) {pathname search : List Char} (hunder : UnderBase base pathname)
    (hsearch : search = [] ∨ search.head? = some '?') :
    toApplicationPath base (pathname ++ search) = applicationPathOf base pathname search ↔
      ¬ (base ≠ ['/'] ∧ pathname = base ∧ search ≠ []) := by
  rw [UnderBase] at hunder
  by_cases hbase : base = ['/']
  · rw [if_pos hbase] at hunder
    have hne : pathname.isEmpty = false := by
      cases pathname with
      | nil => cases hunder
      | cons c pathname => rfl
    have hwhole : (pathname ++ search).isEmpty = false := by
      rw [isEmpty_eq_false_iff] at hne ⊢
      exact append_ne_nil_of_left_ne_nil hne _
    rw [toApplicationPath, applicationPathOf, if_pos hbase, if_pos hbase, hwhole, hne]
    exact iff_of_true rfl fun h => h.1 hbase
  rw [if_neg hbase] at hunder
  rw [toApplicationPath, applicationPathOf, if_neg hbase, if_neg hbase]
  obtain rfl | ⟨more, rfl⟩ := hunder
  · rw [drop_length, isEmpty_nil, if_pos rfl]
    obtain rfl | hquery := hsearch
    · rw [append_nil, if_pos rfl]
      exact iff_of_true rfl fun h => h.2.2 rfl
    · obtain ⟨query, rfl⟩ : ∃ query, search = '?' :: query := by
        cases search with
        | nil => cases hquery
        | cons c query => exact ⟨query, by rw [Option.some.inj hquery]⟩
      have hprefix : ¬ (pathname ++ ['/']).isPrefixOf (pathname ++ '?' :: query) = true := by
        rw [ isPrefixOf_iff_prefix, prefix_append_right_inj]
        intro h
        exact absurd (cons_prefix_cons.mp h).1 (by decide)
      rw [if_neg (by simp), if_neg hprefix]
      exact iff_of_false (fun heq => hbase (append_cancel_right heq)) fun h => h ⟨hbase, rfl, cons_ne_nil _ _⟩
  · have hslash (rest : List Char) : (base ++ ['/'] ++ more ++ rest).drop base.length = '/' :: (more ++ rest) := by
      simp only [append_assoc, drop_left, cons_append, nil_append]
    have hprefix : (base ++ ['/']).isPrefixOf (base ++ ['/'] ++ more ++ search) = true := by
      rw [ isPrefixOf_iff_prefix, append_assoc (base ++ ['/'])]
      exact prefix_append _ _
    have hfirst := hslash []
    rw [append_nil, append_nil] at hfirst
    rw [if_neg (by simp), if_pos hprefix, hslash, hfirst]
    exact iff_of_true rfl fun h => by simpa using h.2.1

def InRange (history : BrowserHistory) : Prop := history.index < history.stack.length

private theorem inRange_edit {history : BrowserHistory} (h : history.InRange) (e : HistoryEdit) : (history.edit e).InRange := by
  rw [InRange] at h ⊢
  cases e with
  | push path =>
    rw [edit, push, length_append, length_singleton]
    exact Nat.lt_succ_self _
  | replace path =>
    rw [edit, replace]
    split
    · exact Nat.zero_lt_one
    · rw [length_set]
      exact h

private theorem inRange_edits {history : BrowserHistory} (h : history.InRange) (edits : List HistoryEdit) : (edits.foldl edit history).InRange := by
  induction edits generalizing history with
  | nil => exact h
  | cons e edits ih => exact ih (inRange_edit h e)

end BrowserHistory

namespace Histories
variable {A : Type} [DecidableEq A] {elsewhere : List Char → Option (Url A)} {base : List Char}
  {handler : List QString → List HistoryEdit} {s : Histories A}

private theorem inRange_step (h : s.desktop.history.InRange) (input : HistoryInput) : (s.step elsewhere base handler input).desktop.history.InRange := by
  cases input with
  | edit e => exact BrowserHistory.inRange_edit h e
  | back =>
    rw [step, DesktopHistory.back]
    split
    · have hbehind : BrowserHistory.InRange { s.desktop.history with index := s.desktop.history.index - 1 } :=
        Nat.lt_of_le_of_lt (Nat.sub_le _ _) h
      exact BrowserHistory.inRange_edits hbehind _
    · exact h
  | forward =>
    rw [step, DesktopHistory.forward]
    split
    · next hlt =>
      have hahead : BrowserHistory.InRange { s.desktop.history with index := s.desktop.history.index + 1 } := hlt
      exact BrowserHistory.inRange_edits hahead _
    · exact h
  | traverse => exact h

/-- The stack is what the tab's entries are reported as, and both are at one place. -/
structure Follows (base : List Char) (desktop : DesktopHistory) (tab : HistoryTab A) : Prop where
  stack : desktop.history.stack = (tab.behind.reverse ++ tab.current :: tab.ahead).map (HistoryTab.reported base)
  index : desktop.history.index = tab.behind.length
  popped : desktop.popped = tab.popped

namespace Follows
variable {desktop : DesktopHistory} {tab : HistoryTab A}

omit [DecidableEq A] in
theorem currentPath_eq (h : Follows base desktop tab) : desktop.history.currentPath = tab.currentPath base := by
  rw [BrowserHistory.currentPath, h.stack, h.index, HistoryTab.currentPath]
  simp

private theorem edit_tab {e : HistoryEdit} (hfits : IsShown base e.path) (tab : HistoryTab A) :
    ∃ url, HistoryTab.reported base url = e.path ∧ tab.edit elsewhere base e =
      match e with
      | .push _ => { tab with current := url, behind := tab.current :: tab.behind, ahead := [] }
      | .replace _ => { tab with current := url } := by
  obtain ⟨hrooted, hwritten⟩ := hfits
  obtain ⟨url, hparse, hscheme, hauthority, hshown⟩ := hwritten.parse elsewhere tab.current
  refine ⟨url, ?_, ?_⟩
  · have hback := BrowserHistory.toApplicationPath_toBrowserPath base hrooted
    rw [BrowserHistory.toBrowserPath] at hback
    rw [HistoryTab.reported, hshown, hback, String.ofList_toList]
  · cases e with
    | push path | replace path =>
      rw [HistoryTab.edit, BrowserHistory.toBrowserPath, hparse]
      exact if_pos ⟨hscheme, hauthority⟩

section
variable (h : Follows base desktop tab)
include h

theorem edit {e : HistoryEdit} (hfits : IsShown base e.path) :
    Follows base { desktop with history := desktop.history.edit e } (tab.edit elsewhere base e) := by
  obtain ⟨url, hreported, htab⟩ := edit_tab hfits tab
  rw [htab]
  cases e with
  | push path =>
    have htaken : desktop.history.stack.take (desktop.history.index + 1) =
        (tab.behind.reverse ++ [tab.current]).map (HistoryTab.reported base) := by
      rw [h.stack, h.index, ← map_take, append_cons, take_left' (by simp)]
    refine ⟨?_, ?_, h.popped⟩
    · dsimp only [BrowserHistory.edit, BrowserHistory.push]
      have hnewest : (tab.behind.reverse ++ [tab.current] ++ [url]).map (HistoryTab.reported base) =
          (tab.behind.reverse ++ [tab.current]).map (HistoryTab.reported base) ++ [HistoryTab.reported base url] := map_append
      rw [htaken, reverse_cons, hnewest, hreported]
      rfl
    · dsimp only [BrowserHistory.edit, BrowserHistory.push]
      rw [htaken]
      simp
  | replace path =>
    have hsome : desktop.history.stack.isEmpty = false := by
      rw [h.stack]
      simp
    dsimp only [BrowserHistory.edit]
    rw [BrowserHistory.replace, hsome, if_neg Bool.false_ne_true]
    refine ⟨?_, h.index, h.popped⟩
    dsimp only
    rw [h.stack, h.index, map_append, map_append, map_cons, map_cons, hreported, set_append_right _ _ (by simp)]
    simp [HistoryEdit.path]

theorem edits {edits : List HistoryEdit} (hfits : ∀ e ∈ edits, IsShown base e.path) :
    Follows base { desktop with history := edits.foldl BrowserHistory.edit desktop.history } (edits.foldl (HistoryTab.edit elsewhere base) tab) := by
  induction edits generalizing desktop tab with
  | nil => exact h
  | cons e edits ih =>
    obtain ⟨hfirst, hrest⟩ := forall_mem_cons.mp hfits
    exact ih (h.edit hfirst) hrest

omit [DecidableEq A] in
theorem moved_back :
    (desktop.history.index = 0 ∧ tab.moved .back = none) ∨
      ∃ landed, 0 < desktop.history.index ∧ tab.moved .back = some landed ∧
        Follows base { desktop with history := { desktop.history with index := desktop.history.index - 1 } } landed := by
  obtain ⟨hstack, hindex, hpopped⟩ := h
  obtain ⟨current, behind, ahead, pending, popped⟩ := tab
  cases behind with
  | nil => exact .inl ⟨hindex, rfl⟩
  | cons url behind =>
    refine .inr ⟨_, by rw [hindex]; exact Nat.succ_pos _, rfl, ?_, ?_, hpopped⟩
    · rw [hstack]
      simp
    · rw [hindex]
      rfl

omit [DecidableEq A] in
theorem moved_forward :
    (¬ desktop.history.index + 1 < desktop.history.stack.length ∧ tab.moved .forward = none) ∨
      ∃ landed, desktop.history.index + 1 < desktop.history.stack.length ∧ tab.moved .forward = some landed ∧
        Follows base { desktop with history := { desktop.history with index := desktop.history.index + 1 } } landed := by
  obtain ⟨hstack, hindex, hpopped⟩ := h
  obtain ⟨current, behind, ahead, pending, popped⟩ := tab
  have hlength := congrArg List.length hstack
  cases ahead with
  | nil =>
    refine .inl ⟨?_, rfl⟩
    rw [hlength, hindex]
    simp
  | cons url ahead =>
    refine .inr ⟨_, ?_, rfl, ?_, ?_, hpopped⟩
    · rw [hlength, hindex]
      simp
    · rw [hstack]
      simp
    · rw [hindex]
      rfl

end

/-- The move that the browser makes when it gets to it is the one the desktop has made, with what the handler did. -/
theorem traverse {move : HistoryMove} {pending : List HistoryMove} (hpending : tab.pending = move :: pending) {landed : HistoryTab A}
    (hmoved : tab.moved move = some landed) {history : BrowserHistory}
    (h : Follows base { desktop with history := history } landed)
    (hfits : ∀ e ∈ handler (desktop.popped ++ [history.currentPath]), IsShown base e.path) :
    Follows base (DesktopHistory.notifyPopped handler { desktop with history := history }) (tab.traverse elsewhere base handler) := by
  have hcurrent := h.currentPath_eq
  have hsame : desktop.popped = landed.popped := h.popped
  rw [HistoryTab.traverse, hpending]
  dsimp only
  rw [hmoved]
  dsimp only
  dsimp only at hcurrent
  rw [← hsame, ← hcurrent]
  have hpopped : Follows base ⟨history, desktop.popped ++ [history.currentPath]⟩
      { landed with pending := pending, popped := desktop.popped ++ [history.currentPath] } := ⟨h.stack, h.index, rfl⟩
  exact hpopped.edits hfits

end Follows

/-- What a step asks: the browser is not in the middle of a move, and what is pushed, put in place, or answered to a
popped path fits. -/
def Waits (base : List Char) (handler : List QString → List HistoryEdit) (s : Histories A) : HistoryInput → Prop
  | .edit e => s.tab.pending = [] ∧ IsShown base e.path
  | .back => s.tab.pending = [] ∧ ∀ e ∈ handler (s.desktop.popped ++
      [BrowserHistory.currentPath { s.desktop.history with index := s.desktop.history.index - 1 }]), IsShown base e.path
  | .forward => s.tab.pending = [] ∧ ∀ e ∈ handler (s.desktop.popped ++
      [BrowserHistory.currentPath { s.desktop.history with index := s.desktop.history.index + 1 }]), IsShown base e.path
  | .traverse => True

/-- The builds follow each other, at once or when the browser has made the one move it was asked for. -/
def Together (elsewhere : List Char → Option (Url A)) (base : List Char) (handler : List QString → List HistoryEdit) (s : Histories A) : Prop :=
  s.tab.pending = [] ∧ Follows base s.desktop s.tab ∨
    s.tab.pending.length = 1 ∧ Follows base s.desktop (s.tab.traverse elsewhere base handler)

private theorem pending_edit (tab : HistoryTab A) (e : HistoryEdit) : (tab.edit elsewhere base e).pending = tab.pending := by
  rw [HistoryTab.edit]
  split
  · rfl
  · split
    · cases e <;> rfl
    · rfl

private theorem pending_traverse (tab : HistoryTab A) : (tab.traverse elsewhere base handler).pending = tab.pending.tail := by
  have hedits (edits : List HistoryEdit) (tab : HistoryTab A) : (edits.foldl (HistoryTab.edit elsewhere base) tab).pending = tab.pending := by
    induction edits generalizing tab with
    | nil => rfl
    | cons e edits ih => exact (ih _).trans (pending_edit tab e)
  rw [HistoryTab.traverse]
  split
  · next hpending => rw [hpending]; rfl
  · next move pending hpending =>
    rw [hpending]
    split
    · rfl
    · exact hedits _ _

theorem together_step (h : Together elsewhere base handler s) {input : HistoryInput} (hwaits : Waits base handler s input) :
    Together elsewhere base handler (s.step elsewhere base handler input) := by
  cases input with
  | edit e =>
    obtain ⟨hidle, hfits⟩ := hwaits
    obtain ⟨-, hfollows⟩ | ⟨hone, -⟩ := h
    · exact .inl ⟨(pending_edit _ _).trans hidle, hfollows.edit hfits⟩
    · rw [hidle] at hone
      cases hone
  | back =>
    obtain ⟨hidle, hfits⟩ := hwaits
    obtain ⟨-, hfollows⟩ | ⟨hone, -⟩ := h
    swap
    · rw [hidle] at hone
      cases hone
    refine .inr ⟨by rw [step, hidle]; rfl, ?_⟩
    have hasked : Follows base s.desktop { s.tab with pending := s.tab.pending ++ [.back] } := ⟨hfollows.stack, hfollows.index, hfollows.popped⟩
    have hpending : ({ s.tab with pending := s.tab.pending ++ [.back] } : HistoryTab A).pending = .back :: [] := by rw [hidle]; rfl
    obtain ⟨hzero, hnone⟩ | ⟨landed, hpos, hmoved, hlanded⟩ := hasked.moved_back
    · rw [step, DesktopHistory.back, if_neg (by omega), HistoryTab.traverse, hpending]
      dsimp only
      rw [hnone]
      exact ⟨hfollows.stack, hfollows.index, hfollows.popped⟩
    · rw [step, DesktopHistory.back, if_pos hpos]
      exact Follows.traverse hpending hmoved hlanded hfits
  | forward =>
    obtain ⟨hidle, hfits⟩ := hwaits
    obtain ⟨-, hfollows⟩ | ⟨hone, -⟩ := h
    swap
    · rw [hidle] at hone
      cases hone
    refine .inr ⟨by rw [step, hidle]; rfl, ?_⟩
    have hasked : Follows base s.desktop { s.tab with pending := s.tab.pending ++ [.forward] } := ⟨hfollows.stack, hfollows.index, hfollows.popped⟩
    have hpending : ({ s.tab with pending := s.tab.pending ++ [.forward] } : HistoryTab A).pending = .forward :: [] := by rw [hidle]; rfl
    obtain ⟨hend, hnone⟩ | ⟨landed, hlt, hmoved, hlanded⟩ := hasked.moved_forward
    · rw [step, DesktopHistory.forward, if_neg hend, HistoryTab.traverse, hpending]
      dsimp only
      rw [hnone]
      exact ⟨hfollows.stack, hfollows.index, hfollows.popped⟩
    · rw [step, DesktopHistory.forward, if_pos hlt]
      exact Follows.traverse hpending hmoved hlanded hfits
  | traverse =>
    obtain ⟨hidle, hfollows⟩ | ⟨hone, hfollows⟩ := h
    · have hstays : s.tab.traverse elsewhere base handler = s.tab := by
        rw [HistoryTab.traverse, hidle]
      rw [step, hstays]
      exact .inl ⟨hidle, hfollows⟩
    · refine .inl ⟨?_, hfollows⟩
      rw [step, pending_traverse]
      exact eq_nil_of_length_eq_zero (by rw [length_tail, hone])

/-- An application opened at a location, and on the desktop at the path that the location stands for. -/
def opened (base : List Char) (start : Url A) : Histories A where
  desktop := { history := { stack := [String.ofList (applicationPathOf base start.pathname start.search)] } }
  tab := { current := start }

/-- Once the browser has made its moves, both builds are on one path and have told of the same ones. -/
def Agree (base : List Char) (s : Histories A) : Prop :=
  s.tab.pending = [] → s.tab.currentPath base = s.desktop.history.currentPath ∧ s.tab.popped = s.desktop.popped

omit [DecidableEq A] in
theorem search_head (url : Url A) : url.search = [] ∨ url.search.head? = some '?' := by
  rw [Url.search]
  split
  · exact .inl rfl
  · split
    · exact .inl rfl
    · exact .inr rfl

omit [DecidableEq A] in
theorem agree_opened_iff {base : List Char} {start : Url A} (hunder : UnderBase base start.pathname) :
    Agree base (opened base start) ↔ ¬ (base ≠ ['/'] ∧ start.pathname = base ∧ start.search ≠ []) := by
  rw [← BrowserHistory.toApplicationPath_iff base hunder (search_head start)]
  constructor
  · intro h
    exact String.ofList_injective (h rfl).1
  · intro h _
    exact ⟨congrArg String.ofList h, rfl⟩

/-- The builds agree at the start unless a query stands right behind a base that is no slash. Then, in every run
that asks the browser for one move at a time and in which every path is shown as it is, they agree throughout; and in
every run whatever the desktop's visitor is on an entry of the stack. -/
theorem histories_agree (elsewhere : List Char → Option (Url A)) (base : List Char) (handler : List QString → List HistoryEdit)
    (start : Url A) (hunder : UnderBase (BrowserHistory.normalizedBase base) start.pathname) :
    let base := BrowserHistory.normalizedBase base
    (Agree base (opened base start) ↔ ¬ (base ≠ ['/'] ∧ start.pathname = base ∧ start.search ≠ [])) ∧
    ∀ inputs, (run (step elsewhere base handler) (opened base start) inputs).desktop.history.InRange ∧
      (¬ (base ≠ ['/'] ∧ start.pathname = base ∧ start.search ≠ []) →
        Each (step elsewhere base handler) (Waits base handler) (opened base start) inputs →
        Agree base (run (step elsewhere base handler) (opened base start) inputs)) := by
  refine ⟨agree_opened_iff hunder, fun inputs => ⟨?_, fun hbare hwaits hidle => ?_⟩⟩
  · have hfirst : (opened (BrowserHistory.normalizedBase base) start).desktop.history.InRange := Nat.zero_lt_one
    exact run_invariant (fun s : Histories A => s.desktop.history.InRange) (fun _ input h => inRange_step h input) hfirst inputs
  · have hstart := (agree_opened_iff hunder).mpr hbare rfl
    have hfollows : Follows (BrowserHistory.normalizedBase base) (opened (BrowserHistory.normalizedBase base) start).desktop
        (opened (BrowserHistory.normalizedBase base) start).tab := ⟨congrArg (fun path => [path]) hstart.1.symm, rfl, rfl⟩
    have htogether := hwaits.invariant (Together elsewhere (BrowserHistory.normalizedBase base) handler)
      (fun _ _ h hok => together_step h hok) (.inl ⟨rfl, hfollows⟩)
    obtain ⟨-, hend⟩ | ⟨hone, -⟩ := htogether
    · exact ⟨hend.currentPath_eq.symm, hend.popped.symm⟩
    · rw [hidle] at hone
      cases hone

instance (base pathname : List Char) : Decidable (UnderBase base pathname) :=
  inferInstanceAs (Decidable (if base = ['/'] then pathname.head? = some '/' else pathname = base ∨ base ++ ['/'] <+: pathname))

instance : DecidablePred Url.IsPlainSegment := fun segment =>
  haveI : Decidable (∀ c ∈ segment, Url.isInner c = true ∧ Url.inPathSet c = false) := List.decidableBAll _ segment
  inferInstanceAs (Decidable (_ ∧ _))

instance : DecidablePred IsWritten := fun text =>
  haveI : Decidable (∀ c ∈ (text.dropWhile (· != '?')).tail, Url.inSpecialQuerySet c = false) := List.decidableBAll _ _
  inferInstanceAs (Decidable (_ ∧ _ ∧ _ ∧ _))

instance (base : List Char) (path : QString) : Decidable (IsShown base path) := inferInstanceAs (Decidable (_ ∧ _))

instance (base : List Char) (handler : List QString → List HistoryEdit) (s : Histories A) : (input : HistoryInput) →
    Decidable (Waits base handler s input)
  | .edit _ => inferInstanceAs (Decidable (_ ∧ _))
  | .back => inferInstanceAs (Decidable (_ ∧ _))
  | .forward => inferInstanceAs (Decidable (_ ∧ _))
  | .traverse => inferInstanceAs (Decidable True)

def cart : Url Unit := ⟨"https".toList, (), ["shop".toList, "cart".toList], some "from=mail".toList, none⟩

/-- A guard that sends every visitor who goes back to the front page. -/
def sentHome (_ : List QString) : List HistoryEdit := [.replace "/"]

theorem histories_agree_cart : Agree (BrowserHistory.normalizedBase "/shop/".toList)
    (run (step (fun _ => none) (BrowserHistory.normalizedBase "/shop/".toList) sentHome)
      (opened (BrowserHistory.normalizedBase "/shop/".toList) cart) [.edit (.push "/c/summer?page=2"), .back, .traverse, .forward, .traverse]) :=
  ((histories_agree (fun _ => none) "/shop/".toList sentHome cart (by decide +kernel)).2 _).2
    (by decide +kernel) (by decide +kernel)

/-- The base itself with a query behind it. -/
theorem histories_part : ¬ Agree "/shop".toList (opened "/shop".toList
    (⟨"https".toList, (), ["shop".toList], some "from=mail".toList, none⟩ : Url Unit)) := by
  rw [agree_opened_iff (by decide +kernel)]
  decide +kernel

end Histories
end SynQt
