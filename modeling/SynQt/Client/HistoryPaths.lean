import SynQt.Client.ResumeTarget

/-! The client's history in its two builds: the stack that a desktop keeps, and the session history of a browser's
tab, with the paths of the application translated to it and back. -/
namespace SynQt
open Lib

/-- What the handler of a popped path may do to the history. -/
inductive HistoryEdit where
  | push (path : QString)
  | replace (path : QString)
deriving DecidableEq

namespace HistoryEdit

def path : HistoryEdit → QString
  | .push path => path
  | .replace path => path

end HistoryEdit

namespace BrowserHistory

def normalizedBase (base : List Char) : List Char :=
  let rooted := if base.head? = some '/' then base else '/' :: base
  '/' :: rooted.tail.rdropWhile (· == '/')

def toBrowserPath (base applicationPath : List Char) : List Char :=
  if base = ['/'] then applicationPath else base ++ applicationPath

def toApplicationPath (base browserPath : List Char) : List Char :=
  if base = ['/'] then (if browserPath.isEmpty then ['/'] else browserPath)
  else if browserPath = base then ['/']
  else if (base ++ ['/']).isPrefixOf browserPath then browserPath.drop base.length
  else browserPath

def edit (history : BrowserHistory) : HistoryEdit → BrowserHistory
  | .push path => history.push path
  | .replace path => history.replace path

end BrowserHistory

structure DesktopHistory where
  history : BrowserHistory
  popped : List QString := []

namespace DesktopHistory
variable (handler : List QString → List HistoryEdit)

/-- The handler may edit the history that it is told of. -/
def notifyPopped (s : DesktopHistory) : DesktopHistory :=
  let popped := s.popped ++ [s.history.currentPath]
  ⟨(handler popped).foldl BrowserHistory.edit s.history, popped⟩

def back (s : DesktopHistory) : DesktopHistory :=
  if s.history.index > 0 then notifyPopped handler { s with history := { s.history with index := s.history.index - 1 } } else s

def forward (s : DesktopHistory) : DesktopHistory :=
  if s.history.index + 1 < s.history.stack.length then
    notifyPopped handler { s with history := { s.history with index := s.history.index + 1 } }
  else s

end DesktopHistory

inductive HistoryMove where
  | back
  | forward
deriving DecidableEq

/-- A tab: the entry it is on, those behind and ahead of it, the nearest first, the moves that the browser has been
asked for and has not made, and the paths that have been reported as popped. -/
structure HistoryTab (A : Type) where
  current : Url A
  behind : List (Url A) := []
  ahead : List (Url A) := []
  pending : List HistoryMove := []
  popped : List QString := []

namespace HistoryTab
variable {A : Type}

/-- The application's path of an address. -/
def reported (base : List Char) (url : Url A) : QString :=
  String.ofList (BrowserHistory.toApplicationPath base (url.pathname ++ url.search))

def currentPath (base : List Char) (tab : HistoryTab A) : QString := reported base tab.current

/-- A move that leads nowhere is none. -/
def moved (tab : HistoryTab A) : HistoryMove → Option (HistoryTab A)
  | .back =>
    match tab.behind with
    | [] => none
    | url :: behind => some { tab with current := url, behind := behind, ahead := tab.current :: tab.ahead }
  | .forward =>
    match tab.ahead with
    | [] => none
    | url :: ahead => some { tab with current := url, behind := tab.current :: tab.behind, ahead := ahead }

section
variable [DecidableEq A] (elsewhere : List Char → Option (Url A)) (base : List Char)

/-- `pushState` and `replaceState`: a reference is read where the tab is, and one that leads to another origin is
refused. -/
def edit (tab : HistoryTab A) (e : HistoryEdit) : HistoryTab A :=
  match Url.parse elsewhere tab.current (BrowserHistory.toBrowserPath base e.path.toList) with
  | none => tab
  | some url =>
    if url.scheme = tab.current.scheme ∧ url.authority = tab.current.authority then
      match e with
      | .push _ => { tab with current := url, behind := tab.current :: tab.behind, ahead := [] }
      | .replace _ => { tab with current := url }
    else tab

/-- The browser makes the first move it was asked for, and tells of it. -/
def traverse (handler : List QString → List HistoryEdit) (tab : HistoryTab A) : HistoryTab A :=
  match tab.pending with
  | [] => tab
  | move :: pending =>
    match tab.moved move with
    | none => { tab with pending := pending }
    | some tab =>
      let popped := tab.popped ++ [tab.currentPath base]
      (handler popped).foldl (edit elsewhere base) { tab with pending := pending, popped := popped }

end
end HistoryTab

inductive HistoryInput where
  | edit (e : HistoryEdit)
  | back
  | forward
  /-- The browser gets to a move it was asked for. -/
  | traverse

/-- One application in both builds. -/
structure Histories (A : Type) where
  desktop : DesktopHistory
  tab : HistoryTab A

namespace Histories
variable {A : Type} [DecidableEq A] (elsewhere : List Char → Option (Url A)) (base : List Char)
  (handler : List QString → List HistoryEdit)

def step (s : Histories A) : HistoryInput → Histories A
  | .edit e => ⟨{ s.desktop with history := s.desktop.history.edit e }, s.tab.edit elsewhere base e⟩
  | .back => ⟨s.desktop.back handler, { s.tab with pending := s.tab.pending ++ [.back] }⟩
  | .forward => ⟨s.desktop.forward handler, { s.tab with pending := s.tab.pending ++ [.forward] }⟩
  | .traverse => ⟨s.desktop, s.tab.traverse elsewhere base handler⟩

end Histories

/-- Where a client is opened under its base: at the base itself, or below it. -/
def UnderBase (base pathname : List Char) : Prop :=
  if base = ['/'] then pathname.head? = some '/' else pathname = base ∨ base ++ ['/'] <+: pathname

def applicationPathOf (base pathname search : List Char) : List Char :=
  let path := if base = ['/'] then pathname else pathname.drop base.length
  (if path.isEmpty then ['/'] else path) ++ search

end SynQt
