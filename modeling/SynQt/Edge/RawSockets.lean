import SynQt.Edge.Connections

/-! The raw sockets an edge holds, from accept to teardown: how many there are, and the two tables
that know a socket by the address and port of its peer. A socket given to an IO thread is destroyed
there, and what its handlers have to do is posted to the edge. -/
namespace SynQt
open Lib List

inductive Clock where
  | running
  | stopped
  | leaving
  | destroyed
  deriving DecidableEq

/-- What the handlers of a socket capture. The number is the order of acceptance; the other two say
where the socket and its timer lie in memory. -/
structure Captured where
  number : Nat
  key : QString
  address : QString
  perAddress : Bool
  socket : Nat
  timer : Nat
  deriving DecidableEq

structure TrackedSocket extends Captured where
  clock : Clock
  connected : Bool
  moved : Bool
  deriving DecidableEq

inductive Handler where
  | timedOut (c : Captured)
  | timerDestroyed (c : Captured)
  | tagDestroyed (c : Captured)
  deriving DecidableEq

def Handler.captured : Handler → Captured
  | timedOut c | timerDestroyed c | tagDestroyed c => c

def Handler.teardown : Handler → Option Captured
  | .tagDestroyed c => some c
  | _ => none

structure RawSockets where
  socketsGlobal : Int := 0
  socketsPerIp : Hash QString Int := ∅
  /-- A plain pointer to a timer. -/
  pendingTimers : Hash QString Nat := ∅
  /-- A guarded pointer, which follows one socket: its number. -/
  pendingRawSockets : Hash QString Nat := ∅
  sockets : List TrackedSocket := []
  posted : List Handler := []
  accepted : Nat := 0

inductive SocketEvent where
  /-- The socket and its timer are put where the allocator says. -/
  | accepted (peer : Peer) (socket timer : Nat)
  | readyRead (number : Nat)
  | timeout (number : Nat)
  | verifyUpgrade (address : QString) (port : Nat)
  | hostConnection (address : QString) (port : Nat) (threaded : Bool)
  | disconnected (number : Nat)
  /-- The event loop reaches the deferred deletion of a timer. -/
  | timerDeleted (number : Nat)
  | destroyed (number : Nat)
  | delivered

namespace RawSockets

def SocketsPerLink : Int := 8

def globalCeiling (cfg : WebEdgeConfig) : Int := cfg.maxConnectionsGlobal * SocketsPerLink
def perIpCeiling (cfg : WebEdgeConfig) : Int := cfg.maxConnectionsPerIp * SocketsPerLink

/-- A socket over a ceiling is aborted, and nothing else is done about it. -/
def trackPendingUpgrade (cfg : WebEdgeConfig) (s : RawSockets) (peer : Peer) (socket timer : Nat) : RawSockets :=
  let address := peer.normalized.val
  let perAddress := !cfg.trusted peer.normalized
  if globalCeiling cfg ≤ s.socketsGlobal ∨
      (perAddress = true ∧ perIpCeiling cfg ≤ (s.socketsPerIp.find address).getD 0) then s
  else
    { s with
      socketsGlobal := s.socketsGlobal + 1
      socketsPerIp :=
        if perAddress then s.socketsPerIp.insert address ((s.socketsPerIp.find address).getD 0 + 1) else s.socketsPerIp
      pendingTimers := s.pendingTimers.insert peer.key timer
      pendingRawSockets := s.pendingRawSockets.insert peer.key s.accepted
      sockets := s.sockets ++ [⟨⟨s.accepted, peer.key, address, perAddress, socket, timer⟩, .running, true, false⟩]
      accepted := s.accepted + 1 }

def find (s : RawSockets) (number : Nat) : Option TrackedSocket := s.sockets.find? (·.number == number)

def update (s : RawSockets) (number : Nat) (f : TrackedSocket → TrackedSocket) : RawSockets :=
  { s with sockets := s.sockets.map fun t => if t.number = number then f t else t }

def TrackedSocket.abort (t : TrackedSocket) : TrackedSocket := { t with connected := false }

/-- The entry under the key goes, whichever timer it names. -/
def timedOut (s : RawSockets) (c : Captured) : RawSockets :=
  ({ s with pendingTimers := s.pendingTimers.erase c.key }).update c.number TrackedSocket.abort

def timerDestroyed (s : RawSockets) (c : Captured) : RawSockets :=
  if s.pendingTimers.find c.key = some c.timer then { s with pendingTimers := s.pendingTimers.erase c.key } else s

/-- Where the socket lies that the entry of the key follows, as long as it is alive. -/
def held (s : RawSockets) (key : QString) : Option Nat :=
  ((s.pendingRawSockets.find key).bind s.find).map (·.socket)

def tagDestroyed (s : RawSockets) (c : Captured) : RawSockets :=
  let count := (s.socketsPerIp.find c.address).getD 0 - 1
  { s with
    pendingRawSockets :=
      if s.held c.key = none ∨ s.held c.key = some c.socket then s.pendingRawSockets.erase c.key
      else s.pendingRawSockets
    socketsGlobal := s.socketsGlobal - 1
    socketsPerIp :=
      if c.perAddress then
        if count ≤ 0 then s.socketsPerIp.erase c.address else s.socketsPerIp.insert c.address count
      else s.socketsPerIp }

def handle (s : RawSockets) : Handler → RawSockets
  | .timedOut c => s.timedOut c
  | .timerDestroyed c => s.timerDestroyed c
  | .tagDestroyed c => s.tagDestroyed c

/-- A handler runs at once on the thread of the edge, and is posted to it from another. -/
def notify (s : RawSockets) (moved : Bool) (h : Handler) : RawSockets :=
  if moved then { s with posted := s.posted ++ [h] } else s.handle h

def readyRead (s : RawSockets) (number : Nat) : RawSockets :=
  s.update number fun t => if t.clock = .running then { t with clock := .stopped } else t

def timeout (s : RawSockets) (number : Nat) : RawSockets :=
  match s.find number with
  | none => s
  | some t =>
    if t.clock = .running then
      (s.update number fun t => { t with clock := .stopped }).notify t.moved (.timedOut t.toCaptured)
    else s

/-- The timer the entry names is stopped and its deletion deferred. -/
def verifyUpgrade (s : RawSockets) (address : QString) (port : Nat) : RawSockets :=
  match s.pendingTimers.find (peerKey address port) with
  | none => s
  | some timer =>
    { s with
      pendingTimers := s.pendingTimers.erase (peerKey address port)
      sockets := s.sockets.map fun t =>
        if t.timer = timer ∧ t.clock ≠ .destroyed then { t with clock := .leaving } else t }

/-- Of `hostConnection` and its `carry`, what they do to the raw socket under the key. -/
def hostConnection (s : RawSockets) (address : QString) (port : Nat) (threaded : Bool) : RawSockets :=
  let raw := s.pendingRawSockets.find (peerKey address port)
  let s := { s with pendingRawSockets := s.pendingRawSockets.erase (peerKey address port) }
  match raw with
  | none => s
  | some number => s.update number fun t => { t with moved := t.moved || threaded }

def timerDeleted (s : RawSockets) (number : Nat) : RawSockets :=
  match s.find number with
  | none => s
  | some t =>
    if t.clock = .leaving then
      (s.update number fun t => { t with clock := .destroyed }).notify t.moved (.timerDestroyed t.toCaptured)
    else s

/-- Guarded pointers to the socket are cleared first; its children go in the order they were made. -/
def destroyed (s : RawSockets) (number : Nat) : RawSockets :=
  match s.find number with
  | none => s
  | some t =>
    let s := { s with sockets := s.sockets.filter (·.number != number) }
    let s := if t.clock = .destroyed then s else s.notify t.moved (.timerDestroyed t.toCaptured)
    s.notify t.moved (.tagDestroyed t.toCaptured)

def delivered (s : RawSockets) : RawSockets :=
  match s.posted with
  | [] => s
  | h :: posted => ({ s with posted := posted } : RawSockets).handle h

def step (cfg : WebEdgeConfig) (s : RawSockets) : SocketEvent → RawSockets
  | .accepted peer socket timer => s.trackPendingUpgrade cfg peer socket timer
  | .readyRead number => s.readyRead number
  | .timeout number => s.timeout number
  | .verifyUpgrade address port => s.verifyUpgrade address port
  | .hostConnection address port threaded => s.hostConnection address port threaded
  | .disconnected number => s.update number TrackedSocket.abort
  | .timerDeleted number => s.timerDeleted number
  | .destroyed number => s.destroyed number
  | .delivered => s.delivered

/-- Destroyed on an IO thread, and the edge has not got to it. -/
def waiting (s : RawSockets) : List Captured := s.posted.filterMap Handler.teardown

def tracked (s : RawSockets) : List Captured := s.sockets.map TrackedSocket.toCaptured ++ s.waiting

def countAt (l : List Captured) (address : QString) : Nat := l.countP fun c => c.perAddress && c.address == address

/-- The two counts are those of the list, which is within the ceilings. -/
structure Accounted (cfg : WebEdgeConfig) (s : RawSockets) (l : List Captured) : Prop where
  global : s.socketsGlobal = l.length
  perIp : ∀ address, s.socketsPerIp.find address = if countAt l address = 0 then none else some (countAt l address : Int)
  underGlobal : (l.length : Int) ≤ max 0 (globalCeiling cfg)
  underPerIp : ∀ address, (countAt l address : Int) ≤ max 0 (perIpCeiling cfg)

variable {cfg : WebEdgeConfig} {s s' : RawSockets} {l l' : List Captured}

private theorem countAt_cons_own {c : Captured} (hper : c.perAddress = true) (l : List Captured) :
    countAt (c :: l) c.address = countAt l c.address + 1 := by
  simp [countAt, hper]

private theorem countAt_cons_other {c : Captured} {address : QString} (hother : ¬(c.perAddress = true ∧ c.address = address))
    (l : List Captured) : countAt (c :: l) address = countAt l address :=
  countP_cons_of_neg (by simpa using hother)

private theorem countAt_le_cons (c : Captured) (l : List Captured) (address : QString) :
    countAt l address ≤ countAt (c :: l) address :=
  (sublist_cons_self c l).countP_le

namespace Accounted

theorem perm (h : Accounted cfg s l) (hperm : l.Perm l') : Accounted cfg s l' := by
  have hcount (address : QString) : countAt l' address = countAt l address := (hperm.countP_eq _).symm
  refine ⟨?_, fun address => ?_, ?_, fun address => ?_⟩
  · rw [h.global, hperm.length_eq]
  · rw [hcount, h.perIp]
  · rw [← hperm.length_eq]
    exact h.underGlobal
  · rw [hcount]
    exact h.underPerIp address

theorem congr (h : Accounted cfg s l) (hglobal : s'.socketsGlobal = s.socketsGlobal)
    (hperIp : s'.socketsPerIp = s.socketsPerIp) : Accounted cfg s' l :=
  ⟨hglobal.trans h.global, fun address => by rw [hperIp, h.perIp], h.underGlobal, h.underPerIp⟩

theorem count (h : Accounted cfg s l) (address : QString) :
    (s.socketsPerIp.find address).getD 0 = countAt l address := by
  rw [h.perIp]
  split
  · rename_i hzero
    rw [hzero]
    rfl
  · rfl

theorem tagDestroyed {c : Captured} (h : Accounted cfg s (c :: l)) : Accounted cfg (s.tagDestroyed c) l := by
  have hglobal := h.global
  have hunder := h.underGlobal
  rw [length_cons] at hglobal hunder
  refine ⟨?_, fun address => ?_, ?_, fun address => ?_⟩
  · show s.socketsGlobal - 1 = l.length
    omega
  · have hcount := h.count c.address
    have hfind := h.perIp address
    rw [RawSockets.tagDestroyed, hcount]
    by_cases hhit : c.perAddress = true ∧ c.address = address
    · obtain ⟨hper, rfl⟩ := hhit
      rw [countAt_cons_own hper] at hcount ⊢
      simp only [if_pos hper]
      by_cases hnone : countAt l c.address = 0
      · rw [if_pos (by omega), if_pos hnone, Hash.find_erase, if_pos rfl]
      · rw [if_neg (by omega), if_neg hnone, Hash.find_insert, if_pos rfl]
        congr 1
        omega
    · rw [countAt_cons_other hhit] at hfind
      rw [← hfind]
      simp only
      split
      · rename_i hper
        have haddress : address ≠ c.address := fun heq => hhit ⟨hper, heq.symm⟩
        split
        · rw [Hash.find_erase, if_neg haddress]
        · rw [Hash.find_insert, if_neg haddress]
      · rfl
  · omega
  · have hone := h.underPerIp address
    have hle := countAt_le_cons c l address
    omega

end Accounted

theorem trackPendingUpgrade_cases (cfg : WebEdgeConfig) (s : RawSockets) (peer : Peer) (socket timer : Nat) :
    s.trackPendingUpgrade cfg peer socket timer = s ∨
    ∃ c : Captured, c.number = s.accepted ∧ c.key = peer.key ∧ c.socket = socket ∧ c.timer = timer ∧
      s.socketsGlobal < globalCeiling cfg ∧
      (c.perAddress = true → (s.socketsPerIp.find c.address).getD 0 < perIpCeiling cfg) ∧
      s.trackPendingUpgrade cfg peer socket timer =
        { s with
          socketsGlobal := s.socketsGlobal + 1
          socketsPerIp :=
            if c.perAddress then s.socketsPerIp.insert c.address ((s.socketsPerIp.find c.address).getD 0 + 1)
            else s.socketsPerIp
          pendingTimers := s.pendingTimers.insert c.key c.timer
          pendingRawSockets := s.pendingRawSockets.insert c.key c.number
          sockets := s.sockets ++ [⟨c, .running, true, false⟩]
          accepted := s.accepted + 1 } := by
  rw [trackPendingUpgrade]
  split
  · exact .inl rfl
  · rename_i hroom
    obtain ⟨hglobal, hperIp⟩ := not_or.mp hroom
    refine .inr ⟨⟨s.accepted, peer.key, peer.normalized.val, !cfg.trusted peer.normalized, socket, timer⟩,
      rfl, rfl, rfl, rfl, Int.not_le.mp hglobal, fun hper => ?_, rfl⟩
    exact Int.not_le.mp fun hfull => hperIp ⟨hper, hfull⟩

theorem Accounted.accept {c : Captured} (h : Accounted cfg s l) (hglobal : s.socketsGlobal < globalCeiling cfg)
    (hperIp : c.perAddress = true → (s.socketsPerIp.find c.address).getD 0 < perIpCeiling cfg)
    (hcount : s'.socketsGlobal = s.socketsGlobal + 1)
    (hcounts : s'.socketsPerIp =
      if c.perAddress then s.socketsPerIp.insert c.address ((s.socketsPerIp.find c.address).getD 0 + 1)
      else s.socketsPerIp) : Accounted cfg s' (c :: l) := by
  have hlength := h.global
  refine ⟨?_, fun address => ?_, ?_, fun address => ?_⟩
  · rw [hcount, hlength, length_cons]
    omega
  · have hfind := h.perIp address
    have hown := h.count c.address
    rw [hcounts]
    by_cases hhit : c.perAddress = true ∧ c.address = address
    · obtain ⟨hper, rfl⟩ := hhit
      rw [if_pos hper, Hash.find_insert, if_pos rfl, hown, countAt_cons_own hper, if_neg (Nat.succ_ne_zero _)]
      rfl
    · rw [countAt_cons_other hhit, ← hfind]
      split
      · rename_i hper
        rw [Hash.find_insert, if_neg fun heq => hhit ⟨hper, heq.symm⟩]
      · rfl
  · rw [length_cons]
    omega
  · have hunder := h.underPerIp address
    have hown := h.count c.address
    by_cases hhit : c.perAddress = true ∧ c.address = address
    · obtain ⟨hper, rfl⟩ := hhit
      have hroom := hperIp hper
      rw [countAt_cons_own hper]
      omega
    · rw [countAt_cons_other hhit]
      exact hunder

private theorem update_tracked (s : RawSockets) (number : Nat) {f : TrackedSocket → TrackedSocket}
    (hf : ∀ t, (f t).toCaptured = t.toCaptured) : (s.update number f).tracked = s.tracked := by
  have hsame : (s.update number f).sockets.map TrackedSocket.toCaptured = s.sockets.map TrackedSocket.toCaptured := by
    simp only [update, map_map]
    refine map_congr_left fun t _ => ?_
    simp only [Function.comp]
    split
    · exact hf t
    · rfl
  rw [tracked, hsame]
  rfl

theorem Accounted.update (h : Accounted cfg s s.tracked) (number : Nat) {f : TrackedSocket → TrackedSocket}
    (hf : ∀ t, (f t).toCaptured = t.toCaptured) : Accounted cfg (s.update number f) (s.update number f).tracked := by
  rw [update_tracked s number hf]
  exact h.congr rfl rfl

/-- A handler that is no teardown leaves the counts and the sockets as they are. -/
theorem handle_other {h : Handler} (hother : h.teardown = none) (s : RawSockets) :
    (s.handle h).socketsGlobal = s.socketsGlobal ∧ (s.handle h).socketsPerIp = s.socketsPerIp ∧
      (s.handle h).tracked = s.tracked := by
  cases h with
  | timedOut c => exact ⟨rfl, rfl, update_tracked _ c.number fun _ => rfl⟩
  | timerDestroyed c =>
    rw [handle, timerDestroyed]
    split <;> exact ⟨rfl, rfl, rfl⟩
  | tagDestroyed c => cases hother

private theorem notify_other {h : Handler} (hother : h.teardown = none) (s : RawSockets) (moved : Bool) :
    (s.notify moved h).socketsGlobal = s.socketsGlobal ∧ (s.notify moved h).socketsPerIp = s.socketsPerIp ∧
      (s.notify moved h).tracked = s.tracked := by
  cases moved with
  | false => exact handle_other hother s
  | true =>
    refine ⟨rfl, rfl, ?_⟩
    have hwaiting : (s.notify true h).waiting = s.waiting := by
      simp [notify, waiting, hother]
    rw [tracked, hwaiting]
    rfl

theorem Accounted.notify {h : Handler} (hacc : Accounted cfg s l) (hother : h.teardown = none) (moved : Bool) :
    Accounted cfg (s.notify moved h) l :=
  hacc.congr (notify_other hother s moved).1 (notify_other hother s moved).2.1

/-- A teardown that runs takes its socket off the counts, and one that is posted leaves it waiting. -/
theorem Accounted.notify_teardown {c : Captured} (h : Accounted cfg s (c :: s.tracked)) (moved : Bool) :
    Accounted cfg (s.notify moved (.tagDestroyed c)) (s.notify moved (.tagDestroyed c)).tracked := by
  cases moved with
  | false => exact h.tagDestroyed
  | true =>
    have htracked : (s.notify true (.tagDestroyed c)).tracked = s.tracked ++ [c] := by
      simp [RawSockets.notify, tracked, waiting, Handler.teardown]
    rw [htracked]
    exact (h.perm (perm_append_singleton c s.tracked).symm).congr rfl rfl

structure Numbered (s : RawSockets) : Prop where
  distinct : (s.sockets.map (·.number)).Nodup
  below : ∀ t ∈ s.sockets, t.number < s.accepted

theorem find_mem {number : Nat} {t : TrackedSocket} (h : s.find number = some t) : t ∈ s.sockets ∧ t.number = number :=
  ⟨mem_of_find?_eq_some h, by simpa using List.find?_some h⟩

section
variable (h : Accounted cfg s s.tracked)
include h

theorem Accounted.destroyed (hn : Numbered s) (number : Nat) :
    Accounted cfg (s.destroyed number) (s.destroyed number).tracked := by
  rw [RawSockets.destroyed]
  split
  · exact h
  · rename_i t hfind
    have hperm := (perm_cons_filter hn.distinct hfind).map TrackedSocket.toCaptured
    have hleft : Accounted cfg { s with sockets := s.sockets.filter (·.number != number) }
        (t.toCaptured :: ({ s with sockets := s.sockets.filter (·.number != number) } : RawSockets).tracked) :=
      (h.perm (hperm.append_right s.waiting)).congr rfl rfl
    simp only
    split
    · exact hleft.notify_teardown t.moved
    · refine Accounted.notify_teardown ?_ t.moved
      rw [(notify_other rfl _ t.moved).2.2]
      exact hleft.notify rfl t.moved

theorem Accounted.delivered : Accounted cfg s.delivered s.delivered.tracked := by
  rw [RawSockets.delivered]
  split
  · exact h
  · rename_i handler posted hposted
    cases hteardown : handler.teardown with
    | none =>
      have hsame : s.tracked = ({ s with posted := posted } : RawSockets).tracked := by
        simp [tracked, waiting, hposted, hteardown]
      obtain ⟨hglobal, hperIp, htracked⟩ := handle_other hteardown { s with posted := posted }
      rw [htracked, ← hsame]
      exact h.congr hglobal hperIp
    | some c =>
      cases handler with
      | tagDestroyed c' =>
        have hperm : s.tracked.Perm (c' :: ({ s with posted := posted } : RawSockets).tracked) := by
          simp only [tracked, waiting, hposted, Handler.teardown, filterMap_cons]
          exact perm_middle
        have hnext : Accounted cfg { s with posted := posted } _ := (h.perm hperm).congr rfl rfl
        exact hnext.tagDestroyed
      | timedOut c' => cases hteardown
      | timerDestroyed c' => cases hteardown

theorem Accounted.step (hn : Numbered s) (event : SocketEvent) :
    Accounted cfg (s.step cfg event) (s.step cfg event).tracked := by
  cases event with
  | accepted peer socket timer =>
    rcases trackPendingUpgrade_cases cfg s peer socket timer with hsame | ⟨c, -, -, -, -, hglobal, hperIp, htrack⟩
    · rw [RawSockets.step, hsame]
      exact h
    · rw [RawSockets.step, htrack]
      refine (h.accept (c := c) hglobal hperIp rfl rfl).perm ?_
      simp only [tracked, map_append, map_cons, map_nil, append_assoc, singleton_append]
      exact perm_middle.symm
  | readyRead number =>
    refine h.update number fun t => ?_
    split <;> rfl
  | timeout number =>
    rw [RawSockets.step, timeout]
    split
    · exact h
    · rename_i t hfind
      split
      · have hstopped : Accounted cfg (s.update number fun t => { t with clock := .stopped }) _ :=
          h.update number fun _ => rfl
        rw [(notify_other rfl _ t.moved).2.2]
        exact hstopped.notify rfl t.moved
      · exact h
  | verifyUpgrade address port =>
    rw [RawSockets.step, verifyUpgrade]
    split
    · exact h
    · rename_i timer hentry
      have hsame : s.sockets.map TrackedSocket.toCaptured =
          (s.sockets.map fun t => if t.timer = timer ∧ t.clock ≠ .destroyed then { t with clock := .leaving } else t).map
            TrackedSocket.toCaptured := by
        rw [map_map]
        refine map_congr_left fun t _ => ?_
        simp only [Function.comp]
        split <;> rfl
      rw [tracked, hsame] at h
      exact h.congr rfl rfl
  | hostConnection address port threaded =>
    rw [RawSockets.step, hostConnection]
    split
    · exact h.congr rfl rfl
    · refine Accounted.update ?_ _ fun _ => rfl
      exact h.congr rfl rfl
  | disconnected number => exact h.update number fun _ => rfl
  | timerDeleted number =>
    rw [RawSockets.step, timerDeleted]
    split
    · exact h
    · rename_i t hfind
      split
      · have hgone : Accounted cfg (s.update number fun t => { t with clock := .destroyed }) _ :=
          h.update number fun _ => rfl
        rw [(notify_other rfl _ t.moved).2.2]
        exact hgone.notify rfl t.moved
      · exact h
  | destroyed number => exact h.destroyed hn number
  | delivered => exact h.delivered

end

end RawSockets
end SynQt
