import SynQt.Edge.RawSockets

/-! Whose entry a handler removes: the two tables of an edge know a socket by an address and port that
the operating system gives again, so an older socket's handlers find a newer one's entries there. -/
namespace SynQt
open Lib List

namespace RawSockets
variable {cfg : WebEdgeConfig} {s s' s'' : RawSockets} {c : Captured}

def inUse (s : RawSockets) : List Nat :=
  s.sockets.flatMap fun t => if t.clock = .destroyed then [t.socket] else [t.socket, t.timer]

/-- An accepted socket and its timer are put where nothing lies. -/
def Fresh (s : RawSockets) : SocketEvent → Prop
  | .accepted _ socket timer => socket ≠ timer ∧ socket ∉ s.inUse ∧ timer ∉ s.inUse
  | _ => True

def newer (s : RawSockets) (c : Captured) : List TrackedSocket :=
  s.sockets.filter fun t => c.number < t.number ∧ t.key = c.key

def timerEntry (s : RawSockets) (t : TrackedSocket) : Prop :=
  t.clock ≠ .destroyed ∧ s.pendingTimers.find t.key = some t.timer

def rawEntry (s : RawSockets) (t : TrackedSocket) : Prop := s.pendingRawSockets.find t.key = some t.number

def Kept (s s' : RawSockets) (c : Captured) : Prop :=
  ∀ t ∈ s.newer c, (s.timerEntry t → s'.timerEntry t) ∧ (s.rawEntry t → s'.rawEntry t)

def acting (s : RawSockets) : SocketEvent → Option Captured
  | .timeout number | .timerDeleted number | .destroyed number => (s.find number).map (·.toCaptured)
  | .delivered => s.posted.head?.map Handler.captured
  | _ => none

/-- The teardown or the timeout of a socket removes no entry of a newer one. -/
def KeepsNewer (cfg : WebEdgeConfig) (s : RawSockets) (event : SocketEvent) : Prop :=
  ∀ c ∈ s.acting event, Kept s (s.step cfg event) c

/-- The handler finds no entry of a newer socket that it takes for its own: any timer's where it does
not look, and one at the very place where its own timer or socket was where it does. -/
def Spares (s : RawSockets) (h : Handler) : Prop :=
  ∀ t ∈ s.newer h.captured,
    match h with
    | .timedOut _ => ¬ s.timerEntry t
    | .timerDestroyed c => s.timerEntry t → t.timer ≠ c.timer
    | .tagDestroyed c => s.rawEntry t → t.socket ≠ c.socket

/-- What a step of the run has to meet: a timeout that runs, and a handler that was posted. -/
def Spared (s : RawSockets) : SocketEvent → Prop
  | .timeout number =>
    ∀ t ∈ s.find number, t.clock = .running → t.moved = false → s.Spares (.timedOut t.toCaptured)
  | .delivered => ∀ h ∈ s.posted.head?, s.Spares h
  | _ => True

structure Placed (s : RawSockets) : Prop extends Numbered s where
  sockets : ∀ t ∈ s.sockets, ∀ u ∈ s.sockets, t.number ≠ u.number → t.socket ≠ u.socket
  timers : ∀ t ∈ s.sockets, ∀ u ∈ s.sockets, t.number ≠ u.number → t.clock ≠ .destroyed → u.clock ≠ .destroyed →
    t.timer ≠ u.timer

/-- Each socket was there before, and no timer of one has come back. -/
structure Descends (s' s : RawSockets) : Prop where
  numbers : (s'.sockets.map (·.number)).Sublist (s.sockets.map (·.number))
  each : ∀ t' ∈ s'.sockets, ∃ t ∈ s.sockets, t'.toCaptured = t.toCaptured ∧ (t'.clock ≠ .destroyed → t.clock ≠ .destroyed)
  accepted : s'.accepted = s.accepted

namespace Descends

theorem same (hsockets : s'.sockets = s.sockets) (haccepted : s'.accepted = s.accepted) : Descends s' s := by
  refine ⟨by rw [hsockets], fun t ht => ⟨t, ?_, rfl, id⟩, haccepted⟩
  rw [← hsockets]
  exact ht

theorem trans (h : Descends s'' s') (h' : Descends s' s) : Descends s'' s := by
  refine ⟨h.numbers.trans h'.numbers, fun t'' ht'' => ?_, h.accepted.trans h'.accepted⟩
  obtain ⟨t', ht', hcaptured', hclock'⟩ := h.each t'' ht''
  obtain ⟨t, ht, hcaptured, hclock⟩ := h'.each t' ht'
  exact ⟨t, ht, hcaptured'.trans hcaptured, fun halive => hclock (hclock' halive)⟩

theorem map {f : TrackedSocket → TrackedSocket} (hsockets : s'.sockets = s.sockets.map f)
    (haccepted : s'.accepted = s.accepted)
    (hf : ∀ t ∈ s.sockets, (f t).toCaptured = t.toCaptured ∧ ((f t).clock ≠ .destroyed → t.clock ≠ .destroyed)) :
    Descends s' s := by
  refine ⟨?_, fun t' ht' => ?_, haccepted⟩
  · have hnumbers : (s.sockets.map f).map (·.number) = s.sockets.map (·.number) := by
      rw [map_map]
      exact map_congr_left fun t ht => congrArg Captured.number (hf t ht).1
    rw [hsockets, hnumbers]
  · rw [hsockets] at ht'
    obtain ⟨t, ht, rfl⟩ := mem_map.mp ht'
    exact ⟨t, ht, hf t ht⟩

theorem update (s : RawSockets) (number : Nat) {f : TrackedSocket → TrackedSocket}
    (hf : ∀ t ∈ s.sockets, t.number = number →
      (f t).toCaptured = t.toCaptured ∧ ((f t).clock ≠ .destroyed → t.clock ≠ .destroyed)) :
    Descends (s.update number f) s := by
  refine map rfl rfl fun t ht => ?_
  split
  · rename_i hnumber
    exact hf t ht hnumber
  · exact ⟨rfl, id⟩

theorem handle (s : RawSockets) (h : Handler) : Descends (s.handle h) s := by
  cases h with
  | timedOut c =>
    have hupdate : Descends (s.timedOut c) { s with pendingTimers := s.pendingTimers.erase c.key } :=
      update _ c.number fun _ _ _ => ⟨rfl, id⟩
    exact hupdate.trans (same rfl rfl)
  | timerDestroyed c =>
    rw [RawSockets.handle, timerDestroyed]
    split <;> exact same rfl rfl
  | tagDestroyed c => exact same rfl rfl

theorem notify (s : RawSockets) (moved : Bool) (h : Handler) : Descends (s.notify moved h) s := by
  cases moved with
  | false => exact handle s h
  | true => exact same rfl rfl

end Descends

namespace Placed

theorem descends (h : Placed s) (hd : Descends s' s) : Placed s' := by
  refine ⟨⟨h.distinct.sublist hd.numbers, fun t' ht' => ?_⟩, fun t' ht' u' hu' hne => ?_, fun t' ht' u' hu' hne halive halive' => ?_⟩
  · obtain ⟨t, ht, hcaptured, -⟩ := hd.each t' ht'
    rw [hd.accepted, hcaptured]
    exact h.below t ht
  · obtain ⟨t, ht, hcaptured, -⟩ := hd.each t' ht'
    obtain ⟨u, hu, hcaptured', -⟩ := hd.each u' hu'
    rw [hcaptured, hcaptured'] at hne ⊢
    exact h.sockets t ht u hu hne
  · obtain ⟨t, ht, hcaptured, hclock⟩ := hd.each t' ht'
    obtain ⟨u, hu, hcaptured', hclock'⟩ := hd.each u' hu'
    rw [hcaptured, hcaptured'] at hne ⊢
    exact h.timers t ht u hu hne (hclock halive) (hclock' halive')

private theorem find_of_mem (h : Placed s) {t : TrackedSocket} (ht : t ∈ s.sockets) : s.find t.number = some t :=
  find?_key_of_mem h.distinct ht

theorem accept (h : Placed s) {peer : Peer} {socket timer : Nat} (hfresh : s.Fresh (.accepted peer socket timer)) :
    Placed (s.trackPendingUpgrade cfg peer socket timer) := by
  obtain ⟨-, hsocket, htimer⟩ := hfresh
  rcases trackPendingUpgrade_cases cfg s peer socket timer with hsame | ⟨c, hnumber, -, hs, ht, -, -, htrack⟩
  · rw [hsame]
    exact h
  · have hbelow : ∀ t ∈ s.sockets, t.number < c.number := fun t hmem => hnumber ▸ h.below t hmem
    have hnowhere (t : TrackedSocket) (hmem : t ∈ s.sockets) :
        t.socket ≠ c.socket ∧ (t.clock ≠ .destroyed → t.timer ≠ c.timer) := by
      refine ⟨fun heq => hsocket (mem_flatMap.mpr ⟨t, hmem, ?_⟩),
        fun halive heq => htimer (mem_flatMap.mpr ⟨t, hmem, ?_⟩)⟩
      · rw [← hs, ← heq]
        split <;> exact mem_cons_self
      · rw [if_neg halive, ← ht, ← heq]
        exact mem_cons_of_mem _ mem_cons_self
    rw [htrack]
    refine ⟨⟨?_, fun t hmem => ?_⟩, fun t hmem u hmem' hne => ?_, fun t hmem u hmem' hne halive halive' => ?_⟩
    · simp only [map_append, map_cons, map_nil]
      refine nodup_append.mpr ⟨h.distinct, nodup_singleton _, fun a ha b hb => ?_⟩
      obtain ⟨t, hmem, rfl⟩ := mem_map.mp ha
      rw [mem_singleton.mp hb]
      exact Nat.ne_of_lt (hbelow t hmem)
    · rcases mem_append.mp hmem with hold | hnew
      · exact Nat.lt_succ_of_lt (h.below t hold)
      · rw [mem_singleton.mp hnew]
        exact hnumber ▸ Nat.lt_succ_self _
    · rcases mem_append.mp hmem with hold | hnew <;> rcases mem_append.mp hmem' with hold' | hnew'
      · exact h.sockets t hold u hold' hne
      · rw [mem_singleton.mp hnew']
        exact (hnowhere t hold).1
      · rw [mem_singleton.mp hnew]
        exact (hnowhere u hold').1.symm
      · rw [mem_singleton.mp hnew, mem_singleton.mp hnew'] at hne
        exact absurd rfl hne
    · rcases mem_append.mp hmem with hold | hnew <;> rcases mem_append.mp hmem' with hold' | hnew'
      · exact h.timers t hold u hold' hne halive halive'
      · rw [mem_singleton.mp hnew']
        exact (hnowhere t hold).2 halive
      · rw [mem_singleton.mp hnew]
        exact ((hnowhere u hold').2 halive').symm
      · rw [mem_singleton.mp hnew, mem_singleton.mp hnew'] at hne
        exact absurd rfl hne

theorem step (h : Placed s) {event : SocketEvent} (hfresh : s.Fresh event) : Placed (s.step cfg event) := by
  cases event with
  | accepted peer socket timer => exact h.accept hfresh
  | readyRead number =>
    refine h.descends (Descends.update s number fun t _ _ => ?_)
    split
    · rename_i hrunning
      exact ⟨rfl, fun _ => by rw [hrunning]; nofun⟩
    · exact ⟨rfl, id⟩
  | timeout number =>
    rw [RawSockets.step, timeout]
    split
    · exact h
    · rename_i t hfind
      split
      · rename_i hrunning
        refine h.descends ((Descends.notify _ _ _).trans (Descends.update s number fun u hu hnumber => ⟨rfl, fun _ => ?_⟩))
        obtain rfl : u = t := Option.some.inj ((h.find_of_mem hu).symm.trans (hnumber ▸ hfind))
        rw [hrunning]
        nofun
      · exact h
  | verifyUpgrade address port =>
    rw [RawSockets.step, verifyUpgrade]
    split
    · exact h
    · refine h.descends (Descends.map rfl rfl fun t _ => ?_)
      split
      · rename_i halive
        exact ⟨rfl, fun _ => halive.2⟩
      · exact ⟨rfl, id⟩
  | hostConnection address port threaded =>
    rw [RawSockets.step, hostConnection]
    split
    · exact h.descends (Descends.same rfl rfl)
    · refine (h.descends (Descends.same ?_ ?_)).descends (Descends.update _ _ fun _ _ _ => ⟨rfl, id⟩)
      · rfl
      · rfl
  | disconnected number => exact h.descends (Descends.update s number fun _ _ _ => ⟨rfl, id⟩)
  | timerDeleted number =>
    rw [RawSockets.step, timerDeleted]
    split
    · exact h
    · split
      · exact h.descends ((Descends.notify _ _ _).trans (Descends.update s number fun _ _ _ => ⟨rfl, fun hne => absurd rfl hne⟩))
      · exact h
  | destroyed number =>
    rw [RawSockets.step, RawSockets.destroyed]
    split
    · exact h
    · have hfilter : Descends { s with sockets := s.sockets.filter (·.number != number) } s :=
        ⟨filter_sublist.map _, fun t ht => ⟨t, mem_of_mem_filter ht, rfl, id⟩, rfl⟩
      refine h.descends ((Descends.notify _ _ _).trans ?_)
      split
      · exact hfilter
      · exact (Descends.notify _ _ _).trans hfilter
  | delivered =>
    rw [RawSockets.step, delivered]
    split
    · exact h
    · exact h.descends ((Descends.handle _ _).trans (Descends.same rfl rfl))

end Placed

variable {t : TrackedSocket}

private theorem mem_newer : t ∈ s.newer c ↔ t ∈ s.sockets ∧ c.number < t.number ∧ t.key = c.key := by
  rw [newer, mem_filter, decide_eq_true_eq]

private theorem Kept.of_tables (htimers : s'.pendingTimers = s.pendingTimers)
    (hraw : s'.pendingRawSockets = s.pendingRawSockets) : Kept s s' c := by
  intro t _
  simp only [timerEntry, rawEntry, htimers, hraw]
  exact ⟨id, id⟩

theorem Kept.congr (htimers : s''.pendingTimers = s'.pendingTimers)
    (hraw : s''.pendingRawSockets = s'.pendingRawSockets) : Kept s s'' c ↔ Kept s s' c := by
  simp only [Kept, timerEntry, rawEntry, htimers, hraw]

private theorem kept_timedOut_iff (s : RawSockets) (c : Captured) : Kept s (s.timedOut c) c ↔ s.Spares (.timedOut c) := by
  refine forall₂_congr fun t ht => ?_
  have hgone : ¬ (s.timedOut c).timerEntry t := by
    intro hentry
    have hfind : (s.pendingTimers.erase c.key).find t.key = some t.timer := hentry.2
    rw [Hash.find_erase, if_pos (mem_newer.mp ht).2.2] at hfind
    cases hfind
  constructor
  · exact fun hkept hentry => hgone (hkept.1 hentry)
  · exact fun hnone => ⟨fun hentry => absurd hentry hnone, id⟩

private theorem kept_timerDestroyed_iff (s : RawSockets) (c : Captured) :
    Kept s (s.timerDestroyed c) c ↔ s.Spares (.timerDestroyed c) := by
  refine forall₂_congr fun t ht => ?_
  have hkey := (mem_newer.mp ht).2.2
  rw [timerDestroyed]
  split
  · rename_i hown
    constructor
    · intro hkept hentry htimer
      have hfind : (s.pendingTimers.erase c.key).find t.key = some t.timer := (hkept.1 hentry).2
      rw [Hash.find_erase, if_pos hkey] at hfind
      cases hfind
    · refine fun hother => ⟨fun hentry => ?_, id⟩
      have hfind := hentry.2
      rw [hkey, hown] at hfind
      exact absurd (Option.some.inj hfind).symm (hother hentry)
  · rename_i hforeign
    refine ⟨fun _ hentry htimer => hforeign ?_, fun _ => ⟨id, id⟩⟩
    rw [← hkey, ← htimer]
    exact hentry.2

private theorem kept_tagDestroyed_iff (h : Placed s) (c : Captured) :
    Kept s (s.tagDestroyed c) c ↔ s.Spares (.tagDestroyed c) := by
  refine forall₂_congr fun t ht => ?_
  obtain ⟨hmem, -, hkey⟩ := mem_newer.mp ht
  have hheld (hentry : s.rawEntry t) : s.held c.key = some t.socket := by
    have hfind : s.pendingRawSockets.find c.key = some t.number := hkey ▸ hentry
    rw [held, hfind, Option.bind_some, h.find_of_mem hmem]
    rfl
  have hafter : (s.tagDestroyed c).pendingRawSockets =
      if s.held c.key = none ∨ s.held c.key = some c.socket then s.pendingRawSockets.erase c.key
      else s.pendingRawSockets := rfl
  constructor
  · intro hkept hentry hsocket
    have hfind := hkept.2 hentry
    rw [rawEntry, hafter, hheld hentry, hsocket, if_pos (Or.inr rfl), Hash.find_erase, if_pos hkey] at hfind
    cases hfind
  · refine fun hother => ⟨id, fun hentry => ?_⟩
    have hkeep : ¬(s.held c.key = none ∨ s.held c.key = some c.socket) := by
      rw [hheld hentry]
      rintro (hnone | hsame)
      · cases hnone
      · exact hother hentry (Option.some.inj hsame)
    rw [rawEntry, hafter, if_neg hkeep]
    exact hentry

private theorem kept_handle_iff (h : Placed s) (handler : Handler) :
    Kept s (s.handle handler) handler.captured ↔ s.Spares handler := by
  cases handler with
  | timedOut c => exact kept_timedOut_iff s c
  | timerDestroyed c => exact kept_timerDestroyed_iff s c
  | tagDestroyed c => exact kept_tagDestroyed_iff h c

/-- While a timer is alive, none of another socket lies where it does. -/
theorem spares_timer (h : Placed s) (ht : t ∈ s.sockets) (halive : t.clock ≠ .destroyed) :
    s.Spares (.timerDestroyed t.toCaptured) := by
  intro u hu hentry
  obtain ⟨hmem, hless, -⟩ := mem_newer.mp hu
  exact h.timers u hmem t ht (Nat.ne_of_gt hless) hentry.1 halive

private theorem timerDestroyed_pendingTimers (s : RawSockets) (c : Captured) : (s.timerDestroyed c).pendingTimers =
    if s.pendingTimers.find c.key = some c.timer then s.pendingTimers.erase c.key else s.pendingTimers := by
  rw [timerDestroyed]
  split <;> rfl

private theorem timerDestroyed_others (s : RawSockets) (c : Captured) :
    (s.timerDestroyed c).pendingRawSockets = s.pendingRawSockets ∧ (s.timerDestroyed c).sockets = s.sockets := by
  rw [timerDestroyed]
  split <;> exact ⟨rfl, rfl⟩

section
variable (h : Placed s)
include h

/-- The timer of an alive socket goes, whatever becomes of the socket itself. -/
theorem kept_own_timer (ht : t ∈ s.sockets) (halive : t.clock ≠ .destroyed)
    (htimers : s'.pendingTimers = s.pendingTimers) (hraw : s'.pendingRawSockets = s.pendingRawSockets) :
    Kept s (s'.timerDestroyed t.toCaptured) t.toCaptured := by
  have hkept := (kept_timerDestroyed_iff s t.toCaptured).mpr (spares_timer h ht halive)
  refine (Kept.congr ?_ ?_).mp hkept
  · rw [timerDestroyed_pendingTimers, timerDestroyed_pendingTimers, htimers]
  · rw [(timerDestroyed_others s _).1, (timerDestroyed_others s' _).1, hraw]

private theorem keeps_timerDeleted (number : Nat) : KeepsNewer cfg s (.timerDeleted number) := by
  intro c hc
  obtain ⟨t, hfind, rfl⟩ := Option.map_eq_some_iff.mp hc
  rw [step, timerDeleted, hfind]
  simp only
  split
  · rename_i hleaving
    cases t.moved with
    | true => exact Kept.of_tables rfl rfl
    | false =>
      refine kept_own_timer h (find_mem hfind).1 ?_ rfl rfl
      rw [hleaving]
      intro hdeferred
      cases hdeferred
  · exact Kept.of_tables rfl rfl

/-- The teardown of a socket on the thread of the edge finds its own entries, if any. -/
theorem kept_own_tag (ht : t ∈ s.sockets) (hs' : Placed s')
    (hsockets : s'.sockets = s.sockets.filter (·.number != t.number)) (hkept : Kept s s' t.toCaptured) :
    Kept s (s'.tagDestroyed t.toCaptured) t.toCaptured := by
  have hmem {u : TrackedSocket} : u ∈ s'.sockets ↔ u ∈ s.sockets ∧ u.number ≠ t.number := by
    rw [hsockets, mem_filter, bne_iff_ne]
  have hspares : s'.Spares (.tagDestroyed t.toCaptured) := by
    intro u hu _
    obtain ⟨hthere, hne⟩ := hmem.mp (mem_newer.mp hu).1
    exact h.sockets u hthere t ht hne
  have hlater := (kept_tagDestroyed_iff hs' t.toCaptured).mpr hspares
  intro u hu
  obtain ⟨hthere, hless, hkey⟩ := mem_newer.mp hu
  have hnewer : u ∈ s'.newer t.toCaptured := mem_newer.mpr ⟨hmem.mpr ⟨hthere, Nat.ne_of_gt hless⟩, hless, hkey⟩
  exact ⟨fun hentry => (hlater u hnewer).1 ((hkept u hu).1 hentry), fun hentry => (hlater u hnewer).2 ((hkept u hu).2 hentry)⟩

private theorem keeps_destroyed (number : Nat) : KeepsNewer cfg s (.destroyed number) := by
  intro c hc
  obtain ⟨t, hfind, rfl⟩ := Option.map_eq_some_iff.mp hc
  obtain ⟨ht, rfl⟩ := find_mem hfind
  have hfilter : Placed { s with sockets := s.sockets.filter (·.number != t.number) } :=
    h.descends ⟨filter_sublist.map _, fun u hu => ⟨u, mem_of_mem_filter hu, rfl, id⟩, rfl⟩
  rw [step, destroyed, hfind]
  cases hmoved : t.moved with
  | true =>
    simp only [hmoved]
    split <;> exact Kept.of_tables rfl rfl
  | false =>
    simp only [hmoved]
    split
    · exact kept_own_tag h ht hfilter rfl (Kept.of_tables rfl rfl)
    · rename_i halive
      refine kept_own_tag h ht (hfilter.descends (Descends.notify _ false _)) ?_ ?_
      · exact (timerDestroyed_others _ _).2
      · exact kept_own_timer h ht halive rfl rfl

/-- A step spares the entries of newer sockets exactly where its handler does. -/
theorem keepsNewer_iff (event : SocketEvent) : KeepsNewer cfg s event ↔ s.Spared event := by
  have hnobody (hacting : s.acting event = none) : KeepsNewer cfg s event := by
    intro c hc
    rw [hacting] at hc
    cases hc
  cases event with
  | accepted peer socket timer | readyRead number | verifyUpgrade address port | hostConnection address port threaded
  | disconnected number => exact ⟨fun _ => trivial, fun _ => hnobody rfl⟩
  | timerDeleted number => exact ⟨fun _ => trivial, fun _ => keeps_timerDeleted h number⟩
  | destroyed number => exact ⟨fun _ => trivial, fun _ => keeps_destroyed h number⟩
  | timeout number =>
    cases hfind : s.find number with
    | none =>
      refine ⟨fun _ t ht => ?_, fun _ => hnobody (by rw [acting, hfind]; rfl)⟩
      rw [hfind] at ht
      cases ht
    | some t =>
      have hacting : s.acting (.timeout number) = some t.toCaptured := by rw [acting, hfind]; rfl
      have hstep : KeepsNewer cfg s (.timeout number) ↔ Kept s (s.timeout number) t.toCaptured := by
        rw [KeepsNewer, hacting]
        exact ⟨fun hkeeps => hkeeps _ rfl, fun hkept c hc => Option.some.inj hc ▸ hkept⟩
      have hspared : s.Spared (.timeout number) ↔
          (t.clock = .running → t.moved = false → s.Spares (.timedOut t.toCaptured)) := by
        rw [Spared, hfind]
        exact ⟨fun hspared => hspared t rfl, fun hspares u hu => Option.some.inj hu ▸ hspares⟩
      rw [hstep, hspared, timeout, hfind]
      simp only
      by_cases hrunning : t.clock = .running
      · rw [if_pos hrunning]
        cases t.moved with
        | true => exact ⟨fun _ _ hmoved => Bool.noConfusion hmoved, fun _ => Kept.of_tables rfl rfl⟩
        | false =>
          have hsame : Kept s ((s.update number fun t => { t with clock := .stopped }).timedOut t.toCaptured)
              t.toCaptured ↔ Kept s (s.timedOut t.toCaptured) t.toCaptured := Kept.congr rfl rfl
          refine (hsame.trans (kept_timedOut_iff s t.toCaptured)).trans ?_
          exact ⟨fun hspares _ _ => hspares, fun hspares => hspares hrunning rfl⟩
      · rw [if_neg hrunning]
        exact ⟨fun _ h => absurd h hrunning, fun _ => Kept.of_tables rfl rfl⟩
  | delivered =>
    cases hposted : s.posted with
    | nil =>
      refine ⟨fun _ handler hh => ?_, fun _ => hnobody (by rw [acting, hposted]; rfl)⟩
      rw [hposted] at hh
      cases hh
    | cons handler posted =>
      have hnext : Placed { s with posted := posted } := h.descends (Descends.same rfl rfl)
      have hkept : Kept s (s.step cfg .delivered) handler.captured ↔ s.Spares handler := by
        rw [step, delivered, hposted]
        exact kept_handle_iff hnext handler
      rw [KeepsNewer, acting, Spared, hposted]
      constructor
      · intro hkeeps other hother
        obtain rfl := Option.some.inj hother
        exact hkept.mp (hkeeps _ rfl)
      · intro hspares c hc
        obtain rfl := Option.some.inj hc
        exact hkept.mpr (hspares _ rfl)

end

structure Unmoved (s : RawSockets) : Prop where
  posted : s.posted = []
  sockets : ∀ t ∈ s.sockets, t.moved = false

namespace Unmoved

section
variable (h : Unmoved s)
include h

theorem map {f : TrackedSocket → TrackedSocket} (hf : ∀ t, t.moved = false → (f t).moved = false) :
    Unmoved { s with sockets := s.sockets.map f } := by
  refine ⟨h.posted, fun t' ht' => ?_⟩
  obtain ⟨t, ht, rfl⟩ := mem_map.mp ht'
  exact hf t (h.sockets t ht)

theorem update (number : Nat) {f : TrackedSocket → TrackedSocket}
    (hf : ∀ t, t.moved = false → (f t).moved = false) : Unmoved (s.update number f) := by
  refine h.map fun t ht => ?_
  split
  · exact hf t ht
  · exact ht

theorem handle (handler : Handler) : Unmoved (s.handle handler) := by
  cases handler with
  | timedOut c =>
    have herased : Unmoved { s with pendingTimers := s.pendingTimers.erase c.key } := ⟨h.posted, h.sockets⟩
    exact herased.update c.number fun _ ht => ht
  | timerDestroyed c =>
    rw [RawSockets.handle, timerDestroyed]
    split
    · exact ⟨h.posted, h.sockets⟩
    · exact h
  | tagDestroyed c => exact ⟨h.posted, h.sockets⟩

theorem notify (handler : Handler) : Unmoved (s.notify false handler) := h.handle handler

theorem step {event : SocketEvent}
    (hlocal : ∀ address port, event ≠ .hostConnection address port true) : Unmoved (s.step cfg event) := by
  have hmoved {number : Nat} {t : TrackedSocket} (hfind : s.find number = some t) : t.moved = false :=
    h.sockets t (find_mem hfind).1
  cases event with
  | accepted peer socket timer =>
    rcases trackPendingUpgrade_cases cfg s peer socket timer with hsame | ⟨c, -, -, -, -, -, -, htrack⟩
    · rw [RawSockets.step, hsame]
      exact h
    · rw [RawSockets.step, htrack]
      refine ⟨h.posted, fun t ht => ?_⟩
      rcases mem_append.mp ht with hold | hnew
      · exact h.sockets t hold
      · rw [mem_singleton.mp hnew]
  | readyRead number =>
    refine h.update number fun t ht => ?_
    split <;> exact ht
  | timeout number =>
    rw [RawSockets.step, timeout]
    split
    · exact h
    · rename_i t hfind
      split
      · rw [hmoved hfind]
        refine Unmoved.notify ?_ _
        exact h.update number fun _ ht => ht
      · exact h
  | verifyUpgrade address port =>
    rw [RawSockets.step, verifyUpgrade]
    split
    · exact h
    · have herased : Unmoved { s with pendingTimers := s.pendingTimers.erase (peerKey address port) } :=
        ⟨h.posted, h.sockets⟩
      refine herased.map fun t ht => ?_
      split <;> exact ht
  | hostConnection address port threaded =>
    cases threaded with
    | true => exact absurd rfl (hlocal address port)
    | false =>
      have herased : Unmoved { s with pendingRawSockets := s.pendingRawSockets.erase (peerKey address port) } :=
        ⟨h.posted, h.sockets⟩
      rw [RawSockets.step, hostConnection]
      split
      · exact herased
      · exact herased.update _ fun t ht => by rw [ht]; rfl
  | disconnected number => exact h.update number fun _ ht => ht
  | timerDeleted number =>
    rw [RawSockets.step, timerDeleted]
    split
    · exact h
    · rename_i t hfind
      split
      · rw [hmoved hfind]
        refine Unmoved.notify ?_ _
        exact h.update number fun _ ht => ht
      · exact h
  | destroyed number =>
    rw [RawSockets.step, RawSockets.destroyed]
    split
    · exact h
    · rename_i t hfind
      have hfilter : Unmoved { s with sockets := s.sockets.filter (·.number != number) } :=
        ⟨h.posted, fun u hu => h.sockets u (mem_of_mem_filter hu)⟩
      simp only [hmoved hfind]
      split
      · exact hfilter.notify _
      · exact (hfilter.notify _).notify _
  | delivered =>
    rw [RawSockets.step, delivered, h.posted]
    exact h

end

end Unmoved

def start : RawSockets := {}

private theorem start_placed : Placed start := ⟨⟨nodup_nil, nofun⟩, nofun, nofun⟩

private theorem start_accounted (cfg : WebEdgeConfig) : Accounted cfg start start.tracked :=
  ⟨rfl, fun _ => rfl, Int.le_max_left .., fun _ => Int.le_max_left ..⟩

/-- Over every run the counts are those of the tracked sockets, which are the ones alive where no
connection goes to an IO thread; and a newer socket's entries are safe from an older one's teardown and
timeout in exactly the runs whose timeouts and posted handlers find none they take for their own. -/
theorem sockets_accounted (cfg : WebEdgeConfig) (events : List SocketEvent)
    (hfresh : Each (step cfg) Fresh start events) :
    (∀ before after, events = before ++ after →
      Accounted cfg (run (step cfg) start before) (run (step cfg) start before).tracked ∧
        ((∀ event ∈ before, ∀ address port, event ≠ .hostConnection address port true) →
          (run (step cfg) start before).waiting = [])) ∧
    (Each (step cfg) (KeepsNewer cfg) start events ↔ Each (step cfg) Spared start events) := by
  refine ⟨fun before after hsplit => ⟨?_, fun hlocal => ?_⟩, ?_⟩
  · rw [hsplit, each_append] at hfresh
    have hall := hfresh.1.invariant (fun s => Placed s ∧ Accounted cfg s s.tracked)
      (fun s event h hok => ⟨h.1.step hok, h.2.step h.1.toNumbered event⟩) ⟨start_placed, start_accounted cfg⟩
    exact hall.2
  · have hunmoved : ∀ l : List SocketEvent, (∀ event ∈ l, ∀ address port, event ≠ .hostConnection address port true) →
        ∀ s : RawSockets, Unmoved s → Unmoved (run (step cfg) s l) := by
      intro l
      induction l with
      | nil => exact fun _ s hs => hs
      | cons event l ih =>
        intro hl s hs
        exact ih (fun e he => hl e (mem_cons_of_mem _ he)) _ (hs.step (hl event mem_cons_self))
    rw [waiting, (hunmoved before hlocal start ⟨rfl, fun _ h => by cases h⟩).posted]
    rfl
  · exact Each.congr Placed (fun s event h _ => keepsNewer_iff h event) (fun s event h hok => h.step hok) start_placed hfresh

instance (s : RawSockets) : (event : SocketEvent) → Decidable (s.Fresh event)
  | .accepted _ socket timer => inferInstanceAs (Decidable (socket ≠ timer ∧ socket ∉ s.inUse ∧ timer ∉ s.inUse))
  | .readyRead _ | .timeout _ | .verifyUpgrade .. | .hostConnection .. | .disconnected _ | .timerDeleted _
  | .destroyed _ | .delivered => .isTrue trivial

/-- A visitor comes back from the same port after the first socket is gone, and the edge hosts the second. -/
def cameBack : List SocketEvent :=
  [.accepted (EdgeRun.peerAt 4001) 1 2, .disconnected 0, .destroyed 0, .accepted (EdgeRun.peerAt 4001) 1 2,
    .readyRead 1, .verifyUpgrade "10.0.0.1" 4001, .timerDeleted 1, .hostConnection "10.0.0.1" 4001 true]

theorem sockets_accounted_cameBack :
    Accounted EdgeRun.fewVisitors (run (step EdgeRun.fewVisitors) start cameBack)
        (run (step EdgeRun.fewVisitors) start cameBack).tracked ∧
      (Each (step EdgeRun.fewVisitors) (KeepsNewer EdgeRun.fewVisitors) start cameBack ↔
        Each (step EdgeRun.fewVisitors) Spared start cameBack) := by
  have hfresh : Each (step EdgeRun.fewVisitors) Fresh start cameBack := by decide
  obtain ⟨hheld, hiff⟩ := sockets_accounted EdgeRun.fewVisitors cameBack hfresh
  exact ⟨(hheld cameBack [] (append_nil _).symm).1, hiff⟩

/-- The second socket comes from the port of the first, which is closed, before the first one's time is up. -/
def reusedPort : List SocketEvent :=
  [.accepted (EdgeRun.peerAt 4001) 1 2, .disconnected 0, .accepted (EdgeRun.peerAt 4001) 3 4, .timeout 0]

def reused (number socket timer : Nat) : Captured := ⟨number, peerKey "10.0.0.1" 4001, "10.0.0.1", true, socket, timer⟩

theorem newer_timer_evicted :
    Each (step EdgeRun.fewVisitors) Fresh start reusedPort ∧
      ¬ Each (step EdgeRun.fewVisitors) (KeepsNewer EdgeRun.fewVisitors) start reusedPort := by
  refine ⟨by decide, fun hkeeps => ?_⟩
  obtain ⟨-, -, -, hlast, -⟩ := hkeeps
  have hthere := hlast (reused 0 1 2) (by decide) ⟨reused 1 3 4, .running, true, false⟩ (by decide)
  have hentry := hthere.1 ⟨by decide, by decide⟩
  exact absurd hentry.2 (by decide)

end RawSockets
end SynQt
