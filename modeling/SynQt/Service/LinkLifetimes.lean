import Mathlib.Data.List.Induction
import SynQt.Service.ConnectPointHost

namespace SynQt
open List hiding map_eq_map
open Lib Option

namespace ConnectPointHost
variable {host host' : ConnectPointHost} {entity : QString}

/-- No Source can be made: its file does not load, or the node does not take the shared one's mirror. -/
def CannotMint (host : ConnectPointHost) (minting : Minting) : Prop :=
  if host.shared then minting.registered = false ∨ minting.loads = false ∧ host.sharedSource = none else minting.loads = false

/-- There is no shared Source only where there was none and its file did not load. -/
def SharedStays (host host' : ConnectPointHost) (minting : Minting) : Prop :=
  host.shared = true → host'.sharedSource = none → host.sharedSource = none ∧ minting.loads = false

/-- What a peer comes to: the Source that was there, none, or a new one. -/
inductive Sourced (host host' : ConnectPointHost) (peer : MeshPeer) (minting : Minting) : Option Nat → Prop where
  | had {source : Nat} (hentry : (host.entryOf peer.entity).source = some source) (hobjects : host'.objects = host.objects)
    (hnext : host'.next = host.next) (hshared : host'.sharedSource = host.sharedSource) : Sourced host host' peer minting (some source)
  | failed (hentry : (host.entryOf peer.entity).source = none) (hobjects : host'.objects = host.objects)
    (hnext : host.next ≤ host'.next) (hcannot : CannotMint host minting) (hshared : SharedStays host host' minting) :
    Sourced host host' peer minting none
  | made {source : Nat} (hentry : (host.entryOf peer.entity).source = none) (hfresh : host.next ≤ source) (hnext : source < host'.next)
    (hobjects : host'.objects = host.objects.insert source (Caller.forEntity peer.entity peer.authenticated))
    (hshared : host.shared = true → host'.sharedSource ≠ none) : Sourced host host' peer minting (some source)

namespace Sourced
variable {peer : MeshPeer} {minting : Minting} {source : Option Nat}

section
variable (h : Sourced host host' peer minting source)
include h

private theorem next_le : host.next ≤ host'.next := by
  cases h with
  | had _ _ hnext => exact Nat.le_of_eq hnext.symm
  | failed _ _ hnext => exact hnext
  | made _ hfresh hnext => exact Nat.le_of_lt (Nat.lt_of_le_of_lt hfresh hnext)

private theorem objects_cases {s : Nat} {caller : Caller} (hs : host'.objects.find s = some caller) :
    host.objects.find s = some caller ∨
      source = some s ∧ host.next ≤ s ∧ s < host'.next ∧ caller = Caller.forEntity peer.entity peer.authenticated := by
  cases h with
  | had _ hobjects | failed _ hobjects => exact .inl (hobjects ▸ hs)
  | made _ hfresh hnext hobjects =>
    rw [hobjects, Hash.find_insert] at hs
    split at hs
    · next heq =>
      subst heq
      exact .inr ⟨rfl, hfresh, hnext, (Option.some.inj hs).symm⟩
    · exact .inl hs

private theorem objects_stay {s : Nat} (hs : s < host.next) :
    host'.objects.find s = host.objects.find s := by
  cases h with
  | had _ hobjects => rw [hobjects]
  | failed _ hobjects => rw [hobjects]
  | made _ hfresh _ hobjects => rw [hobjects, Hash.find_insert, if_neg (by omega)]

end

end Sourced

theorem mint_cases (host : ConnectPointHost) (peer : MeshPeer) (minting : Minting) :
    ∃ sharedSource next, host.next ≤ next ∧
      (host.mint peer minting = ({ host with sharedSource := sharedSource, next := next }, none) ∧ CannotMint host minting ∧
          (host.shared = true → sharedSource = none → host.sharedSource = none ∧ minting.loads = false) ∨
        host.mint peer minting = ({ host with
          sharedSource := sharedSource
          objects := host.objects.insert next (Caller.forEntity peer.entity peer.authenticated)
          next := next + 1 }, some next) ∧ (host.shared = true → sharedSource ≠ none)) := by
  have hcreate (from_ : ConnectPointHost) (caller : Caller) (loads : Bool) :
      from_.createSource caller loads = (from_, none) ∧ loads = false ∨
        from_.createSource caller loads =
          ({ from_ with objects := from_.objects.insert from_.next caller, next := from_.next + 1 }, some from_.next) := by
    cases loads with
    | false => exact .inl ⟨rfl, rfl⟩
    | true => exact .inr rfl
  rw [mint]
  dsimp only
  split
  · next hmode =>
    split
    · next hsome =>
      have hshared : ∃ source next, host.next ≤ next ∧
          (host.sharedSourceOf minting.loads).1 = { host with sharedSource := some source, next := next } := by
        rw [sharedSourceOf] at hsome ⊢
        split
        · next hthere =>
          obtain ⟨source, hsource⟩ := isSome_iff_exists.mp hthere
          exact ⟨source, host.next, Nat.le_refl _, by rw [← hsource]⟩
        · next hnone =>
          rw [if_neg hnone] at hsome
          split at hsome
          · next hloads => exact ⟨host.next, host.next + 1, Nat.le_succ _, by rw [if_pos hloads]⟩
          · cases hsome
      obtain ⟨source, next, hnext, hhost⟩ := hshared
      rw [hhost]
      refine ⟨some source, next, hnext, ?_⟩
      obtain ⟨h, hregistered⟩ | h := hcreate { host with sharedSource := some source, next := next }
        (Caller.forEntity peer.entity peer.authenticated) minting.registered
      · refine .inl ⟨h, ?_, nofun⟩
        rw [CannotMint, if_pos hmode]
        exact .inl hregistered
      · exact .inr ⟨h, nofun⟩
    · next hnone =>
      rw [sharedSourceOf] at hnone ⊢
      split at hnone
      · next hsome => exact absurd hsome hnone
      · next hsome =>
        rw [if_neg hsome]
        have hshared : host.sharedSource = none := by simpa using hsome
        split at hnone
        · exact absurd rfl hnone
        · next hloads =>
          rw [if_neg hloads]
          have hloads : minting.loads = false := Bool.eq_false_iff.mpr hloads
          refine ⟨host.sharedSource, host.next, Nat.le_refl _, .inl ⟨rfl, ?_, fun _ _ => ⟨hshared, hloads⟩⟩⟩
          rw [CannotMint, if_pos hmode]
          exact .inr ⟨hloads, hshared⟩
  · next hmode =>
    refine ⟨host.sharedSource, host.next, Nat.le_refl _, ?_⟩
    obtain ⟨h, hloads⟩ | h := hcreate host (Caller.forEntity peer.entity peer.authenticated) minting.loads
    · refine .inl ⟨h, ?_, fun hshared => absurd hshared hmode⟩
      rw [CannotMint, if_neg hmode]
      exact hloads
    · exact .inr ⟨h, fun hshared => absurd hshared hmode⟩

theorem onPeerConnected_listed {peer : MeshPeer} (hlisted : peer.entity ∈ host.consumers) (minting : Minting) :
    ∃ source link, Sourced host (host.onPeerConnected peer minting) peer minting source ∧
      (host.onPeerConnected peer minting).consumers = host.consumers ∧
      (host.onPeerConnected peer minting).shared = host.shared ∧
      (∀ key, (host.onPeerConnected peer minting).peerSources.find key =
        if key = peer.entity then some ⟨(host.entryOf peer.entity).connections + 1, source⟩ else host.peerSources.find key) ∧
      (host.onPeerConnected peer minting).links = host.links ++ [link] ∧
      link.entity = peer.entity ∧ link.device = true ∧ link.node = true ∧ (link.acquired = none ∨ link.acquired = source) := by
  have hclaimed : (host.claim peer.entity).entryOf peer.entity =
      { host.entryOf peer.entity with connections := (host.entryOf peer.entity).connections + 1 } := by
    rw [claim, entryOf, setEntry]
    simp only [Hash.find_insert, if_true, getD_some]
  rw [onPeerConnected, if_neg (not_not_intro hlisted), sourceForPeer]
  simp only [hclaimed]
  cases hentry : (host.entryOf peer.entity).source with
  | some source =>
    simp only [isSome_some, if_true, isNone_some, Bool.false_eq_true, if_false]
    refine ⟨some source, _, .had hentry rfl rfl rfl, rfl, rfl, fun key => ?_, rfl, rfl, rfl, rfl, ?_⟩
    · simp only [claim, setEntry, Hash.find_insert, ← hentry]
    · cases minting.remotes with
      | false => exact .inl rfl
      | true => exact .inr rfl
  | none =>
    obtain ⟨sharedSource, next, hnext, ⟨hmint, hcannot, hstays⟩ | ⟨hmint, hshared⟩⟩ := mint_cases (host.claim peer.entity) peer minting
    · simp only [hmint, isSome_none, Bool.false_eq_true, if_false, isNone_none, if_true]
      refine ⟨none, _, .failed hentry rfl hnext hcannot hstays, rfl, rfl, fun key => ?_, rfl, rfl, rfl, rfl, .inl rfl⟩
      simp only [claim, setEntry, Hash.find_insert, hentry]
    · simp only [hmint, isSome_none, isSome_some, Bool.false_eq_true, if_false, if_true, isNone_some]
      refine ⟨some next, _, .made hentry hnext (Nat.lt_succ_self next) rfl hshared, rfl, rfl, fun key => ?_, rfl, rfl, rfl, rfl, ?_⟩
      · simp only [claim, setEntry, Hash.find_insert]
        split <;> rfl
      · cases minting.remotes with
        | false => exact .inl rfl
        | true => exact .inr rfl

private theorem source_entryOf {source : Nat} (hsource : (host.entryOf entity).source = some source) :
    ∃ entry, host.peerSources.find entity = some entry ∧ entry.source = some source := by
  rw [entryOf] at hsource
  cases hentry : host.peerSources.find entity with
  | none =>
    rw [hentry] at hsource
    cases hsource
  | some entry =>
    rw [hentry, getD_some] at hsource
    exact ⟨entry, rfl, hsource⟩

/-- An entity has an entry while there are claims of it, `count` many, and the Source of its entry is its one
Source. -/
structure Counted (host : ConnectPointHost) (count : QString → Nat) : Prop where
  listed : ∀ link ∈ host.links, link.entity ∈ host.consumers
  counts : ∀ entity, (host.peerSources.find entity).map (·.connections) =
    if count entity = 0 then none else some (count entity : Int)
  has : ∀ entity entry source, host.peerSources.find entity = some entry → entry.source = some source →
    ∃ verified, host.objects.find source = some (Caller.forEntity entity verified)
  registered : ∀ source caller, host.objects.find source = some caller →
    source < host.next ∧ ∃ entry, host.peerSources.find caller.entity = some entry ∧ entry.source = some source
  acquired : ∀ link ∈ host.links, link.device = true → ∀ source, link.acquired = some source →
    ∃ entry, host.peerSources.find link.entity = some entry ∧ entry.source = some source
  own : ∀ link ∈ host.links, ∀ source, link.acquired = some source →
    source < host.next ∧ ∀ caller, host.objects.find source = some caller → caller.entity = link.entity

def Kept (host : ConnectPointHost) : Prop := Counted host host.standing

variable (consumers : List QString)

private theorem kept_make (shared : Bool) : Kept (make consumers shared) := by
  refine ⟨nofun, fun entity => ?_, fun entity entry source h => ?_, fun source caller h => ?_, nofun, nofun⟩
  · rfl
  · rw [make, Hash.find_empty] at h
    cases h
  · rw [make, Hash.find_empty] at h
    cases h

namespace Counted
variable {count : QString → Nat}

theorem find_some (h : Counted host count) (hcount : 0 < count entity) :
    ∃ entry, host.peerSources.find entity = some entry ∧ entry.connections = count entity := by
  have hcounts := h.counts entity
  rw [if_neg (Nat.ne_of_gt hcount)] at hcounts
  exact map_eq_some_iff.mp hcounts

variable {entry : PeerSource}

private theorem listed_of_entry (h : Kept host) (hentry : host.peerSources.find entity = some entry) :
    entity ∈ host.consumers := by
  have hcounts := h.counts entity
  rw [hentry, map_some] at hcounts
  split at hcounts
  · cases hcounts
  · next hcount =>
    obtain ⟨link, hlink, hstands⟩ := countP_pos_iff.mp (Nat.pos_of_ne_zero hcount)
    rw [Bool.and_eq_true, beq_iff_eq] at hstands
    exact hstands.2 ▸ h.listed link hlink

section
variable (h : Counted host count)
include h

theorem find_none (hcount : count entity = 0) : host.peerSources.find entity = none := by
  have hcounts := h.counts entity
  rw [if_pos hcount] at hcounts
  exact map_eq_none_iff.mp hcounts

private theorem connections_entryOf (entity : QString) : (host.entryOf entity).connections = count entity := by
  rw [entryOf]
  by_cases hnone : count entity = 0
  · rw [h.find_none hnone, hnone]
    rfl
  · obtain ⟨entry, hentry, hconnections⟩ := h.find_some (Nat.pos_of_ne_zero hnone)
    rw [hentry, getD_some, hconnections]

private theorem isSourceOf {source : Nat} (hentry : host.peerSources.find entity = some entry)
    (hsource : entry.source = some source) : host.IsSourceOf source entity := by
  refine ⟨h.has entity entry source hentry hsource, ?_⟩
  rintro other caller hother rfl
  obtain ⟨-, entry', hentry', hother'⟩ := h.registered other caller hother
  obtain rfl := Option.some.inj (hentry.symm.trans hentry')
  exact Option.some.inj (hother'.symm.trans hsource)

end

section
variable (h : Counted host fun key => count key + if key = entity then 1 else 0)
include h

/-- A claim that is given back while there are others: the entry has the Source it had. -/
theorem given_back (hentry : host.peerSources.find entity = some entry) (hleft : 0 < count entity) :
    Counted (host.setEntry entity { entry with connections := entry.connections - 1 }) count := by
  have hfind (key : QString) : (host.setEntry entity { entry with connections := entry.connections - 1 }).peerSources.find key =
      if key = entity then some { entry with connections := entry.connections - 1 } else host.peerSources.find key := by
    rw [setEntry, Hash.find_insert]
  have hsame (key : QString) (source : Option Nat) :
      (∃ entry', (host.setEntry entity { entry with connections := entry.connections - 1 }).peerSources.find key = some entry' ∧
        entry'.source = source) ↔ ∃ entry', host.peerSources.find key = some entry' ∧ entry'.source = source := by
    rw [hfind]
    split
    · next heq =>
      rw [heq, hentry]
      simp only [Option.some.injEq, exists_eq_left']
    · exact Iff.rfl
  refine ⟨h.listed, fun key => ?_, fun key entry' s hentry' hs => ?_, fun s caller hs => ?_,
    fun link hlink hdevice s hs => ?_, h.own⟩
  · have hcounts := h.counts key
    rw [hfind]
    split
    · next heq =>
      subst heq
      rw [hentry, map_some, if_pos rfl, if_neg (Nat.succ_ne_zero _)] at hcounts
      have hconnections : entry.connections = (count key : Int) + 1 := Option.some.inj hcounts
      rw [map_some, if_neg (Nat.ne_of_gt hleft), hconnections, Int.add_sub_cancel]
    · next hne => simpa only [if_neg hne, Nat.add_zero] using hcounts
  · obtain ⟨old, hold, hsource⟩ := (hsame key (some s)).mp ⟨entry', hentry', hs⟩
    exact h.has key old s hold hsource
  · obtain ⟨hlt, hregistered⟩ := h.registered s caller hs
    exact ⟨hlt, (hsame _ _).mpr hregistered⟩
  · exact (hsame _ _).mpr (h.acquired link hlink hdevice s hs)

/-- The last claim is given back: the Source goes, and the entry. -/
theorem given_up (hentry : host.peerSources.find entity = some entry) (hlast : count entity = 0)
    (hgone : ∀ link ∈ host.links, link.device = true → link.entity ≠ entity) :
    Counted { host with
      objects := match entry.source with
        | none => host.objects
        | some source => host.objects.erase source
      peerSources := host.peerSources.erase entity } count := by
  generalize hobjects : (match entry.source with
    | none => host.objects
    | some source => host.objects.erase source) = objects
  have hleft (s : Nat) (caller : Caller) : objects.find s = some caller ↔ host.objects.find s = some caller ∧ entry.source ≠ some s := by
    rw [← hobjects]
    split
    · next hnone =>
      rw [hnone]
      exact (and_iff_left nofun).symm
    · next source hsource =>
      rw [hsource, Hash.find_erase]
      split
      · next heq =>
        subst heq
        exact iff_of_false nofun fun h => h.2 rfl
      · next hne => exact (and_iff_left fun heq => hne (Option.some.inj heq).symm).symm
  have hfind (key : QString) (entry' : PeerSource) :
      (host.peerSources.erase entity).find key = some entry' ↔ host.peerSources.find key = some entry' ∧ key ≠ entity := by
    rw [Hash.find_erase]
    split
    · next heq => exact iff_of_false nofun fun h => h.2 heq
    · next hne => exact (and_iff_left hne).symm
  refine ⟨h.listed, fun key => ?_, fun key entry' s hentry' hs => ?_, fun s caller hs => ?_,
    fun link hlink hdevice s hs => ?_, fun link hlink s hs => ?_⟩
  · have hcounts := h.counts key
    rw [Hash.find_erase]
    split
    · next heq =>
      rw [heq, if_pos hlast]
      rfl
    · next hne => simpa only [if_neg hne, Nat.add_zero] using hcounts
  · obtain ⟨hold, hne⟩ := (hfind key entry').mp hentry'
    obtain ⟨verified, hobject⟩ := h.has key entry' s hold hs
    refine ⟨verified, (hleft s _).mpr ⟨hobject, fun hsource => hne ?_⟩⟩
    obtain ⟨verified', hother⟩ := h.has entity entry s hentry hsource
    exact congrArg Caller.entity (Option.some.inj (hobject.symm.trans hother))
  · obtain ⟨hobject, hother⟩ := (hleft s caller).mp hs
    obtain ⟨hlt, entry', hentry', hsource⟩ := h.registered s caller hobject
    refine ⟨hlt, entry', (hfind _ _).mpr ⟨hentry', fun heq => hother ?_⟩, hsource⟩
    rw [heq] at hentry'
    rw [← hsource, Option.some.inj (hentry.symm.trans hentry')]
  · obtain ⟨entry', hentry', hsource⟩ := h.acquired link hlink hdevice s hs
    exact ⟨entry', (hfind _ _).mpr ⟨hentry', hgone link hlink hdevice⟩, hsource⟩
  · obtain ⟨hlt, hcaller⟩ := h.own link hlink s hs
    exact ⟨hlt, fun caller hobject => hcaller caller ((hleft s caller).mp hobject).1⟩

end

end Counted

namespace Kept

variable {link : PeerLink}

private theorem standing_concat (hlinks : host'.links = host.links ++ [link]) (hdevice : link.device = true) (entity : QString) :
    host'.standing entity = host.standing entity + if entity = link.entity then 1 else 0 := by
  simp only [standing, hlinks, countP_append, countP_singleton, hdevice, Bool.true_and, beq_iff_eq,
    eq_comm (a := link.entity)]

theorem peerConnected (h : Kept host) (peer : MeshPeer) (minting : Minting) : Kept (host.onPeerConnected peer minting) := by
  by_cases hlisted : peer.entity ∈ host.consumers
  swap
  · rw [onPeerConnected, if_pos hlisted]
    exact ⟨h.listed, h.counts, h.has, h.registered, h.acquired, h.own⟩
  obtain ⟨source, link, hsourced, hconsumers, -, hfind, hlinks, hentity, hdevice, -, hacquired⟩ := onPeerConnected_listed hlisted minting
  generalize host.onPeerConnected peer minting = host' at hsourced hconsumers hfind hlinks
  have hstanding := standing_concat hlinks hdevice
  have hmem : ∀ other ∈ host'.links, other ∈ host.links ∨ other = link := by
    intro other hother
    rw [hlinks] at hother
    exact (mem_append.mp hother).imp_right mem_singleton.mp
  -- the Source that the entity has had keeps its entry
  have hkept : ∀ entity entry s, host.peerSources.find entity = some entry → entry.source = some s →
      ∃ entry', host'.peerSources.find entity = some entry' ∧ entry'.source = some s := by
    intro entity entry s hentry hs
    rw [hfind]
    split
    · next heq =>
      subst heq
      have hold : (host.entryOf peer.entity).source = some s := by rw [entryOf, hentry, getD_some, hs]
      refine ⟨_, rfl, ?_⟩
      cases hsourced with
      | had hhad => exact hhad.symm.trans hold
      | failed hnone | made hnone => exact nomatch hnone.symm.trans hold
    · exact ⟨entry, hentry, hs⟩
  refine ⟨fun other hother => ?_, fun entity => ?_, fun entity entry s hentry hs => ?_,
    fun s caller hs => ?_, fun other hother hstands s hs => ?_, fun other hother s hs => ?_⟩
  · rw [hconsumers]
    obtain hold | rfl := hmem other hother
    · exact h.listed other hold
    · rw [hentity]
      exact hlisted
  · rw [hfind, hstanding, hentity, h.connections_entryOf]
    split
    · next heq =>
      subst heq
      rw [if_neg (Nat.succ_ne_zero _)]
      rfl
    · rw [Nat.add_zero]
      exact h.counts entity
  · rw [hfind] at hentry
    split at hentry
    · next heq =>
      subst heq
      obtain rfl := Option.some.inj hentry
      dsimp only at hs
      subst hs
      cases hsourced with
      | had hhad hobjects =>
        obtain ⟨entry, hentry, hsource⟩ := source_entryOf hhad
        rw [hobjects]
        exact h.has _ entry s hentry hsource
      | made _ _ _ hobjects =>
        rw [hobjects, Hash.find_insert, if_pos rfl]
        exact ⟨_, rfl⟩
    · obtain ⟨verified, hobject⟩ := h.has entity entry s hentry hs
      exact ⟨verified, by rw [hsourced.objects_stay (h.registered s _ hobject).1, hobject]⟩
  · obtain hold | ⟨rfl, -, hnext, rfl⟩ := hsourced.objects_cases hs
    · obtain ⟨hlt, entry, hentry, hsource⟩ := h.registered s caller hold
      exact ⟨Nat.lt_of_lt_of_le hlt hsourced.next_le, hkept _ entry s hentry hsource⟩
    · exact ⟨hnext, ⟨(host.entryOf peer.entity).connections + 1, some s⟩, (hfind peer.entity).trans (if_pos rfl), rfl⟩
  · obtain hold | rfl := hmem other hother
    · obtain ⟨entry, hentry, hsource⟩ := h.acquired other hold hstands s hs
      exact hkept _ entry s hentry hsource
    · obtain hnone | hsame := hacquired
      · exact nomatch hnone.symm.trans hs
      · rw [hfind, if_pos hentity]
        exact ⟨_, rfl, hsame.symm.trans hs⟩
  · obtain hold | rfl := hmem other hother
    · obtain ⟨hlt, hcaller⟩ := h.own other hold s hs
      refine ⟨Nat.lt_of_lt_of_le hlt hsourced.next_le, fun caller hobject => hcaller caller ?_⟩
      rwa [hsourced.objects_stay hlt] at hobject
    · obtain hnone | hsame := hacquired
      · exact nomatch hnone.symm.trans hs
      · rw [hs] at hsame
        subst hsame
        cases hsourced with
        | had hhad hobjects hnext =>
          obtain ⟨entry, hentry, hsource⟩ := source_entryOf hhad
          obtain ⟨verified, hobject⟩ := h.has _ entry s hentry hsource
          rw [hobjects, hnext, hobject, hentity]
          refine ⟨(h.registered s _ hobject).1, fun caller hcaller => ?_⟩
          rw [← Option.some.inj hcaller, Caller.forEntity]
        | made _ _ hnext hobjects =>
          rw [hobjects, Hash.find_insert, if_pos rfl, hentity]
          refine ⟨hnext, fun caller hcaller => ?_⟩
          rw [← Option.some.inj hcaller, Caller.forEntity]

private theorem standing_pos (hlink : link ∈ host.links) (hdevice : link.device = true) : 0 < host.standing link.entity := by
  rw [standing, countP_pos_iff]
  exact ⟨link, hlink, by rw [hdevice, beq_self_eq_true, Bool.and_self]⟩

private theorem standing_set {place : Nat} {old link : PeerLink} (hplace : host.links[place]? = some old) (hentity : link.entity = old.entity)
    (entity : QString) :
    (host.setLink place link).standing entity + (if old.device = true ∧ entity = old.entity then 1 else 0) =
      host.standing entity + if link.device = true ∧ entity = old.entity then 1 else 0 := by
  obtain ⟨hlt, hget⟩ := List.getElem?_eq_some_iff.mp hplace
  have hpos : old.device = true ∧ entity = old.entity → 0 < host.standing entity := by
    rintro ⟨hdevice, rfl⟩
    exact standing_pos (mem_of_getElem? hplace) hdevice
  have hset : (host.setLink place link).standing entity =
      host.standing entity - (if old.device = true ∧ entity = old.entity then 1 else 0) +
        if link.device = true ∧ entity = old.entity then 1 else 0 := by
    simp only [standing, ConnectPointHost.setLink, countP_set hlt, hget, hentity, Bool.and_eq_true, beq_iff_eq,
      eq_comm (a := old.entity)]
  rw [hset]
  split
  · next hold =>
    have := hpos hold
    omega
  · omega

/-- A link that changes only in its node, or in what has been posted for it. -/
theorem setLink (h : Kept host) {place : Nat} {old link : PeerLink} (hplace : host.links[place]? = some old) (hentity : link.entity = old.entity)
    (hdevice : link.device = old.device) (hacquired : ∀ source, link.acquired = some source → old.acquired = some source) :
    Kept (host.setLink place link) := by
  have hold : old ∈ host.links := mem_of_getElem? hplace
  have hmem : ∀ other ∈ (host.setLink place link).links, other ∈ host.links ∨ other = link :=
    fun other hother => mem_or_eq_of_mem_set hother
  refine ⟨fun other hother => ?_, fun entity => ?_, h.has, h.registered, fun other hother hstands s hs => ?_,
    fun other hother s hs => ?_⟩
  · obtain hother | rfl := hmem other hother
    · exact h.listed other hother
    · rw [hentity]
      exact h.listed old hold
  · have hsame := standing_set hplace hentity entity
    rw [hdevice] at hsame
    rw [Nat.add_right_cancel hsame]
    exact h.counts entity
  · obtain hother | rfl := hmem other hother
    · exact h.acquired other hother hstands s hs
    · rw [hentity]
      exact h.acquired old hold (hdevice ▸ hstands) s (hacquired s hs)
  · obtain hother | rfl := hmem other hother
    · exact h.own other hother s hs
    · rw [hentity]
      exact h.own old hold s (hacquired s hs)

/-- A transport is destroyed, and its claim not given back yet. -/
theorem unclaimed (h : Kept host) {place : Nat} (hplace : host.links[place]? = some link) (hdevice : link.device = true) :
    Counted (host.setLink place { link with device := false }) fun key =>
      (host.setLink place { link with device := false }).standing key + if key = link.entity then 1 else 0 := by
  have hlink : link ∈ host.links := mem_of_getElem? hplace
  have hmem : ∀ other ∈ (host.setLink place { link with device := false }).links,
      other ∈ host.links ∨ other = { link with device := false } := fun other hother => mem_or_eq_of_mem_set hother
  refine ⟨fun other hother => ?_, fun key => ?_, h.has, h.registered, fun other hother hstands => ?_, fun other hother => ?_⟩
  · obtain hother | rfl := hmem other hother
    · exact h.listed other hother
    · exact h.listed link hlink
  · have hless := standing_set hplace (show ({ link with device := false } : PeerLink).entity = link.entity from rfl) key
    simp only [hdevice, true_and, Bool.false_eq_true, false_and, if_false, Nat.add_zero] at hless
    rw [hless]
    exact h.counts key
  · obtain hother | rfl := hmem other hother
    · exact h.acquired other hother hstands
    · cases hstands
  · obtain hother | rfl := hmem other hother
    · exact h.own other hother
    · exact h.own link hlink

theorem destroyed (h : Kept host) (place : Nat) : Kept (host.onDestroyed place) := by
  rw [onDestroyed]
  split
  · exact h
  · next link hplace =>
    split
    · next hdevice =>
      have hcounted := h.unclaimed hplace hdevice
      generalize host.setLink place { link with device := false } = host' at hcounted
      obtain ⟨entry, hentry, hconnections⟩ := hcounted.find_some (by rw [if_pos rfl]; exact Nat.succ_pos _)
      rw [if_pos rfl] at hconnections
      rw [releasePeerSource, hentry]
      dsimp only
      split
      · next hleft => exact hcounted.given_back hentry (by omega)
      · next hleft =>
        have hlast : host'.standing link.entity = 0 := by omega
        refine hcounted.given_up hentry hlast fun other hother hstands heq => ?_
        have hpos := standing_pos hother hstands
        rw [heq, hlast] at hpos
        exact Nat.lt_irrefl 0 hpos
    · exact h

end Kept

theorem kept_step (h : Kept host) (event : LinkEvent) : Kept (host.step event) := by
  have hnode (place : Nat) : Kept (host.onNodeDestroyed place) := by
    rw [onNodeDestroyed]
    split
    · exact h
    · next link hplace => exact h.setLink hplace rfl rfl nofun
  cases event with
  | peerConnected peer minting => exact h.peerConnected peer minting
  | disconnected place =>
    rw [step]
    split
    · exact h
    · next link hplace => exact h.setLink hplace rfl rfl fun _ hs => hs
  | linkDestroyed place => exact (hnode place).destroyed place
  | nodeDestroyed place => exact hnode place
  | destroyed place => exact h.destroyed place

/-- A link that goes takes no entity's Source away while its entry stays, and makes none. -/
structure Quiet (host host' : ConnectPointHost) : Prop where
  consumers : host'.consumers = host.consumers
  shared : host'.shared = host.shared
  sharedSource : host'.sharedSource = host.sharedSource
  sources : ∀ entity entry, host'.peerSources.find entity = some entry →
    ∃ old, host.peerSources.find entity = some old ∧ old.source = entry.source

theorem Quiet.refl (host : ConnectPointHost) : Quiet host host := ⟨rfl, rfl, rfl, fun _ entry h => ⟨entry, h, rfl⟩⟩

theorem Quiet.trans {host'' : ConnectPointHost} (h : Quiet host host') (h' : Quiet host' host'') : Quiet host host'' where
  consumers := h'.consumers.trans h.consumers
  shared := h'.shared.trans h.shared
  sharedSource := h'.sharedSource.trans h.sharedSource
  sources entity entry hentry := by
    obtain ⟨mid, hmid, hsource⟩ := h'.sources entity entry hentry
    obtain ⟨old, hold, hsame⟩ := h.sources entity mid hmid
    exact ⟨old, hold, hsame.trans hsource⟩

section
variable (host : ConnectPointHost)

private theorem quiet_setLink (place : Nat) (link : PeerLink) : Quiet host (host.setLink place link) :=
  ⟨rfl, rfl, rfl, fun _ entry h => ⟨entry, h, rfl⟩⟩

private theorem quiet_release (entity : QString) : Quiet host (host.releasePeerSource entity) := by
  rw [releasePeerSource]
  split
  · exact .refl host
  · next entry hentry =>
    split
    · refine ⟨rfl, rfl, rfl, fun key entry' hentry' => ?_⟩
      rw [setEntry, Hash.find_insert] at hentry'
      split at hentry'
      · next heq =>
        subst heq
        exact ⟨entry, hentry, by rw [← Option.some.inj hentry']⟩
      · exact ⟨entry', hentry', rfl⟩
    · refine ⟨rfl, rfl, rfl, fun key entry' hentry' => ?_⟩
      rw [Hash.find_erase] at hentry'
      split at hentry'
      · cases hentry'
      · exact ⟨entry', hentry', rfl⟩

private theorem quiet_destroyed (place : Nat) : Quiet host (host.onDestroyed place) := by
  rw [onDestroyed]
  split
  · exact .refl host
  · split
    · exact (quiet_setLink host place _).trans (quiet_release _ _)
    · exact .refl host

private theorem quiet_nodeDestroyed (place : Nat) : Quiet host (host.onNodeDestroyed place) := by
  rw [onNodeDestroyed]
  split
  · exact .refl host
  · exact quiet_setLink host place _

private theorem quiet_step {event : LinkEvent} (h : ∀ peer minting, event ≠ .peerConnected peer minting) :
    Quiet host (host.step event) := by
  cases event with
  | peerConnected peer minting => exact absurd rfl (h peer minting)
  | disconnected place =>
    rw [step]
    split
    · exact .refl host
    · exact quiet_setLink host place _
  | linkDestroyed place => exact (quiet_nodeDestroyed host place).trans (quiet_destroyed _ place)
  | nodeDestroyed place => exact quiet_nodeDestroyed host place
  | destroyed place => exact quiet_destroyed host place

private theorem consumers_step (event : LinkEvent) : (host.step event).consumers = host.consumers := by
  by_cases hevent : ∃ peer minting, event = .peerConnected peer minting
  · obtain ⟨peer, minting, rfl⟩ := hevent
    by_cases hlisted : peer.entity ∈ host.consumers
    · obtain ⟨_, _, -, hconsumers, -⟩ := onPeerConnected_listed hlisted minting
      exact hconsumers
    · rw [step, onPeerConnected, if_pos hlisted]
  · exact (quiet_step host fun peer minting heq => hevent ⟨peer, minting, heq⟩).consumers

end

private theorem kept_run (shared : Bool) (events : List LinkEvent) :
    Kept (run step (make consumers shared) events) ∧ (run step (make consumers shared) events).consumers = consumers :=
  run_invariant (fun host => Kept host ∧ host.consumers = consumers)
    (fun host event h => ⟨kept_step h.1 event, (consumers_step host event).trans h.2⟩) ⟨kept_make consumers shared, rfl⟩ events

/-- The links by the run's events alone: the entity of each listed peer that came, and whether the transport
of its link stands. -/
def linkStep (consumers : List QString) (links : List (QString × Bool)) : LinkEvent → List (QString × Bool)
  | .peerConnected peer _ => if peer.entity ∈ consumers then links ++ [(peer.entity, true)] else links
  | .linkDestroyed place => links.modify place fun link => (link.1, false)
  | .destroyed place => links.modify place fun link => (link.1, false)
  | .disconnected _ => links
  | .nodeDestroyed _ => links

def linksOf (consumers : List QString) (events : List LinkEvent) : List (QString × Bool) := run (linkStep consumers) [] events

def standingOf (consumers : List QString) (events : List LinkEvent) (entity : QString) : Nat :=
  (linksOf consumers events).countP fun link => link.2 && link.1 == entity

/-- The shared Source's file has not loaded for any listed peer. -/
def Unloaded (consumers : List QString) (events : List LinkEvent) : Prop :=
  ∀ peer minting, .peerConnected peer minting ∈ events → peer.entity ∈ consumers → minting.loads = false

/-- The latest of the entity's peers came when no Source could be made. -/
def LastFailed (consumers : List QString) (shared : Bool) (events : List LinkEvent) (entity : QString) : Prop :=
  ∃ before peer minting after, events = before ++ .peerConnected peer minting :: after ∧ peer.entity = entity ∧
    (∀ other minting', .peerConnected other minting' ∈ after → other.entity ≠ entity) ∧
    if shared then minting.registered = false ∨ minting.loads = false ∧ Unloaded consumers before else minting.loads = false

theorem LastFailed.snoc {shared : Bool} {events : List LinkEvent} (h : LastFailed consumers shared events entity)
    {event : LinkEvent} (hother : ∀ peer minting, event = .peerConnected peer minting → peer.entity ≠ entity) :
    LastFailed consumers shared (events ++ [event]) entity := by
  obtain ⟨before, peer, minting, after, rfl, hpeer, hafter, hfails⟩ := h
  refine ⟨before, peer, minting, after ++ [event], by rw [append_assoc, cons_append], hpeer,
    fun other minting' hmem => ?_, hfails⟩
  obtain hmem | hmem := mem_append.mp hmem
  · exact hafter other minting' hmem
  · exact hother other minting' (mem_singleton.mp hmem).symm

/-- What the host has, as the run's events tell it. -/
structure Told (shared : Bool) (events : List LinkEvent) (host : ConnectPointHost) : Prop where
  mode : host.shared = shared
  links : host.links.map (fun link => (link.entity, link.device)) = linksOf consumers events
  lacks : ∀ entity entry, host.peerSources.find entity = some entry → entry.source = none → LastFailed consumers shared events entity
  unloaded : shared = true → host.sharedSource = none →
    Unloaded consumers events ∧ ∀ entity entry, host.peerSources.find entity = some entry → entry.source = none

private theorem releasePeerSource_links (host : ConnectPointHost) (entity : QString) : (host.releasePeerSource entity).links = host.links := by
  rw [releasePeerSource]
  split
  · rfl
  · split <;> rfl

variable {place : Nat}

private theorem map_setLink {old link : PeerLink} (hplace : host.links[place]? = some old) (hentity : link.entity = old.entity)
    (hdevice : link.device = old.device) : (host.setLink place link).links.map (fun link => (link.entity, link.device)) =
      host.links.map fun link => (link.entity, link.device) := by
  obtain ⟨hlt, hget⟩ := List.getElem?_eq_some_iff.mp hplace
  have hmap : place < (host.links.map fun link => (link.entity, link.device)).length := by rwa [length_map]
  have hsame : (link.entity, link.device) = (host.links.map fun link => (link.entity, link.device))[place] := by
    rw [getElem_map, hget, hentity, hdevice]
  rw [ConnectPointHost.setLink, map_set, hsame, set_getElem_self]

private theorem map_onNodeDestroyed (host : ConnectPointHost) (place : Nat) :
    (host.onNodeDestroyed place).links.map (fun link => (link.entity, link.device)) =
      host.links.map fun link => (link.entity, link.device) := by
  rw [onNodeDestroyed]
  split
  · rfl
  · next link hplace => exact map_setLink hplace rfl rfl

private theorem map_onDestroyed (host : ConnectPointHost) (place : Nat) :
    (host.onDestroyed place).links.map (fun link => (link.entity, link.device)) =
      (host.links.map fun link => (link.entity, link.device)).modify place fun link => (link.1, false) := by
  rw [onDestroyed, modify_eq_set_getElem?, List.getElem?_map]
  split
  · next hnone =>
    rw [hnone]
    rfl
  · next link hplace =>
    rw [hplace]
    dsimp only [map_some, map_eq_map, getD_some]
    split
    · rw [releasePeerSource_links, ConnectPointHost.setLink, map_set]
    · next hdevice =>
      have hsame : (host.setLink place link).links.map _ = _ := map_setLink hplace rfl rfl
      rw [ConnectPointHost.setLink, map_set] at hsame
      rw [← Bool.eq_false_iff.mpr hdevice, hsame]

variable {consumers} in
theorem Told.step {shared : Bool} {events : List LinkEvent} (h : Told consumers shared events host)
    (hkept : Kept host) (hconsumers : host.consumers = consumers) (event : LinkEvent) :
    Told consumers shared (events ++ [event]) (host.step event) := by
  have hlinksOf : linksOf consumers (events ++ [event]) = linkStep consumers (linksOf consumers events) event := by
    rw [linksOf, run_append]
    rfl
  by_cases hevent : ∃ peer minting, event = .peerConnected peer minting
  swap
  · have hother (peer : MeshPeer) (minting : Minting) : event ≠ .peerConnected peer minting := fun heq => hevent ⟨peer, minting, heq⟩
    have hquiet := quiet_step host hother
    refine ⟨hquiet.shared.trans h.mode, ?_, fun entity entry hentry hnone => ?_, fun hmode hnone => ⟨fun peer minting hmem => ?_,
      fun entity entry hentry => ?_⟩⟩
    · rw [hlinksOf, ← h.links]
      cases event with
      | peerConnected peer minting => exact absurd rfl (hother peer minting)
      | disconnected place =>
        rw [ConnectPointHost.step]
        split
        · rfl
        · next link hplace => exact map_setLink hplace rfl rfl
      | linkDestroyed place => exact (map_onDestroyed _ place).trans (by rw [map_onNodeDestroyed, linkStep])
      | nodeDestroyed place => exact map_onNodeDestroyed host place
      | destroyed place => exact map_onDestroyed host place
    · obtain ⟨old, hold, hsource⟩ := hquiet.sources entity entry hentry
      exact (h.lacks entity old hold (hsource.trans hnone)).snoc consumers fun peer minting heq => absurd heq (hother peer minting)
    · obtain hmem | hmem := mem_append.mp hmem
      · exact (h.unloaded hmode (hquiet.sharedSource.symm.trans hnone)).1 peer minting hmem
      · exact absurd (mem_singleton.mp hmem).symm (hother peer minting)
    · obtain ⟨old, hold, hsource⟩ := hquiet.sources entity entry hentry
      exact hsource.symm.trans ((h.unloaded hmode (hquiet.sharedSource.symm.trans hnone)).2 entity old hold)
  obtain ⟨peer, minting, rfl⟩ := hevent
  by_cases hlisted : peer.entity ∈ host.consumers
  swap
  · have hstep : host.step (.peerConnected peer minting) = { host with refused := host.refused ++ [peer.entity] } := by
      rw [ConnectPointHost.step, onPeerConnected, if_pos hlisted]
    rw [hconsumers] at hlisted
    rw [hstep]
    refine ⟨h.mode, ?_, fun entity entry hentry hnone => (h.lacks entity entry hentry hnone).snoc consumers ?_,
      fun hmode hnone => ⟨fun other minting' hmem hother => ?_, (h.unloaded hmode hnone).2⟩⟩
    · rw [hlinksOf, linkStep, if_neg hlisted]
      exact h.links
    · -- an entity with an entry is listed
      rintro other minting' heq rfl
      obtain ⟨rfl, -⟩ := LinkEvent.peerConnected.inj heq
      exact hlisted (hconsumers ▸ Counted.listed_of_entry hkept hentry)
    · obtain hmem | hmem := mem_append.mp hmem
      · exact (h.unloaded hmode hnone).1 other minting' hmem hother
      · obtain ⟨rfl, -⟩ := LinkEvent.peerConnected.inj (mem_singleton.mp hmem)
        exact absurd hother hlisted
  obtain ⟨source, link, hsourced, -, hmode, hfind, hlinks, hentity, hdevice, -⟩ := onPeerConnected_listed hlisted minting
  rw [ConnectPointHost.step]
  generalize host.onPeerConnected peer minting = host' at hsourced hmode hfind hlinks
  rw [hconsumers] at hlisted
  have hfailed (hsource : source = none) : CannotMint host minting := by
    cases hsourced with
    | failed _ _ _ hcannot => exact hcannot
    | had _ => cases hsource
    | made _ => cases hsource
  -- without a shared Source there was none before, and its file has not loaded
  have hunloaded (hshared : shared = true) (hnone : host'.sharedSource = none) :
      host.sharedSource = none ∧ minting.loads = false ∧ source = none := by
    have hmode' : host.shared = true := h.mode.trans hshared
    cases hsourced with
    | had hentry _ _ hsame =>
      obtain ⟨entry, hold, hsource⟩ := source_entryOf hentry
      exact nomatch ((h.unloaded hshared (hsame.symm.trans hnone)).2 _ entry hold).symm.trans hsource
    | failed _ _ _ _ hstays => exact ⟨(hstays hmode' hnone).1, (hstays hmode' hnone).2, rfl⟩
    | made _ _ _ _ hsome => exact absurd hnone (hsome hmode')
  refine ⟨hmode.trans h.mode, ?_, fun entity entry hentry hnone => ?_, fun hshared hnone => ⟨fun other minting' hmem hother => ?_,
    fun entity entry hentry => ?_⟩⟩
  · rw [hlinksOf, linkStep, if_pos hlisted, hlinks, map_append, h.links, ← hentity, ← hdevice]
    rfl
  · rw [hfind] at hentry
    split at hentry
    · next heq =>
      have hsource : source = none := (congrArg PeerSource.source (Option.some.inj hentry)).trans hnone
      have hcannot := hfailed hsource
      refine ⟨events, peer, minting, [], rfl, heq.symm, nofun, ?_⟩
      rw [CannotMint, h.mode] at hcannot
      split
      · next hshared =>
        rw [if_pos hshared] at hcannot
        exact hcannot.imp_right fun hboth => ⟨hboth.1, (h.unloaded hshared hboth.2).1⟩
      · next hshared =>
        rw [if_neg hshared] at hcannot
        exact hcannot
    · next hne =>
      refine (h.lacks entity entry hentry hnone).snoc consumers fun other minting' heq hsame => hne ?_
      obtain ⟨rfl, -⟩ := LinkEvent.peerConnected.inj heq
      exact hsame.symm
  · obtain ⟨hbefore, hloads, -⟩ := hunloaded hshared hnone
    obtain hmem | hmem := mem_append.mp hmem
    · exact (h.unloaded hshared hbefore).1 other minting' hmem hother
    · obtain ⟨-, rfl⟩ := LinkEvent.peerConnected.inj (mem_singleton.mp hmem)
      exact hloads
  · obtain ⟨hbefore, -, hsource⟩ := hunloaded hshared hnone
    rw [hfind] at hentry
    split at hentry
    · rw [← Option.some.inj hentry, hsource]
    · exact (h.unloaded hshared hbefore).2 entity entry hentry

private theorem told_run (shared : Bool) (events : List LinkEvent) :
    Told consumers shared events (run step (make consumers shared) events) := by
  induction events using List.reverseRec with
  | nil =>
    refine ⟨rfl, rfl, fun entity entry hentry => ?_, fun _ _ => ⟨nofun, fun entity entry hentry => ?_⟩⟩
    · exact nomatch (Hash.find_empty entity).symm.trans hentry
    · exact nomatch (Hash.find_empty entity).symm.trans hentry
  | append_singleton events event ih =>
    obtain ⟨hkept, hconsumers⟩ := kept_run consumers shared events
    rw [run_append, run_cons, run_nil]
    exact ih.step hkept hconsumers event

/-- An entity's Source lives with the links of it whose transport has not been destroyed. -/
structure Lives (shared : Bool) (events : List LinkEvent) (host : ConnectPointHost) : Prop where
  /-- The host's links are those of the run's listed peers. -/
  links : host.links.map (fun link => (link.entity, link.device)) = linksOf consumers events
  /-- Nothing is made for a peer that is not listed. -/
  strangers : ∀ entity, entity ∉ consumers → (∀ link ∈ host.links, link.entity ≠ entity) ∧
    ∀ source caller, host.objects.find source = some caller → caller.entity ≠ entity
  standing : ∀ entity, 0 < standingOf consumers events entity → ∃ entry, host.peerSources.find entity = some entry ∧
    entry.connections = standingOf consumers events entity ∧
    ((∃ source, entry.source = some source ∧ host.IsSourceOf source entity) ∨
      entry.source = none ∧ LastFailed consumers shared events entity)
  gone : ∀ entity, standingOf consumers events entity = 0 → host.peerSources.find entity = none ∧
    ∀ source caller, host.objects.find source = some caller → caller.entity ≠ entity
  /-- Only the links of an entity acquire its Source, and it is there while the transport is. -/
  acquired : ∀ link ∈ host.links, ∀ source, link.acquired = some source →
    (∀ caller, host.objects.find source = some caller → caller.entity = link.entity) ∧
    (link.device = true → host.IsSourceOf source link.entity)

variable {consumers} in
theorem Kept.lives {shared : Bool} {events : List LinkEvent} (h : Kept host) (hconsumers : host.consumers = consumers)
    (htold : Told consumers shared events host) : Lives consumers shared events host := by
  have hstandingOf (entity : QString) : standingOf consumers events entity = host.standing entity := by
    rw [standingOf, ← htold.links, countP_map]
    rfl
  have hgone (entity : QString) (hzero : host.standing entity = 0) (source : Nat) (caller : Caller)
      (hobject : host.objects.find source = some caller) : caller.entity ≠ entity := by
    rintro rfl
    obtain ⟨-, entry, hentry, -⟩ := h.registered source caller hobject
    exact nomatch (h.find_none hzero).symm.trans hentry
  refine ⟨htold.links, fun entity hstranger => ?_, fun entity hstanding => ?_, fun entity hzero => ?_,
    fun link hlink source hacquired => ⟨(h.own link hlink source hacquired).2, fun hdevice => ?_⟩⟩
  · have hlinks : ∀ link ∈ host.links, link.entity ≠ entity := by
      rintro link hlink rfl
      exact hstranger (hconsumers ▸ h.listed link hlink)
    refine ⟨hlinks, hgone entity (countP_eq_zero.mpr fun link hlink => ?_)⟩
    rw [Bool.and_eq_true, beq_iff_eq]
    exact fun hboth => hlinks link hlink hboth.2
  · rw [hstandingOf] at hstanding ⊢
    obtain ⟨entry, hentry, hconnections⟩ := h.find_some hstanding
    refine ⟨entry, hentry, hconnections, ?_⟩
    cases hsource : entry.source with
    | none => exact .inr ⟨rfl, htold.lacks entity entry hentry hsource⟩
    | some source => exact .inl ⟨source, rfl, h.isSourceOf hentry hsource⟩
  · rw [hstandingOf] at hzero
    exact ⟨h.find_none hzero, hgone entity hzero⟩
  · obtain ⟨entry, hentry, hsource⟩ := h.acquired link hlink hdevice source hacquired
    exact h.isSourceOf hentry hsource

/-- Whatever order links come, hang up and are destroyed in, and whichever Sources cannot be made. -/
theorem source_lives_with_links (consumers : List QString) (shared : Bool) (events : List LinkEvent) :
    Lives consumers shared events (run step (make consumers shared) events) := by
  obtain ⟨hkept, hconsumers⟩ := kept_run consumers shared events
  exact hkept.lives hconsumers (told_run consumers shared events)

/-- Of two links of a shop one is destroyed, and the Source stands for the other. -/
theorem source_lives_with_links_second :
    let events : List LinkEvent := [.peerConnected ⟨"shop", true⟩ {}, .peerConnected ⟨"shop", true⟩ {}, .destroyed 0]
    ∃ entry source, (run step (make ["shop"] false) events).peerSources.find "shop" = some entry ∧ entry.connections = 1 ∧
      entry.source = some source ∧ (run step (make ["shop"] false) events).IsSourceOf source "shop" := by
  intro events
  obtain ⟨entry, hentry, hconnections, ⟨source, hsource, his⟩ | ⟨-, hfailed⟩⟩ :=
    (source_lives_with_links ["shop"] false events).standing "shop" (by decide)
  · exact ⟨entry, source, hentry, hconnections, hsource, his⟩
  · obtain ⟨before, peer, minting, after, hevents, -, -, hloads⟩ := hfailed
    -- every Source of the run loads
    have hmem : LinkEvent.peerConnected peer minting ∈ events := hevents ▸ mem_append_right _ (.head _)
    simp only [events, mem_cons, LinkEvent.peerConnected.injEq, reduceCtorEq, not_mem_nil, or_false] at hmem
    obtain ⟨-, rfl⟩ | ⟨-, rfl⟩ := hmem <;> cases hloads

def NodeFirst (host : ConnectPointHost) : LinkEvent → Prop
  | .destroyed place => ∀ link, host.links[place]? = some link → link.node = false
  | _ => True

def Settled (host : ConnectPointHost) : Prop :=
  ∀ link ∈ host.links, (link.device = false → link.node = false) ∧ (link.node = false → link.acquired = none)

private theorem mem_links_onDestroyed {link : PeerLink} (hlink : link ∈ (host.onDestroyed place).links) :
    link ∈ host.links ∨ ∃ old, host.links[place]? = some old ∧ link = { old with device := false } := by
  have hrelease (host : ConnectPointHost) (entity : QString) : (host.releasePeerSource entity).links = host.links := by
    rw [releasePeerSource]
    split
    · rfl
    · split <;> rfl
  rw [onDestroyed] at hlink
  split at hlink
  · exact .inl hlink
  · next old hplace =>
    split at hlink
    · rw [hrelease] at hlink
      exact (mem_or_eq_of_mem_set hlink).imp_right fun heq => ⟨old, hplace, heq⟩
    · exact .inl hlink

private theorem settled_destroyed (h : Settled host) (hnode : ∀ link, host.links[place]? = some link → link.node = false) :
    Settled (host.onDestroyed place) := by
  intro link hlink
  obtain hlink | ⟨old, hplace, rfl⟩ := mem_links_onDestroyed hlink
  · exact h link hlink
  · exact ⟨fun _ => hnode old hplace, (h old (mem_of_getElem? hplace)).2⟩

private theorem settled_setLink (h : Settled host) {link : PeerLink} (hlink : (link.device = false → link.node = false) ∧
    (link.node = false → link.acquired = none)) : Settled (host.setLink place link) := by
  intro other hother
  obtain hother | rfl := mem_or_eq_of_mem_set hother
  · exact h other hother
  · exact hlink

theorem settled_step (h : Settled host) {event : LinkEvent} (hfirst : NodeFirst host event) : Settled (host.step event) := by
  have hnode (place : Nat) : Settled (host.onNodeDestroyed place) := by
    rw [onNodeDestroyed]
    split
    · exact h
    · exact settled_setLink h ⟨fun _ => rfl, fun _ => rfl⟩
  cases event with
  | peerConnected peer minting =>
    by_cases hlisted : peer.entity ∈ host.consumers
    · obtain ⟨_, new, -, -, -, -, hlinks, -, hdevice, hnode, -⟩ := onPeerConnected_listed hlisted minting
      intro link hlink
      rw [step, hlinks] at hlink
      obtain hlink | hlink := mem_append.mp hlink
      · exact h link hlink
      · obtain rfl := mem_singleton.mp hlink
        rw [hdevice, hnode]
        exact ⟨nofun, nofun⟩
    · rw [step, onPeerConnected, if_pos hlisted]
      exact h
  | disconnected place =>
    rw [step]
    split
    · exact h
    · next link hplace => exact settled_setLink h (h link (mem_of_getElem? hplace))
  | linkDestroyed place =>
    refine settled_destroyed (hnode place) fun link hplace => ?_
    rw [onNodeDestroyed] at hplace
    split at hplace
    · next hnone => exact nomatch hnone.symm.trans hplace
    · next old hold =>
      have hlt := (List.getElem?_eq_some_iff.mp hold).1
      rw [ConnectPointHost.setLink, List.getElem?_set_self hlt] at hplace
      rw [← Option.some.inj hplace]
  | nodeDestroyed place => exact hnode place
  | destroyed place => exact settled_destroyed h hfirst

/-- No node that stands remotes a deleted object. -/
theorem remoted_is_there (shared : Bool) {events : List LinkEvent}
    (hfirst : Each step NodeFirst (make consumers shared) events) {link : PeerLink}
    (hlink : link ∈ (run step (make consumers shared) events).links) {source : Nat} (hacquired : link.acquired = some source) :
    (run step (make consumers shared) events).IsSourceOf source link.entity := by
  have hsettled : Settled (run step (make consumers shared) events) :=
    hfirst.invariant Settled (fun _ _ h hok => settled_step h hok) nofun
  have hlives := source_lives_with_links consumers shared events
  obtain ⟨hdevice, hnode⟩ := hsettled link hlink
  refine (hlives.acquired link hlink source hacquired).2 ?_
  by_contra hgone
  exact nomatch (hnode (hdevice (Bool.eq_false_iff.mpr hgone))).symm.trans hacquired

/-- The Source outlives the first of two links. -/
theorem remoted_is_there_second :
    let events : List LinkEvent := [.peerConnected ⟨"shop", true⟩ {}, .peerConnected ⟨"shop", true⟩ {}, .linkDestroyed 0]
    (run step (make ["shop"] false) events).IsSourceOf 0 "shop" := by
  intro events
  have hfirst : Each step NodeFirst (make ["shop"] false) events := ⟨trivial, trivial, trivial, trivial⟩
  have hlink : { entity := "shop", acquired := some 0 } ∈ (run step (make ["shop"] false) events).links := by decide
  exact remoted_is_there ["shop"] false hfirst hlink rfl

end ConnectPointHost
end SynQt
