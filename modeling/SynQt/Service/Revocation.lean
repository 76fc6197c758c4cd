import SynQt.Service.Mesh

/-! Whether a revoked session can be live again once every message has been delivered.
One id is followed from its first call to the store until every table has let it go. -/
namespace SynQt
open List hiding lookup
open Lib SessionManager Option
universe u

namespace Mesh
variable {ι : Type u} {s : Mesh ι} {x : QByteArray} {c : Int} {doomed doomed' : Prop}

/-- The edges keep sessions as long as the store does, and are attached to it. -/
def Uniform (s : Mesh ι) : Prop := ∀ i, (s.edge i).ttlMs = s.entity.ttlMs ∧ (s.edge i).remote = true

/-- No table and no message holds the record of `x`. -/
structure Nowhere (s : Mesh ι) (x : QByteArray) : Prop where
  edge : ∀ i, (s.edge i).sessions.find x = none
  entity : s.entity.sessions.find x = none
  up : ∀ i, ∀ call ∈ s.up i, call.change.stores ≠ some x
  down : ∀ i, ∀ message ∈ s.down i, message.stores ≠ some x

/-- Every copy of the record of `x` was created at `c`. -/
structure Dated (s : Mesh ι) (x : QByteArray) (c : Int) : Prop where
  edge : ∀ i r, (s.edge i).sessions.find x = some r → r.createdMs = c
  entity : ∀ r, s.entity.sessions.find x = some r → r.createdMs = c
  up : ∀ i scope identity c', .putSession x scope identity c' ∈ s.up i → c' = c
  down : ∀ i scope identity c', .sessionUpserted x scope identity c' ∈ s.down i → c' = c

/-- The call that first tells the store about `x` is still on the link of `j`, and nothing
but that edge has heard of it. A doomed `x` is followed by its own removal. -/
structure Flying (doomed : Prop) (s : Mesh ι) (x : QByteArray) (j : ι) : Prop where
  sent : ∃ before call after, s.up j = before ++ call :: after ∧ call.change.stores = some x ∧
    (∀ call ∈ before, call.change.stores ≠ some x) ∧ (∀ call ∈ after, call.change.stores ≠ some x) ∧
    (doomed → .removeSession x ∈ after)
  others : ∀ k, k ≠ j → (s.edge k).sessions.find x = none ∧ ∀ call ∈ s.up k, call.change.stores ≠ some x
  entity : s.entity.sessions.find x = none
  down : ∀ k, ∀ message ∈ s.down k, message.stores ≠ some x

/-- What edge `k` still holds or has coming of `x`, a removal on its way will take. -/
def Cleaning (s : Mesh ι) (x : QByteArray) (k : ι) : Prop :=
  ((s.edge k).sessions.find x ≠ none ∨ ∃ message ∈ s.down k, message.stores = some x) →
    ∃ before after, s.down k = before ++ .sessionRemoved x :: after ∧
      ∀ message ∈ after, message.stores ≠ some x

/-- The lifetime of a session created at `c` has run out. -/
def Past (s : Mesh ι) (c : Int) : Prop := 0 < s.entity.ttlMs ∧ s.entity.ttlMs < s.now - c

/-- The store has heard of `x`, and no later call can bring it back. -/
structure Landed (doomed : Prop) (s : Mesh ι) (x : QByteArray) (c : Int) : Prop where
  up : ∀ k, ∀ call ∈ s.up k, call.change.stores ≠ some x
  removal : doomed → s.entity.sessions.find x ≠ none → ∃ k, .removeSession x ∈ s.up k
  cleared : s.entity.sessions.find x = none → s.Past c ∨ ∀ k, s.Cleaning x k

structure Track (doomed : Prop) (s : Mesh ι) (x : QByteArray) (c : Int) : Prop where
  dated : s.Dated x c
  phase : (∃ j, s.Flying doomed x j) ∨ s.Landed doomed x c

private theorem Nowhere.track (h : s.Nowhere x) (c : Int) : s.Track doomed x c where
  dated :=
    ⟨fun i r hr => by simp [h.edge i] at hr, fun r hr => by simp [h.entity] at hr,
      fun i _ _ _ hm => absurd rfl (h.up i _ hm), fun i _ _ _ hm => absurd rfl (h.down i _ hm)⟩
  phase := by
    refine .inr ⟨h.up, fun _ he => absurd h.entity he, fun _ => .inr fun k hk => ?_⟩
    rcases hk with hk | ⟨message, hm, hs⟩
    · exact absurd (h.edge k) hk
    · exact absurd hs (h.down k message hm)

variable {op : EdgeOp}

private theorem perform_sent (hu : s.Uniform) {i : ι} (hx : op.fresh ≠ some x) :
    ∀ call ∈ (op.perform (s.edge i) s.now).calls, call.change.stores ≠ some x := by
  intro call hcall
  rcases op.perform_calls s.now (hu i).2 with
    ⟨_, hnone⟩ | ⟨fresh, before, after, record, hf, _, hid, hc, hb, ha⟩
  · simp [hnone call hcall]
  · rw [hc] at hcall
    simp only [mem_append, mem_cons] at hcall
    rcases hcall with hcall | rfl | hcall
    · simp [hb call hcall]
    · rw [← hid] at hf
      exact fun he => hx (hf.trans (by simpa [putCall, StoreCall.change, StoreMessage.stores] using he))
    · simp [ha call hcall]

theorem Fresh.ne {op : MeshOp ι} (hop : s.Fresh op) (hx : x ∈ s.named) :
    ∀ i local_, op = .edge i local_ → local_.fresh ≠ some x := by
  rintro i local_ rfl hf
  exact (hop x hf).2 hx

/-- A doomed id is live nowhere once everything has been delivered. -/
theorem Track.dead_of_quiet (h : s.Track True x c) (hu : s.Uniform) (hq : s.Quiet) :
    (∀ k, (s.edge k).isLive s.now x = false) ∧ s.entity.isLive s.now x = false := by
  rcases h.phase with ⟨j, hj⟩ | hl
  · obtain ⟨_, _, _, hup, _⟩ := hj.sent
    simp [hq.1 j] at hup
  have hentity : s.entity.sessions.find x = none := by
    by_contra hne
    obtain ⟨k, hk⟩ := hl.removal trivial hne
    simp [hq.1 k] at hk
  refine ⟨fun k => ?_, by simp [isLive, lookup, hentity]⟩
  cases hr : (s.edge k).sessions.find x with
  | none => simp [isLive, lookup, hr]
  | some r =>
    rcases hl.cleared hentity with ⟨hpos, hlate⟩ | hclean
    · rw [← h.dated.edge k r hr, ← (hu k).1] at hlate
      rw [← (hu k).1] at hpos
      simp [isLive, lookup, hr, hpos, hlate]
    · obtain ⟨_, _, hdown, -⟩ := hclean k (.inl (by simp [hr]))
      simp [hq.2 k] at hdown

variable [DecidableEq ι]

private theorem perform_held {i k : ι} (hx : op.fresh ≠ some x) {r : SessionRecord}
    (h : ((s.perform i op).edge k).sessions.find x = some r) :
    (s.edge k).sessions.find x = some r := by
  rw [perform_edge] at h
  split at h
  · rename_i hk
    subst hk
    exact EdgeOp.perform_lookup hx h
  · exact h

theorem Dated.perform (h : s.Dated x c) (hu : s.Uniform) (i : ι)
    (hx : op.fresh ≠ some x) : (s.perform i op).Dated x c where
  edge k r hr := h.edge k r (perform_held hx hr)
  entity := h.entity
  up k scope identity c' hm := by
    rw [perform_up] at hm
    split at hm
    · rcases mem_append.mp hm with hm | hm
      · exact h.up i scope identity c' hm
      · exact absurd rfl (perform_sent hu hx _ hm)
    · exact h.up k scope identity c' hm
  down := h.down

/-- `x` is doomed after a step of edge `i` when it was before, or when the step sends its
removal. -/
theorem Flying.perform {j : ι} (h : s.Flying doomed x j) (hu : s.Uniform) {i : ι}
    (hx : op.fresh ≠ some x)
    (hd : doomed' → doomed ∨ j = i ∧ .removeSession x ∈ (op.perform (s.edge i) s.now).calls) :
    (s.perform i op).Flying doomed' x j where
  sent := by
    obtain ⟨before, call, after, hup, hs, hb, ha, hrem⟩ := h.sent
    rw [perform_up]
    split
    · rename_i hji
      subst hji
      refine ⟨before, call, after ++ (op.perform (s.edge j) s.now).calls, by simp [hup], hs, hb, ?_, ?_⟩
      · intro call hcall
        rcases mem_append.mp hcall with hcall | hcall
        · exact ha call hcall
        · exact perform_sent hu hx call hcall
      · intro hdoom
        rcases hd hdoom with hdoom | ⟨-, hcall⟩
        · exact mem_append_left _ (hrem hdoom)
        · exact mem_append_right _ hcall
    · rename_i hji
      exact ⟨before, call, after, hup, hs, hb, ha,
        fun hdoom => hrem ((hd hdoom).resolve_right (fun hr => hji hr.1))⟩
  others k hk := by
    refine ⟨?_, ?_⟩
    · by_contra hne
      obtain ⟨r, hr⟩ := ne_none_iff_exists'.mp hne
      have := perform_held hx hr
      simp [(h.others k hk).1] at this
    · rw [perform_up]
      split
      · rename_i hki
        subst hki
        intro call hcall
        rcases mem_append.mp hcall with hcall | hcall
        · exact (h.others k hk).2 call hcall
        · exact perform_sent hu hx call hcall
      · exact (h.others k hk).2
  entity := h.entity
  down := h.down

theorem Landed.perform (h : s.Landed doomed x c) (hu : s.Uniform) {i : ι}
    (hx : op.fresh ≠ some x)
    (hd : doomed' → doomed ∨ .removeSession x ∈ (op.perform (s.edge i) s.now).calls) :
    (s.perform i op).Landed doomed' x c where
  up k := by
    rw [perform_up]
    split
    · intro call hcall
      rcases mem_append.mp hcall with hcall | hcall
      · exact h.up i call hcall
      · exact perform_sent hu hx call hcall
    · exact h.up k
  removal hdoom he := by
    rcases hd hdoom with hdoom | hcall
    · obtain ⟨k, hk⟩ := h.removal hdoom he
      refine ⟨k, ?_⟩
      rw [perform_up]
      split
      · rename_i hki
        exact mem_append_left _ (hki ▸ hk)
      · exact hk
    · refine ⟨i, ?_⟩
      rw [perform_up, if_pos rfl]
      exact mem_append_right _ hcall
  cleared he := by
    refine (h.cleared he).imp id fun hc k hk => hc k (hk.imp ?_ id)
    intro hne hnone
    obtain ⟨r, hr⟩ := ne_none_iff_exists'.mp hne
    simp [perform_held hx hr] at hnone

theorem Track.perform (h : s.Track doomed x c) (hu : s.Uniform) (i : ι)
    (hx : op.fresh ≠ some x) : (s.perform i op).Track doomed x c where
  dated := h.dated.perform hu i hx
  phase := h.phase.imp (fun ⟨j, hj⟩ => ⟨j, hj.perform hu hx .inl⟩) (·.perform hu hx .inl)

/-- Revoking `x` dooms it, unless its first call is still on another edge's link. -/
theorem Track.revoke (h : s.Track doomed x c) (hu : s.Uniform) {i : ι}
    (hlink : ∀ k, k ≠ i → ∀ call ∈ s.up k, call.change.stores ≠ some x) :
    (s.perform i (.revoke x)).Track True x c where
  dated := h.dated.perform hu i (by simp [EdgeOp.fresh])
  phase := by
    have hfresh : (EdgeOp.revoke x).fresh ≠ some x := by simp [EdgeOp.fresh]
    have hcall : .removeSession x ∈ ((EdgeOp.revoke x).perform (s.edge i) s.now).calls := by
      simp only [EdgeOp.perform, SessionManager.revoke]
      split <;> simp [SessionManager.storeCalls, (hu i).2]
    rcases h.phase with ⟨j, hj⟩ | hl
    · obtain ⟨before, call, after, hup, hs, -⟩ := hj.sent
      have hji : j = i := by
        by_contra hne
        exact hlink j hne call (by simp [hup]) hs
      exact .inl ⟨j, hj.perform hu hfresh (fun _ => .inr ⟨hji, hcall⟩)⟩
    · exact .inr (hl.perform hu hfresh (fun _ => .inr hcall))

theorem Nowhere.mint (h : s.Nowhere x) (hu : s.Uniform) (i : ι) (hx : op.fresh = some x) :
    ∃ c, (s.perform i op).Track False x c := by
  rcases op.perform_calls s.now (hu i).2 with
    ⟨hheld, hnone⟩ | ⟨fresh, before, after, record, hf, hm, hid, hc, hb, ha⟩
  · suffices hn : (s.perform i op).Nowhere x from ⟨0, hn.track 0⟩
    refine ⟨fun k => ?_, h.entity, fun k call hcall => ?_, h.down⟩
    · by_contra hne
      rw [perform_edge] at hne
      split at hne
      · exact hheld x hne (h.edge i)
      · exact hne (h.edge k)
    · rw [perform_up] at hcall
      split at hcall
      · rcases mem_append.mp hcall with hcall | hcall
        · exact h.up i call hcall
        · simp [hnone call hcall]
      · exact h.up k call hcall
  · obtain rfl : fresh = x := Option.some.inj (hf.symm.trans hx)
    have hstores : (putCall record).change.stores = some fresh := by rw [← hid]; rfl
    refine ⟨record.createdMs, ⟨fun k r hr => ?_, fun r hr => ?_, fun k scope identity c' hcall => ?_,
      fun k _ _ _ hmess => absurd rfl (h.down k _ hmess)⟩, .inl ⟨i, ?_, fun k hk => ⟨?_, ?_⟩, h.entity, h.down⟩⟩
    · rw [perform_edge] at hr
      split at hr
      · rw [hm] at hr
        cases hr
        rfl
      · simp [h.edge k] at hr
    · have hr' : s.entity.sessions.find fresh = some r := hr
      simp [h.entity] at hr'
    · rw [perform_up] at hcall
      split at hcall
      · simp only [hc, mem_append, mem_cons] at hcall
        rcases hcall with hcall | hcall | hcall | hcall
        · exact absurd rfl (h.up i _ hcall)
        · have := hb _ hcall
          simp [StoreCall.change, StoreMessage.stores] at this
        · cases hcall
          rfl
        · have := ha _ hcall
          simp [StoreCall.change, StoreMessage.stores] at this
      · exact absurd rfl (h.up k _ hcall)
    · refine ⟨s.up i ++ before, putCall record, after, ?_, hstores, ?_, ?_, False.elim⟩
      · rw [perform_up, if_pos rfl, hc, append_assoc]
      · intro call hcall
        rcases mem_append.mp hcall with hcall | hcall
        · exact h.up i call hcall
        · simp [hb call hcall]
      · intro call hcall
        simp [ha call hcall]
    · rw [perform_edge, if_neg hk]
      exact h.edge k
    · rw [perform_up, if_neg hk]
      exact h.up k

theorem Dated.deliverUp (h : s.Dated x c) (i : ι) : (s.deliverUp i).Dated x c := by
  rcases s.deliverUp_cases i with heq | ⟨call, rest, hup, hedge, -, -, hentity, hups, hdowns⟩
  · rwa [heq]
  have hcall (scope : QString) (identity : QVariantMap) (c' : Int)
      (he : call.change = .sessionUpserted x scope identity c') : c' = c := by
    cases call with
    | putSession =>
      cases he
      exact h.up i scope identity c' (by simp [hup])
    | removeSession => cases he
    | rotateSession => cases he
  refine ⟨fun k r hr => h.edge k r (by rwa [hedge] at hr), fun r hr => ?_,
    fun k scope identity c' hm => ?_, fun k scope identity c' hm => ?_⟩
  · rw [hentity] at hr
    rcases StoreMessage.receive_lookup hr with ⟨scope, identity, he⟩ | ⟨-, r', hr', hdate⟩
    · exact hcall scope identity _ he
    · rw [← hdate]
      exact h.entity r' hr'
  · rw [hups] at hm
    split at hm
    · exact h.up i scope identity c' (by simp [hup, hm])
    · exact h.up k scope identity c' hm
  · rw [hdowns] at hm
    rcases mem_append.mp hm with hm | hm
    · exact h.down k scope identity c' hm
    · exact hcall scope identity c' (StoreMessage.forwarded_sub _ _ hm).symm

/-- The store does not learn of `x` from a change that does not store it. -/
theorem receive_none {m : SessionManager} {now : Int} {message : StoreMessage}
    (hs : message.stores ≠ some x) (h : m.sessions.find x = none) :
    (message.receive m now).manager.sessions.find x = none := by
  by_contra hne
  obtain ⟨r, hr⟩ := ne_none_iff_exists'.mp hne
  rcases StoreMessage.receive_lookup hr with ⟨scope, identity, rfl⟩ | ⟨-, r', hr', -⟩
  · exact hs rfl
  · simp [h] at hr'

theorem Flying.deliverUp {j : ι} (h : s.Flying doomed x j) (i : ι) :
    (∃ j, (s.deliverUp i).Flying doomed x j) ∨ (s.deliverUp i).Landed doomed x c := by
  rcases s.deliverUp_cases i with heq | ⟨call, rest, hup, hedge, -, -, hentity, hups, hdowns⟩
  · exact .inl ⟨j, by rwa [heq]⟩
  obtain ⟨before, first, after, hsent, hs, hb, ha, hrem⟩ := h.sent
  by_cases hcs : call.change.stores = some x
  · -- the first call lands: it heads the link of `j`, and the store holds `x` from here on
    have hij : i = j := by
      by_contra hne
      exact (h.others i hne).2 call (by simp [hup]) hcs
    subst hij
    have hrest : rest = after := by
      cases before with
      | nil => simpa using congrArg List.tail (hup.symm.trans hsent)
      | cons b bs =>
        have he : call = b := by simpa using congrArg List.head? (hup.symm.trans hsent)
        exact absurd (he ▸ hcs) (hb b (by simp))
    subst hrest
    refine .inr ⟨fun k => ?_, fun hd _ => ⟨i, ?_⟩, fun hnone => ?_⟩
    · rw [hups]
      split
      · exact ha
      · rename_i hk
        exact (h.others k hk).2
    · rw [hups, if_pos rfl]
      exact hrem hd
    · exfalso
      rw [hentity] at hnone
      cases call with
      | putSession token scope identity createdMs =>
        obtain rfl : token = x := by simpa [StoreCall.change, StoreMessage.stores] using hcs
        simp [StoreCall.change, StoreMessage.receive, applyUpsert] at hnone
      | removeSession => cases hcs
      | rotateSession => cases hcs
  · refine .inl ⟨j, ?_, fun k hk => ⟨?_, ?_⟩, ?_, fun k message hm => ?_⟩
    · rw [hups]
      split
      · rename_i hji
        subst hji
        cases before with
        | nil =>
          have he : call = first := by simpa using congrArg List.head? (hup.symm.trans hsent)
          exact absurd (he ▸ hs) hcs
        | cons b bs =>
          have he : rest = bs ++ first :: after := by simpa using congrArg List.tail (hup.symm.trans hsent)
          exact ⟨bs, first, after, he, hs, fun call hc => hb call (mem_cons_of_mem _ hc), ha, hrem⟩
      · exact ⟨before, first, after, hsent, hs, hb, ha, hrem⟩
    · rw [hedge]
      exact (h.others k hk).1
    · rw [hups]
      split
      · rename_i hki
        subst hki
        exact fun call hc => (h.others k hk).2 call (by simp [hup, hc])
      · exact (h.others k hk).2
    · rw [hentity]
      exact receive_none hcs h.entity
    · rw [hdowns] at hm
      rcases mem_append.mp hm with hm | hm
      · exact h.down k message hm
      · rwa [StoreMessage.forwarded_sub _ _ hm]

theorem Landed.deliverUp (h : s.Landed doomed x c) (i : ι) : (s.deliverUp i).Landed doomed x c := by
  rcases s.deliverUp_cases i with heq | ⟨call, rest, hup, hedge, hnow, -, hentity, hups, hdowns⟩
  · rwa [heq]
  have hcs : call.change.stores ≠ some x := h.up i call (by simp [hup])
  have hpast : (s.deliverUp i).Past c ↔ s.Past c := by simp [Past, hentity, hnow]
  refine ⟨fun k => ?_, fun hd hheld => ?_, fun hnone => ?_⟩
  · rw [hups]
    split
    · exact fun call hc => h.up i call (by simp [hup, hc])
    · exact h.up k
  · obtain ⟨r, hr⟩ := ne_none_iff_exists'.mp hheld
    rw [hentity] at hr
    rcases StoreMessage.receive_lookup hr with ⟨scope, identity, he⟩ | ⟨hne, r', hr', -⟩
    · exact absurd (by rw [he]; rfl) hcs
    · obtain ⟨k, hk⟩ := h.removal hd (by simp [hr'])
      refine ⟨k, ?_⟩
      rw [hups]
      split
      · rename_i hki
        subst hki
        rw [hup] at hk
        rcases mem_cons.mp hk with rfl | hk
        · exact absurd rfl hne
        · exact hk
      · exact hk
  · rw [hentity] at hnone
    rw [hpast]
    by_cases hheld : s.entity.sessions.find x = none
    · refine (h.cleared hheld).imp id fun hc k hk => ?_
      rw [hedge, hdowns] at hk
      have old : (s.edge k).sessions.find x ≠ none ∨ ∃ message ∈ s.down k, message.stores = some x := by
        refine hk.imp id ?_
        rintro ⟨message, hm, hs⟩
        rcases mem_append.mp hm with hm | hm
        · exact ⟨message, hm, hs⟩
        · exact absurd (StoreMessage.forwarded_sub _ _ hm ▸ hs) hcs
      obtain ⟨before, after, hdown, ha⟩ := hc k old
      refine ⟨before, after ++ (call.change.receive s.entity s.now).forwarded, by simp [hdowns, hdown], ?_⟩
      intro message hm
      rcases mem_append.mp hm with hm | hm
      · exact ha message hm
      · rwa [StoreMessage.forwarded_sub _ _ hm]
    · -- the removal the store just took is announced to every edge behind what it announced before
      have hrem : call.change = .sessionRemoved x := by
        by_contra hne
        exact StoreMessage.receive_lookup_none _ _ hheld hne hnone
      have hfor : (call.change.receive s.entity s.now).forwarded = [.sessionRemoved x] := by
        rw [hrem]
        exact StoreMessage.forwarded_of_takes _ (isSome_iff_ne_none.mpr hheld)
      exact .inr fun k _ => ⟨s.down k, [], by rw [hdowns, hfor], by simp⟩

theorem Track.deliverUp (h : s.Track doomed x c) (i : ι) : (s.deliverUp i).Track doomed x c where
  dated := h.dated.deliverUp i
  phase := h.phase.elim (fun ⟨_, hj⟩ => hj.deliverUp i) (fun hl => .inr (hl.deliverUp i))

theorem Dated.deliverDown (h : s.Dated x c) (i : ι) : (s.deliverDown i).Dated x c := by
  rcases s.deliverDown_cases i with heq | ⟨message, rest, hdown, hentity, -, -, hup, hedges, hdowns⟩
  · rwa [heq]
  refine ⟨fun k r hr => ?_, by rw [hentity]; exact h.entity, by rw [hup]; exact h.up,
    fun k scope identity c' hm => ?_⟩
  · rw [hedges] at hr
    split at hr
    · rcases StoreMessage.receive_lookup hr with ⟨scope, identity, he⟩ | ⟨-, r', hr', hdate⟩
      · exact h.down i scope identity _ (by simp [hdown, he])
      · rw [← hdate]
        exact h.edge i r' hr'
    · exact h.edge k r hr
  · rw [hdowns] at hm
    split at hm
    · exact h.down i scope identity c' (by simp [hdown, hm])
    · exact h.down k scope identity c' hm

theorem Flying.deliverDown {j : ι} (h : s.Flying doomed x j) (i : ι) :
    (s.deliverDown i).Flying doomed x j := by
  rcases s.deliverDown_cases i with heq | ⟨message, rest, hdown, hentity, -, -, hup, hedges, hdowns⟩
  · rwa [heq]
  refine ⟨by rw [hup]; exact h.sent, fun k hk => ⟨?_, by rw [hup]; exact (h.others k hk).2⟩,
    by rw [hentity]; exact h.entity, fun k message hm => ?_⟩
  · rw [hedges]
    split
    · rename_i hki
      subst hki
      exact receive_none (h.down k message (by simp [hdown])) (h.others k hk).1
    · exact (h.others k hk).1
  · rw [hdowns] at hm
    split at hm
    · exact h.down i message (by simp [hdown, hm])
    · exact h.down k message hm

theorem Cleaning.deliverDown {k : ι} (h : s.Cleaning x k) (i : ι) : (s.deliverDown i).Cleaning x k := by
  rcases s.deliverDown_cases i with heq | ⟨message, rest, hdown, -, -, -, -, hedges, hdowns⟩
  · rwa [heq]
  intro hk
  rw [hedges, hdowns] at hk
  rw [hdowns]
  by_cases hki : k = i
  · subst hki
    rw [if_pos rfl, if_pos rfl] at hk
    rw [if_pos rfl]
    have old : (s.edge k).sessions.find x ≠ none ∨ ∃ message ∈ s.down k, message.stores = some x := by
      rcases hk with hk | ⟨message', hm, hs⟩
      · by_cases hs : message.stores = some x
        · exact .inr ⟨message, by simp [hdown], hs⟩
        · exact .inl fun hnone => hk (receive_none hs hnone)
      · exact .inr ⟨message', by simp [hdown, hm], hs⟩
    obtain ⟨before, after, hsplit, ha⟩ := h old
    cases before with
    | nil =>
      -- the removal itself arrives: nothing behind it stores `x` again
      exfalso
      obtain ⟨rfl, rfl⟩ : message = .sessionRemoved x ∧ rest = after := by
        simpa using hdown.symm.trans hsplit
      rcases hk with hk | ⟨message', hm, hs⟩
      · exact hk (by simp [StoreMessage.receive, applyRemove_lookup])
      · exact ha message' hm hs
    | cons b bs =>
      have he : rest = bs ++ .sessionRemoved x :: after := by
        simpa using congrArg List.tail (hdown.symm.trans hsplit)
      exact ⟨bs, after, he, ha⟩
  · rw [if_neg hki, if_neg hki] at hk
    rw [if_neg hki]
    exact h hk

theorem Landed.deliverDown (h : s.Landed doomed x c) (i : ι) : (s.deliverDown i).Landed doomed x c := by
  have hparts : (s.deliverDown i).entity = s.entity ∧ (s.deliverDown i).now = s.now ∧
      (s.deliverDown i).up = s.up := by
    rcases s.deliverDown_cases i with heq | ⟨_, _, _, hentity, hnow, _, hup, _⟩
    · simp [heq]
    · exact ⟨hentity, hnow, hup⟩
  obtain ⟨hentity, hnow, hup⟩ := hparts
  refine ⟨by rw [hup]; exact h.up, by rw [hup, hentity]; exact h.removal, fun hnone => ?_⟩
  rw [hentity] at hnone
  rw [Past, hentity, hnow]
  exact (h.cleared hnone).imp id fun hc k => (hc k).deliverDown i

theorem Track.deliverDown (h : s.Track doomed x c) (i : ι) : (s.deliverDown i).Track doomed x c where
  dated := h.dated.deliverDown i
  phase := h.phase.imp (fun ⟨j, hj⟩ => ⟨j, hj.deliverDown i⟩) (·.deliverDown i)

/-- The store's records stand under their own ids. -/
def Keyed (s : Mesh ι) : Prop := ∀ k r, s.entity.sessions.find k = some r → r.id = k

private theorem replay_down (s : Mesh ι) (i k : ι) {message : StoreMessage} (hm : message ∈ (s.replay i).down k) :
    message ∈ s.down k ∨
      ∃ key r, s.entity.sessions.find key = some r ∧
        message = .sessionUpserted r.id r.scope r.identity r.createdMs := by
  simp only [replay, Function.update_apply] at hm
  split at hm
  · rename_i hk
    rcases mem_append.mp hm with hm | hm
    · exact .inl (hk ▸ hm)
    · obtain ⟨row, hrow, rfl⟩ := mem_map.mp hm
      obtain ⟨⟨key, r⟩, he, rfl⟩ := mem_map.mp (mem_filter.mp hrow).1
      exact .inr ⟨key, r, (Hash.mem_entries _ _ _).mp he, rfl⟩
  · exact .inl hm

private theorem replay_stores (hkey : s.Keyed) (hnone : s.entity.sessions.find x = none) (i k : ι)
    (h : ∀ message ∈ s.down k, message.stores ≠ some x) :
    ∀ message ∈ (s.replay i).down k, message.stores ≠ some x := by
  intro message hm
  rcases replay_down s i k hm with hm | ⟨key, r, hr, rfl⟩
  · exact h message hm
  · intro he
    have hid : r.id = x := by simpa [StoreMessage.stores] using he
    rw [hkey key r hr] at hid
    simp [← hid, hr] at hnone

section
variable (h : s.Track doomed x c)
include h

theorem Track.replay (hkey : s.Keyed) (i : ι) : (s.replay i).Track doomed x c where
  dated := by
    refine ⟨h.dated.edge, h.dated.entity, h.dated.up, fun k scope identity c' hm => ?_⟩
    rcases replay_down s i k hm with hm | ⟨key, r, hr, he⟩
    · exact h.dated.down k scope identity c' hm
    · cases he
      exact h.dated.entity r (by rwa [hkey key r hr])
  phase := by
    rcases h.phase with ⟨j, hj⟩ | hl
    · exact .inl ⟨j, hj.sent, hj.others, hj.entity, fun k => replay_stores hkey hj.entity i k (hj.down k)⟩
    · refine .inr ⟨hl.up, hl.removal, fun hnone => (hl.cleared hnone).imp id fun hc k hk => ?_⟩
      have hnone' : s.entity.sessions.find x = none := hnone
      have old : (s.edge k).sessions.find x ≠ none ∨ ∃ message ∈ s.down k, message.stores = some x := by
        refine hk.imp id ?_
        rintro ⟨message, hm, hs⟩
        by_contra hno
        push Not at hno
        exact replay_stores hkey hnone' i k (fun m hm => hno m hm) message hm hs
      obtain ⟨before, after, hdown, ha⟩ := hc k old
      simp only [Mesh.replay, Function.update_apply]
      split
      · rename_i hki
        subst hki
        refine ⟨before, after ++ ((s.entity.snapshot s.now).map fun row =>
          StoreMessage.sessionUpserted row.id row.scope row.identity row.createdMs), by simp [hdown], ?_⟩
        intro message hm
        rcases mem_append.mp hm with hm | hm
        · exact ha message hm
        · obtain ⟨row, hrow, rfl⟩ := mem_map.mp hm
          obtain ⟨⟨key, r⟩, he, rfl⟩ := mem_map.mp (mem_filter.mp hrow).1
          have hr := (Hash.mem_entries _ _ _).mp he
          intro hx
          have hid : r.id = x := by simpa [StoreMessage.stores] using hx
          rw [hkey key r hr] at hid
          simp [← hid, hr] at hnone'
      · exact ⟨before, after, hdown, ha⟩

theorem Track.sweepEntity : (s.step .sweepEntity).Track doomed x c where
  dated := ⟨h.dated.edge, fun r hr => h.dated.entity r ((s.entity.purgeExpired_within s.now).sessions x r hr),
    h.dated.up, h.dated.down⟩
  phase := by
    have shrinks (hnone : s.entity.sessions.find x = none) :
        (s.entity.purgeExpired s.now).1.sessions.find x = none := by
      by_contra hne
      obtain ⟨r, hr⟩ := ne_none_iff_exists'.mp hne
      simp [(s.entity.purgeExpired_within s.now).sessions x r hr] at hnone
    have hpast : (s.step .sweepEntity).Past c ↔ s.Past c := by
      simp only [Past, step, (s.entity.purgeExpired_within s.now).ttlMs]
    refine h.phase.imp (fun ⟨j, hj⟩ => ⟨j, hj.sent, hj.others, shrinks hj.entity, hj.down⟩) fun hl => ?_
    refine ⟨hl.up, fun hd he => hl.removal hd (fun hnone => he (shrinks hnone)), fun hnone => ?_⟩
    rw [hpast]
    cases hr : s.entity.sessions.find x with
    | none => exact hl.cleared hr
    | some r =>
      refine .inl (by_contra fun hpast => ?_)
      have hkept := purgeExpired_keeps s.now hr (by
        intro hpos
        rw [h.dated.entity r hr]
        by_contra hlate
        exact hpast ⟨hpos, by omega⟩)
      have hnone' : (s.entity.purgeExpired s.now).1.sessions.find x = none := hnone
      simp [hkept] at hnone'

theorem Track.advance (ms : Nat) : (s.step (.advance ms)).Track doomed x c where
  dated := ⟨h.dated.edge, h.dated.entity, h.dated.up, h.dated.down⟩
  phase := by
    refine h.phase.imp (fun ⟨j, hj⟩ => ⟨j, hj.sent, hj.others, hj.entity, hj.down⟩) fun hl => ?_
    refine ⟨hl.up, hl.removal, fun hnone => (hl.cleared hnone).imp (fun hp => ⟨hp.1, ?_⟩) id⟩
    have hlt := hp.2
    change s.entity.ttlMs < s.now + ms - c
    omega

/-- No step but the one that mints `x` brings it back to where it was before. -/
theorem Track.step (hu : s.Uniform) (hkey : s.Keyed) {op : MeshOp ι}
    (hx : ∀ i local_, op = .edge i local_ → local_.fresh ≠ some x) : (s.step op).Track doomed x c := by
  cases op with
  | edge i local_ => exact h.perform hu i (hx i local_ rfl)
  | deliverUp i => exact h.deliverUp i
  | deliverDown i => exact h.deliverDown i
  | replay i => exact h.replay hkey i
  | sweepEntity => exact h.sweepEntity
  | advance ms => exact h.advance ms

end

theorem Nowhere.step (h : s.Nowhere x) (hu : s.Uniform) (hkey : s.Keyed) {op : MeshOp ι}
    (hx : ∀ i local_, op = .edge i local_ → local_.fresh ≠ some x) : (s.step op).Nowhere x := by
  cases op with
  | edge i local_ =>
    have hf := hx i local_ rfl
    refine ⟨fun k => ?_, h.entity, fun k call hcall => ?_, h.down⟩
    · by_contra hne
      obtain ⟨r, hr⟩ := ne_none_iff_exists'.mp hne
      have := perform_held hf hr
      simp [h.edge k] at this
    · simp only [Mesh.step, perform_up] at hcall
      split at hcall
      · rcases mem_append.mp hcall with hcall | hcall
        · exact h.up i call hcall
        · exact perform_sent hu hf call hcall
      · exact h.up k call hcall
  | deliverUp i =>
    rcases s.deliverUp_cases i with heq | ⟨call, rest, hup, hedge, -, -, hentity, hups, hdowns⟩
    · simpa only [Mesh.step, heq] using h
    have hcs := h.up i call (by simp [hup])
    refine ⟨fun k => ?_, ?_, fun k call' hcall => ?_, fun k message hm => ?_⟩
    · simp only [Mesh.step, hedge, h.edge k]
    · simp only [Mesh.step, hentity]
      exact receive_none hcs h.entity
    · simp only [Mesh.step, hups] at hcall
      split at hcall
      · exact h.up i call' (by simp [hup, hcall])
      · exact h.up k call' hcall
    · simp only [Mesh.step, hdowns] at hm
      rcases mem_append.mp hm with hm | hm
      · exact h.down k message hm
      · rwa [StoreMessage.forwarded_sub _ _ hm]
  | deliverDown i =>
    rcases s.deliverDown_cases i with heq | ⟨message, rest, hdown, hentity, -, -, hup, hedges, hdowns⟩
    · simpa only [Mesh.step, heq] using h
    refine ⟨fun k => ?_, ?_, ?_, fun k message' hm => ?_⟩
    · simp only [Mesh.step, hedges]
      split
      · exact receive_none (h.down i message (by simp [hdown])) (h.edge i)
      · exact h.edge k
    · simp only [Mesh.step, hentity, h.entity]
    · simp only [Mesh.step, hup]
      exact h.up
    · simp only [Mesh.step, hdowns] at hm
      split at hm
      · exact h.down i message' (by simp [hdown, hm])
      · exact h.down k message' hm
  | replay i => exact ⟨h.edge, h.entity, h.up, fun k => replay_stores hkey h.entity i k (h.down k)⟩
  | sweepEntity =>
    refine ⟨h.edge, ?_, h.up, h.down⟩
    by_contra hne
    obtain ⟨r, hr⟩ := ne_none_iff_exists'.mp hne
    have := (s.entity.purgeExpired_within s.now).sessions x r hr
    simp [h.entity] at this
  | advance ms => exact ⟨h.edge, h.entity, h.up, h.down⟩

theorem Uniform.step (hu : s.Uniform) (op : MeshOp ι) : (s.step op).Uniform := by
  intro k
  cases op with
  | edge i local_ =>
    simp only [Mesh.step, perform_edge]
    split
    · rename_i hk
      subst hk
      obtain ⟨ht, hr⟩ := local_.perform_settings (s.edge k) s.now
      exact ⟨ht.trans (hu k).1, hr.trans (hu k).2⟩
    · exact hu k
  | deliverUp i =>
    rcases s.deliverUp_cases i with heq | ⟨call, rest, _, hedge, -, -, hentity, -⟩
    · simpa only [Mesh.step, heq] using hu k
    · simpa [Mesh.step, hedge, hentity] using hu k
  | deliverDown i =>
    rcases s.deliverDown_cases i with heq | ⟨message, rest, _, hentity, -, -, _, hedges, -⟩
    · simpa only [Mesh.step, heq] using hu k
    · simp only [Mesh.step, hentity, hedges]
      split
      · rename_i hk
        subst hk
        simpa using hu k
      · exact hu k
  | replay i => exact hu k
  | sweepEntity => simpa [Mesh.step, (s.entity.purgeExpired_within s.now).ttlMs] using hu k
  | advance ms => exact hu k

theorem Keyed.step (hkey : s.Keyed) (op : MeshOp ι) : (s.step op).Keyed := by
  intro k r hr
  cases op with
  | deliverUp i =>
    rcases s.deliverUp_cases i with heq | ⟨call, rest, _, -, -, -, hentity, -⟩
    · exact hkey k r (by simpa only [Mesh.step, heq] using hr)
    simp only [Mesh.step, hentity] at hr
    cases call with
    | putSession token scope identity createdMs =>
      simp only [StoreCall.change, StoreMessage.receive, applyUpsert,
        insertRecord_sessions, Hash.find_insert] at hr
      split at hr
      · cases hr
        simp [*]
      · exact hkey k r hr
    | removeSession token =>
      exact hkey k r ((applyRemove_within token).sessions k r hr)
    | rotateSession from_ to_ =>
      simp only [StoreCall.change, StoreMessage.receive, applyRotation_sessions] at hr
      split at hr
      · obtain ⟨r', hr', rfl⟩ := map_eq_some_iff.mp hr
        exact hkey k r' hr'
      · exact hkey k r hr
  | deliverDown i =>
    rcases s.deliverDown_cases i with heq | ⟨_, _, _, hentity, -⟩
    · exact hkey k r (by simpa only [Mesh.step, heq] using hr)
    · exact hkey k r (by simpa only [Mesh.step, hentity] using hr)
  | sweepEntity => exact hkey k r ((s.entity.purgeExpired_within s.now).sessions k r hr)
  | _ => exact hkey k r hr

structure Inv (s : Mesh ι) : Prop where
  uniform : s.Uniform
  keyed : s.Keyed
  unnamed : ∀ x, x ∉ s.named → s.Nowhere x
  tracked : ∀ x, ∃ c, s.Track False x c

omit [DecidableEq ι] in
theorem Inv.start (defaultScope : QString) (ttlMinutes maximum now : Int) :
    Inv (.start defaultScope ttlMinutes maximum now : Mesh ι) := by
  have hnone (x : QByteArray) : Nowhere (.start defaultScope ttlMinutes maximum now : Mesh ι) x :=
    ⟨fun _ => Hash.find_empty x, Hash.find_empty x, fun _ _ hm => absurd hm not_mem_nil,
      fun _ _ hm => absurd hm not_mem_nil⟩
  refine ⟨fun _ => ⟨rfl, rfl⟩, fun k r hr => ?_, fun x _ => hnone x, fun x => ⟨0, (hnone x).track 0⟩⟩
  simp [(hnone k).entity] at hr

private theorem step_named (s : Mesh ι) (op : MeshOp ι) : ∀ x ∈ s.named, x ∈ (s.step op).named := by
  intro x hx
  cases op with
  | edge i local_ => exact mem_append_right _ hx
  | deliverUp i =>
    rcases s.deliverUp_cases i with heq | ⟨_, _, _, _, _, hnamed, _⟩
    · simpa only [step, heq] using hx
    · simpa only [step, hnamed] using hx
  | deliverDown i =>
    rcases s.deliverDown_cases i with heq | ⟨_, _, _, _, _, hnamed, _⟩
    · simpa only [step, heq] using hx
    · simpa only [step, hnamed] using hx
  | _ => exact hx

theorem Inv.step (h : Inv s) {op : MeshOp ι} (hop : s.Fresh op) : Inv (s.step op) := by
  refine ⟨h.uniform.step op, h.keyed.step op, fun x hx => ?_, fun x => ?_⟩
  · have hs : x ∉ s.named := fun hs => hx (s.step_named op x hs)
    refine (h.unnamed x hs).step h.uniform h.keyed ?_
    rintro i local_ rfl hf
    refine hx (mem_append_left _ ?_)
    cases local_ with
    | createSession | setScope => cases hf; simp [EdgeOp.ids]
    | revoke => cases hf
    | sweep => cases hf
  · by_cases hx : ∀ i local_, op = .edge i local_ → local_.fresh ≠ some x
    · obtain ⟨c, hc⟩ := h.tracked x
      exact ⟨c, hc.step h.uniform h.keyed hx⟩
    · push Not at hx
      obtain ⟨i, local_, rfl, hf⟩ := hx
      exact (h.unnamed x (hop x hf).2).mint h.uniform i hf

/-- A revoked session is live in no table once every message has been delivered, whatever
crossed what, unless the call that first told the store about it was still on another
edge's link at the revocation. -/
theorem revoked_stays_dead (defaultScope : QString) (ttlMinutes maximum now : Int)
    (before after : List (MeshOp ι)) (i : ι) (id : QByteArray)
    (hfresh : Each step Fresh (start defaultScope ttlMinutes maximum now)
      (before ++ .edge i (.revoke id) :: after))
    (hlink : ∀ k, k ≠ i → ∀ call ∈ (run step (start defaultScope ttlMinutes maximum now) before).up k,
      call.change.stores ≠ some id)
    (hquiet : Quiet (run step (start defaultScope ttlMinutes maximum now)
      (before ++ .edge i (.revoke id) :: after))) :
    let s := run step (start defaultScope ttlMinutes maximum now) (before ++ .edge i (.revoke id) :: after)
    (∀ k, (s.edge k).isLive s.now id = false) ∧ s.entity.isLive s.now id = false := by
  intro s
  obtain ⟨hbefore, hrest⟩ := (each_append _ _ _).mp hfresh
  have hinv := hbefore.invariant Inv (fun _ _ hi hop => hi.step hop)
    (Inv.start (ι := ι) defaultScope ttlMinutes maximum now)
  obtain ⟨c, hc⟩ := hinv.tracked id
  have hdoomed := hc.revoke hinv.uniform hlink
  -- from the revocation on, the id is named and stays doomed
  have hrun : Inv s ∧ id ∈ s.named ∧ s.Track True id c := by
    have hend : s = run step ((run step (start defaultScope ttlMinutes maximum now) before).perform i
        (.revoke id)) after := run_append _ before (.edge i (.revoke id) :: after)
    rw [hend]
    refine hrest.2.invariant (fun t => Inv t ∧ id ∈ t.named ∧ t.Track True id c) ?_
      ⟨hinv.step hrest.1, mem_cons_self, hdoomed⟩
    rintro t op ⟨hi, hn, ht⟩ hop
    exact ⟨hi.step hop, t.step_named op id hn, ht.step hi.uniform hi.keyed (Fresh.ne hop hn)⟩
  exact hrun.2.2.dead_of_quiet hrun.1.uniform hquiet

/-- An edge mints a session, it is delivered, and another edge revokes it. -/
def mintThenRevoke : List (MeshOp Bool) :=
  [.edge false (.createSession (fun _ => false) [1] "" []), .deliverUp false, .deliverDown false, .deliverDown true,
    .edge true (.revoke [1]), .deliverUp true, .deliverDown false, .deliverDown true]

instance (s : Mesh Bool) : Decidable s.Quiet :=
  inferInstanceAs (Decidable ((∀ i, s.up i = []) ∧ ∀ i, s.down i = []))
instance (s : Mesh ι) : (op : MeshOp ι) → Decidable (s.Fresh op)
  | .edge _ op => inferInstanceAs (Decidable (∀ id ∈ op.fresh, id ≠ [] ∧ id ∉ s.named))
  | .deliverUp _ | .deliverDown _ | .replay _ | .sweepEntity | .advance _ => .isTrue trivial

theorem revoked_stays_dead_mintThenRevoke :
    let s := run step (start "anonymous" 720 100000 0) mintThenRevoke
    (∀ k, (s.edge k).isLive s.now [1] = false) ∧ s.entity.isLive s.now [1] = false :=
  revoked_stays_dead "anonymous" 720 100000 0 (mintThenRevoke.take 4) (mintThenRevoke.drop 5) true [1]
    (by decide) (by decide) (by decide)

/-- One edge elevates the session [1] into [2] while another revokes it. -/
def revokeDuringElevation : List (MeshOp Bool) :=
  [.edge false (.createSession (fun _ => false) [1] "" []), .deliverUp false, .deliverDown false, .deliverDown true,
    .edge false (.setScope [2] [1] "user" [] .keep), .edge true (.revoke [1]),
    .deliverUp false, .deliverUp false, .deliverUp false, .deliverUp true,
    .deliverDown false, .deliverDown false, .deliverDown false, .deliverDown true, .deliverDown true, .deliverDown true]

def revokeAfterElevation : List (MeshOp Bool) :=
  [.edge false (.createSession (fun _ => false) [1] "" []), .edge false (.setScope [2] [1] "user" [] .keep),
    .edge false (.revoke [1]), .deliverUp false, .deliverUp false, .deliverUp false, .deliverUp false, .deliverUp false,
    .deliverDown false, .deliverDown false, .deliverDown false, .deliverDown false,
    .deliverDown true, .deliverDown true, .deliverDown true, .deliverDown true]

/-- A session is revoked by an edge that has heard of it before the store has. -/
def revokeBeforePut : List (MeshOp Bool) :=
  [.edge false (.createSession (fun _ => false) [1] "" []), .edge true (.revoke [1]), .deliverUp true,
    .deliverUp false, .deliverDown false, .deliverDown true]

theorem revocation_does_not_win :
    (Each step Fresh (start "anonymous" 720 100000 0) revokeDuringElevation ∧
      Quiet (run step (start "anonymous" 720 100000 0) revokeDuringElevation) ∧
      ∀ k, ((run step (start "anonymous" 720 100000 0) revokeDuringElevation).edge k).isLive 0 [2]) ∧
    (Each step Fresh (start "anonymous" 720 100000 0) revokeAfterElevation ∧
      Quiet (run step (start "anonymous" 720 100000 0) revokeAfterElevation) ∧
      ∀ k, ((run step (start "anonymous" 720 100000 0) revokeAfterElevation).edge k).isLive 0 [2]) ∧
    (Each step Fresh (start "anonymous" 720 100000 0) revokeBeforePut ∧
      Quiet (run step (start "anonymous" 720 100000 0) revokeBeforePut) ∧
      ∀ k, ((run step (start "anonymous" 720 100000 0) revokeBeforePut).edge k).isLive 0 [1]) := by
  decide

end Mesh
end SynQt
