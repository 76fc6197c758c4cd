import SynQt.Lib.Ranked
import SynQt.Monitor.EventStore

/-! The two tables of the event store move together: what an append adds, what a retirement
removes, and where a statement that fails parts them. -/
namespace SynQt
open Lib List

namespace EventStore
variable {hasFts : Bool} {t t' : Tables}

/-- A full-text row for every event, and none besides; without FTS5 there is no such table. -/
def Corresponding (hasFts : Bool) (t : Tables) : Prop := t.fts = if hasFts then t.events.map ftsOf else []

structure Sane (hasFts : Bool) (t : Tables) : Prop where
  ids : (t.events.map (·.id)).Nodup
  pairs : Corresponding hasFts t

/-- What is left of the events after a retirement: some of them, and none that was gone before. -/
structure Trims (events events' : List EventRow) : Prop where
  kept : events'.Sublist events
  oldest : ∀ r ∈ events, r ∉ events' → ∀ k ∈ events', earlier r k = true

theorem Trims.refl (events : List EventRow) : Trims events events where
  kept := .refl _
  oldest _ hr hgone := absurd hr hgone

theorem Trims.trans {a b c : List EventRow} (h : Trims a b) (h' : Trims b c) : Trims a c where
  kept := h'.kept.trans h.kept
  oldest r hr hgone k hk := by
    by_cases hb : r ∈ b
    · exact h'.oldest r hb hgone k hk
    · exact h.oldest r hr hb k (h'.kept.subset hk)

theorem earlier_iff (r r' : EventRow) : earlier r r' = true ↔ r.ts < r'.ts ∨ r.ts = r'.ts ∧ r.id < r'.id := by
  simp [earlier]

private theorem earlier_trans {a b c : EventRow} (h : earlier a b = true) (h' : earlier b c = true) : earlier a c = true := by
  rw [earlier_iff] at h h' ⊢
  omega

private theorem dropSelected_idle (hasFts dropIndex drop : Bool) (selects : List EventRow → EventRow → Bool) (t : Tables) :
    dropSelected hasFts dropIndex drop selects ⟨t, none⟩ =
      (⟨{ events := if drop then t.events.filter fun r => !selects t.events r else t.events
          fts := if hasFts && dropIndex then
              t.fts.filter fun f => !(t.events.filter (selects t.events)).any (·.id == f.rowid)
            else t.fts }, none⟩, drop) := by
  rw [dropSelected]
  cases hasFts with
  | false =>
    simp only [Connection.exec_idle]
    cases drop <;> rfl
  | true =>
    simp only [Connection.exec_idle]
    cases dropIndex <;> cases drop <;> rfl

private theorem filter_fts (selects : List EventRow → EventRow → Bool) (events : List EventRow)
    (hids : (events.map (·.id)).Nodup) :
    ((events.map ftsOf).filter fun f => !(events.filter (selects events)).any (·.id == f.rowid)) =
      (events.filter fun r => !selects events r).map ftsOf := by
  rw [filter_map]
  congr 1
  apply filter_congr
  intro r hr
  rw [Function.comp_apply]
  congr 1
  rw [Bool.eq_iff_iff, any_eq_true]
  constructor
  · rintro ⟨r', hr', hid⟩
    obtain ⟨hmem, hsel⟩ := mem_filter.mp hr'
    have hsame : r' = r := inj_on_of_nodup_map hids hmem hr (beq_iff_eq.mp hid)
    rw [← hsame]
    exact hsel
  · exact fun hsel => ⟨r, mem_filter.mpr ⟨hr, hsel⟩, beq_self_eq_true _⟩

/-- The two deletes agree, wherever there is anything to delete. -/
def Agrees (hasFts dropIndex drop : Bool) (selects : List EventRow → EventRow → Bool) (t : Tables) : Prop :=
  hasFts = true → (∃ r ∈ t.events, selects t.events r = true) → dropIndex = drop

def dropped (hasFts dropIndex drop : Bool) (selects : List EventRow → EventRow → Bool) (t : Tables) : Tables :=
  (dropSelected hasFts dropIndex drop selects ⟨t, none⟩).1.committed

theorem dropSelected_eq (hasFts dropIndex drop : Bool) (selects : List EventRow → EventRow → Bool) (t : Tables) :
    dropSelected hasFts dropIndex drop selects ⟨t, none⟩ =
      (⟨dropped hasFts dropIndex drop selects t, none⟩, drop) := by
  rw [dropped, dropSelected_idle]

theorem dropped_events (hasFts dropIndex drop : Bool) (selects : List EventRow → EventRow → Bool) (t : Tables) :
    (dropped hasFts dropIndex drop selects t).events =
      if drop then t.events.filter fun r => !selects t.events r else t.events := by
  rw [dropped, dropSelected_idle]

private theorem dropped_fts (h : Sane hasFts t) (dropIndex drop : Bool) (selects : List EventRow → EventRow → Bool) :
    (dropped hasFts dropIndex drop selects t).fts =
      if hasFts then
        (if dropIndex then t.events.filter fun r => !selects t.events r else t.events).map ftsOf
      else [] := by
  have hpairs := h.pairs
  rw [Corresponding] at hpairs
  rw [dropped, dropSelected_idle]
  simp only
  cases hasFts with
  | false => exact hpairs
  | true =>
    rw [if_pos rfl] at hpairs
    rw [hpairs]
    cases dropIndex with
    | false => rfl
    | true => exact filter_fts selects t.events h.ids

private theorem ftsOf_injOn (hids : (t.events.map (·.id)).Nodup) (r : EventRow) (hr : r ∈ t.events) (l : List EventRow)
    (hl : l.Sublist t.events) : ftsOf r ∈ l.map ftsOf ↔ r ∈ l := by
  constructor
  · intro hmem
    obtain ⟨r', hr', heq⟩ := mem_map.mp hmem
    have hid : r'.id = r.id := congrArg FtsRow.rowid heq
    have hsame : r' = r := inj_on_of_nodup_map hids (hl.subset hr') hr hid
    rw [← hsame]
    exact hr'
  · exact mem_map_of_mem

/-- The tables still correspond exactly when the two deletes agreed. -/
theorem corresponding_dropped (h : Sane hasFts t) (dropIndex drop : Bool)
    (selects : List EventRow → EventRow → Bool) :
    Corresponding hasFts (dropped hasFts dropIndex drop selects t) ↔ Agrees hasFts dropIndex drop selects t := by
  rw [Corresponding, dropped_fts h, dropped_events, Agrees]
  cases hasFts with
  | false => exact iff_of_true rfl fun hfalse => by cases hfalse
  | true =>
    simp only [if_true, forall_const]
    constructor
    · rintro heq ⟨r, hr, hsel⟩
      have hgone : r ∉ t.events.filter fun r => !selects t.events r := by
        intro hmem
        have hnot := (mem_filter.mp hmem).2
        rw [hsel] at hnot
        cases hnot
      have hall := ftsOf_injOn h.ids r hr t.events (.refl _)
      have hnone := ftsOf_injOn h.ids r hr _ (filter_sublist (p := fun r => !selects t.events r))
      cases dropIndex <;> cases drop
      · rfl
      · rw [if_neg Bool.false_ne_true, if_pos rfl] at heq
        exact absurd (hnone.mp (heq ▸ hall.mpr hr)) hgone
      · rw [if_pos rfl, if_neg Bool.false_ne_true] at heq
        exact absurd (hnone.mp (heq ▸ hall.mpr hr)) hgone
      · rfl
    · intro hagrees
      by_cases hsome : ∃ r ∈ t.events, selects t.events r = true
      · rw [hagrees hsome]
      · have hkept : (t.events.filter fun r => !selects t.events r) = t.events := by
          apply filter_eq_self.mpr
          intro r hr
          rw [Bool.not_eq_true', ← Bool.not_eq_true]
          exact fun hsel => hsome ⟨r, hr, hsel⟩
        rw [hkept]
        cases dropIndex <;> cases drop <;> rfl

theorem ids_dropped (hids : (t.events.map (·.id)).Nodup) (hasFts dropIndex drop : Bool)
    (selects : List EventRow → EventRow → Bool) :
    ((dropped hasFts dropIndex drop selects t).events.map (·.id)).Nodup := by
  rw [dropped_events]
  split
  · exact hids.sublist (filter_sublist.map _)
  · exact hids

def Downward (selects : List EventRow → EventRow → Bool) (events : List EventRow) : Prop :=
  ∀ r ∈ events, ∀ k ∈ events, selects events r = true → selects events k = false → earlier r k = true

theorem downward_olderThan (cutoff : Int) (events : List EventRow) : Downward (olderThan cutoff) events := by
  intro r _ k _ hr hk
  have hold : r.ts < cutoff := by simpa [olderThan] using hr
  have hnew : cutoff ≤ k.ts := by simpa [olderThan] using hk
  rw [earlier_iff]
  omega

variable {events : List EventRow}

/-- Whoever has fewer before it comes before. -/
theorem downward_oldest (limit : Nat) (hids : (events.map (·.id)).Nodup) :
    Downward (oldest limit) events := by
  intro r hr k hk hsel hnot
  have hfew : events.countP (earlier · r) < limit := by simpa [oldest] using hsel
  have hmany : limit ≤ events.countP (earlier · k) := by simpa [oldest] using hnot
  by_contra hlater
  rw [earlier_iff] at hlater
  have hmono : events.countP (earlier · k) ≤ events.countP (earlier · r) := by
    apply countP_mono_left
    intro e _ hek
    by_cases hsame : r.ts = k.ts ∧ r.id = k.id
    · have heq : r = k := inj_on_of_nodup_map hids hr hk hsame.2
      rw [heq]
      exact hek
    · have hkr : earlier k r = true := by
        rw [earlier_iff]
        omega
      exact earlier_trans hek hkr
  omega

theorem trims_dropped (hasFts dropIndex drop : Bool) {selects : List EventRow → EventRow → Bool}
    (hdown : Downward selects t.events) : Trims t.events (dropped hasFts dropIndex drop selects t).events := by
  rw [dropped_events]
  split
  · refine ⟨filter_sublist, fun r hr hgone k hk => ?_⟩
    obtain ⟨hk, hkept⟩ := mem_filter.mp hk
    apply hdown r hr k hk
    · by_contra hsel
      exact hgone (mem_filter.mpr ⟨hr, by simpa using hsel⟩)
    · simpa using hkept
  · exact Trims.refl _

def Orphaned (t : Tables) : Prop := ∃ f ∈ t.fts, f.rowid ∉ t.events.map (·.id)

theorem Orphaned.not_corresponding (h : Orphaned t) : ¬ Corresponding hasFts t := by
  intro hpairs
  obtain ⟨f, hf, hgone⟩ := h
  rw [hpairs] at hf
  split at hf
  · obtain ⟨r, hr, rfl⟩ := mem_map.mp hf
    exact hgone (mem_map_of_mem hr)
  · cases hf

theorem Orphaned.dropped (h : Orphaned t) (dropIndex drop : Bool) (selects : List EventRow → EventRow → Bool) :
    Orphaned (dropped hasFts dropIndex drop selects t) := by
  obtain ⟨f, hf, hgone⟩ := h
  rw [EventStore.dropped, dropSelected_idle]
  refine ⟨f, ?_, fun hmem => hgone ?_⟩
  · simp only
    split
    · refine mem_filter.mpr ⟨hf, ?_⟩
      rw [Bool.not_eq_true', ← Bool.not_eq_true, any_eq_true]
      rintro ⟨r, hr, hid⟩
      rw [← beq_iff_eq.mp hid] at hgone
      exact hgone (mem_map_of_mem (mem_filter.mp hr).1)
    · exact hf
  · simp only at hmem
    split at hmem
    · exact (filter_sublist.map _).subset hmem
    · exact hmem

/-- An event delete that works past an index delete that fails leaves one. -/
theorem orphaned_dropped (h : Sane true t) (selects : List EventRow → EventRow → Bool)
    (hsome : ∃ r ∈ t.events, selects t.events r = true) : Orphaned (dropped true false true selects t) := by
  obtain ⟨r, hr, hsel⟩ := hsome
  refine ⟨ftsOf r, ?_, ?_⟩
  · rw [dropped_fts h]
    exact mem_map_of_mem hr
  · rw [dropped_events, if_pos rfl]
    intro hmem
    obtain ⟨r', hr', hid⟩ := mem_map.mp hmem
    obtain ⟨hmem', hkept⟩ := mem_filter.mp hr'
    have hsame : r' = r := inj_on_of_nodup_map h.ids hmem' hr hid
    rw [hsame, hsel] at hkept
    cases hkept

private theorem count_oldest (hids : (events.map (·.id)).Nodup) (limit : Nat) :
    events.countP (oldest limit events) = min limit events.length := by
  apply countP_rank_lt hids.of_map
  · intro r _
    simp [earlier]
  · exact fun a b c => earlier_trans
  · intro a ha b hb hne
    have hid : a.id ≠ b.id := fun heq => hne (inj_on_of_nodup_map hids ha hb heq)
    rw [earlier_iff, earlier_iff]
    omega

private theorem length_kept (hids : (events.map (·.id)).Nodup) (limit : Nat) :
    (events.filter fun r => !oldest limit events r).length = events.length - limit := by
  have hall := length_eq_countP_add_countP (oldest limit events) (l := events)
  rw [count_oldest hids, countP_eq_length_filter] at hall
  simp only [Bool.not_eq_true] at hall
  simp only [← Bool.decide_eq_false] at hall ⊢
  omega

private theorem toRemove_pos (size maxBytes : Int) {rows : Nat} (hrows : 0 < rows) : 0 < toRemove size maxBytes rows := by
  rw [toRemove]
  omega

/-- The passes that come to deleting, from so many rows on: in each the two deletes both work or
both fail. -/
def PassesAgree (maxBytes : Int) (pass : Nat → Pass) : Nat → Nat → Nat → Prop
  | 0, _, _ => True
  | fuel + 1, place, rows =>
    maxBytes < (pass place).size → (pass place).counts = true → 0 < rows →
      (pass place).dropIndex = (pass place).drop ∧
      ((pass place).drop = true →
        PassesAgree maxBytes pass fuel (place + 1) (rows - toRemove (pass place).size maxBytes rows))

private theorem sizePasses_succ (hasFts : Bool) (maxBytes : Int) (pass : Nat → Pass) (fuel place : Nat) (t : Tables) :
    sizePasses hasFts maxBytes pass (fuel + 1) place ⟨t, none⟩ =
      if maxBytes < (pass place).size ∧ (pass place).counts = true ∧ 0 < t.events.length then
        let t' := dropped hasFts (pass place).dropIndex (pass place).drop
          (oldest (toRemove (pass place).size maxBytes t.events.length)) t
        if (pass place).drop then sizePasses hasFts maxBytes pass fuel (place + 1) ⟨t', none⟩
        else (⟨t', none⟩, false)
      else (⟨t, none⟩, true) := by
  rw [sizePasses]
  by_cases hsize : (pass place).size ≤ maxBytes
  · rw [if_pos hsize, if_neg fun h => absurd hsize (Int.not_le.mpr h.1)]
  · rw [if_neg hsize]
    cases hcounts : (pass place).counts with
    | false => simp
    | true =>
      simp only [if_true, Connection.view_idle, dropSelected_eq, true_and]
      by_cases hrows : 0 < t.events.length
      · have hruns : maxBytes < (pass place).size ∧ 0 < t.events.length := ⟨Int.not_le.mp hsize, hrows⟩
        rw [if_pos hruns, if_neg (by omega)]
        cases (pass place).drop <;> rfl
      · have hstops : ¬ (maxBytes < (pass place).size ∧ 0 < t.events.length) := fun h => hrows h.2
        rw [if_pos (by omega), if_neg hstops]

/-- The passes end outside a transaction with the oldest gone; what had lost its event has not got
it back, and where the tables corresponded they still do exactly if the passes agreed. -/
theorem sizePasses_idle (maxBytes : Int) (pass : Nat → Pass) (fuel place : Nat)
    (hids : (t.events.map (·.id)).Nodup) :
    ∃ t', (sizePasses hasFts maxBytes pass fuel place ⟨t, none⟩).1 = ⟨t', none⟩ ∧
      (t'.events.map (·.id)).Nodup ∧ Trims t.events t'.events ∧ (Orphaned t → Orphaned t') ∧
      (Corresponding hasFts t → (Corresponding hasFts t' ↔
        (hasFts = true → PassesAgree maxBytes pass fuel place t.events.length))) := by
  induction fuel generalizing place t with
  | zero => exact ⟨t, rfl, hids, Trims.refl _, id, fun h => iff_of_true h fun _ => trivial⟩
  | succ fuel ih =>
    rw [sizePasses_succ]
    by_cases hruns : maxBytes < (pass place).size ∧ (pass place).counts = true ∧ 0 < t.events.length
    · rw [if_pos hruns]
      obtain ⟨hsize, hcounts, hrows⟩ := hruns
      generalize hremove : toRemove (pass place).size maxBytes t.events.length = remove
      have hpos : 0 < remove := hremove ▸ toRemove_pos _ _ hrows
      have hsome : ∃ r ∈ t.events, oldest remove t.events r = true := by
        apply countP_pos_iff.mp
        rw [count_oldest hids]
        omega
      have hids' := ids_dropped hids hasFts (pass place).dropIndex (pass place).drop (oldest remove)
      have htrims := trims_dropped hasFts (pass place).dropIndex (pass place).drop (downward_oldest remove hids)
      have hlength : (pass place).drop = true →
          (dropped hasFts (pass place).dropIndex (pass place).drop (oldest remove) t).events.length =
            t.events.length - remove := by
        intro hdrop
        rw [dropped_events, hdrop, if_pos rfl, length_kept hids]
      have hagrees (hpairs : Corresponding hasFts t) :
          Corresponding hasFts (dropped hasFts (pass place).dropIndex (pass place).drop (oldest remove) t) ↔
            (hasFts = true → (pass place).dropIndex = (pass place).drop) := by
        rw [corresponding_dropped ⟨hids, hpairs⟩, Agrees]
        exact forall_congr' fun _ => ⟨fun h => h hsome, fun h _ => h⟩
      cases hdrop : (pass place).drop with
      | false =>
        refine ⟨_, rfl, hdrop ▸ hids', hdrop ▸ htrims, fun h => h.dropped _ _ _, fun hpairs => ?_⟩
        rw [hdrop] at hagrees
        rw [hagrees hpairs, PassesAgree, hdrop]
        exact forall_congr' fun _ => ⟨fun h _ _ _ => ⟨h, fun hfalse => by cases hfalse⟩, fun h => (h hsize hcounts hrows).1⟩
      | true =>
        rw [hdrop] at hids' htrims hlength hagrees
        obtain ⟨t', hend, hids'', htrims', horphan, hpairs'⟩ := ih (place + 1) hids'
        refine ⟨t', hend, hids'', htrims.trans htrims', fun h => horphan (h.dropped _ _ _), fun hpairs => ?_⟩
        rw [PassesAgree, hremove, hdrop]
        constructor
        · intro hcorresponds hfts _ _ _
          have hboth : (pass place).dropIndex = true := by
            by_contra hfails
            subst hfts
            have hlost := orphaned_dropped ⟨hids, hpairs⟩ _ hsome
            rw [Bool.not_eq_true] at hfails
            rw [hfails] at horphan
            exact (horphan hlost).not_corresponding hcorresponds
          have hnow := (hagrees hpairs).mpr fun _ => hboth
          refine ⟨hboth, fun _ => ?_⟩
          rw [← hlength rfl]
          exact (hpairs' hnow).mp hcorresponds hfts
        · intro hpasses
          have hnow := (hagrees hpairs).mpr fun hfts => (hpasses hfts hsize hcounts hrows).1
          apply (hpairs' hnow).mpr
          intro hfts
          rw [hlength rfl]
          exact (hpasses hfts hsize hcounts hrows).2 rfl
    · rw [if_neg hruns]
      refine ⟨t, rfl, hids, Trims.refl _, id, fun h => iff_of_true h fun _ => ?_⟩
      exact fun hsize hcounts hrows => absurd ⟨hsize, hcounts, hrows⟩ hruns

end EventStore
end SynQt
