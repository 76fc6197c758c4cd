import SynQt.Consumer.Settlement

namespace SynQt.Consumer.Facade
open Lib Function Option List
universe u
variable {V : Type u} {f : Facade V}

theorem make_inv (className point : String) (replica : Option Nat) :
    Inv (make className point replica : Facade V) none where
  born := fun _ _ hin => absurd hin not_mem_nil
  distinct := nodup_nil
  chained := fun _ _ hin => absurd hin not_mem_nil
  unborn := fun _ _ => rfl
  waiting := fun _ _ hin => absurd hin not_mem_nil
  apart := fun _ => nodup_nil
  queued := fun _ _ hin => absurd hin not_mem_nil
  running := fun _ _ hin => absurd hin not_mem_nil
  owedOnce := nodup_nil
  once := nodup_nil
  fitting := fun _ _ _ hin => absurd hin not_mem_nil
  pending := fun _ _ hin => absurd hin not_mem_nil
  staged := fun _ _ _ hin => absurd hin not_mem_nil
  leaving := fun n hn => absurd hn.symm (some_ne_none n)
  calls := fun _ hsent => absurd rfl hsent
  disposal := fun _ hdisposed => hdisposed.elim (fun h => absurd h Bool.false_ne_true) fun h => absurd h Bool.false_ne_true
  abandons := fun _ _ hin => absurd hin not_mem_nil
  answers := fun _ _ hsent => absurd rfl hsent

private theorem scheduleDisposal_promises (f : Facade V) (p q : Nat) : (f.scheduleDisposal p).promises q = f.promises q ∨
    q = p ∧ (f.scheduleDisposal p).promises q = { f.promises p with disposalScheduled := true } := by
  by_cases hq : q = p
  · exact .inr ⟨hq, hq ▸ update_self ..⟩
  · exact .inl (update_of_ne hq ..)

namespace Inv

variable {rest : List Frame}

/-- A frame that owes nothing gives way to others that owe nothing. -/
theorem pop (h : Inv f none) {frame : Frame} (hstack : f.stack = frame :: rest)
    (howed : frame.owed = []) (replica : Option Nat) (top : List Frame) (htop : ∀ frame' ∈ top, frame' = .app ∨
      ∃ held r, frame' = .abandon held r ∧ ∀ p ∈ held, p < f.count ∧ (f.promises p).held = true) :
    Inv { f with stack := top ++ rest, replica := replica } none := by
  have hnil : top.flatMap Frame.owed = [] := by
    refine flatMap_eq_nil_iff.mpr fun frame' hin => ?_
    rcases htop frame' hin with rfl | ⟨held, r, rfl, -⟩ <;> rfl
  refine h.restack replica (fun frame' hin => ?_) (fun frame' hin => ?_) ?_
  · rcases mem_append.mp hin with hin | hin
    · exact .inr (htop frame' hin)
    · exact .inl (hstack ▸ mem_cons_of_mem _ hin)
  · rw [hstack] at hin
    rcases mem_cons.mp hin with rfl | hin
    · exact .inr howed
    · exact .inl (mem_append_right _ hin)
  · rw [flatMap_append, hnil, owed, hstack, flatMap_cons, howed]

theorem dispatch (h : Inv f none) {p : Nat} {k : Handler} {hs : List Handler} (hstack : f.stack = .flush p (k :: hs) :: rest) :
    Inv ({ f with stack := .flush p hs :: rest }.dispatch p k) none := by
  obtain ⟨hp, hall⟩ := h.queued p (k :: hs) (hstack ▸ mem_cons_self)
  obtain ⟨hin, hnone, hunrun⟩ := hall k mem_cons_self
  obtain ⟨o, ho⟩ := ne_none_iff_exists'.mp hp
  have hleft : Inv { f with stack := .flush p hs :: rest } (some k.next) := by
    refine h.leave hstack (fun frame' hin' => ?_) (fun frame' hin' => mem_cons_of_mem _ hin')
      (by rw [owed, hstack]; rfl) (fun q hs' k' he hk' => ?_) fun q k' he => ?_
    · rcases mem_cons.mp hin' with rfl | hin'
      · exact .inr ⟨p, k, hs, rfl, rfl⟩
      · exact .inl hin'
    · obtain ⟨rfl, rfl⟩ := Frame.flush.inj he
      rcases mem_cons.mp hk' with rfl | hk'
      · exact .inl rfl
      · exact .inr ⟨hs, mem_cons_self, hk'⟩
    · cases he
  unfold Facade.dispatch
  simp only [ho]
  by_cases hfires : (runs o k && k.callable) = true
  · rw [if_pos hfires]
    refine hleft.enter hin rfl ho hfires hunrun fun q hs' k' hframe hk' he => (hleft.leaving k.next rfl).2.1 ?_
    exact he ▸ mem_flatMap.mpr ⟨_, hframe, mem_map_of_mem hk'⟩
  · rw [if_neg hfires]
    refine hleft.settle hnone (.inl rfl) (fun q k' o' hin' hnext ho' => ?_) fun hsent => absurd (h.chained p k hin).1 hsent
    obtain ⟨rfl, rfl⟩ := h.place hin' hin hnext
    obtain rfl := Option.some.inj (ho'.symm.trans ho)
    exact .inr ⟨hfires, rfl⟩

theorem ret (h : Inv f none) {p : Nat} {k : Handler} (hstack : f.stack = .body p k :: rest)
    (outcome : Outcome V) : Inv ({ f with stack := rest }.settle k.next outcome) none := by
  obtain ⟨hin, hp, hnone⟩ := h.running p k (hstack ▸ mem_cons_self)
  have hnodup : (k.next :: rest.flatMap Frame.owed).Nodup := by
    have howed := h.owedOnce
    rw [owed, hstack] at howed
    exact howed
  have hleft : Inv { f with stack := rest } (some k.next) := by
    refine h.leave hstack (fun frame' hin' => .inl hin') (fun frame' hin' => hin') (by rw [owed, hstack]; rfl)
      (fun q hs k' he => ?_) fun q k' he => ?_
    · cases he
    · obtain ⟨rfl, rfl⟩ := Frame.body.inj he
      rfl
  refine hleft.settle hnone (.inl rfl) (fun q k' o ho hnext hq => ?_) fun hsent => absurd (h.chained p k hin).1 hsent
  obtain ⟨rfl, rfl⟩ := h.place ho hin hnext
  -- It has run: no frame of handlers still to come has it, and its promise has not settled.
  refine .inl ?_
  rcases h.staged q k' o hin hq with hstage | haway
  · cases hstage with
    | queued hs hframe hmem =>
      rw [hstack] at hframe
      rcases mem_cons.mp hframe with he | hframe
      · cases he
      · exact absurd (mem_flatMap.mpr ⟨_, hframe, mem_map_of_mem hmem⟩) (nodup_cons.mp hnodup).1
    | ran hfires hran hdone => exact ⟨hfires, hran⟩
    | passed hfires hnext' => exact absurd (hnone.symm.trans hnext') (some_ne_none o).symm
  · cases haway

private theorem of_mem_children {p : Nat} (hp : p ∈ f.children) : p < f.count ∧ (f.promises p).held = true := by
  obtain ⟨hlt, hheld⟩ := mem_filter.mp hp
  exact ⟨mem_range.mp hlt, (Bool.and_eq_true_iff.mp hheld).1⟩

section
variable (h : Inv f none)
include h

theorem setReplica (replica : Option Nat) : Inv (f.setReplica replica) none := by
  unfold Facade.setReplica
  split
  · exact h
  · refine h.restack f.replica (fun frame hin => ?_) (fun frame hin => .inl (mem_cons_of_mem _ hin)) rfl
    rcases mem_cons.mp hin with rfl | hin
    · exact .inr (.inr ⟨_, _, rfl, fun p hp => of_mem_children hp⟩)
    · exact .inl hin

theorem tick : Inv f.tick none := by
  unfold Facade.tick
  split
  · next p rest hstack =>
    have hset := (h.queued p [] (hstack ▸ mem_cons_self)).1
    have hpromise := f.scheduleDisposal_promises p
    have hscheduled : Inv (f.scheduleDisposal p) none := by
      refine h.transfer (fun q => ?_) (fun q => ?_) (fun q _ => ?_) (fun q _ => ?_) (fun q hq => ?_) (fun q hq hsent => ?_)
        (fun q hq => ?_) rfl rfl (Nat.le_refl _) (List.Subset.refl _) rfl (fun _ hframe => .inl hframe)
        (fun _ hframe => .inl hframe) rfl
      · rcases hpromise q with he | ⟨rfl, he⟩ <;> rw [he]
      · rcases hpromise q with he | ⟨rfl, he⟩ <;> rw [he]
      · rcases hpromise q with he | ⟨rfl, he⟩ <;> rw [he]
      · rcases hpromise q with he | ⟨rfl, he⟩ <;> rw [he]
      · refine (hpromise q).resolve_right fun hp => hset ?_
        rw [← hp.1, h.unborn q hq]
      · have hsame : (f.promises q).sentOn ≠ none := by rcases hpromise q with he | ⟨rfl, he⟩ <;> rw [he] at hsent <;> exact hsent
        exact absurd (h.calls q hsame).2 (Nat.not_lt.mpr hq)
      · rcases hpromise q with he | ⟨rfl, he⟩
        · rw [he] at hq
          exact h.disposal q hq
        · exact hset
    exact hscheduled.pop hstack rfl f.replica [] fun _ hin => absurd hin not_mem_nil
  · next p k hs rest hstack => exact h.dispatch hstack
  · next replica rest hstack =>
    refine h.pop hstack rfl replica [ .app] fun frame hin => ?_
    exact .inl (mem_singleton.mp hin)
  · next p held replica rest hstack =>
    have habandon := h.abandons (p :: held) replica (hstack ▸ mem_cons_self)
    have hpopped : Inv { f with stack := .abandon held replica :: rest } none := by
      refine h.pop hstack rfl f.replica [ .abandon held replica] fun frame hin => ?_
      exact .inr ⟨held, replica, mem_singleton.mp hin, fun q hq => habandon q (mem_cons_of_mem _ hq)⟩
    exact hpopped.settle_held (habandon p mem_cons_self).2 fun _ => .inr rfl
  · exact h

theorem unwind :
    Inv { f with promises := fun p =>
      { f.promises p with disposed := (f.promises p).disposed || (f.promises p).disposalScheduled } } none := by
  refine h.transfer (fun _ => rfl) (fun _ => rfl) (fun _ _ => rfl) (fun _ _ => rfl) (fun p hp => ?_)
    (fun p hp hsent => absurd (h.calls p hsent).2 (Nat.not_lt.mpr hp)) (fun p hp => h.disposal p ?_) rfl rfl (Nat.le_refl _)
    (List.Subset.refl _) rfl (fun _ hframe => .inl hframe) (fun _ hframe => .inl hframe) rfl
  · simp only [h.unborn p hp]
    rfl
  · rcases hp with hp | hp
    · exact (Bool.or_eq_true_iff.mp hp)
    · exact .inr hp

theorem step (i : Input V) : Inv (f.step i) none := by
  cases i with
  | tick => exact h.tick
  | call answer =>
    simp only [Facade.step]
    split
    · exact h.callSlot answer
    · exact h
  | attach p callable onRejected =>
    simp only [Facade.step]
    split
    · next hcond => exact h.attach hcond.2.1 (addHandler_attaches h p callable onRejected)
    · exact h
  | ret result =>
    simp only [Facade.step]
    split
    · next p k rest hstack => exact h.ret hstack (outcomeOf result)
    · exact h
  | leave =>
    simp only [Facade.step]
    split
    · next rest hstack => exact h.pop hstack rfl f.replica [] fun _ hin => absurd hin not_mem_nil
    · exact h
  | turn =>
    simp only [Facade.step]
    split
    · next hnil =>
      refine h.restack f.replica (fun frame hin => ?_) (fun frame hin => ?_) ?_
      · exact .inr (.inl (mem_singleton.mp hin))
      · rw [hnil] at hin
        exact absurd hin not_mem_nil
      · rw [owed, hnil]
        rfl
    · exact h
  | reply p answer =>
    simp only [Facade.step]
    split
    · next hcond => exact h.settleFromCall (h.calls p (isSome_iff_ne_none.mp hcond.2)).1 answer
    · exact h
  | setReplica replica =>
    simp only [Facade.step]
    split
    · exact h.setReplica replica
    · exact h
  | unwind =>
    simp only [Facade.step]
    split
    · exact h.unwind
    · exact h

end

end Inv

/-- A step that makes no call and neither begins, continues nor ends a replacement. -/
structure Quiet (f f' : Facade V) : Prop where
  state : ∀ p o, (f.promises p).state = some o → (f'.promises p).state = some o
  sentOn : ∀ p, (f'.promises p).sentOn = (f.promises p).sentOn
  held : ∀ p, (f'.promises p).held = (f.promises p).held
  unavailable : f'.unavailable = f.unavailable
  replica : f'.replica = f.replica
  frames : ∀ held r, .abandon held r ∈ f'.stack → .abandon held r ∈ f.stack

namespace Quiet

theorem refl (f : Facade V) : Quiet f f :=
  ⟨fun _ _ ho => ho, fun _ => rfl, fun _ => rfl, rfl, rfl, fun _ _ hin => hin⟩

theorem trans {f' f'' : Facade V} (h : Quiet f f') (h' : Quiet f' f'') : Quiet f f'' where
  state := fun p o ho => h'.state p o (h.state p o ho)
  sentOn := fun p => (h'.sentOn p).trans (h.sentOn p)
  held := fun p => (h'.held p).trans (h.held p)
  unavailable := h'.unavailable.trans h.unavailable
  replica := h'.replica.trans h.replica
  frames := fun held r hin => h.frames held r (h'.frames held r hin)

theorem restack {stack : List Frame} (hback : ∀ held r, .abandon held r ∈ stack → .abandon held r ∈ f.stack) :
    Quiet f { f with stack := stack } :=
  ⟨fun _ _ ho => ho, fun _ => rfl, fun _ => rfl, rfl, rfl, hback⟩

theorem pop {frame : Frame} {rest : List Frame} (hstack : f.stack = frame :: rest) : Quiet f { f with stack := rest } :=
  restack fun _ _ hin => hstack ▸ mem_cons_of_mem _ hin

theorem settle (f : Facade V) (p : Nat) (outcome : Outcome V) : Quiet f (f.settle p outcome) := by
  by_cases hnone : (f.promises p).state = none
  · have hs := settle_settles hnone outcome
    have hunavailable : (f.settle p outcome).unavailable = f.unavailable := by
      unfold Facade.settle
      split <;> rfl
    refine ⟨fun q o ho => ?_, fun q => ?_, fun q => ?_, hunavailable, hs.replica, fun held r hin => ?_⟩
    · rw [hs.others q fun he => absurd (hnone.symm.trans (he ▸ ho)) (some_ne_none o).symm]
      exact ho
    · by_cases hq : q = p
      · rw [hq, hs.sentOn]
      · rw [hs.others q hq]
    · by_cases hq : q = p
      · rw [hq, hs.held]
      · rw [hs.others q hq]
    · rw [hs.stack] at hin
      rcases mem_cons.mp hin with he | hin
      · cases he
      · exact hin
  · rw [settle_of_settled hnone]
    exact refl f

theorem settleFromCall (f : Facade V) (p : Nat) (answer : Reply V) : Quiet f (f.settleFromCall p answer) :=
  have hanswered : Quiet f { f with answered := f.answered ++ [(p, answer.outcome)] } :=
    ⟨fun _ _ ho => ho, fun _ => rfl, fun _ => rfl, rfl, rfl, fun _ _ hin => hin⟩
  hanswered.trans (settle ..)

theorem attach {f' : Facade V} {p : Nat} {k : Handler} (ha : Attaches f f' p k) (hunavailable : f'.unavailable = f.unavailable) :
    Quiet f f' := by
  refine ⟨fun q o ho => (ha.state q).trans ho, ha.sentOn, ha.held, hunavailable, ha.replica, fun held r hin => ?_⟩
  by_cases hset : (f.promises p).state = none
  · rw [(ha.waits hset).2] at hin
    exact hin
  · rw [(ha.goes hset).2] at hin
    rcases mem_cons.mp hin with he | hin
    · cases he
    · exact hin

theorem dispatch (f : Facade V) (p : Nat) (k : Handler) : Quiet f (f.dispatch p k) := by
  unfold Facade.dispatch
  split
  · exact refl f
  · split
    · refine ⟨fun _ _ ho => ho, fun _ => rfl, fun _ => rfl, rfl, rfl, fun held r hin => ?_⟩
      rcases mem_cons.mp hin with he | hin
      · cases he
      · exact hin
    · exact settle ..

end Quiet

theorem step_cases (h : Inv f none) (i : Input V) :
    Quiet f (f.step i) ∨
    (∃ answer, i = .call answer ∧ f.inApp = true ∧ f.step i = f.callSlot answer) ∨
    (∃ r, f.step i = { f with stack := .abandon f.children r :: f.stack }) ∨
    (∃ p held r rest, f.stack = .abandon (p :: held) r :: rest ∧
      f.step i = { f with stack := .abandon held r :: rest }.settle p (.rejected f.dropped)) ∨
    ∃ r rest, f.stack = .abandon [] r :: rest ∧ f.step i = { f with replica := r, stack := .app :: rest } := by
  cases i with
  | tick =>
    simp only [Facade.step]
    unfold Facade.tick
    split
    · next p rest hstack =>
      have hscheduled : Quiet f (f.scheduleDisposal p) := by
        refine ⟨fun q o ho => ?_, fun q => ?_, fun q => ?_, rfl, rfl, fun _ _ hin => hin⟩ <;>
          rcases f.scheduleDisposal_promises p q with he | ⟨rfl, he⟩ <;> rw [he]
        · exact ho
        · exact ho
      exact .inl (hscheduled.trans (.pop hstack))
    · next p k hs rest hstack =>
      refine .inl (.trans (.restack fun held r hin => ?_) (.dispatch _ p k))
      rcases mem_cons.mp hin with he | hin
      · cases he
      · exact hstack ▸ mem_cons_of_mem _ hin
    · next r rest hstack => exact .inr (.inr (.inr (.inr ⟨r, rest, hstack, rfl⟩)))
    · next p held r rest hstack => exact .inr (.inr (.inr (.inl ⟨p, held, r, rest, hstack, rfl⟩)))
    · exact .inl (.refl f)
  | call answer =>
    by_cases hin : f.inApp = true
    · exact .inr (.inl ⟨answer, rfl, hin, if_pos hin⟩)
    · rw [show f.step (.call answer) = f from if_neg hin]
      exact .inl (.refl f)
  | attach p callable onRejected =>
    simp only [Facade.step]
    split
    · refine .inl (.attach (addHandler_attaches h p callable onRejected) ?_)
      unfold addHandler
      simp only
      split <;> rfl
    · exact .inl (.refl f)
  | ret result =>
    simp only [Facade.step]
    split
    · next p k rest hstack => exact .inl (.trans (.pop hstack) (.settle ..))
    · exact .inl (.refl f)
  | leave =>
    simp only [Facade.step]
    split
    · next rest hstack => exact .inl (.pop hstack)
    · exact .inl (.refl f)
  | turn =>
    simp only [Facade.step]
    split
    · refine .inl (.restack fun held r hin => ?_)
      cases mem_singleton.mp hin
    · exact .inl (.refl f)
  | reply p answer =>
    simp only [Facade.step]
    split
    · exact .inl (.settleFromCall ..)
    · exact .inl (.refl f)
  | setReplica r =>
    simp only [Facade.step]
    split
    · unfold Facade.setReplica
      split
      · exact .inl (.refl f)
      · exact .inr (.inr (.inl ⟨r, rfl⟩))
    · exact .inl (.refl f)
  | unwind =>
    simp only [Facade.step]
    split
    · exact .inl ⟨fun _ _ ho => ho, fun _ => rfl, fun _ => rfl, rfl, rfl, fun _ _ hin => hin⟩
    · exact .inl (.refl f)

/-- What a call does: one promise more, which is rejected where there is no Replica, and settled where there is an answer. -/
structure Called (f f' : Facade V) (answer : Option (Reply V)) : Prop where
  others : ∀ p, p ≠ f.count → f'.promises p = f.promises p
  sentOn : (f'.promises f.count).sentOn = f.replica
  unavailable : f'.unavailable = f.unavailable
  replica : f'.replica = f.replica
  frames : ∀ held r, .abandon held r ∈ f'.stack → .abandon held r ∈ f.stack
  refused : f.replica = none → (f'.promises f.count).state = some (.rejected f.unavailable)
  answered : answer ≠ none → (f'.promises f.count).state ≠ none

private theorem callSlot_called (f : Facade V) (answer : Option (Reply V)) : Called f (f.callSlot answer) answer := by
  have hothers : ∀ sentOn p, p ≠ f.count → (f.add sentOn true).promises p = f.promises p :=
    fun sentOn p hp => update_of_ne hp ..
  have hself : ∀ sentOn, (f.add sentOn true).promises f.count = ⟨none, [], sentOn, true, false, false⟩ :=
    fun sentOn => by rw [add_promises, update_self]
  -- A promise settled as soon as it is made.
  have hsettled : ∀ (g : Facade V) sentOn outcome, g.promises = (f.add sentOn true).promises → sentOn = f.replica →
      g.unavailable = f.unavailable → g.replica = f.replica → g.stack = f.stack →
      (f.replica = none → outcome = .rejected f.unavailable) → Called f (g.settle f.count outcome) answer := by
    intro g sentOn outcome hpromises hsent hunavailable hreplica hstack houtcome
    have hquiet := Quiet.settle g f.count outcome
    have hs : Settles g (g.settle f.count outcome) f.count outcome :=
      settle_settles (by rw [hpromises, hself]) outcome
    refine ⟨fun p hp => ?_, ?_, hquiet.unavailable.trans hunavailable, hquiet.replica.trans hreplica,
      fun held r hin => hstack ▸ hquiet.frames held r hin, fun hnone => ?_, fun _ => ?_⟩
    · rw [hs.others p hp, hpromises, hothers sentOn p hp]
    · rw [hs.sentOn, hpromises, hself, hsent]
    · rw [hs.state, houtcome hnone]
    · rw [hs.state]
      exact some_ne_none _
  unfold callSlot
  split
  · next hnone => exact hsettled _ none _ rfl hnone.symm rfl rfl rfl fun _ => rfl
  · next replica hsome =>
    have hany : ∀ {P : Prop}, f.replica = none → P := fun hnone => absurd (hsome.symm.trans hnone) (some_ne_none _)
    cases answer with
    | none =>
      refine ⟨fun p hp => hothers _ p hp, ?_, rfl, rfl, fun _ _ hin => hin, hany, fun hne => absurd rfl hne⟩
      rw [hself, hsome]
    | some answer => exact hsettled _ (some replica) _ rfl hsome.symm rfl rfl rfl hany

section
variable (h : Inv f none)
include h

private theorem step_settled (i : Input V) {p : Nat} {o : Outcome V} (ho : (f.promises p).state = some o) :
    ((f.step i).promises p).state = some o := by
  rcases step_cases h i with hquiet | ⟨answer, -, -, he⟩ | ⟨r, he⟩ | ⟨q, held, r, rest, hstack, he⟩ | ⟨r, rest, hstack, he⟩
  · exact hquiet.state p o ho
  · have hold : p ≠ f.count := by
      rintro rfl
      rw [h.unborn _ (Nat.le_refl _)] at ho
      cases ho
    rw [he, (callSlot_called f answer).others p hold]
    exact ho
  · rw [he]
    exact ho
  · rw [he]
    exact (Quiet.settle ..).state p o ho
  · rw [he]
    exact ho

/-- Calls without a Replica are refused. -/
def Refuses (f : Facade V) : Prop :=
  ∀ p, (f.promises p).held = true → (f.promises p).sentOn = none → (f.promises p).state = some (.rejected f.unavailable)

private theorem step_refuses (hrefuses : Refuses f) (i : Input V) : Refuses (f.step i) := by
  intro p hheld hsent
  rcases step_cases h i with hquiet | ⟨answer, -, -, he⟩ | ⟨r, he⟩ | ⟨q, held, r, rest, hstack, he⟩ | ⟨r, rest, hstack, he⟩
  · rw [hquiet.held] at hheld
    rw [hquiet.sentOn] at hsent
    rw [hquiet.unavailable]
    exact hquiet.state p _ (hrefuses p hheld hsent)
  · have hcalled := callSlot_called f answer
    rw [he] at hheld hsent ⊢
    rw [hcalled.unavailable]
    by_cases hp : p = f.count
    · rw [hp] at hsent ⊢
      exact hcalled.refused (hcalled.sentOn.symm.trans hsent)
    · rw [hcalled.others p hp] at hheld hsent ⊢
      exact hrefuses p hheld hsent
  · rw [he] at hheld hsent ⊢
    exact hrefuses p hheld hsent
  · have hquiet := Quiet.settle { f with stack := .abandon held r :: rest } q (.rejected f.dropped)
    rw [he] at hheld hsent ⊢
    rw [hquiet.held] at hheld
    rw [hquiet.sentOn] at hsent
    rw [hquiet.unavailable]
    exact hquiet.state p _ (hrefuses p hheld hsent)
  · rw [he] at hheld hsent ⊢
    exact hrefuses p hheld hsent

/-- The promises down a chain that an outcome reaches as a rejection: past every handler that is no `catchError`. -/
inductive Down (f : Facade V) (p : Nat) : Nat → Prop
  | here : Down f p p
  | past {q : Nat} {k : Handler} (hdown : Down f p q) (hin : (q, k) ∈ f.attached)
      (hpast : (k.onRejected && k.callable) = false) : Down f p k.next

/-- What holds of the calls of a facade whatever the application does. -/
structure Faithful (f : Facade V) : Prop where
  /-- A handler runs at most once, for the outcome it is for and the promise has. -/
  once : f.ranIds.Nodup
  fitting : ∀ n p o, (n, p, o) ∈ f.ran → ∃ k, (p, k) ∈ f.attached ∧ k.next = n ∧ fires o k ∧ (f.promises p).state = some o
  /-- A call settles with its answer, or because its Replica is replaced or there is none. -/
  answers : ∀ p o, (f.promises p).sentOn ≠ none → (f.promises p).state = some o →
    (p, o) ∈ f.answered ∨ o = .rejected f.dropped
  refuses : Refuses f
  /-- A rejection reaches the first `catchError` down every chain. -/
  caught : f.stack = [] → ∀ p q k reason, (f.promises p).state = some (.rejected reason) → Down f p q → (q, k) ∈ f.attached →
    k.onRejected = true → k.callable = true → (k.next, q, .rejected reason) ∈ f.ran
  /-- What is chained from a promise that has settled has settled. -/
  chained : f.stack = [] → ∀ p k, (p, k) ∈ f.attached → (f.promises p).state ≠ none → (f.promises k.next).state ≠ none

theorem Inv.stage {p : Nat} {k : Handler} {o : Outcome V} (hrest : f.stack = []) (hin : (p, k) ∈ f.attached)
    (ho : (f.promises p).state = some o) :
    (fires o k ∧ (k.next, p, o) ∈ f.ran ∧ (f.promises k.next).state ≠ none) ∨
      (¬fires o k ∧ (f.promises k.next).state = some o) := by
  have hempty : ∀ frame, frame ∉ f.stack := fun frame hframe => absurd (hrest ▸ hframe) not_mem_nil
  rcases h.staged p k o hin ho with hstage | haway
  · cases hstage with
    | queued hs hframe hmem => exact absurd hframe (hempty _)
    | ran hfires hran hdone => exact .inl ⟨hfires, hran, hdone.resolve_left (hempty _)⟩
    | passed hfires hnext => exact .inr ⟨hfires, hnext⟩
  · cases haway

private theorem Inv.rejected_down (hrest : f.stack = []) {p q : Nat} {reason : String}
    (hp : (f.promises p).state = some (.rejected reason)) (hdown : Down f p q) :
    (f.promises q).state = some (.rejected reason) := by
  induction hdown with
  | here => exact hp
  | @past q k _ hin hpast ih =>
    rcases h.stage hrest hin ih with ⟨hfires, -⟩ | ⟨-, hnext⟩
    · exact absurd (hfires.symm.trans hpast) Bool.noConfusion
    · exact hnext

theorem Inv.faithful (hrefuses : Refuses f) : Faithful f where
  once := h.once
  fitting := h.fitting
  answers := h.answers
  refuses := hrefuses
  caught := by
    intro hrest p q k reason hp hdown hin hrejected hcallable
    have hfires : fires (V := V) (.rejected reason) k := Bool.and_eq_true_iff.mpr ⟨hrejected, hcallable⟩
    rcases h.stage hrest hin (h.rejected_down hrest hp hdown) with ⟨-, hran, -⟩ | ⟨hno, -⟩
    · exact hran
    · exact absurd hfires hno
  chained := by
    intro hrest p k hin hp
    obtain ⟨o, ho⟩ := ne_none_iff_exists'.mp hp
    rcases h.stage hrest hin ho with ⟨-, -, hnext⟩ | ⟨-, hnext⟩
    · exact hnext
    · rw [hnext]
      exact some_ne_none o

end

def Prompt (f : Facade V) : Prop :=
  ∀ p r, (f.promises p).sentOn = some r → (f.promises p).state = none → f.replica = some r

/-- A call that has no answer at once is not made while the Replica it is sent on is being replaced by another. -/
def Respected (f : Facade V) : Input V → Prop
  | .call none => f.inApp = true → ∀ frame ∈ f.stack, ∀ r ∈ frame.replacing, r = f.replica
  | _ => True

instance Respected.decidable (f : Facade V) : DecidablePred (Respected f)
  | .call none => inferInstanceAs (Decidable (f.inApp = true → ∀ frame ∈ f.stack, ∀ r ∈ frame.replacing, r = f.replica))
  | .call (some _) => isTrue trivial
  | .tick => isTrue trivial
  | .attach _ _ _ => isTrue trivial
  | .ret _ => isTrue trivial
  | .leave => isTrue trivial
  | .turn => isTrue trivial
  | .reply _ _ => isTrue trivial
  | .setReplica _ => isTrue trivial
  | .unwind => isTrue trivial

/-- A pending call's Replica is the facade's, and stays it or the call is among those to be abandoned. -/
def Covered (f : Facade V) : Prop :=
  ∀ p r, (f.promises p).sentOn = some r → (f.promises p).state = none →
    f.replica = some r ∧ ∀ held r', .abandon held r' ∈ f.stack → p ∈ held ∨ r' = some r

theorem Quiet.pending {f' : Facade V} (hquiet : Quiet f f') {p : Nat} (hnone : (f'.promises p).state = none) :
    (f.promises p).state = none := by
  by_contra hset
  obtain ⟨o, ho⟩ := ne_none_iff_exists'.mp hset
  rw [hquiet.state p o ho] at hnone
  cases hnone

theorem Quiet.covered {f' : Facade V} (hquiet : Quiet f f') (hcovered : Covered f) : Covered f' := by
  intro p r hsent hnone
  rw [hquiet.sentOn] at hsent
  obtain ⟨hreplica, hframes⟩ := hcovered p r hsent (hquiet.pending hnone)
  exact ⟨hquiet.replica.trans hreplica, fun held r' hin => hframes held r' (hquiet.frames held r' hin)⟩

theorem step_covered (h : Inv f none) (hcovered : Covered f) {i : Input V} (hok : Respected f i) : Covered (f.step i) := by
  rcases step_cases h i with hquiet | ⟨answer, rfl, happ, he⟩ | ⟨r, he⟩ | ⟨q, held, r, rest, hstack, he⟩ | ⟨r, rest, hstack, he⟩
  · exact hquiet.covered hcovered
  · have hcalled := callSlot_called f answer
    rw [he]
    intro p r hsent hnone
    by_cases hp : p = f.count
    · rw [hp, hcalled.sentOn] at hsent
      refine ⟨hcalled.replica.trans hsent, fun held r' hin => .inr ?_⟩
      cases answer with
      | none => exact (hok happ _ (hcalled.frames held r' hin) r' rfl).trans hsent
      | some answer => exact absurd (hp ▸ hnone) (hcalled.answered (some_ne_none answer))
    · rw [hcalled.others p hp] at hsent hnone
      obtain ⟨hreplica, hframes⟩ := hcovered p r hsent hnone
      exact ⟨hcalled.replica.trans hreplica, fun held r' hin => hframes held r' (hcalled.frames held r' hin)⟩
  · rw [he]
    intro p r' hsent hnone
    obtain ⟨hreplica, hframes⟩ := hcovered p r' hsent hnone
    refine ⟨hreplica, fun held r'' hin => ?_⟩
    rcases mem_cons.mp hin with he' | hin
    · -- A pending call is a child of the facade, and has not been deleted.
      obtain ⟨rfl, rfl⟩ := Frame.abandon.inj he'
      obtain ⟨hheld, hlt⟩ := h.calls p (hsent ▸ some_ne_none r')
      have hkept : (f.promises p).disposed = false :=
        Bool.eq_false_iff.mpr fun hdisposed => h.disposal p (.inl hdisposed) hnone
      refine .inl (mem_filter.mpr ⟨mem_range.mpr hlt, ?_⟩)
      rw [hheld, hkept]
      rfl
    · exact hframes held r'' hin
  · rw [he]
    have hquiet := Quiet.settle { f with stack := .abandon held r :: rest } q (.rejected f.dropped)
    intro p r' hsent hnone
    have hpending : (f.promises p).state = none := hquiet.pending hnone
    have hpq : p ≠ q := by
      rintro rfl
      have hs := settle_settles (f := { f with stack := .abandon held r :: rest }) hpending (.rejected f.dropped)
      rw [hs.state] at hnone
      cases hnone
    rw [hquiet.sentOn] at hsent
    obtain ⟨hreplica, hframes⟩ := hcovered p r' hsent hpending
    refine ⟨hquiet.replica.trans hreplica, fun held' r'' hin => ?_⟩
    rcases mem_cons.mp (hquiet.frames held' r'' hin) with he' | hin
    · obtain ⟨rfl, rfl⟩ := Frame.abandon.inj he'
      refine (hframes (q :: held') r'' (hstack ▸ mem_cons_self)).imp_left fun hmem => ?_
      exact (mem_cons.mp hmem).resolve_left hpq
    · exact hframes held' r'' (hstack ▸ mem_cons_of_mem _ hin)
  · rw [he]
    intro p r' hsent hnone
    obtain ⟨-, hframes⟩ := hcovered p r' hsent hnone
    refine ⟨(hframes [] r (hstack ▸ mem_cons_self)).resolve_left not_mem_nil, fun held r'' hin => ?_⟩
    rcases mem_cons.mp hin with he' | hin
    · cases he'
    · exact hframes held r'' (hstack ▸ mem_cons_of_mem _ hin)

private theorem run_inv (h : Inv f none) (hrefuses : Refuses f) (inputs : List (Input V)) :
    Inv (run step f inputs) none ∧ Refuses (run step f inputs) :=
  run_invariant (fun f => Inv f none ∧ Refuses f) (fun _ i hf => ⟨hf.1.step i, step_refuses hf.1 hf.2 i⟩) ⟨h, hrefuses⟩ inputs

private theorem run_settled (h : Inv f none) (inputs : List (Input V)) {p : Nat} {o : Outcome V}
    (ho : (f.promises p).state = some o) : ((run step f inputs).promises p).state = some o :=
  (run_invariant (fun f => Inv f none ∧ (f.promises p).state = some o)
    (fun _ i hf => ⟨hf.1.step i, step_settled hf.1 i hf.2⟩) ⟨h, ho⟩ inputs).2

/-- In every run each promise settles at most once and as it should, each handler runs at most once and for its own
outcome, and rejections are caught; where no call is made on a Replica that is being replaced, none is pending on
one that has been. -/
theorem calls_settle (className point : String) (replica : Option Nat) (inputs : List (Input V)) :
    (∀ before after, inputs = before ++ after → Faithful (run step (make className point replica) before) ∧
      ∀ p o, ((run step (make className point replica) before).promises p).state = some o →
        ((run step (make className point replica) inputs).promises p).state = some o) ∧
    (Each step Respected (make className point replica) inputs → ∀ before after, inputs = before ++ after →
      Prompt (run step (make className point replica) before)) := by
  have hmake := make_inv (V := V) className point replica
  have hrefuses : Refuses (make className point replica : Facade V) := fun p hheld _ => absurd hheld Bool.false_ne_true
  constructor
  · rintro before after rfl
    obtain ⟨hinv, href⟩ := run_inv hmake hrefuses before
    refine ⟨hinv.faithful href, fun p o ho => ?_⟩
    rw [run_append]
    exact run_settled hinv after ho
  · rintro heach before after rfl p r hsent hnone
    have hbefore := ((each_append _ before after).mp heach).1
    have hcovered : Covered (make className point replica : Facade V) :=
      fun p r hsent _ => absurd hsent.symm (some_ne_none r)
    have hkept := hbefore.invariant (fun f => Inv f none ∧ Covered f)
      (fun f i hf hok => ⟨hf.1.step i, step_covered hf.1 hf.2 hok⟩) ⟨hmake, hcovered⟩
    exact (hkept.2 p r hsent hnone).1

/-- A call cut off, whose `catchError` calls again once the Replica is in place. -/
def calledAgainLater : List (Input Nat) :=
  [.turn, .call none, .attach 0 true true, .leave, .setReplica (some 2), .tick, .tick, .ret (.ok 0), .tick, .tick, .tick,
    .call none, .leave]

def calledAgain : List (Input Nat) :=
  [.turn, .call none, .attach 0 true true, .leave, .setReplica (some 2), .tick, .tick, .call none, .ret (.ok 0), .tick, .tick,
    .tick, .leave]

theorem calledAgainLater_prompt : Prompt (run step (make "Orders" "orders" (some 1)) calledAgainLater) :=
  (calls_settle "Orders" "orders" (some 1) calledAgainLater).2 (by decide) calledAgainLater [] (append_nil _).symm

/-- The second call stays pending, sent on a Replica that is gone. -/
theorem calledAgain_not_prompt : ¬∀ inputs : List (Input Nat), Prompt (run step (make "Orders" "orders" (some 1)) inputs) := by
  intro h
  have hreplica : (run step (make "Orders" "orders" (some 1)) calledAgain).replica = some 1 := h calledAgain 2 1 rfl rfl
  exact absurd hreplica (by decide)

end SynQt.Consumer.Facade
