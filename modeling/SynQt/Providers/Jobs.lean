import SynQt.Lib.Run

/-! An entity's queue of one-shot jobs. It is drained a pass at a time, each asked of the event loop, and a job may queue
others while it runs. -/
namespace SynQt
open Lib

/-- The queue, how many drains the event loop has been asked for, and what was accepted and taken, in order. -/
structure Jobs (J : Type) where
  maxQueue : Nat
  queue : List J := []
  draining : Bool := false
  posted : Nat := 0
  accepted : List J := []
  taken : List J := []

inductive JobsOp (J : Type) where
  | enqueue (job : J)
  | drain (adds : List (List J))

namespace Jobs
variable {J : Type} (isCallable : J → Bool) {s : Jobs J}

def make (maxQueue : Int) : Jobs J := { maxQueue := if maxQueue > 0 then maxQueue.toNat else 1 }

def enqueue (s : Jobs J) (job : J) : Jobs J × Bool :=
  if s.queue.length ≥ s.maxQueue then (s, false)
  else
    let s := { s with queue := s.queue ++ [job], accepted := s.accepted ++ [job] }
    (if s.draining then s else { s with draining := true, posted := s.posted + 1 }, true)

def enqueueAll (s : Jobs J) (jobs : List J) : Jobs J := jobs.foldl (fun s job => (s.enqueue job).1) s

/-- What is left of a pass. Each job that is called queues the first of what is to be added. -/
def pass : Nat → List (List J) → Jobs J → Jobs J
  | 0, _, s => s
  | remaining + 1, adds, s =>
    match s.queue with
    | [] => s
    | job :: queue =>
      let s := { s with queue := queue, taken := s.taken ++ [job] }
      pass remaining adds.tail (if isCallable job then s.enqueueAll (adds.headD []) else s)

def drain (s : Jobs J) (adds : List (List J)) : Jobs J :=
  let s := pass isCallable s.queue.length adds { s with posted := s.posted - 1 }
  if s.queue.isEmpty then { s with draining := false } else { s with posted := s.posted + 1 }

def step (s : Jobs J) : JobsOp J → Jobs J
  | .enqueue job => (s.enqueue job).1
  | .drain adds => if s.posted = 0 then s else s.drain isCallable adds

/-- The queue is bounded, and a drain is asked for once while something waits. -/
structure Kept (s : Jobs J) : Prop where
  room : s.queue.length ≤ s.maxQueue
  once : s.taken ++ s.queue = s.accepted
  posted : s.posted = if s.draining then 1 else 0
  going : s.draining = !s.queue.isEmpty

private theorem enqueueAll_draining (jobs : List J) (hdraining : s.draining = true) (hroom : s.queue.length ≤ s.maxQueue) :
    ∃ new, s.enqueueAll jobs = { s with queue := s.queue ++ new, accepted := s.accepted ++ new } ∧
      (s.queue ++ new).length ≤ s.maxQueue := by
  induction jobs generalizing s with
  | nil => exact ⟨[], by simp [enqueueAll], by simpa using hroom⟩
  | cons job jobs ih =>
    rw [enqueueAll, List.foldl_cons, ← enqueueAll, enqueue]
    split
    · exact ih hdraining hroom
    · next hfree =>
      dsimp only
      rw [if_pos hdraining]
      obtain ⟨new, hall, hlength⟩ := ih (s := { s with queue := s.queue ++ [job], accepted := s.accepted ++ [job] })
        hdraining (by simpa using Nat.succ_le_of_lt (Nat.not_le.mp hfree))
      exact ⟨job :: new, hall.trans (by simp), by simpa using hlength⟩

/-- A pass takes what was waiting, in order, and leaves what was queued meanwhile. -/
theorem pass_takes (remaining : Nat) (adds : List (List J)) (hdraining : s.draining = true)
    (hroom : s.queue.length ≤ s.maxQueue) (hremaining : remaining ≤ s.queue.length) :
    ∃ new, pass isCallable remaining adds s =
        { s with
          queue := s.queue.drop remaining ++ new
          taken := s.taken ++ s.queue.take remaining
          accepted := s.accepted ++ new } ∧
      (s.queue.drop remaining ++ new).length ≤ s.maxQueue := by
  induction remaining generalizing s adds with
  | zero => exact ⟨[], by simp [pass], by simpa using hroom⟩
  | succ remaining ih =>
    obtain ⟨job, queue, hqueue⟩ := List.exists_cons_of_length_pos (Nat.zero_lt_of_lt hremaining)
    rw [pass, hqueue]
    rw [hqueue, List.length_cons] at hroom hremaining
    have hcalled : ∃ new, (if isCallable job then
        enqueueAll { s with queue := queue, taken := s.taken ++ [job] } (adds.headD [])
        else { s with queue := queue, taken := s.taken ++ [job] }) =
          { s with queue := queue ++ new, taken := s.taken ++ [job], accepted := s.accepted ++ new } ∧
        (queue ++ new).length ≤ s.maxQueue := by
      split
      · exact enqueueAll_draining _ hdraining (Nat.le_of_succ_le hroom)
      · exact ⟨[], by simp, by simpa using Nat.le_of_succ_le hroom⟩
    obtain ⟨new, hcalled, hlength⟩ := hcalled
    dsimp only
    rw [hcalled]
    obtain ⟨later, hpass, hlast⟩ := ih adds.tail
      (s := { s with queue := queue ++ new, taken := s.taken ++ [job], accepted := s.accepted ++ new }) hdraining hlength
      (Nat.le_trans (Nat.le_of_succ_le_succ hremaining) (by simp))
    rw [List.drop_append_of_le_length (Nat.le_of_succ_le_succ hremaining)] at hpass hlast
    refine ⟨new ++ later, ?_, by simpa using hlast⟩
    rw [hpass, List.take_append_of_le_length (Nat.le_of_succ_le_succ hremaining)]
    simp

theorem Kept.drain (h : Kept s) (hposted : s.posted ≠ 0) (adds : List (List J)) :
    Kept (s.drain isCallable adds) ∧ (s.drain isCallable adds).taken = s.taken ++ s.queue := by
  have hdraining : s.draining = true := by
    by_contra hnot
    exact hposted (h.posted.trans (if_neg hnot))
  obtain ⟨new, hpass, hroom⟩ := pass_takes isCallable s.queue.length adds (s := { s with posted := s.posted - 1 })
    hdraining h.room (Nat.le_refl _)
  have hone : s.posted = 1 := h.posted.trans (if_pos hdraining)
  rw [Jobs.drain, hpass]
  simp only [List.drop_length, List.take_length, List.nil_append] at hroom ⊢
  split
  · next hempty => exact ⟨⟨hroom, by simp [h.once], by simp [hone], by simp [hempty]⟩, rfl⟩
  · next hmore => exact ⟨⟨hroom, by simp [h.once], by simp [hone, hdraining], by simp [hdraining, hmore]⟩, rfl⟩

theorem Kept.step (h : Kept s) (op : JobsOp J) : Kept (s.step isCallable op) := by
  cases op with
  | drain adds =>
    rw [Jobs.step]
    split
    · exact h
    · next hposted => exact (h.drain isCallable hposted adds).1
  | enqueue job =>
    rw [Jobs.step, enqueue]
    split
    · exact h
    · next hfree =>
      have hroom : (s.queue ++ [job]).length ≤ s.maxQueue := by simpa using Nat.succ_le_of_lt (Nat.not_le.mp hfree)
      have honce : s.taken ++ (s.queue ++ [job]) = s.accepted ++ [job] := by rw [← List.append_assoc, h.once]
      cases hdraining : s.draining with
      | true => exact ⟨hroom, honce, by simpa [hdraining] using h.posted, by simp⟩
      | false => exact ⟨hroom, honce, by simp [h.posted, hdraining], by simp⟩

/-- A job is accepted exactly where `enqueue` answers true. -/
private theorem enqueue_accepted (s : Jobs J) (job : J) :
    (s.enqueue job).1.accepted = s.accepted ++ if (s.enqueue job).2 then [job] else [] := by
  rw [enqueue]
  split
  · exact (List.append_nil _).symm
  · dsimp only
    split <;> rfl

/-- Whatever is queued when, by jobs as well: no more waits than may, every job that `enqueue` answers true to is taken
once and in order, one drain is asked for exactly while something waits, and a drain takes all that waits when it begins
and nothing more. -/
theorem jobs_run (maxQueue : Int) (ops : List (JobsOp J)) :
    let s := run (step isCallable) (make maxQueue) ops
    (∀ (s : Jobs J) job, (s.enqueue job).1.accepted = s.accepted ++ if (s.enqueue job).2 then [job] else []) ∧
    s.queue.length ≤ s.maxQueue ∧ s.taken ++ s.queue = s.accepted ∧ s.posted = (if s.queue.isEmpty then 0 else 1) ∧
      ∀ adds, (s.step isCallable (.drain adds)).taken = s.taken ++ s.queue := by
  intro s
  have hkept : Kept s := run_invariant Kept (fun _ op h => h.step isCallable op)
    ⟨Nat.zero_le _, rfl, rfl, rfl⟩ ops
  have hposted : s.posted = if s.queue.isEmpty then 0 else 1 := by
    rw [hkept.posted, hkept.going]
    cases s.queue.isEmpty <;> rfl
  refine ⟨enqueue_accepted, hkept.room, hkept.once, hposted, fun adds => ?_⟩
  rw [step]
  split
  · next hnone =>
    have hempty : s.queue = [] := by simpa [hposted] using hnone
    rw [hempty, List.append_nil]
  · next hsome => exact (hkept.drain isCallable hsome adds).2

end Jobs
end SynQt
