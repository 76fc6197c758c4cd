import SynQt.Lib.Run
import SynQt.Service.SessionTable

/-! The session tables of the edges and of the auth entity that owns the sessions. An edge
writes to the entity's store over one link and hears of every change of that store over
another; both deliver in order. -/
namespace SynQt
open Lib SessionManager Function Option
universe u

/-- A change of the store, as its Source announces it to one edge. -/
inductive StoreMessage where
  | sessionUpserted (token : QByteArray) (scope : QString) (identity : QVariantMap) (createdMs : Int)
  | sessionRemoved (token : QByteArray)
  | sessionRotated (from_ to_ : QByteArray)
  deriving DecidableEq

/-- What `attachRemote` connects a change to. -/
def StoreMessage.receive (m : SessionManager) (now : Int) : StoreMessage → Effect
  | .sessionUpserted token scope identity createdMs => m.applyUpsert token scope identity createdMs
  | .sessionRemoved token => m.applyRemove token
  | .sessionRotated from_ to_ => m.applyRotation now from_ to_

namespace StoreCall

def receive (m : SessionManager) (now : Int) : StoreCall → Effect
  | .putSession token scope identity createdMs => m.applyUpsert token scope identity createdMs
  | .removeSession token => m.applyRemove token
  | .rotateSession from_ to_ => m.applyRotation now from_ to_

def change : StoreCall → StoreMessage
  | .putSession token scope identity createdMs => .sessionUpserted token scope identity createdMs
  | .removeSession token => .sessionRemoved token
  | .rotateSession from_ to_ => .sessionRotated from_ to_

private theorem receive_eq (m : SessionManager) (now : Int) (call : StoreCall) :
    call.receive m now = call.change.receive m now := by
  cases call <;> rfl

end StoreCall

def Signal.forwarded : Signal → Option StoreMessage
  | .sessionUpserted token scope identity createdMs =>
    some (.sessionUpserted token scope identity createdMs)
  | .sessionRemoved token => some (.sessionRemoved token)
  | .rotationRecorded from_ to_ => some (.sessionRotated from_ to_)
  | .sessionRotated _ _ | .sessionExpired _ => none

def Effect.forwarded (e : Effect) : List StoreMessage :=
  e.emitted.filterMap (fun emission => emission.signal.forwarded)

/-- What happens to an edge's table between two messages. -/
inductive EdgeOp where
  | createSession (inUse : QByteArray → Bool) (fresh : QByteArray) (scope : QString)
      (identity : QVariantMap)
  | setScope (fresh id : QByteArray) (scope : QString) (identity : QVariantMap) (handoff : Handoff)
  | revoke (id : QByteArray)
  | sweep

namespace EdgeOp

def perform (m : SessionManager) (now : Int) : EdgeOp → Effect
  | .createSession inUse fresh scope identity => (m.createSession now inUse fresh scope identity).1
  | .setScope fresh id scope identity handoff => (m.setScope now fresh id scope identity handoff).1
  | .revoke id => m.revoke id
  | .sweep => ⟨(m.purgeExpired now).1, (m.purgeExpired now).2, []⟩

/-- The id the generator answers to the operation. -/
def fresh : EdgeOp → Option QByteArray
  | .createSession _ fresh _ _ | .setScope fresh _ _ _ _ => some fresh
  | _ => none

def ids : EdgeOp → List QByteArray
  | .createSession _ fresh _ _ => [fresh]
  | .setScope fresh id _ _ _ => [fresh, id]
  | .revoke id => [id]
  | .sweep => []

end EdgeOp

structure Mesh (ι : Type u) where
  edge : ι → SessionManager
  entity : SessionManager
  /-- The calls each edge has made and the entity has not received, oldest first. -/
  up : ι → List StoreCall
  /-- The changes announced to each edge that it has not received, oldest first. -/
  down : ι → List StoreMessage
  now : Int
  named : List QByteArray

inductive MeshOp (ι : Type u) where
  | edge (i : ι) (op : EdgeOp)
  | deliverUp (i : ι)
  | deliverDown (i : ι)
  | replay (i : ι)
  | sweepEntity
  | advance (ms : Nat)

namespace Mesh
variable {ι : Type u} [DecidableEq ι]

/-- Empty tables of one project, every edge attached to the store. -/
def start (defaultScope : QString) (ttlMinutes maximum now : Int) : Mesh ι where
  edge := fun _ => ((SessionManager.make defaultScope ttlMinutes).setMaximumSessions maximum).attachRemote
  entity := (SessionManager.make defaultScope ttlMinutes).setMaximumSessions maximum
  up := fun _ => []
  down := fun _ => []
  now := now
  named := []

def perform (s : Mesh ι) (i : ι) (op : EdgeOp) : Mesh ι :=
  let e := op.perform (s.edge i) s.now
  { s with
    edge := update s.edge i e.manager
    up := update s.up i (s.up i ++ e.calls)
    named := op.ids ++ s.named }

def deliverUp (s : Mesh ι) (i : ι) : Mesh ι :=
  match s.up i with
  | [] => s
  | call :: rest =>
    let e := call.receive s.entity s.now
    { s with
      entity := e.manager
      up := update s.up i rest
      down := fun k => s.down k ++ e.forwarded }

def deliverDown (s : Mesh ι) (i : ι) : Mesh ι :=
  match s.down i with
  | [] => s
  | message :: rest =>
    let e := message.receive (s.edge i) s.now
    { s with edge := update s.edge i e.manager, down := update s.down i rest }

/-- The table of the store, told to an edge that has just connected. -/
def replay (s : Mesh ι) (i : ι) : Mesh ι :=
  let rows := (s.entity.snapshot s.now).map fun row =>
    StoreMessage.sessionUpserted row.id row.scope row.identity row.createdMs
  { s with down := update s.down i (s.down i ++ rows) }

def step (s : Mesh ι) : MeshOp ι → Mesh ι
  | .edge i op => s.perform i op
  | .deliverUp i => s.deliverUp i
  | .deliverDown i => s.deliverDown i
  | .replay i => s.replay i
  | .sweepEntity => { s with entity := (s.entity.purgeExpired s.now).1 }
  | .advance ms => { s with now := s.now + ms }

/-- The generator answers an id nobody has named. -/
def Fresh (s : Mesh ι) : MeshOp ι → Prop
  | .edge _ op => ∀ id ∈ op.fresh, id ≠ [] ∧ id ∉ s.named
  | _ => True

def Quiet (s : Mesh ι) : Prop := (∀ i, s.up i = []) ∧ ∀ i, s.down i = []

end Mesh

namespace StoreMessage
variable {m : SessionManager} {now : Int}

/-- The change makes a difference at `m`, which then announces it in its turn. -/
def Takes (m : SessionManager) : StoreMessage → Prop
  | .sessionUpserted _ _ _ _ => True
  | .sessionRemoved token => (m.sessions.find token).isSome
  | .sessionRotated from_ to_ => m.TakesRotation from_ to_

variable {message : StoreMessage}

theorem forwarded_of_takes (now : Int) (h : message.Takes m) :
    (message.receive m now).forwarded = [message] := by
  cases message with
  | sessionUpserted => rfl
  | sessionRemoved token =>
    obtain ⟨r, hr⟩ := isSome_iff_exists.mp h
    simp [receive, applyRemove, hr, Effect.forwarded, Signal.forwarded]
  | sessionRotated from_ to_ =>
    obtain ⟨h1, h2, h3, h4⟩ := h
    simp [receive, applyRotation, h1, h2, h3, h4, Effect.forwarded, Signal.forwarded]

private theorem forwarded_of_not (h : ¬ message.Takes m) :
    (message.receive m now).forwarded = [] := by
  cases message with
  | sessionUpserted => exact absurd trivial h
  | sessionRemoved token =>
    have hr : m.sessions.find token = none := by simpa [Takes] using h
    simp [receive, applyRemove, hr, Effect.forwarded]
  | sessionRotated from_ to_ =>
    simp [receive, applyRotation_of_not h, Effect.forwarded]

section
variable (message : StoreMessage)

/-- What a manager announces of a change is that change, or nothing. -/
theorem forwarded_sub :
    ∀ x ∈ (message.receive m now).forwarded, x = message := by
  classical
  by_cases h : message.Takes m
  · simp [forwarded_of_takes now h]
  · simp [forwarded_of_not h]

def stores : StoreMessage → Option QByteArray
  | .sessionUpserted token _ _ _ => some token
  | _ => none

@[simp] theorem receive_ttlMs :
    (message.receive m now).manager.ttlMs = m.ttlMs := by
  cases message with
  | sessionUpserted => simp [receive, applyUpsert]
  | sessionRemoved token => exact (applyRemove_within token).ttlMs
  | sessionRotated => simp [receive]

@[simp] theorem receive_remote :
    (message.receive m now).manager.remote = m.remote := by
  cases message with
  | sessionUpserted => simp [receive, applyUpsert]
  | sessionRemoved token => exact (applyRemove_within token).remote
  | sessionRotated => simp [receive]

end

/-- A record held after a change is the one the change stores, or one held before it that
the change does not remove, as old as it was. -/
theorem receive_lookup {x : QByteArray} {r : SessionRecord}
    (h : (message.receive m now).manager.sessions.find x = some r) :
    (∃ scope identity, message = .sessionUpserted x scope identity r.createdMs) ∨
    (message ≠ .sessionRemoved x ∧ ∃ r', m.sessions.find x = some r' ∧ r'.createdMs = r.createdMs) := by
  cases message with
  | sessionUpserted token scope identity createdMs =>
    simp only [receive, applyUpsert, insertRecord_sessions,
      Hash.find_insert] at h
    split at h
    · rename_i hx
      cases h
      subst hx
      exact .inl ⟨scope, identity, rfl⟩
    · exact .inr ⟨by simp, r, h, rfl⟩
  | sessionRemoved token =>
    simp only [receive, applyRemove_lookup] at h
    split at h
    · cases h
    · rename_i hx
      refine .inr ⟨?_, r, h, rfl⟩
      intro he
      cases he
      exact hx rfl
  | sessionRotated from_ to_ =>
    simp only [receive, applyRotation_sessions] at h
    refine .inr ⟨by simp, ?_⟩
    split at h
    · obtain ⟨r', hr', rfl⟩ := map_eq_some_iff.mp h
      exact ⟨r', hr', rfl⟩
    · exact ⟨r, h, rfl⟩

/-- A change that does not store or remove `x` leaves it held or not held. -/
theorem receive_lookup_none (now : Int) (message : StoreMessage) {x : QByteArray}
    (h : m.sessions.find x ≠ none) (hx : message ≠ .sessionRemoved x) :
    (message.receive m now).manager.sessions.find x ≠ none := by
  cases message with
  | sessionUpserted token scope identity createdMs =>
    simp only [receive, applyUpsert, insertRecord_sessions,
      Hash.find_insert]
    split
    · simp
    · exact h
  | sessionRemoved token =>
    have hne : x ≠ token := fun he => hx (by rw [he])
    simpa [receive, applyRemove_lookup, hne] using h
  | sessionRotated from_ to_ =>
    simp only [receive, applyRotation_sessions]
    split
    · simpa using h
    · exact h

end StoreMessage

namespace EdgeOp
variable {m : SessionManager} {now : Int}

theorem perform_settings (m : SessionManager) (now : Int) (op : EdgeOp) :
    (op.perform m now).manager.ttlMs = m.ttlMs ∧ (op.perform m now).manager.remote = m.remote := by
  cases op with
  | createSession inUse fresh scope identity =>
    rcases m.createSession_cases now inUse fresh scope identity with
      ⟨_, hw, _⟩ | ⟨_, kept, _, hw, hm, _⟩
    · exact ⟨hw.ttlMs, hw.remote⟩
    · simp [perform, hm, hw.ttlMs, hw.remote]
  | setScope => exact setScope_settings ..
  | revoke id => exact ⟨(revoke_within id).ttlMs, (revoke_within id).remote⟩
  | sweep => exact ⟨(m.purgeExpired_within now).ttlMs, (m.purgeExpired_within now).remote⟩

theorem perform_lookup {op : EdgeOp} {x : QByteArray} (hx : op.fresh ≠ some x) {r : SessionRecord}
    (h : (op.perform m now).manager.sessions.find x = some r) : m.sessions.find x = some r := by
  cases op with
  | createSession inUse fresh scope identity =>
    have hne : x ≠ fresh := fun he => hx (by rw [he]; rfl)
    rcases m.createSession_cases now inUse fresh scope identity with
      ⟨_, hw, _⟩ | ⟨_, kept, _, hw, hm, _⟩
    · exact hw.sessions x r h
    · simp only [perform, hm, insertRecord_sessions] at h
      exact hw.sessions x r (by simpa [minted, hne] using h)
  | setScope fresh id scope identity handoff =>
    have hne : x ≠ fresh := fun he => hx (by rw [he]; rfl)
    cases hid : m.sessions.find id with
    | none => simpa [perform, setScope_of_none hid] using h
    | some old =>
      have hs := (setScope_of_lookup hid now fresh scope identity handoff).2.1 x
      simp only [perform, hs, if_neg hne] at h
      split at h
      · cases h
      · exact h
  | revoke id => exact (revoke_within id).sessions x r h
  | sweep => exact (m.purgeExpired_within now).sessions x r h

/-- An operation asks the store to keep nothing, or the one record it mints, and that
record is the one the edge now holds. -/
theorem perform_calls (now : Int) (op : EdgeOp) (hr : m.remote) :
    ((∀ x, (op.perform m now).manager.sessions.find x ≠ none → m.sessions.find x ≠ none) ∧
      ∀ call ∈ (op.perform m now).calls, call.change.stores = none) ∨
    ∃ fresh before after record, op.fresh = some fresh ∧
      (op.perform m now).manager.sessions.find fresh = some record ∧ record.id = fresh ∧
      (op.perform m now).calls = before ++ SessionManager.putCall record :: after ∧
      (∀ call ∈ before, call.change.stores = none) ∧ ∀ call ∈ after, call.change.stores = none := by
  cases op with
  | createSession inUse fresh scope identity =>
    rcases m.createSession_cases now inUse fresh scope identity with
      ⟨_, hw, hc⟩ | ⟨_, kept, gone, hw, hm, hc⟩
    · refine .inl ⟨fun x hx => ?_, by simp [perform, hc]⟩
      obtain ⟨r, hr⟩ := ne_none_iff_exists'.mp hx
      simp [hw.sessions x r hr]
    · refine .inr ⟨fresh, gone.map .removeSession, [], m.minted now fresh scope identity, rfl, ?_, rfl, ?_, ?_, by simp⟩
      · simp [perform, hm, SessionManager.minted]
      · simp [perform, hc, SessionManager.storeCalls, hw.remote, hr]
      · intro call hcall
        obtain ⟨id, -, rfl⟩ := List.mem_map.mp hcall
        rfl
  | setScope fresh id scope identity handoff =>
    cases hid : m.sessions.find id with
    | none => exact .inl (by simp [perform, SessionManager.setScope_of_none hid])
    | some old =>
      obtain ⟨_, hs, hc⟩ := SessionManager.setScope_of_lookup hid now fresh scope identity handoff
      refine .inr ⟨fresh, [], (if handoff = .keep then [.rotateSession id fresh] else []) ++ [.removeSession id],
        m.elevated now fresh id old scope identity handoff, rfl, ?_, rfl, ?_, by simp, ?_⟩
      · simp [perform, hs]
      · simp [perform, hc, SessionManager.storeCalls, hr]
      · cases handoff <;> simp [StoreCall.change, StoreMessage.stores]
  | revoke id =>
    refine .inl ⟨fun x hx => ?_, ?_⟩
    · obtain ⟨r, hr⟩ := ne_none_iff_exists'.mp hx
      simp [(SessionManager.revoke_within id).sessions x r hr]
    · simp only [perform, SessionManager.revoke]
      split <;> simp [SessionManager.storeCalls, hr, StoreCall.change, StoreMessage.stores]
  | sweep =>
    refine .inl ⟨fun x hx => ?_, by simp [perform]⟩
    obtain ⟨r, hr⟩ := ne_none_iff_exists'.mp hx
    simp [(m.purgeExpired_within now).sessions x r hr]

end EdgeOp

namespace Mesh
variable {ι : Type u} [DecidableEq ι] {s : Mesh ι}

theorem perform_edge (i k : ι) (op : EdgeOp) : (s.perform i op).edge k =
    if k = i then (op.perform (s.edge i) s.now).manager else s.edge k := by
  simp only [perform, update_apply]

theorem perform_up (i k : ι) (op : EdgeOp) : (s.perform i op).up k =
    if k = i then s.up i ++ (op.perform (s.edge i) s.now).calls else s.up k := by
  simp only [perform, update_apply]

theorem deliverUp_cases (s : Mesh ι) (i : ι) : s.deliverUp i = s ∨
    ∃ call rest, s.up i = call :: rest ∧
      (s.deliverUp i).edge = s.edge ∧ (s.deliverUp i).now = s.now ∧ (s.deliverUp i).named = s.named ∧
      (s.deliverUp i).entity = (call.change.receive s.entity s.now).manager ∧
      (∀ k, (s.deliverUp i).up k = if k = i then rest else s.up k) ∧
      ∀ k, (s.deliverUp i).down k = s.down k ++ (call.change.receive s.entity s.now).forwarded := by
  cases hup : s.up i with
  | nil => exact .inl (by simp [deliverUp, hup])
  | cons call rest =>
    refine .inr ⟨call, rest, rfl, ?_⟩
    simp [deliverUp, hup, StoreCall.receive_eq, update_apply]

theorem deliverDown_cases (s : Mesh ι) (i : ι) : s.deliverDown i = s ∨
    ∃ message rest, s.down i = message :: rest ∧
      (s.deliverDown i).entity = s.entity ∧ (s.deliverDown i).now = s.now ∧
      (s.deliverDown i).named = s.named ∧ (s.deliverDown i).up = s.up ∧
      (∀ k, (s.deliverDown i).edge k =
        if k = i then (message.receive (s.edge i) s.now).manager else s.edge k) ∧
      ∀ k, (s.deliverDown i).down k = if k = i then rest else s.down k := by
  cases hdown : s.down i with
  | nil => exact .inl (by simp [deliverDown, hdown])
  | cons message rest =>
    refine .inr ⟨message, rest, rfl, ?_⟩
    simp [deliverDown, hdown, update_apply]

end Mesh
end SynQt
