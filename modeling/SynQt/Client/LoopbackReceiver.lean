import SynQt.Client.SignOut
import SynQt.Lib.Hash
import SynQt.Lib.Words

/-! The port a native client's sign-in comes back to. Any process of the machine reaches it, and what is claimed is only
what the client asked for. -/
namespace SynQt.Native
open Lib

/-- What a request target carries, each part decoded. -/
structure Landing where
  code : String
  state : String
  error : String

def kMaxRequestBytes : Nat := 8 * 1024

def kMaxConnections : Nat := 8

/-- It listens until it is finished. -/
structure LoopbackReceiver where
  buffers : Hash Nat (List UInt8) := ∅
  finished : Bool := false

/-- What becomes of a socket that has sent something. -/
inductive Read where
  | waiting
  | aborted
  | answered (status : String)
  | received (landing : Landing)

namespace LoopbackReceiver
variable (parse : List UInt8 → Landing)

def onNewConnection (r : LoopbackReceiver) (socket : Nat) (isLoopback : Bool) : LoopbackReceiver :=
  if r.finished || !isLoopback || r.buffers.size ≥ kMaxConnections then r
  else { r with buffers := r.buffers.insert socket [] }

def onDisconnected (r : LoopbackReceiver) (socket : Nat) : LoopbackReceiver := { r with buffers := r.buffers.erase socket }

/-- The target of the request line, if its newline has come. -/
def requestTarget (buffer : List UInt8) : Option (Option (List UInt8)) :=
  if buffer.contains 10 then
    match (trim (fun b => b == 32 || (9 ≤ b && b ≤ 13)) (buffer.takeWhile (· != 10))).splitOn 32 with
    | method :: target :: _ => some (if method = [71, 69, 84] then some target else none)
    | _ => some none
  else none

def finish (r : LoopbackReceiver) (landing : Landing) : LoopbackReceiver × Read :=
  if r.finished then (r, .answered "200 OK") else ({ r with finished := true }, .received landing)

def onReadyRead (r : LoopbackReceiver) (socket : Nat) (bytes : List UInt8) : LoopbackReceiver × Read :=
  match r.buffers.find socket with
  | none => (r, .waiting)
  | some held =>
    if (held ++ bytes).length > kMaxRequestBytes then (r.onDisconnected socket, .aborted)
    else
      let r := { r with buffers := r.buffers.insert socket (held ++ bytes) }
      match requestTarget (held ++ bytes) with
      | none => (r, .waiting)
      | some none => (r, .answered "405 Method Not Allowed")
      | some (some target) =>
        if (parse target).code.isEmpty && (parse target).error.isEmpty then (r, .answered "404 Not Found")
        else r.finish (parse target)

private theorem finished_onNewConnection (r : LoopbackReceiver) (socket : Nat) (isLoopback : Bool) :
    (r.onNewConnection socket isLoopback).finished = r.finished := by
  rw [onNewConnection]
  split <;> rfl

private theorem finished_onReadyRead (r : LoopbackReceiver) (socket : Nat) (bytes : List UInt8) :
    (∃ landing, (r.onReadyRead parse socket bytes).2 = .received landing ∧ r.finished = false ∧
      (r.onReadyRead parse socket bytes).1.finished = true) ∨
    (∀ landing, (r.onReadyRead parse socket bytes).2 ≠ .received landing) ∧
      (r.onReadyRead parse socket bytes).1.finished = r.finished := by
  rw [onReadyRead, onDisconnected]
  cases hopen : r.finished with
  | true => grind [finish]
  | false => grind [finish]

end LoopbackReceiver

namespace SynClient
variable {client client' client'' : SynClient}

def claimed (request : Request) : Option (String × String) :=
  match request.kind with
  | .claim code verifier _ => some (code, verifier)
  | _ => none

def newClaims (client client' : SynClient) : List (String × String) :=
  (client'.requests.filter (· ∉ client.requests)).filterMap claimed

def signIn (client : SynClient) : Bool × String × String := (client.loopback, client.loginState, client.loginVerifier)

/-- The sign-in is left alone or ended, and nothing is claimed. -/
structure Apart (client client' : SynClient) : Prop where
  signIn : client'.signIn = client.signIn ∨ client'.signIn = (false, "", "")
  asks : ∀ request ∈ client'.requests, request ∈ client.requests ∨ claimed request = none

namespace Apart

theorem trans (h : Apart client client') (h' : Apart client' client'') : Apart client client'' where
  signIn := h'.signIn.elim (fun hsame => hsame ▸ h.signIn) .inr
  asks request hin := (h'.asks request hin).elim (h.asks request) .inr

theorem of_same (hsignIn : client'.signIn = client.signIn) (hrequests : client'.requests ⊆ client.requests) : Apart client client' :=
  ⟨.inl hsignIn, fun _ hin => .inl (hrequests hin)⟩

section
variable (client : SynClient)

theorem ended : Apart client client.endDesktopLogin := ⟨.inr rfl, fun _ => .inl⟩

theorem openSession (deed : Deed) : Apart client (client.openSession deed) := by
  simp only [SynClient.openSession, presentOrBootstrap, deviceStore, loadHeld, redeemDeviceCredential,
    bootstrapAnonymousSession, connectToEdge, request]
  constructor <;> grind [SynClient.signIn, claimed]

theorem endSession (deeds : Deeds) : Apart client (client.endSession deeds) := by
  simp only [SynClient.endSession, endDesktopLogin, dropHeld, request]
  constructor <;> grind [SynClient.signIn, claimed]

theorem claimAnswered (n : Nat) (answer : Answer) (deeds : Deeds) :
    Apart client (client.claimAnswered n answer deeds) := by
  simp only [SynClient.claimAnswered, endDesktopLogin, keep, present, connectToEdge]
  constructor <;> grind [SynClient.signIn, claimed]

theorem redeemAnswered (n : Nat) (presented : Held) (answer : Answer) (deeds : Deeds) :
    Apart client (client.redeemAnswered n presented answer deeds) := by
  simp only [SynClient.redeemAnswered, keep, present, dropRefused, dropHeld, presentOrBootstrap,
    bootstrapAnonymousSession, connectToEdge, request]
  constructor <;> grind [SynClient.signIn, claimed]

theorem answered (request : Request) (answer : Answer) (deeds : Deeds) :
    Apart client (client.answered request answer deeds) := by
  have htake : Apart client (client.take request answer) := of_same rfl (List.filter_subset_self _)
  refine htake.trans ?_
  simp only [SynClient.answered]
  cases request.kind with
  | claim => exact claimAnswered ..
  | redeem => exact redeemAnswered ..
  | bootstrap => exact of_same rfl (List.Subset.refl _)
  | logout =>
    have hdropped (client : SynClient) : Apart client { client with sessionCookie := [], configCookie := [] } :=
      of_same rfl (List.Subset.refl _)
    exact (hdropped _).trans (openSession ..)

end

end Apart

/-- What the visitor's login and the port have no part in. -/
def Elsewhere : Event → Bool
  | .login .. | .loopbackAnswer .. | .loginTimeout => false
  | _ => true

private theorem apart_step (client : SynClient) {event : Event} (hevent : Elsewhere event = true) (deeds : Deeds) :
    Apart client (client.step (event, deeds)) := by
  have hsame (client' : SynClient) (hsignIn : client'.signIn = client.signIn) (hrequests : client'.requests = client.requests) :
      Apart client client' := .of_same hsignIn (hrequests ▸ List.Subset.refl _)
  cases event with
  | login | loopbackAnswer | loginTimeout => exact absurd hevent Bool.false_ne_true
  | start => exact .openSession ..
  | logout => exact .endSession ..
  | elapse => exact hsame _ rfl rfl
  | reconnect =>
    simp only [step, start]
    split
    · exact (hsame { client with reconnectTimer := none } rfl rfl).trans (.openSession ..)
    · exact hsame client rfl rfl
  | connected | handshakeTimeout | disconnected =>
    simp only [step, onConnected, onDisconnected, scheduleReconnect]
    constructor <;> grind [SynClient.signIn]
  | reply n answer =>
    simp only [step]
    split
    · exact .answered ..
    · exact hsame client rfl rfl

private theorem newClaims_eq_nil (h : ∀ request ∈ client'.requests, request ∈ client.requests ∨ claimed request = none) :
    client.newClaims client' = [] := by
  refine List.filterMap_eq_nil_iff.mpr fun request hin => ?_
  rw [List.mem_filter, decide_eq_true_eq] at hin
  exact (h request hin.1).resolve_left hin.2

/-- An answer that is not the client's own ends the sign-in, and its own is claimed with the verifier of the attempt. -/
theorem onLoginAnswer_cases (h : Inv client) (landing : Landing) :
    let client' := client.onLoginAnswer landing.code landing.state landing.error
    if landing.state = client.loginState ∧ landing.error = "" ∧ landing.code ≠ "" then
      client'.loopback = client.loopback ∧ client'.loginState = client.loginState ∧
        client.newClaims client' = [(landing.code, client.loginVerifier)]
    else client' = client.endDesktopLogin := by
  intro client'
  split
  · next hown =>
    have hclaim : client' = client.claimSession landing.code := by grind [onLoginAnswer, String.isEmpty_iff]
    obtain ⟨enrolment, hrequests, hfields⟩ : ∃ enrolment, client'.requests =
          client.requests ++ [⟨client.made, .claim landing.code client.loginVerifier enrolment, client.endings⟩] ∧
        client'.loopback = client.loopback ∧ client'.loginState = client.loginState := by
      rw [hclaim, claimSession, deviceStore]
      split <;> exact ⟨_, rfl, rfl, rfl⟩
    have hnew (enrolment : Option (String × String)) :
        ⟨client.made, .claim landing.code client.loginVerifier enrolment, client.endings⟩ ∉ client.requests :=
      fun hin => Nat.lt_irrefl _ (h.below _ hin)
    exact ⟨hfields.1, hfields.2, by simp [SynClient.newClaims, hrequests, hnew, claimed]⟩
  · grind [onLoginAnswer, String.isEmpty_iff]

end SynClient

/-- A sign-in: the secrets drawn for it, and what its port reported. -/
structure Attempt where
  state : String
  verifier : String
  reported : List Landing := []

/-- What may be claimed of it: the code of an answer that carries its state, with its verifier. -/
def Attempt.claims (attempt : Attempt) : List (String × String) :=
  (attempt.reported.filter fun landing => landing.state = attempt.state ∧ landing.error = "" ∧ landing.code ≠ "").map
    fun landing => (landing.code, attempt.verifier)

/-- The client, with the receiver it has while it waits, and every attempt and all that was claimed, the latest first. -/
structure SignIn where
  client : SynClient
  receiver : LoopbackReceiver := {}
  attempts : List Attempt := []
  claimed : List (String × String) := []

inductive SignInEvent where
  | login (listens : Bool) (loginState loginVerifier : String)
  | connected (socket : Nat) (isLoopback : Bool)
  | readyRead (socket : Nat) (bytes : List UInt8)
  | disconnected (socket : Nat)
  | timeout
  | elsewhere (event : SynClient.Event) (deeds : Deeds)

namespace SignIn
variable (parse : List UInt8 → Landing) {s : SignIn}

def moves (s : SignIn) (client : SynClient) : SignIn :=
  { s with client := client, claimed := s.client.newClaims client ++ s.claimed }

def reported (s : SignIn) (receiver : LoopbackReceiver) : Read → SignIn
  | .received landing =>
    { s with
      receiver := receiver
      attempts := s.attempts.modifyHead fun attempt => { attempt with reported := attempt.reported ++ [landing] } }.moves
        (s.client.onLoginAnswer landing.code landing.state landing.error)
  | _ => { s with receiver := receiver }

def step (s : SignIn) : SignInEvent → SignIn
  | .login listens loginState loginVerifier =>
    let client := s.client.beginLogin listens loginState loginVerifier
    if client.loopback && !s.client.loopback then
      { s.moves client with receiver := {}, attempts := ⟨loginState, loginVerifier, []⟩ :: s.attempts }
    else s.moves client
  | .connected socket isLoopback =>
    if s.client.loopback then { s with receiver := s.receiver.onNewConnection socket isLoopback } else s
  | .disconnected socket => if s.client.loopback then { s with receiver := s.receiver.onDisconnected socket } else s
  | .readyRead socket bytes =>
    if s.client.loopback then
      s.reported (s.receiver.onReadyRead parse socket bytes).1 (s.receiver.onReadyRead parse socket bytes).2
    else s
  | .timeout => if s.client.loopback && !s.receiver.finished then s.moves s.client.endDesktopLogin else s
  | .elsewhere event deeds => if SynClient.Elsewhere event then s.moves (s.client.step (event, deeds)) else s

/-- The client waits for the latest attempt, which has its verifier until the port has reported something. -/
structure Kept (s : SignIn) : Prop where
  inv : SynClient.Inv s.client
  current : s.client.loopback = true → ∃ attempt earlier, s.attempts = attempt :: earlier ∧
    s.client.loginState = attempt.state ∧
    (s.receiver.finished = false → s.client.loginVerifier = attempt.verifier ∧ attempt.reported = [])
  claims : s.claimed = s.attempts.flatMap Attempt.claims
  once : ∀ attempt ∈ s.attempts, attempt.reported.length ≤ 1

theorem Kept.receiver (h : Kept s) {receiver : LoopbackReceiver} (hfinished : receiver.finished = s.receiver.finished) :
    Kept { s with receiver := receiver } :=
  ⟨h.inv, fun hon => hfinished ▸ h.current hon, h.claims, h.once⟩

theorem Kept.moves (h : Kept s) {client : SynClient} (hapart : SynClient.Apart s.client client) (hinv : SynClient.Inv client) :
    Kept (s.moves client) := by
  refine ⟨hinv, fun hon => ?_, ?_, h.once⟩
  · have hsame : client.signIn = s.client.signIn := by
      refine hapart.signIn.resolve_right fun hended => ?_
      exact absurd (hon.symm.trans (congrArg Prod.fst hended)) (by decide)
    obtain ⟨hloopback, hstate, hverifier⟩ : client.loopback = s.client.loopback ∧ client.loginState = s.client.loginState ∧
        client.loginVerifier = s.client.loginVerifier := by simpa [SynClient.signIn] using hsame
    dsimp only [SignIn.moves]
    rw [hstate, hverifier]
    exact h.current (hloopback.symm.trans hon)
  · rw [SignIn.moves, SynClient.newClaims_eq_nil hapart.asks]
    exact h.claims

/-- The first answer settles an attempt, whatever it carries. -/
theorem Kept.reported (h : Kept s) {receiver : LoopbackReceiver} (hon : s.client.loopback = true)
    (hopen : s.receiver.finished = false) (hfinished : receiver.finished = true) (landing : Landing) :
    Kept (s.reported receiver (.received landing)) := by
  obtain ⟨attempt, earlier, hattempts, hstate, hcurrent⟩ := h.current hon
  obtain ⟨hverifier, hfirst⟩ := hcurrent hopen
  have hinv : SynClient.Inv (s.client.onLoginAnswer landing.code landing.state landing.error) :=
    h.inv.moves (b := none) (.onLoginAnswer ..) fun _ hnone => absurd hnone.symm (Option.some_ne_none _)
  have hcases := SynClient.onLoginAnswer_cases h.inv landing
  have hclaims := h.claims
  have honce := h.once
  rw [hattempts] at hclaims honce
  rw [hstate, hverifier] at hcases
  rw [SignIn.reported, hattempts, List.modifyHead_cons, hfirst, List.nil_append]
  dsimp only [SignIn.moves]
  refine ⟨hinv, fun hstill => ⟨_, earlier, rfl, ?_, fun hnot => ?_⟩, ?_, by simpa [hfirst] using honce⟩
  · split at hcases
    · exact hcases.2.1
    · rw [hcases] at hstill
      cases hstill
  · exact absurd (hfinished.symm.trans hnot) (by decide)
  · have hearlier : s.claimed = earlier.flatMap Attempt.claims := by simpa [Attempt.claims, hfirst] using hclaims
    split at hcases
    · next hown =>
      rw [hcases.2.2, hearlier]
      simp [Attempt.claims, hown]
    · next hown =>
      rw [hcases, SynClient.newClaims_eq_nil (SynClient.Apart.ended _).asks, hearlier]
      simp [Attempt.claims, hown]

theorem Kept.step (h : Kept s) (event : SignInEvent) : Kept (s.step parse event) := by
  cases event with
  | login listens loginState loginVerifier =>
    have hstays : Kept (s.moves s.client) := h.moves (.of_same rfl (List.Subset.refl _)) h.inv
    rw [SignIn.step]
    unfold SynClient.beginLogin
    split
    · simpa using hstays
    · next hbegun =>
      have hidle : s.client.loopback = false := by simp at hbegun; exact hbegun.1.2
      have hinv : SynClient.Inv { s.client with loopback := true, loginState := loginState, loginVerifier := loginVerifier } :=
        h.inv.moves (b := none) (.of_same rfl rfl rfl rfl rfl rfl rfl) fun _ hnone => (by cases hnone)
      simp only [hidle, Bool.not_false, Bool.and_self, if_true]
      refine ⟨hinv, fun _ => ⟨_, _, rfl, rfl, fun _ => ⟨rfl, rfl⟩⟩, ?_, by simpa using h.once⟩
      have hnone : (s.client.requests.filter fun request => !decide (request ∈ s.client.requests)) = [] := by
        simp [List.filter_eq_nil_iff]
      simpa [SignIn.moves, SynClient.newClaims, Attempt.claims, hnone] using h.claims
  | connected socket isLoopback =>
    rw [SignIn.step]
    split
    · exact h.receiver (s.receiver.finished_onNewConnection socket isLoopback)
    · exact h
  | disconnected socket =>
    rw [SignIn.step]
    split
    · exact h.receiver rfl
    · exact h
  | readyRead socket bytes =>
    rw [SignIn.step]
    split
    · next hon =>
      rcases s.receiver.finished_onReadyRead parse socket bytes with ⟨landing, hread, hopen, hfinished⟩ | ⟨hread, hfinished⟩
      · rw [hread]
        exact h.reported hon hopen hfinished landing
      · have hsilent : s.reported (s.receiver.onReadyRead parse socket bytes).1 (s.receiver.onReadyRead parse socket bytes).2 =
            { s with receiver := (s.receiver.onReadyRead parse socket bytes).1 } := by
          rw [SignIn.reported]
          exact hread
        rw [hsilent]
        exact h.receiver hfinished
    · exact h
  | timeout =>
    rw [SignIn.step]
    split
    · exact h.moves (.ended _) (h.inv.moves (b := none) (.of_same rfl rfl rfl rfl rfl rfl rfl) fun _ hnone => (by cases hnone))
    · exact h
  | elsewhere event deeds =>
    rw [SignIn.step]
    split
    · next hevent => exact h.moves (SynClient.apart_step _ hevent deeds) (SynClient.step_inv h.inv _)
    · exact h

/-- Whatever reaches the port and whenever the visitor signs in or out, what is claimed is exactly, of each attempt, the
code of the one answer its port reported, where that carries its state and no error, with its own verifier. -/
theorem claimed_is_asked (config : Config) (configCookie : List (String × String)) (device : DeviceCredential)
    (events : List SignInEvent) :
    let s := run (step parse) { client := .make config configCookie device } events
    s.claimed = s.attempts.flatMap Attempt.claims ∧ ∀ attempt ∈ s.attempts, attempt.reported.length ≤ 1 := by
  intro s
  have hkept : Kept s := run_invariant Kept (fun _ event h => h.step parse event)
    ⟨SynClient.make_inv config configCookie device, fun hon => (by cases hon), rfl, fun _ hin => (by cases hin)⟩ events
  exact ⟨hkept.claims, hkept.once⟩

end SignIn
end SynQt.Native
