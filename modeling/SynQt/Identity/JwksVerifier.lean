import SynQt.Identity.OAuthBackend

/-! Verifying ID tokens against a provider's published keys: the key sets held, the fetches
waiting on the network, and how often a token may ask for one. -/
namespace SynQt
open Lib List

namespace JwksVerifier

def kMinRefetchMs : Int := 5 * 60 * 1000

def kMaxConcurrentFetches : Nat := 16

/-- A JSON object of strings, which is all that is read of a header or a key. -/
abbrev QJsonObject := List (QString × QString)

def value (object : QJsonObject) (name : QString) : QString := (object.lookup name).getD ""

structure CachedJwks where
  keys : List QJsonObject
  fetchedMs : Int
deriving DecidableEq

/-- How a fetch ends: walked out on, refused for its size, failed, or with a body. A body
without a `keys` array is one without keys. -/
inductive FetchOutcome where
  | timedOut
  | tooLarge
  | failed (errorString : QString)
  | body (keys : List QJsonObject)
deriving DecidableEq

structure Fetch where
  url : QUrl
  force : Bool
  kid : QString
deriving DecidableEq

/-- What a verification is told: an error, or the key its signature is checked with. -/
inductive VerifyAnswer where
  | error (text : QString)
  | check (jwk : QJsonObject)
deriving DecidableEq

/-- The key whose kid matches, or the sole key when the token carries none. -/
def selectKey (keys : List QJsonObject) (kid : QString) : QJsonObject :=
  if kid.isEmpty then
    match keys with
    | [key] => key
    | _ => []
  else (keys.find? fun key => value key "kid" == kid).getD []

def missingKey (kid : QString) : QString :=
  if kid.isEmpty then
    "the ID token names no signing key and the provider publishes more than one, so which key signed it cannot be told"
  else "no signing key in the JWKS matches this ID token's kid"

end JwksVerifier

/-- The verifier, its replies still out, and all it ever asked of the network, with the time. -/
structure JwksVerifier where
  jwksCache : Hash QUrl JwksVerifier.CachedJwks := ∅
  fetching : Nat := 0
  replies : List JwksVerifier.Fetch := []
  requests : List (Int × JwksVerifier.Fetch) := []

namespace JwksVerifier

/-- Whether the key set is on hand. `none` is the case where a fetch goes out. -/
def onHand (v : JwksVerifier) (now : Int) (jwksUrl : QUrl) (force : Bool) : Option (Bool × QString) :=
  let held := match v.jwksCache.find jwksUrl with
    | none => false
    | some cached => !force || decide (now - cached.fetchedMs < kMinRefetchMs)
  if held then some (!force, "")
  else if !isSecureIdentityEndpoint jwksUrl then some (false, "refusing to fetch JWKS over a plaintext connection")
  else if v.fetching ≥ kMaxConcurrentFetches then some (false, "too many JWKS fetches are already waiting")
  else none

def sendOff (v : JwksVerifier) (now : Int) (fetch : Fetch) : JwksVerifier :=
  { v with fetching := v.fetching + 1, replies := v.replies ++ [fetch], requests := v.requests ++ [(now, fetch)] }

/-- What a verification reads in the set it has; nothing when no set is held. -/
def selected (v : JwksVerifier) (jwksUrl : QUrl) (kid : QString) : QJsonObject :=
  selectKey (((v.jwksCache.find jwksUrl).map (·.keys)).getD []) kid

/-- With a set on hand: its key, or one more fetch and then its key, or none. -/
def lookUp (v : JwksVerifier) (now : Int) (jwksUrl : QUrl) (kid : QString) : JwksVerifier × Option VerifyAnswer :=
  let jwk := v.selected jwksUrl kid
  if !jwk.isEmpty then (v, some (.check jwk))
  else
    match v.onHand now jwksUrl true with
    | some _ => (v, some (.error (missingKey kid)))
    | none => (v.sendOff now ⟨jwksUrl, true, kid⟩, none)

/-- The kid of a token that may be verified at all. `jsonSegment` decodes one of its segments. -/
def kidOf (jsonSegment : QString → QJsonObject) (idToken : QString) : Except QString QString :=
  match (idToken.toList.splitOn '.').map String.ofList with
  | [headerPart, payload, signature] =>
    if headerPart.isEmpty || payload.isEmpty || signature.isEmpty then .error "malformed ID token"
    else
      let header := jsonSegment headerPart
      if value header "alg" != "RS256" then .error "unsupported ID-token algorithm"
      else .ok (value header "kid")
  | _ => .error "malformed ID token"

def verifyAsync (v : JwksVerifier) (jsonSegment : QString → QJsonObject) (now : Int) (idToken : QString)
    (jwksUrl : QUrl) : JwksVerifier × Option VerifyAnswer :=
  match kidOf jsonSegment idToken with
  | .error text => (v, some (.error text))
  | .ok kid =>
    match v.onHand now jwksUrl false with
    | some (true, _) => v.lookUp now jwksUrl kid
    | some (false, error) => (v, some (.error error))
    | none => (v.sendOff now ⟨jwksUrl, false, kid⟩, none)

def FetchOutcome.error : FetchOutcome → Option QString
  | .timedOut => some "JWKS fetch timed out"
  | .tooLarge => some "JWKS response is larger than a key set can be"
  | .failed errorString => some ("JWKS fetch failed: " ++ errorString)
  | .body keys => if keys.isEmpty then some "JWKS response carried no keys" else none

def FetchOutcome.keys : FetchOutcome → List QJsonObject
  | .body keys => keys
  | _ => []

def finished (v : JwksVerifier) (now : Int) (index : Nat) (outcome : FetchOutcome) :
    JwksVerifier × Option VerifyAnswer :=
  match v.replies[index]? with
  | none => (v, none)
  | some fetch =>
    let v := { v with fetching := v.fetching - 1, replies := v.replies.eraseIdx index }
    match outcome.error with
    | some error => (v, some (.error (if fetch.force then missingKey fetch.kid else error)))
    | none =>
      let v := { v with jwksCache := v.jwksCache.insert fetch.url ⟨outcome.keys, now⟩ }
      if fetch.force then
        let again := v.selected fetch.url fetch.kid
        (v, some (if again.isEmpty then .error (missingKey fetch.kid) else .check again))
      else v.lookUp now fetch.url fetch.kid

end JwksVerifier

structure JwksRun where
  verifier : JwksVerifier := {}
  now : Int

inductive JwksCall where
  | verify (idToken : QString) (jwksUrl : QUrl)
  | finished (index : Nat) (outcome : JwksVerifier.FetchOutcome)
  | advance (ms : Nat)
deriving DecidableEq

namespace JwksRun
open JwksVerifier
variable {jsonSegment : QString → QJsonObject} {s : JwksRun} {call : JwksCall}

def step (jsonSegment : QString → QJsonObject) (s : JwksRun) : JwksCall → JwksRun
  | .verify idToken jwksUrl =>
    { s with verifier := (s.verifier.verifyAsync jsonSegment s.now idToken jwksUrl).1 }
  | .finished index outcome => { s with verifier := (s.verifier.finished s.now index outcome).1 }
  | .advance ms => { s with now := s.now + ms }

/-- The promise: fetches of one URL that tokens forced start the floor apart, and the count is
of the fetches outstanding and within its ceiling. -/
structure Lawful (s : JwksRun) : Prop where
  floored : s.verifier.requests.Pairwise fun r r' =>
    r.2.force = true → r'.2.force = true → r.2.url = r'.2.url → kMinRefetchMs ≤ r'.1 - r.1
  counted : s.verifier.fetching = s.verifier.replies.length
  ceiling : s.verifier.fetching ≤ kMaxConcurrentFetches

/-- A token names a key the held set lacks, less than the floor after a token forced a fetch of
that URL: only once some fetch of it has succeeded since, or with no room for another. -/
def Settled (jsonSegment : QString → QJsonObject) (s : JwksRun) : JwksCall → Prop
  | .verify idToken jwksUrl => ∀ kid, kidOf jsonSegment idToken = .ok kid →
      ∀ cached, s.verifier.jwksCache.find jwksUrl = some cached → selectKey cached.keys kid = [] →
      ∀ r ∈ s.verifier.requests, r.2.force = true → r.2.url = jwksUrl → s.now - r.1 < kMinRefetchMs →
        r.1 ≤ cached.fetchedMs ∨ kMaxConcurrentFetches ≤ s.verifier.fetching
  | _ => True

/-- The invariant. A forced fetch went out when the set then held was past the floor, and the
set is only replaced by a later one. -/
structure Inv (s : JwksRun) : Prop where
  counted : s.verifier.fetching = s.verifier.replies.length
  ceiling : s.verifier.fetching ≤ kMaxConcurrentFetches
  past : ∀ r ∈ s.verifier.requests, r.1 ≤ s.now
  secure : ∀ url cached, s.verifier.jwksCache.find url = some cached → isSecureIdentityEndpoint url = true
  secureOut : ∀ fetch ∈ s.verifier.replies, isSecureIdentityEndpoint fetch.url = true
  since : ∀ r ∈ s.verifier.requests, r.2.force = true →
    ∀ cached, s.verifier.jwksCache.find r.2.url = some cached →
      r.1 ≤ cached.fetchedMs ∨ cached.fetchedMs + kMinRefetchMs ≤ r.1

variable (v : JwksVerifier)

private theorem onHand_none (now : Int) (url : QUrl) (force : Bool) (h : v.onHand now url force = none) :
    (∀ cached, v.jwksCache.find url = some cached → force = true ∧ kMinRefetchMs ≤ now - cached.fetchedMs) ∧
    isSecureIdentityEndpoint url = true ∧ v.fetching < kMaxConcurrentFetches := by
  rw [onHand] at h
  generalize hheld : (match v.jwksCache.find url with
    | none => false
    | some cached => !force || decide (now - cached.fetchedMs < kMinRefetchMs)) = held at h
  split at h
  · cases h
  · rename_i hfree
    rw [(Bool.not_eq_true _).mp hfree] at hheld
    split at h
    · cases h
    · rename_i hsecure
      split at h
      · cases h
      · rename_i hroom
        refine ⟨fun cached hcached => ?_, by simpa using hsecure, Nat.not_le.mp hroom⟩
        rw [hcached] at hheld
        simpa using hheld

private theorem onHand_held (now : Int) (url : QUrl) {cached : CachedJwks}
    (h : v.jwksCache.find url = some cached) : v.onHand now url false = some (true, "") := by
  rw [onHand, h]
  rfl

private theorem onHand_unheld (now : Int) (url : QUrl) (h : v.jwksCache.find url = none) :
    v.onHand now url false = none ∨ ∃ error, v.onHand now url false = some (false, error) := by
  rw [onHand, h]
  simp only [Bool.false_eq_true, if_false]
  split
  · exact .inr ⟨_, rfl⟩
  · split
    · exact .inr ⟨_, rfl⟩
    · exact .inl rfl

private theorem lookUp_cases (now : Int) (url : QUrl) (kid : QString) {cached : CachedJwks}
    (hcached : v.jwksCache.find url = some cached) :
    ((v.lookUp now url kid).1 = v ∧
      (selectKey cached.keys kid = [] → v.onHand now url true ≠ none)) ∨
    ((v.lookUp now url kid).1 = v.sendOff now ⟨url, true, kid⟩ ∧ selectKey cached.keys kid = [] ∧
      v.onHand now url true = none) := by
  have hselected : v.selected url kid = selectKey cached.keys kid := by
    rw [selected, hcached]
    rfl
  rw [lookUp, hselected]
  split
  · rename_i hfound
    left
    refine ⟨rfl, fun hnone => ?_⟩
    rw [hnone] at hfound
    cases hfound
  · rename_i hlacks
    have hnone : selectKey cached.keys kid = [] := by simpa using hlacks
    cases hask : v.onHand now url true with
    | none => exact .inr ⟨rfl, hnone, rfl⟩
    | some answer => exact .inl ⟨rfl, fun _ heq => by cases heq⟩

private theorem verify_cases (v : JwksVerifier) (now : Int) (idToken : QString) (url : QUrl) :
    ((v.verifyAsync jsonSegment now idToken url).1 = v ∧
      ∀ kid, kidOf jsonSegment idToken = .ok kid → ∀ cached, v.jwksCache.find url = some cached →
        selectKey cached.keys kid = [] → v.onHand now url true ≠ none) ∨
    (∃ kid, (v.verifyAsync jsonSegment now idToken url).1 = v.sendOff now ⟨url, false, kid⟩ ∧
      v.jwksCache.find url = none ∧ v.onHand now url false = none) ∨
    ∃ kid cached, (v.verifyAsync jsonSegment now idToken url).1 = v.sendOff now ⟨url, true, kid⟩ ∧
      kidOf jsonSegment idToken = .ok kid ∧ v.jwksCache.find url = some cached ∧
      selectKey cached.keys kid = [] ∧ v.onHand now url true = none := by
  rw [verifyAsync]
  cases hkid : kidOf jsonSegment idToken with
  | error text => exact .inl ⟨rfl, fun kid heq => by cases heq⟩
  | ok kid =>
    cases hcached : v.jwksCache.find url with
    | some cached =>
      simp only [onHand_held v now url hcached]
      rcases lookUp_cases v now url kid hcached with ⟨hsame, hrefused⟩ | ⟨hsent, hlacks, hask⟩
      · refine .inl ⟨hsame, fun kid' heq cached' heq' => ?_⟩
        cases heq
        cases heq'
        exact hrefused
      · exact .inr (.inr ⟨kid, cached, hsent, rfl, rfl, hlacks, hask⟩)
    | none =>
      rcases onHand_unheld v now url hcached with hask | ⟨error, hask⟩
      · rw [hask]
        exact .inr (.inl ⟨kid, rfl, rfl, rfl⟩)
      · rw [hask]
        exact .inl ⟨rfl, fun _ _ _ heq => by cases heq⟩

theorem finished_cases (now : Int) (index : Nat) (outcome : FetchOutcome) :
    (v.finished now index outcome).1 = v ∨
    ∃ fetch, v.replies[index]? = some fetch ∧
      ((v.finished now index outcome).1 =
          { v with fetching := v.fetching - 1, replies := v.replies.eraseIdx index } ∨
        (v.finished now index outcome).1 =
          { v with
            fetching := v.fetching - 1
            replies := v.replies.eraseIdx index
            jwksCache := v.jwksCache.insert fetch.url ⟨outcome.keys, now⟩ }) := by
  rw [finished]
  cases hfetch : v.replies[index]? with
  | none => exact .inl rfl
  | some fetch =>
    right
    refine ⟨fetch, rfl, ?_⟩
    cases outcome.error with
    | some error => exact .inl rfl
    | none =>
      right
      simp only
      split
      · rfl
      · set held : JwksVerifier :=
          { v with
            fetching := v.fetching - 1
            replies := v.replies.eraseIdx index
            jwksCache := v.jwksCache.insert fetch.url ⟨outcome.keys, now⟩ } with hheld
        have hcached : held.jwksCache.find fetch.url = some ⟨outcome.keys, now⟩ := by
          rw [hheld, Hash.find_insert, if_pos rfl]
        rcases lookUp_cases held now fetch.url fetch.kid hcached with ⟨hsame, -⟩ | ⟨-, -, hask⟩
        · exact hsame
        · have hfloor := ((onHand_none held now fetch.url true hask).1 _ hcached).2
          have hpositive : (0 : Int) < kMinRefetchMs := by decide
          simp only at hfloor
          omega

theorem Inv.sendOff (h : Inv s) (url : QUrl) (force : Bool) (kid : QString)
    (hask : s.verifier.onHand s.now url force = none) :
    Inv { s with verifier := s.verifier.sendOff s.now ⟨url, force, kid⟩ } := by
  obtain ⟨hfloor, hsecure, hroom⟩ := onHand_none _ _ _ _ hask
  constructor
  case counted =>
    show s.verifier.fetching + 1 = (s.verifier.replies ++ [_]).length
    rw [length_append, length_singleton, h.counted]
  case ceiling => exact hroom
  case past =>
    intro r hr
    rcases mem_append.mp hr with hold | hnew
    · exact h.past r hold
    · obtain rfl := mem_singleton.mp hnew
      exact Int.le_refl _
  case secure => exact h.secure
  case secureOut =>
    intro fetch hfetch
    rcases mem_append.mp hfetch with hold | hnew
    · exact h.secureOut fetch hold
    · rw [mem_singleton.mp hnew]
      exact hsecure
  case since =>
    intro r hr hforce cached hcached
    rcases mem_append.mp hr with hold | hnew
    · exact h.since r hold hforce cached hcached
    · rw [mem_singleton.mp hnew] at hcached ⊢
      have hpast := (hfloor cached hcached).2
      right
      show _ ≤ s.now
      omega

theorem Inv.finished (h : Inv s) (index : Nat) (outcome : FetchOutcome) :
    Inv (s.step jsonSegment (.finished index outcome)) := by
  rw [step]
  rcases finished_cases s.verifier s.now index outcome with hsame | ⟨fetch, hfetch, hdone⟩
  · rw [hsame]
    exact h
  · have hindex := (List.getElem?_eq_some_iff.mp hfetch).1
    have hout : ∀ other ∈ s.verifier.replies.eraseIdx index, isSecureIdentityEndpoint other.url = true :=
      fun other hother => h.secureOut other ((eraseIdx_sublist _ _).subset hother)
    have hcount : s.verifier.fetching - 1 = (s.verifier.replies.eraseIdx index).length := by
      rw [length_eraseIdx_of_lt hindex, h.counted]
    have hless : s.verifier.fetching - 1 ≤ kMaxConcurrentFetches :=
      Nat.le_trans (Nat.sub_le _ _) h.ceiling
    rcases hdone with hdone | hdone
    · rw [hdone]
      exact ⟨hcount, hless, h.past, h.secure, hout, h.since⟩
    · rw [hdone]
      refine ⟨hcount, hless, h.past, fun url cached hcached => ?_, hout, fun r hr hforce cached hcached => ?_⟩
      · rw [Hash.find_insert] at hcached
        split at hcached
        · rename_i heq
          rw [heq]
          exact h.secureOut fetch (mem_of_getElem? hfetch)
        · exact h.secure url cached hcached
      · rw [Hash.find_insert] at hcached
        split at hcached
        · cases hcached
          exact .inl (h.past r hr)
        · exact h.since r hr hforce cached hcached

theorem Inv.step (h : Inv s) (call : JwksCall) : Inv (s.step jsonSegment call) := by
  cases call with
  | verify idToken url =>
    rw [JwksRun.step]
    rcases @verify_cases jsonSegment s.verifier s.now idToken url with
      ⟨hsame, -⟩ | ⟨kid, hsent, -, hask⟩ | ⟨kid, cached, hsent, -, -, -, hask⟩
    · rw [hsame]
      exact h
    · rw [hsent]
      exact h.sendOff url false kid hask
    · rw [hsent]
      exact h.sendOff url true kid hask
  | finished index outcome => exact h.finished index outcome
  | advance ms =>
    refine ⟨h.counted, h.ceiling, fun r hr => ?_, h.secure, h.secureOut, h.since⟩
    have hpast := h.past r hr
    show r.1 ≤ s.now + ms
    omega

theorem inv_start (now : Int) : Inv { now := now } := by
  refine ⟨rfl, Nat.zero_le _, fun r hr => ?_, fun url cached hcached => ?_, fun f hf => ?_, fun r hr => ?_⟩
  · cases hr
  · have hnone : (∅ : Hash QUrl CachedJwks).find url = none := Hash.find_empty url
    rw [hnone] at hcached
    cases hcached
  · cases hf
  · cases hr

def Floored (s : JwksRun) : Prop :=
  s.verifier.requests.Pairwise fun r r' =>
    r.2.force = true → r'.2.force = true → r.2.url = r'.2.url → kMinRefetchMs ≤ r'.1 - r.1

private theorem floored_sendOff (s : JwksRun) (fetch : Fetch) :
    Floored { s with verifier := s.verifier.sendOff s.now fetch } ↔
      Floored s ∧ ∀ r ∈ s.verifier.requests, r.2.force = true → fetch.force = true → r.2.url = fetch.url →
        kMinRefetchMs ≤ s.now - r.1 := by
  rw [Floored, Floored, JwksVerifier.sendOff, pairwise_append]
  constructor
  · rintro ⟨hold, -, hnew⟩
    exact ⟨hold, fun r hr => hnew r hr _ (mem_singleton_self _)⟩
  · rintro ⟨hold, hnew⟩
    refine ⟨hold, pairwise_singleton _ _, fun r hr r' hr' => ?_⟩
    rw [mem_singleton.mp hr']
    exact hnew r hr

theorem floored_step (h : Inv s) (call : JwksCall) :
    Floored (s.step jsonSegment call) ↔ Floored s ∧ s.Settled jsonSegment call := by
  cases call with
  | verify idToken url =>
    rw [JwksRun.step]
    rcases @verify_cases jsonSegment s.verifier s.now idToken url with
      ⟨hsame, hrefused⟩ | ⟨kid, hsent, hnone, -⟩ | ⟨kid, cached, hsent, hkid, hcached, hlacks, hask⟩
    · -- nothing is sent: the floor or the ceiling refused it
      rw [hsame]
      refine (and_iff_left fun kid hkid cached hcached hlacks r hr hforce hurl hrecent => ?_).symm
      by_contra hnot
      rw [not_or, Nat.not_le] at hnot
      apply hrefused kid hkid cached hcached hlacks
      have hpast : ¬ s.now - cached.fetchedMs < kMinRefetchMs := by
        rcases h.since r hr hforce cached (hurl ▸ hcached) with hsince | hbefore
        · exact absurd hsince hnot.1
        · have hnow := h.past r hr
          omega
      rw [onHand, hcached]
      simp [hpast, h.secure url cached hcached, Nat.not_le.mpr hnot.2]
    · rw [hsent, floored_sendOff]
      refine and_congr_right fun _ => iff_of_true (fun _ _ _ hforce => by cases hforce) ?_
      intro kid' _ cached hcached
      rw [hnone] at hcached
      cases hcached
    · rw [hsent, floored_sendOff]
      obtain ⟨hfloor, -, hroom⟩ := onHand_none _ _ _ _ hask
      have hpast := (hfloor cached hcached).2
      refine and_congr_right fun _ => ⟨fun hnew => ?_, fun hsettled r hr hforce _ hurl => ?_⟩
      · intro kid' _ cached' _ _ r hr hforce hurl hrecent
        have hapart := hnew r hr hforce rfl hurl
        omega
      · by_contra hrecent
        rcases hsettled kid hkid cached hcached hlacks r hr hforce hurl (Int.not_le.mp hrecent) with hsince | hfull
        · omega
        · omega
  | finished index outcome =>
    rw [JwksRun.step]
    refine Iff.trans ?_ (and_iff_left trivial).symm
    rcases finished_cases s.verifier s.now index outcome with hsame | ⟨fetch, -, hdone | hdone⟩
    · rw [hsame]
    · rw [hdone, Floored, Floored]
    · rw [hdone, Floored, Floored]
  | advance ms => exact (and_iff_left trivial).symm

private theorem floored_run (h : Inv s) (calls : List JwksCall) :
    Floored (run (step jsonSegment) s calls) ↔
      Floored s ∧ Each (step jsonSegment) (Settled jsonSegment) s calls := by
  induction calls generalizing s with
  | nil => exact (and_iff_left trivial).symm
  | cons call calls ih =>
    rw [run_cons, ih (h.step call), floored_step h call, and_assoc]
    rfl

/-- The count is right in every run; the floor is kept exactly when every token that names an
unknown key soon after a forced fetch finds that a fetch has succeeded since, or no room. -/
theorem lawful_iff_settled (jsonSegment : QString → QJsonObject) (now : Int) (calls : List JwksCall) :
    Lawful (run (step jsonSegment) { now := now } calls) ↔
      Each (step jsonSegment) (Settled jsonSegment) { now := now } calls := by
  have hinv : Inv (run (step jsonSegment) { now := now } calls) :=
    run_invariant Inv (fun s call h => h.step call) (inv_start now) calls
  have hstart : Floored { now := now } := .nil
  have hfloored := @floored_run jsonSegment _ (inv_start now) calls
  rw [and_iff_right hstart] at hfloored
  rw [← hfloored]
  exact ⟨fun h => h.floored, fun h => ⟨h, hinv.counted, hinv.ceiling⟩⟩

def unknownKeyToken : QString := "eyJhbGciOiJSUzI1NiIsImtpZCI6Ims5In0.eyJzdWIiOiIxIn0.c2ln"

def decoded (segment : QString) : QJsonObject :=
  if segment = "eyJhbGciOiJSUzI1NiIsImtpZCI6Ims5In0" then [("alg", "RS256"), ("kid", "k9")] else []

def failedRefetch : List JwksCall :=
  let jwksUrl : QUrl := ⟨"https", "id.example.com", "/jwks.json"⟩
  [.verify unknownKeyToken jwksUrl, .finished 0 (.body [[("kid", "k1"), ("kty", "RSA")]]), .advance 300000,
    .verify unknownKeyToken jwksUrl, .finished 0 (.failed "Host requires authentication"), .advance 1,
    .verify unknownKeyToken jwksUrl]

theorem failed_refetch_repeats : ¬ Lawful (run (step decoded) { now := 0 } failedRefetch) := by
  intro h
  have hasked : (run (step decoded) { now := 0 } failedRefetch).verifier.requests =
      [(0, ⟨⟨"https", "id.example.com", "/jwks.json"⟩, false, "k9"⟩),
        (300000, ⟨⟨"https", "id.example.com", "/jwks.json"⟩, true, "k9"⟩),
        (300001, ⟨⟨"https", "id.example.com", "/jwks.json"⟩, true, "k9"⟩)] := by decide
  have hfloored := h.floored
  rw [hasked] at hfloored
  exact absurd hfloored (by decide)

end JwksRun
end SynQt
