import SynQt.Identity.OAuthBackend

/-! Refreshes in flight. The answer to a refresh is matched by the key it was asked under;
logins are numbered here, so that what a key names when the answer comes can be said. -/
namespace SynQt
open Lib Option List

/-- The engine, the login each key names, the login that asked the refresh in flight, and
what the provider has issued and taken back as refresh tokens. -/
structure TokenRun where
  backend : OAuthBackend
  logins : Hash QString Nat := ∅
  nextLogin : Nat := 0
  asker : Option Nat := none
  issued : List (QString × Nat) := []
  spent : List QString := []

inductive TokenCall where
  | finish (now : Int) (state : QString) (entry : OAuthBackend.TokenEntry)
  | rekey (fromKey toKey : QString)
  | release (key : QString)
  | releaseUnclaimed (now : Int)
  | refreshExpiring (now marginSeconds : Int) (order : List QString → List QString)
  | reply (now : Int) (answer : OAuthBackend.RefreshAnswer)

namespace TokenRun
open OAuthBackend
variable {s : TokenRun} {call : TokenCall}

def start (config : IdentityConfig) : TokenRun := { backend := { config := config } }

/-- The login behind the refresh the engine waits on, read when it was asked. -/
def askerOf (backend : OAuthBackend) (logins : Hash QString Nat) : Option Nat :=
  backend.sweep.bind fun sweep => logins.find sweep.asked.key

def takenBack (asked : Asked) : RefreshAnswer → Option QString
  | .object access rotated _ _ =>
    if access.isEmpty || rotated.isEmpty || rotated == asked.entry.refreshToken then none else some rotated
  | _ => none

def reply (s : TokenRun) (now : Int) (answer : RefreshAnswer) : TokenRun :=
  let backend := s.backend.reply now answer
  let after := { s with backend := backend, asker := askerOf backend s.logins }
  match s.backend.sweep, s.asker with
  | some sweep, some login =>
    match takenBack sweep.asked answer with
    | none => after
    | some rotated =>
      { after with
        issued := s.issued ++ [(rotated, login)]
        spent := s.spent ++ [sweep.asked.entry.refreshToken] }
  | _, _ => after

def step (s : TokenRun) : TokenCall → TokenRun
  | .finish now state entry =>
    { s with
      backend := s.backend.finish now state entry
      logins := s.logins.insert state s.nextLogin
      nextLogin := s.nextLogin + 1
      issued :=
        if entry.refreshToken.isEmpty then s.issued else s.issued ++ [(entry.refreshToken, s.nextLogin)] }
  | .rekey fromKey toKey =>
    { s with
      backend := s.backend.rekeyTokens fromKey toKey
      logins :=
        if fromKey = toKey then s.logins
        else match s.logins.find fromKey with
          | none => s.logins
          | some login => (s.logins.insert toKey login).erase fromKey }
  | .release key => { s with backend := s.backend.releaseTokens key, logins := s.logins.erase key }
  | .releaseUnclaimed now =>
    let backend := s.backend.releaseUnclaimed now
    { s with backend := backend, logins := s.logins.filter fun key _ => backend.tokens.contains key }
  | .refreshExpiring now marginSeconds order =>
    let backend := s.backend.refreshExpiring now marginSeconds order
    { s with
      backend := backend
      asker := if s.backend.sweep.isSome then s.asker else askerOf backend s.logins }
  | .reply now answer => s.reply now answer

/-- What the arrival of an answer must do: fresh tokens go to the entry of the login that
asked, under whatever key it has, and to no other; with none to store, nothing changes. -/
def Lands (s : TokenRun) : TokenCall → Prop
  | .reply now (.object access rotated freshId expiresIn) =>
    ∀ sweep login, s.backend.sweep = some sweep → s.asker = some login → ∀ key,
      (s.step (.reply now (.object access rotated freshId expiresIn))).backend.tokens.find key =
        if s.logins.find key = some login ∧ access ≠ "" then
          (s.backend.tokens.find key).map fun entry => entry.refreshed now access rotated freshId expiresIn
        else s.backend.tokens.find key
  | .reply now answer => ∀ key,
      (s.step (.reply now answer)).backend.tokens.find key = s.backend.tokens.find key
  | _ => True

/-- No entry holds a refresh token the provider has taken back. -/
def NoneSpent (s : TokenRun) : Prop :=
  ∀ key entry, s.backend.tokens.find key = some entry → entry.refreshToken ∉ s.spent

/-- The provider issues every refresh token once, and to one login. -/
def Fresh (s : TokenRun) : TokenCall → Prop
  | .finish _ _ entry => entry.refreshToken ∉ s.issued.map Prod.fst
  | .reply _ answer => ∀ sweep ∈ s.backend.sweep, ∀ rotated ∈ takenBack sweep.asked answer,
      rotated ∉ s.issued.map Prod.fst
  | _ => True

def Gone (s : TokenRun) (login : Nat) : Prop := ∀ key, s.logins.find key ≠ some login

/-- When fresh tokens come, the key they were asked under still names the login that asked, or
that login has been let go of and the key names nothing. -/
def Home (s : TokenRun) : TokenCall → Prop
  | .reply _ (.object access _ _ _) =>
    ∀ sweep ∈ s.backend.sweep, ∀ login ∈ s.asker, access ≠ "" →
      s.logins.find sweep.asked.key = some login ∨
      s.logins.find sweep.asked.key = none ∧ s.Gone login
  | _ => True

instance Fresh.decidable (s : TokenRun) : ∀ call, Decidable (s.Fresh call)
  | .finish _ _ _ => inferInstanceAs (Decidable (_ ∉ _))
  | .reply _ answer => inferInstanceAs (Decidable (∀ sweep ∈ s.backend.sweep,
      ∀ rotated ∈ takenBack sweep.asked answer, rotated ∉ s.issued.map Prod.fst))
  | .rekey _ _ | .release _ | .releaseUnclaimed _ | .refreshExpiring _ _ _ => inferInstanceAs (Decidable True)

instance Gone.decidable (s : TokenRun) (login : Nat) : Decidable (s.Gone login) :=
  decidable_of_iff (∀ e ∈ s.logins.entries, e.2 ≠ login)
    ⟨fun h key hkey => h (key, login) ((s.logins.mem_entries key login).mpr hkey) rfl,
      fun h e he heq => h e.1 ((s.logins.mem_entries e.1 login).mp (heq ▸ he))⟩

instance Home.decidable (s : TokenRun) : ∀ call, Decidable (s.Home call)
  | .reply _ (.object access _ _ _) => inferInstanceAs (Decidable (∀ sweep ∈ s.backend.sweep,
      ∀ login ∈ s.asker, access ≠ "" →
        s.logins.find sweep.asked.key = some login ∨ s.logins.find sweep.asked.key = none ∧ s.Gone login))
  | .reply _ .failed | .reply _ .notAnObject => inferInstanceAs (Decidable True)
  | .finish _ _ _ | .rekey _ _ | .release _ | .releaseUnclaimed _ | .refreshExpiring _ _ _ =>
    inferInstanceAs (Decidable True)

/-- The invariant: a key names a login exactly where tokens are held, a login has one key, and
a refresh token belongs to the login it was issued to. -/
structure Inv (s : TokenRun) : Prop where
  keys : ∀ key, (s.backend.tokens.find key).isSome = (s.logins.find key).isSome
  single : ∀ key key' login, s.logins.find key = some login → s.logins.find key' = some login → key = key'
  below : ∀ key login, s.logins.find key = some login → login < s.nextLogin
  owned : ∀ key entry login, s.backend.tokens.find key = some entry → s.logins.find key = some login →
    entry.refreshToken ≠ "" → (entry.refreshToken, login) ∈ s.issued
  distinct : (s.issued.map Prod.fst).Nodup
  issuedBelow : ∀ e ∈ s.issued, e.2 < s.nextLogin
  unspent : s.NoneSpent
  spentIssued : ∀ token ∈ s.spent, token ≠ "" ∧ token ∈ s.issued.map Prod.fst
  asked : ∀ sweep, s.backend.sweep = some sweep → ∃ login, s.asker = some login ∧
    sweep.asked.entry.refreshToken ≠ "" ∧ (sweep.asked.entry.refreshToken, login) ∈ s.issued ∧
    ∀ key entry, s.logins.find key = some login → s.backend.tokens.find key = some entry →
      entry.refreshToken = sweep.asked.entry.refreshToken

section
variable (b : OAuthBackend)
include b

private theorem ask_some (key : QString) {request} (h : b.ask key = some request) :
    request.1.key = key ∧ b.tokens.find key = some request.1.entry ∧ request.1.entry.refreshToken ≠ "" := by
  rw [ask] at h
  cases hentry : b.tokens.find key with
  | none =>
    simp only [hentry] at h
    cases h
  | some entry =>
    simp only [hentry] at h
    split at h
    · cases h
    · rename_i hnonempty
      cases hprovider : b.config.provider entry.providerName with
      | none =>
        simp only [hprovider] at h
        cases h
      | some provider =>
        simp only [hprovider, Option.some.injEq] at h
        subst h
        exact ⟨rfl, rfl, by simpa using hnonempty⟩

@[simp] theorem proceed_tokens (due : List QString) : (b.proceed due).tokens = b.tokens := by
  induction due with
  | nil => rfl
  | cons key due ih =>
    rw [proceed]
    cases b.ask key with
    | none => exact ih
    | some request => rfl

/-- What a sweep waits on, it read under the key it asked by. -/
theorem proceed_asked (due : List QString) (sweep : Sweep)
    (h : (b.proceed due).sweep = some sweep) :
    b.tokens.find sweep.asked.key = some sweep.asked.entry ∧ sweep.asked.entry.refreshToken ≠ "" := by
  induction due with
  | nil => cases h
  | cons key due ih =>
    rw [proceed] at h
    cases hask : b.ask key with
    | none =>
      rw [hask] at h
      exact ih h
    | some request =>
      rw [hask] at h
      cases h
      obtain ⟨hkey, hentry, hnonempty⟩ := ask_some b key hask
      rw [hkey]
      exact ⟨hentry, hnonempty⟩

private theorem settle_object (now : Int) (key other access rotated freshId : QString)
    (expiresIn : Option Int) (haccess : access ≠ "") :
    (b.settle now key (.object access rotated freshId expiresIn)).1.tokens.find other =
      if other = key then (b.tokens.find key).map fun entry => entry.refreshed now access rotated freshId expiresIn
      else b.tokens.find other := by
  have hnamed : access.isEmpty = false := by simpa using haccess
  simp only [settle, hnamed, Bool.false_eq_true, if_false]
  cases hentry : b.tokens.find key with
  | none =>
    simp only
    split
    · rename_i heq
      rw [heq]
      exact hentry
    · rfl
  | some entry => exact Hash.find_insert _ _ _ _

private theorem settle_nothing (now : Int) (key : QString) (answer : RefreshAnswer)
    (h : ∀ access rotated freshId expiresIn, answer = .object access rotated freshId expiresIn → access = "") :
    (b.settle now key answer).1 = b := by
  cases answer with
  | failed => rfl
  | notAnObject => rfl
  | object access rotated freshId expiresIn =>
    have hempty := h access rotated freshId expiresIn rfl
    rw [settle, hempty]
    rfl

private theorem reply_tokens (now : Int) (answer : RefreshAnswer) {sweep : Sweep}
    (h : b.sweep = some sweep) : (b.reply now answer).tokens = (b.settle now sweep.asked.key answer).1.tokens := by
  rw [OAuthBackend.reply, h]
  exact proceed_tokens _ _

end

private theorem reply_backend (s : TokenRun) (now : Int) (answer : RefreshAnswer) :
    (s.step (.reply now answer)).backend = s.backend.reply now answer ∧
    (s.step (.reply now answer)).logins = s.logins ∧
    (s.step (.reply now answer)).nextLogin = s.nextLogin ∧
    (s.step (.reply now answer)).asker = askerOf (s.backend.reply now answer) s.logins := by
  rw [step, reply]
  simp only
  split
  · split <;> exact ⟨rfl, rfl, rfl, rfl⟩
  · exact ⟨rfl, rfl, rfl, rfl⟩

structure Moved (s s' : TokenRun) : Prop where
  sweep : s'.backend.sweep = s.backend.sweep
  asker : s'.asker = s.asker
  nextLogin : s'.nextLogin = s.nextLogin
  issued : s'.issued = s.issued
  spent : s'.spent = s.spent
  keys : ∀ key, (s'.backend.tokens.find key).isSome = (s'.logins.find key).isSome
  single : ∀ key key' login, s'.logins.find key = some login → s'.logins.find key' = some login → key = key'
  back : ∀ key login, s'.logins.find key = some login → ∃ before, s.logins.find before = some login ∧
    ∀ entry, s'.backend.tokens.find key = some entry →
      ∃ entry', s.backend.tokens.find before = some entry' ∧ entry'.refreshToken = entry.refreshToken

section
variable (h : Inv s)
include h

/-- An entry is held under a key that names a login. -/
theorem Inv.login_of {key : QString} {entry : TokenEntry}
    (hentry : s.backend.tokens.find key = some entry) : ∃ login, s.logins.find key = some login := by
  have hkeys := h.keys key
  rw [hentry, isSome_some] at hkeys
  exact isSome_iff_exists.mp hkeys.symm

theorem Inv.moved {s' : TokenRun} (hm : Moved s s') : Inv s' where
  keys := hm.keys
  single := hm.single
  below key login hlogin := by
    obtain ⟨before, hbefore, -⟩ := hm.back key login hlogin
    rw [hm.nextLogin]
    exact h.below before login hbefore
  owned key entry login hentry hlogin hnonempty := by
    obtain ⟨before, hbefore, hback⟩ := hm.back key login hlogin
    obtain ⟨entry', hentry', hsame⟩ := hback entry hentry
    rw [hm.issued, ← hsame]
    exact h.owned before entry' login hentry' hbefore (hsame ▸ hnonempty)
  distinct := hm.issued ▸ h.distinct
  issuedBelow := by
    rw [hm.issued, hm.nextLogin]
    exact h.issuedBelow
  unspent key entry hentry := by
    have hkeys := hm.keys key
    rw [hentry, isSome_some] at hkeys
    obtain ⟨login, hlogin⟩ := isSome_iff_exists.mp hkeys.symm
    obtain ⟨before, -, hback⟩ := hm.back key login hlogin
    obtain ⟨entry', hentry', hsame⟩ := hback entry hentry
    rw [hm.spent, ← hsame]
    exact h.unspent before entry' hentry'
  spentIssued := by
    rw [hm.spent, hm.issued]
    exact h.spentIssued
  asked sweep hsweep := by
    rw [hm.sweep] at hsweep
    obtain ⟨login, hasker, hnonempty, hissued, hheld⟩ := h.asked sweep hsweep
    refine ⟨login, hm.asker.trans hasker, hnonempty, hm.issued ▸ hissued, fun key entry hlogin hentry => ?_⟩
    obtain ⟨before, hbefore, hback⟩ := hm.back key login hlogin
    obtain ⟨entry', hentry', hsame⟩ := hback entry hentry
    rw [← hsame]
    exact hheld before entry' hbefore hentry'

theorem Inv.release (key : QString) : Inv (s.step (.release key)) := by
  apply h.moved
  have hlogins (other : QString) : (s.step (.release key)).logins.find other =
      if other = key then none else s.logins.find other := Hash.find_erase _ _ _
  have htokens (other : QString) : (s.step (.release key)).backend.tokens.find other =
      if other = key then none else s.backend.tokens.find other := Hash.find_erase _ _ _
  refine ⟨rfl, rfl, rfl, rfl, rfl, fun other => ?_, fun other other' login ho ho' => ?_, fun other login ho => ?_⟩
  · rw [hlogins, htokens]
    split
    · rfl
    · exact h.keys other
  · rw [hlogins] at ho ho'
    split at ho
    · cases ho
    · split at ho'
      · cases ho'
      · exact h.single other other' login ho ho'
  · rw [hlogins] at ho
    split at ho
    · cases ho
    · rename_i hne
      refine ⟨other, ho, fun entry hentry => ?_⟩
      rw [htokens, if_neg hne] at hentry
      exact ⟨entry, hentry, rfl⟩

theorem Inv.releaseUnclaimed (now : Int) : Inv (s.step (.releaseUnclaimed now)) := by
  apply h.moved
  have htokens (key : QString) (entry : TokenEntry)
      (hentry : (s.backend.releaseUnclaimed now).tokens.find key = some entry) :
      s.backend.tokens.find key = some entry := by
    rw [OAuthBackend.releaseUnclaimed, Hash.find_filter_eq_some] at hentry
    exact hentry.1
  have hlogins (key : QString) (login : Nat) : (s.step (.releaseUnclaimed now)).logins.find key = some login ↔
      s.logins.find key = some login ∧ (s.backend.releaseUnclaimed now).tokens.contains key = true :=
    Hash.find_filter_eq_some _ _ _ _
  refine ⟨rfl, rfl, rfl, rfl, rfl, fun key => ?_, fun key key' login hk hk' => ?_, fun key login hk => ?_⟩
  · rw [Bool.eq_iff_iff, isSome_iff_exists, isSome_iff_exists]
    constructor
    · rintro ⟨entry, hentry⟩
      obtain ⟨login, hlogin⟩ := h.login_of (htokens key entry hentry)
      exact ⟨login, (hlogins key login).mpr ⟨hlogin, isSome_iff_exists.mpr ⟨entry, hentry⟩⟩⟩
    · rintro ⟨login, hlogin⟩
      exact isSome_iff_exists.mp ((hlogins key login).mp hlogin).2
  · exact h.single key key' login ((hlogins key login).mp hk).1 ((hlogins key' login).mp hk').1
  · exact ⟨key, ((hlogins key login).mp hk).1, fun entry hentry => ⟨entry, htokens key entry hentry, rfl⟩⟩

theorem Inv.rekey (fromKey toKey : QString) : Inv (s.step (.rekey fromKey toKey)) := by
  have hkeys := h.keys fromKey
  rw [step]
  by_cases hsame : fromKey = toKey
  · rw [if_pos hsame, rekeyTokens, if_pos hsame]
    exact h
  · rw [if_neg hsame, rekeyTokens, if_neg hsame]
    cases hentry : s.backend.tokens.find fromKey with
    | none =>
      rw [hentry, isSome_none] at hkeys
      have hlogin : s.logins.find fromKey = none :=
        not_isSome_iff_eq_none.mp (by rw [← hkeys]; exact Bool.false_ne_true)
      simp only [hlogin]
      exact h
    | some moved =>
      obtain ⟨login, hlogin⟩ := h.login_of hentry
      simp only [hlogin]
      apply h.moved
      refine ⟨rfl, rfl, rfl, rfl, rfl, fun key => ?_, fun key key' l hk hk' => ?_, fun key l hk => ?_⟩
      · simp only [Hash.find_erase, Hash.find_insert]
        split
        · rfl
        · split
          · rfl
          · exact h.keys key
      · simp only [Hash.find_erase, Hash.find_insert] at hk hk'
        split at hk
        · cases hk
        · rename_i hkfrom
          split at hk'
          · cases hk'
          · rename_i hkfrom'
            split at hk <;> split at hk'
            · rename_i hkto hkto'
              rw [hkto, hkto']
            · cases hk
              exact absurd (h.single key' fromKey login hk' hlogin) hkfrom'
            · cases hk'
              exact absurd (h.single key fromKey login hk hlogin) hkfrom
            · exact h.single key key' l hk hk'
      · simp only [Hash.find_erase, Hash.find_insert] at hk ⊢
        split at hk
        · cases hk
        · rename_i hkfrom
          split at hk
          · rename_i hkto
            cases hk
            refine ⟨fromKey, hlogin, fun entry hfound => ?_⟩
            rw [if_neg hkfrom, if_pos hkto] at hfound
            cases hfound
            exact ⟨moved, hentry, rfl⟩
          · rename_i hkto
            refine ⟨key, hk, fun entry hfound => ?_⟩
            rw [if_neg hkfrom, if_neg hkto] at hfound
            exact ⟨entry, hfound, rfl⟩

theorem Inv.finish (now : Int) (state : QString) (entry : TokenEntry)
    (hfresh : s.Fresh (.finish now state entry)) : Inv (s.step (.finish now state entry)) := by
  have htokens (key : QString) : (s.step (.finish now state entry)).backend.tokens.find key =
      if key = state then some { entry with storedMs := now, bound := false } else s.backend.tokens.find key :=
    Hash.find_insert _ _ _ _
  have hlogins (key : QString) : (s.step (.finish now state entry)).logins.find key =
      if key = state then some s.nextLogin else s.logins.find key := Hash.find_insert _ _ _ _
  have hkept (e : QString × Nat) (he : e ∈ s.issued) : e ∈ (s.step (.finish now state entry)).issued := by
    rw [step]
    simp only
    split
    · exact he
    · exact mem_append_left _ he
  have hissued (e : QString × Nat) (he : e ∈ (s.step (.finish now state entry)).issued) :
      e ∈ s.issued ∨ e = (entry.refreshToken, s.nextLogin) := by
    rw [step] at he
    simp only at he
    split at he
    · exact .inl he
    · exact (mem_append.mp he).imp id mem_singleton.mp
  have hold (key : QString) (login : Nat) (hkey : s.logins.find key = some login) : login ≠ s.nextLogin :=
    Nat.ne_of_lt (h.below key login hkey)
  constructor
  case keys =>
    intro key
    rw [htokens, hlogins]
    split
    · rfl
    · exact h.keys key
  case single =>
    intro key key' login hk hk'
    rw [hlogins] at hk hk'
    split at hk <;> split at hk'
    · rename_i heq heq'
      rw [heq, heq']
    · cases hk
      exact absurd rfl (hold key' _ hk')
    · cases hk'
      exact absurd rfl (hold key _ hk)
    · exact h.single key key' login hk hk'
  case below =>
    intro key login hk
    rw [hlogins] at hk
    split at hk
    · cases hk
      exact Nat.lt_succ_self _
    · exact Nat.lt_succ_of_lt (h.below key login hk)
  case owned =>
    intro key found login hfound hk hnonempty
    rw [htokens] at hfound
    rw [hlogins] at hk
    split at hfound
    · rename_i heq
      rw [if_pos heq] at hk
      cases hfound
      cases hk
      have hnamed : ¬ entry.refreshToken.isEmpty = true := by simpa using hnonempty
      rw [step]
      simp only
      rw [if_neg hnamed]
      exact mem_append_right _ (mem_singleton_self _)
    · rename_i hne
      rw [if_neg hne] at hk
      exact hkept _ (h.owned key found login hfound hk hnonempty)
  case distinct =>
    rw [step]
    simp only
    split
    · exact h.distinct
    · rw [map_append, map_singleton, ← concat_eq_append, nodup_concat]
      exact ⟨hfresh, h.distinct⟩
  case issuedBelow =>
    intro e he
    rcases hissued e he with hold' | rfl
    · exact Nat.lt_succ_of_lt (h.issuedBelow e hold')
    · exact Nat.lt_succ_self _
  case unspent =>
    intro key found hfound
    rw [htokens] at hfound
    split at hfound
    · cases hfound
      exact fun hspent => hfresh (h.spentIssued _ hspent).2
    · exact h.unspent key found hfound
  case spentIssued =>
    intro token htoken
    obtain ⟨hnonempty, hin⟩ := h.spentIssued token htoken
    obtain ⟨e, he, heq⟩ := mem_map.mp hin
    exact ⟨hnonempty, mem_map.mpr ⟨e, hkept e he, heq⟩⟩
  case asked =>
    intro sweep hsweep
    obtain ⟨login, hasker, hnonempty, hin, hheld⟩ := h.asked sweep hsweep
    refine ⟨login, hasker, hnonempty, hkept _ hin, fun key found hk hfound => ?_⟩
    rw [hlogins] at hk
    rw [htokens] at hfound
    split at hk
    · cases hk
      exact absurd (h.issuedBelow _ hin) (Nat.lt_irrefl _)
    · rename_i hne
      rw [if_neg hne] at hfound
      exact hheld key found hk hfound

end

/-- What a sweep goes on to ask for, the login of that key asks for. -/
theorem asked_of_proceed {backend : OAuthBackend} {logins : Hash QString Nat} {issued : List (QString × Nat)}
    (keys : ∀ key, (backend.tokens.find key).isSome = (logins.find key).isSome)
    (single : ∀ key key' login, logins.find key = some login → logins.find key' = some login → key = key')
    (owned : ∀ key entry login, backend.tokens.find key = some entry → logins.find key = some login →
      entry.refreshToken ≠ "" → (entry.refreshToken, login) ∈ issued)
    (due : List QString) (sweep : Sweep) (hsweep : (backend.proceed due).sweep = some sweep) :
    ∃ login, askerOf (backend.proceed due) logins = some login ∧ sweep.asked.entry.refreshToken ≠ "" ∧
      (sweep.asked.entry.refreshToken, login) ∈ issued ∧
      ∀ key entry, logins.find key = some login → backend.tokens.find key = some entry →
        entry.refreshToken = sweep.asked.entry.refreshToken := by
  obtain ⟨hentry, hnonempty⟩ := proceed_asked backend due sweep hsweep
  have hkeys := keys sweep.asked.key
  rw [hentry, isSome_some] at hkeys
  obtain ⟨login, hlogin⟩ := isSome_iff_exists.mp hkeys.symm
  refine ⟨login, ?_, hnonempty, owned _ _ login hentry hlogin hnonempty, fun key entry hk hfound => ?_⟩
  · rw [askerOf, hsweep]
    exact hlogin
  · rw [single key sweep.asked.key login hk hlogin, hentry] at hfound
    cases hfound
    rfl

theorem Inv.refreshExpiring (h : Inv s) (now marginSeconds : Int) (order : List QString → List QString) :
    Inv (s.step (.refreshExpiring now marginSeconds order)) := by
  rw [step, OAuthBackend.refreshExpiring]
  split
  · exact h
  · refine ⟨?_, h.single, h.below, ?_, h.distinct, h.issuedBelow, ?_, h.spentIssued, ?_⟩
    · rw [proceed_tokens]
      exact h.keys
    · rw [proceed_tokens]
      exact h.owned
    · rw [NoneSpent, proceed_tokens]
      exact h.unspent
    · intro sweep hsweep
      rw [proceed_tokens]
      exact asked_of_proceed h.keys h.single h.owned _ sweep hsweep

private theorem refreshed_token (asked : Asked) (entry : TokenEntry) (now : Int) (access rotated freshId : QString)
    (expiresIn : Option Int) (haccess : access ≠ "") (hsame : entry.refreshToken = asked.entry.refreshToken) :
    (entry.refreshed now access rotated freshId expiresIn).refreshToken =
      (takenBack asked (.object access rotated freshId expiresIn)).getD asked.entry.refreshToken := by
  have hnamed : access.isEmpty = false := by simpa using haccess
  simp only [TokenEntry.refreshed, takenBack, hnamed, Bool.false_or]
  by_cases hrotated : rotated.isEmpty = true
  · rw [if_pos hrotated, hrotated, Bool.true_or, if_pos rfl]
    exact hsame
  · rw [if_neg hrotated, (Bool.not_eq_true _).mp hrotated, Bool.false_or]
    split
    · rename_i heq
      exact beq_iff_eq.mp heq
    · rfl

private theorem takenBack_nothing (asked : Asked) (answer : RefreshAnswer)
    (h : ∀ access rotated freshId expiresIn, answer = .object access rotated freshId expiresIn → access = "") :
    takenBack asked answer = none := by
  cases answer with
  | failed => rfl
  | notAnObject => rfl
  | object access rotated freshId expiresIn =>
    have hempty := h access rotated freshId expiresIn rfl
    rw [takenBack, hempty]
    rfl

private theorem reply_books (s : TokenRun) (now : Int) (answer : RefreshAnswer) {sweep : Sweep} {login : Nat}
    (hsweep : s.backend.sweep = some sweep) (hasker : s.asker = some login) :
    (s.step (.reply now answer)).issued =
      s.issued ++ ((takenBack sweep.asked answer).map fun rotated => (rotated, login)).toList ∧
    (s.step (.reply now answer)).spent =
      s.spent ++ ((takenBack sweep.asked answer).map fun _ => sweep.asked.entry.refreshToken).toList := by
  rw [step, reply, hsweep, hasker]
  simp only
  cases takenBack sweep.asked answer with
  | none => exact ⟨(append_nil _).symm, (append_nil _).symm⟩
  | some rotated => exact ⟨rfl, rfl⟩

private theorem Inv.reply_idle (h : Inv s) (now : Int) (answer : RefreshAnswer) (hsweep : s.backend.sweep = none) :
    Inv (s.step (.reply now answer)) := by
  have hbackend : s.backend.reply now answer = s.backend := by rw [OAuthBackend.reply, hsweep]
  rw [step, reply, hbackend, hsweep]
  refine ⟨h.keys, h.single, h.below, h.owned, h.distinct, h.issuedBelow, h.unspent, h.spentIssued, fun sweep hs => ?_⟩
  rw [hsweep] at hs
  cases hs

/-- An answer and the table it leaves, when the asker is at home: the entry of its login is
refreshed, with a token of that login's, and the others stand. -/
structure Answered (s : TokenRun) (now : Int) (answer : RefreshAnswer) (sweep : Sweep) (login : Nat)
    (tokens : Hash QString TokenEntry) : Prop where
  sweeping : s.backend.sweep = some sweep
  asking : s.asker = some login
  presented : (sweep.asked.entry.refreshToken, login) ∈ s.issued
  nonempty : sweep.asked.entry.refreshToken ≠ ""
  fresh : s.Fresh (.reply now answer)
  settled : (s.backend.settle now sweep.asked.key answer).1.tokens = tokens
  keys : ∀ key, (tokens.find key).isSome = (s.backend.tokens.find key).isSome
  own : ∀ key entry, tokens.find key = some entry → s.logins.find key = some login →
    entry.refreshToken = (takenBack sweep.asked answer).getD sweep.asked.entry.refreshToken
  others : ∀ key, s.logins.find key ≠ some login → tokens.find key = s.backend.tokens.find key

namespace Answered
variable {now : Int} {answer : RefreshAnswer} {sweep : Sweep} {login : Nat} {tokens : Hash QString TokenEntry}

section
variable (a : Answered s now answer sweep login tokens)
include a

private theorem unissued {rotated : QString}
    (htake : takenBack sweep.asked answer = some rotated) : rotated ∉ s.issued.map Prod.fst :=
  a.fresh sweep a.sweeping rotated htake

private theorem mem_issued {e : QString × Nat} (he : e ∈ s.issued) :
    e ∈ (s.step (.reply now answer)).issued := by
  rw [(reply_books s now answer a.sweeping a.asking).1]
  exact mem_append_left _ he

private theorem hasTokens :
    (s.step (.reply now answer)).backend.tokens = tokens := by
  rw [(reply_backend s now answer).1, reply_tokens _ now answer a.sweeping]
  exact a.settled

section
variable (h : Inv s)
include h

theorem owned (key : QString) (entry : TokenEntry)
    (owner : Nat) (hentry : tokens.find key = some entry) (hkey : s.logins.find key = some owner)
    (hne : entry.refreshToken ≠ "") : (entry.refreshToken, owner) ∈ (s.step (.reply now answer)).issued := by
  by_cases hmine : s.logins.find key = some login
  · rw [hmine] at hkey
    cases hkey
    rw [a.own key entry hentry hmine]
    cases htake : takenBack sweep.asked answer with
    | none => exact a.mem_issued a.presented
    | some rotated =>
      rw [(reply_books s now answer a.sweeping a.asking).1, htake]
      exact mem_append_right _ (mem_singleton_self _)
  · rw [a.others key hmine] at hentry
    exact a.mem_issued (h.owned key entry owner hentry hkey hne)

theorem distinct :
    ((s.step (.reply now answer)).issued.map Prod.fst).Nodup := by
  rw [(reply_books s now answer a.sweeping a.asking).1]
  cases htake : takenBack sweep.asked answer with
  | none =>
    rw [map_none, toList_none, append_nil]
    exact h.distinct
  | some rotated =>
    rw [map_some, toList_some, map_append, map_singleton, ← concat_eq_append,
      nodup_concat]
    exact ⟨a.unissued htake, h.distinct⟩

/-- The asker's own entry: the token it keeps was not spent, and one it is given is new. -/
theorem own_unspent {key : QString} {entry : TokenEntry}
    (hentry : tokens.find key = some entry) (hmine : s.logins.find key = some login) :
    entry.refreshToken ∉ (s.step (.reply now answer)).spent := by
  have hheld := a.own key entry hentry hmine
  rw [(reply_books s now answer a.sweeping a.asking).2]
  cases htake : takenBack sweep.asked answer with
  | none =>
    rw [htake, getD_none] at hheld
    rw [map_none, toList_none, append_nil]
    have hsome := a.keys key
    rw [hentry, isSome_some] at hsome
    obtain ⟨before, hbefore⟩ := isSome_iff_exists.mp hsome.symm
    obtain ⟨login', hasker, -, -, hsame⟩ := h.asked sweep a.sweeping
    rw [a.asking] at hasker
    cases hasker
    rw [hheld, ← hsame key before hmine hbefore]
    exact h.unspent key before hbefore
  | some rotated =>
    rw [htake, getD_some] at hheld
    rw [map_some, toList_some, mem_append, mem_singleton, not_or, hheld]
    have hnew := a.unissued htake
    refine ⟨fun hold => hnew (h.spentIssued _ hold).2, fun hold => hnew ?_⟩
    rw [hold]
    exact mem_map_of_mem a.presented

private theorem other_unspent {key : QString} {entry : TokenEntry}
    (hentry : tokens.find key = some entry) (hother : s.logins.find key ≠ some login) :
    entry.refreshToken ∉ (s.step (.reply now answer)).spent := by
  rw [a.others key hother] at hentry
  rw [(reply_books s now answer a.sweeping a.asking).2, mem_append, not_or]
  refine ⟨h.unspent key entry hentry, fun hspent => ?_⟩
  obtain ⟨_, -, hold⟩ := map_eq_some_iff.mp (mem_toList.mp hspent)
  obtain ⟨owner, howner⟩ := h.login_of hentry
  have hpair := h.owned key entry owner hentry howner (hold ▸ a.nonempty)
  rw [← hold] at hpair
  have hsame := inj_on_of_nodup_map h.distinct hpair a.presented rfl
  cases hsame
  exact hother howner

private theorem spentIssued (token : QString)
    (htoken : token ∈ (s.step (.reply now answer)).spent) :
    token ≠ "" ∧ token ∈ (s.step (.reply now answer)).issued.map Prod.fst := by
  have hmap (hmem : token ∈ s.issued.map Prod.fst) : token ∈ (s.step (.reply now answer)).issued.map Prod.fst := by
    obtain ⟨e, he, heq⟩ := mem_map.mp hmem
    exact mem_map.mpr ⟨e, a.mem_issued he, heq⟩
  rw [(reply_books s now answer a.sweeping a.asking).2] at htoken
  rcases mem_append.mp htoken with hold | hnew
  · obtain ⟨hne, hmem⟩ := h.spentIssued token hold
    exact ⟨hne, hmap hmem⟩
  · obtain ⟨_, -, rfl⟩ := map_eq_some_iff.mp (mem_toList.mp hnew)
    exact ⟨a.nonempty, hmap (mem_map_of_mem a.presented)⟩

theorem inv : Inv (s.step (.reply now answer)) := by
  obtain ⟨hbackend, hlogins, hnext, hasked⟩ := reply_backend s now answer
  have hkeys (key : QString) : (tokens.find key).isSome = (s.logins.find key).isSome :=
    (a.keys key).trans (h.keys key)
  constructor
  case keys =>
    intro key
    rw [hlogins, a.hasTokens]
    exact hkeys key
  case single =>
    rw [hlogins]
    exact h.single
  case below =>
    rw [hlogins, hnext]
    exact h.below
  case owned =>
    rw [hlogins, a.hasTokens]
    exact a.owned h
  case distinct => exact a.distinct h
  case issuedBelow =>
    intro e he
    rw [hnext]
    rw [(reply_books s now answer a.sweeping a.asking).1] at he
    rcases mem_append.mp he with hold | hnew
    · exact h.issuedBelow e hold
    · obtain ⟨rotated, -, rfl⟩ := map_eq_some_iff.mp (mem_toList.mp hnew)
      exact h.issuedBelow (sweep.asked.entry.refreshToken, login) a.presented
  case unspent =>
    intro key entry hentry
    rw [a.hasTokens] at hentry
    by_cases hmine : s.logins.find key = some login
    · exact a.own_unspent h hentry hmine
    · exact a.other_unspent h hentry hmine
  case spentIssued => exact a.spentIssued h
  case asked =>
    intro next hnextSweep
    rw [hasked, hlogins, a.hasTokens, ← a.settled]
    rw [hbackend] at hnextSweep
    rw [OAuthBackend.reply, a.sweeping] at hnextSweep ⊢
    refine asked_of_proceed ?_ h.single ?_ sweep.due next hnextSweep
    · rw [a.settled]
      exact hkeys
    · rw [a.settled]
      exact a.owned h

end

end

end Answered

/-- The table after an answer, key by key, when the asker is at home: refreshed where the
asker's login is, and as it was elsewhere. -/
theorem Inv.settled (h : Inv s) (now : Int) (answer : RefreshAnswer) {sweep : Sweep} {login : Nat}
    (hsweep : s.backend.sweep = some sweep) (hasker : s.asker = some login) (hhome : s.Home (.reply now answer))
    (key : QString) :
    (s.backend.settle now sweep.asked.key answer).1.tokens.find key =
      match answer with
      | .object access rotated freshId expiresIn =>
        if s.logins.find key = some login ∧ access ≠ "" then
          (s.backend.tokens.find key).map fun entry => entry.refreshed now access rotated freshId expiresIn
        else s.backend.tokens.find key
      | _ => s.backend.tokens.find key := by
  cases answer with
  | failed => rfl
  | notAnObject => rfl
  | object access rotated freshId expiresIn =>
    by_cases haccess : access = ""
    · have hsame := settle_nothing s.backend now sweep.asked.key (.object access rotated freshId expiresIn)
        (fun _ _ _ _ heq => by cases heq; exact haccess)
      rw [hsame]
      exact (if_neg fun hboth => hboth.2 haccess).symm
    · rw [settle_object _ _ _ _ _ _ _ _ haccess]
      simp only [haccess, ne_eq, not_false_eq_true, and_true]
      rcases hhome sweep hsweep login hasker haccess with hnamed | ⟨hnobody, hgone⟩
      · by_cases heq : key = sweep.asked.key
        · rw [if_pos heq, heq, if_pos hnamed]
        · have hother : s.logins.find key ≠ some login := fun hk => heq (h.single _ _ login hk hnamed)
          rw [if_neg heq, if_neg hother]
      · have hkeys := h.keys sweep.asked.key
        rw [hnobody, isSome_none, isSome_eq_false_iff, isNone_iff_eq_none] at hkeys
        rw [if_neg (hgone key)]
        split
        · rename_i heq
          rw [heq, hkeys, map_none]
        · rfl

theorem Inv.reply (h : Inv s) (now : Int) (answer : RefreshAnswer) (hfresh : s.Fresh (.reply now answer))
    (hhome : s.Home (.reply now answer)) : Inv (s.step (.reply now answer)) := by
  cases hsweep : s.backend.sweep with
  | none => exact h.reply_idle now answer hsweep
  | some sweep =>
    obtain ⟨login, hasker, hnonempty, hin, hheld⟩ := h.asked sweep hsweep
    have hsettled := h.settled now answer hsweep hasker hhome
    refine Answered.inv ⟨hsweep, hasker, hin, hnonempty, hfresh, rfl, fun key => ?_, fun key entry hentry hmine => ?_,
      fun key hother => ?_⟩ h
    · rw [hsettled key]
      split
      · split
        · rw [isSome_map]
        · rfl
      · rfl
    · rw [hsettled key] at hentry
      have hnothing (hnone : takenBack sweep.asked answer = none) (hsame : s.backend.tokens.find key = some entry) :
          entry.refreshToken = (takenBack sweep.asked answer).getD sweep.asked.entry.refreshToken := by
        rw [hnone]
        exact hheld key entry hmine hsame
      cases answer with
      | failed => exact hnothing rfl hentry
      | notAnObject => exact hnothing rfl hentry
      | object access rotated freshId expiresIn =>
        by_cases haccess : access = ""
        · refine hnothing (takenBack_nothing _ _ fun _ _ _ _ heq => ?_) ?_
          · cases heq
            exact haccess
          · exact (if_neg fun hboth => hboth.2 haccess).symm.trans hentry
        · simp only [hmine, haccess, ne_eq, not_false_eq_true, and_self, if_true] at hentry
          obtain ⟨before, hbefore, rfl⟩ := map_eq_some_iff.mp hentry
          exact refreshed_token sweep.asked before now access rotated freshId expiresIn haccess
            (hheld key before hmine hbefore)
    · rw [hsettled key]
      split
      · exact if_neg fun hboth => hother hboth.1
      · rfl

theorem Inv.lands (h : Inv s) (hhome : s.Home call) : s.Lands call := by
  cases call with
  | reply now answer =>
    have hbackend := (reply_backend s now answer).1
    have hkept : (∀ access rotated freshId expiresIn, answer ≠ .object access rotated freshId expiresIn) →
        ∀ key, (s.step (.reply now answer)).backend.tokens.find key = s.backend.tokens.find key := by
      intro hnoObject key
      rw [hbackend]
      cases hsweep : s.backend.sweep with
      | none => rw [OAuthBackend.reply, hsweep]
      | some sweep =>
        rw [reply_tokens _ now answer hsweep, settle_nothing _ _ _ _ fun access rotated freshId expiresIn heq =>
          absurd heq (hnoObject access rotated freshId expiresIn)]
    cases answer with
    | failed => exact hkept (fun _ _ _ _ heq => by cases heq)
    | notAnObject => exact hkept (fun _ _ _ _ heq => by cases heq)
    | object access rotated freshId expiresIn =>
      intro sweep login hsweep hasker key
      rw [hbackend, reply_tokens _ now _ hsweep]
      exact h.settled now (.object access rotated freshId expiresIn) hsweep hasker hhome key
  | finish now state entry | rekey fromKey toKey | release key | releaseUnclaimed now
  | refreshExpiring now marginSeconds order => trivial

theorem Inv.step (h : Inv s) (hfresh : s.Fresh call) (hhome : s.Home call) : Inv (s.step call) := by
  cases call with
  | finish now state entry => exact h.finish now state entry hfresh
  | rekey fromKey toKey => exact h.rekey fromKey toKey
  | release key => exact h.release key
  | releaseUnclaimed now => exact h.releaseUnclaimed now
  | refreshExpiring now marginSeconds order => exact h.refreshExpiring now marginSeconds order
  | reply now answer => exact h.reply now answer hfresh hhome

theorem inv_start (config : IdentityConfig) : Inv (start config) := by
  have htokens (key : QString) : (start config).backend.tokens.find key = none := Hash.find_empty key
  have hlogins (key : QString) : (start config).logins.find key = none := Hash.find_empty key
  constructor
  case keys => exact fun key => by rw [htokens, hlogins]; rfl
  case single => exact fun key key' login hk => by rw [hlogins] at hk; cases hk
  case below => exact fun key login hk => by rw [hlogins] at hk; cases hk
  case owned => exact fun key entry login hk => by rw [htokens] at hk; cases hk
  case distinct => exact .nil
  case issuedBelow => exact fun e he => by cases he
  case unspent => exact fun key entry hk => by rw [htokens] at hk; cases hk
  case spentIssued => exact fun token ht => by cases ht
  case asked => exact fun sweep hs => by cases hs

private theorem lands_run (h : Inv s) (calls : List TokenCall) (hfresh : Each step Fresh s calls)
    (hhome : Each step Home s calls) : Each step Lands s calls ∧ Inv (run step s calls) := by
  induction calls generalizing s with
  | nil => exact ⟨trivial, h⟩
  | cons call calls ih =>
    obtain ⟨hlands, hinv⟩ := ih (h.step hfresh.1 hhome.1) hfresh.2 hhome.2
    exact ⟨⟨h.lands hhome.1, hlands⟩, hinv⟩

/-- In every run whose answers find their asker at home, each lands with the login that asked,
and no entry is left with a token the provider has taken back. -/
theorem refresh_lands (config : IdentityConfig) (calls : List TokenCall)
    (hfresh : Each step Fresh (start config) calls) (hhome : Each step Home (start config) calls) :
    Each step Lands (start config) calls ∧ NoneSpent (run step (start config) calls) := by
  obtain ⟨hlands, hinv⟩ := lands_run (inv_start config) calls hfresh hhome
  exact ⟨hlands, hinv.unspent⟩

/-- One provider, and a login whose session is bound, refreshed once, with `between` happening
while the provider is asked. -/
def google : IdentityConfig where
  providers := [
    { name := "google"
      authorizeUrl := ⟨"https", "accounts.google.com", "/o/oauth2/v2/auth"⟩
      tokenUrl := ⟨"https", "oauth2.googleapis.com", "/token"⟩
      clientId := "synqt"
      clientSecret := "hidden" }]

def refreshedOnce (between : List TokenCall) : List TokenCall :=
  [.finish 0 "st1" ⟨"google", "a1", "r1", "", 3600000, 0, false⟩, .rekey "st1" "sid1",
    .refreshExpiring 3500000 300 id] ++ between ++
  [.reply 3500200 (.object "a2" "r2" "" (some 3600))]

theorem refresh_lands_besideAnother :
    Each step Lands (start google) (refreshedOnce [.finish 3500100 "st2" ⟨"google", "b1", "q1", "", 7000000, 0, false⟩]) ∧
    NoneSpent (run step (start google)
      (refreshedOnce [.finish 3500100 "st2" ⟨"google", "b1", "q1", "", 7000000, 0, false⟩])) :=
  refresh_lands google _ (by decide) (by decide)

/-- The session is elevated while its tokens are refreshed: the entry that moved keeps `r1`. -/
theorem rotation_loses_refresh :
    ¬ (Each step Lands (start google) (refreshedOnce [.rekey "sid1" "sid2"]) ∧
      NoneSpent (run step (start google) (refreshedOnce [.rekey "sid1" "sid2"]))) := by
  rintro ⟨-, hunspent⟩
  exact hunspent "sid2" ⟨"google", "a1", "r1", "", 3600000, 0, true⟩ (by decide) (by decide)

end TokenRun
end SynQt
