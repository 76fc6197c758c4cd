import SynQt.Providers.CacheRun
import SynQt.Client.QmlLexis
import SynQt.Lib.Words
import Mathlib.Tactic.IntervalCases

/-! The Redis provider of the cache, and the server behind it by its documented commands. -/
namespace SynQt
open Lib Option

def inLongLong (n : Int) : Bool := decide (-2 ^ 63 ≤ n) && decide (n < 2 ^ 63)

def decimal (digits : List Char) : Option Int :=
  if digits.isEmpty || !digits.all Char.isDigit then none else some (Nat.ofDigitChars 10 digits 0 : Nat)

def isSpaceChar (c : Char) : Bool := decide (c.toNat < 0x10000) && Qml.isSpace (UInt16.ofNat c.toNat)

/-- `QString::toLongLong`: blanks around it and a plus sign are passed over, and what is not a
number in range is zero. -/
def longLongOf (text : QString) : Int :=
  let value := match trim isSpaceChar text.toList with
    | '-' :: digits => (decimal digits).map (-·)
    | '+' :: digits => decimal digits
    | digits => decimal digits
  (value.filter inLongLong).getD 0

/-- How Redis reads a number: in the one form in which it writes it. -/
def string2ll (text : QString) : Option Int :=
  let value := match text.toList with
    | ['0'] => some 0
    | '0' :: _ => none
    | '-' :: '0' :: _ => none
    | '-' :: digits => (decimal digits).map (-·)
    | digits => decimal digits
  value.filter inLongLong

inductive CacheValue where
  | text (value : QString)
  | integer (value : Int)
deriving DecidableEq

def CacheValue.asText : CacheValue → QString
  | .text value => value
  | .integer value => toString value

/-- Values in a `QVariant`, where `none` is the invalid one. Both kinds survive a JSON file. -/
def cacheVariants : Variants (Option CacheValue) where
  invalid := none
  toLongLong
    | none => 0
    | some (.text value) => longLongOf value
    | some (.integer value) => value
  ofLongLong value := some (.integer value)
  throughJson := id

/-- A database: values, and the time past which a key is gone. -/
structure Redis where
  held : QString → Option (QString × Option Int) := fun _ => none

inductive RedisCommand where
  | GET (key : QString)
  | SET (key value : QString)
  | SETEX (key : QString) (seconds : Int) (value : QString)
  | DEL (key : QString)
  | INCRBY (key : QString) (by_ : Int)
  | EXPIRE (key : QString) (seconds : Int)
  | PERSIST (key : QString)
deriving DecidableEq

inductive RedisReply where
  | nil
  | string (value : QString)
  | integer (value : Int)
  | status
  | error
deriving DecidableEq

namespace Redis

/-- The value of a key that is not past its time. -/
def live (db : Redis) (now : Int) (key : QString) : Option (QString × Option Int) :=
  (db.held key).filter fun v => v.2.all fun deadline => decide (now ≤ deadline)

def put (db : Redis) (key : QString) (v : Option (QString × Option Int)) : Redis := ⟨Function.update db.held key v⟩

def execute (db : Redis) (now : Int) : RedisCommand → Redis × RedisReply
  | .GET key => (db, match db.live now key with | none => .nil | some v => .string v.1)
  | .SET key value => (db.put key (some (value, none)), .status)
  | .SETEX key seconds value =>
    if 0 < seconds then (db.put key (some (value, some (now + seconds * 1000))), .status) else (db, .error)
  | .DEL key => (db.put key none, .integer (if (db.live now key).isSome then 1 else 0))
  | .INCRBY key by_ =>
    -- The deadline stays; a value that is not a number, or a sum out of range, is an error.
    let current := (db.live now key).getD ("0", none)
    match (string2ll current.1).map (· + by_) with
    | none => (db, .error)
    | some next =>
      if inLongLong next then (db.put key (some (toString next, current.2)), .integer next) else (db, .error)
  | .EXPIRE key seconds =>
    match db.live now key with
    | none => (db, .integer 0)
    | some v =>
      -- A time in the past deletes the key.
      if seconds ≤ 0 then (db.put key none, .integer 1)
      else (db.put key (some (v.1, some (now + seconds * 1000))), .integer 1)
  | .PERSIST key =>
    match db.live now key with
    | none => (db, .integer 0)
    | some v => (db.put key (some (v.1, none)), .integer (if v.2.isSome then 1 else 0))

end Redis

structure RedisCacheProvider where
  /-- Whether there is a context. -/
  connected : Bool := false
  server : Redis := {}

namespace RedisCacheProvider

def runCommand (r : RedisCacheProvider) (now : Int) (command : RedisCommand) : RedisCacheProvider × RedisReply :=
  let answer := r.server.execute now command
  ({ r with server := answer.1 }, answer.2)

def get (r : RedisCacheProvider) (now : Int) (key : QString) : RedisCacheProvider × Option CacheValue :=
  if !r.connected then (r, none)
  else
    let answer := r.runCommand now (.GET key)
    (answer.1, match answer.2 with | .string value => some (.text value) | _ => none)

def set (r : RedisCacheProvider) (now : Int) (key : QString) (value : Option CacheValue) (ttlSeconds : Int) :
    RedisCacheProvider :=
  if !r.connected then r
  else
    let text := (value.map CacheValue.asText).getD ""
    (r.runCommand now (if 0 < ttlSeconds then .SETEX key ttlSeconds text else .SET key text)).1

def del (r : RedisCacheProvider) (now : Int) (key : QString) : RedisCacheProvider :=
  if !r.connected then r else (r.runCommand now (.DEL key)).1

def incr (r : RedisCacheProvider) (now : Int) (key : QString) (by_ : Int) : RedisCacheProvider × Int :=
  if !r.connected then (r, 0)
  else
    let answer := r.runCommand now (.INCRBY key by_)
    (answer.1, match answer.2 with | .integer value => value | _ => 0)

def expire (r : RedisCacheProvider) (now : Int) (key : QString) (ttlSeconds : Int) : RedisCacheProvider :=
  if !r.connected then r
  else (r.runCommand now (if 0 < ttlSeconds then .EXPIRE key ttlSeconds else .PERSIST key)).1

def connect (r : RedisCacheProvider) : RedisCacheProvider := { r with connected := true }

def disconnect (r : RedisCacheProvider) : RedisCacheProvider := { r with connected := false }

end RedisCacheProvider

private theorem decimal_eq_some {digits : List Char} {n : Int} (h : decimal digits = some n) :
    digits ≠ [] ∧ (∀ c ∈ digits, c.isDigit = true) ∧ n = (Nat.ofDigitChars 10 digits 0 : Nat) := by
  rw [decimal] at h
  split at h
  · cases h
  · next hdigits =>
    simp only [Bool.or_eq_true, not_or, List.isEmpty_iff, Bool.not_eq_true', Bool.not_eq_false, List.all_eq_true] at hdigits
    exact ⟨hdigits.1, hdigits.2, (Option.some.inj h).symm⟩

private theorem decimal_toDigits (n : Nat) : decimal (Nat.toDigits 10 n) = some (n : Int) := by
  have hne : Nat.toDigits 10 n ≠ [] := by
    rw [← Nat.toList_repr]
    intro hnil
    exact Nat.repr_ne_empty (String.toList_eq_nil_iff.mp hnil)
  have hall : (Nat.toDigits 10 n).all Char.isDigit = true :=
    List.all_eq_true.mpr fun c hc => Nat.isDigit_of_mem_toDigits (by omega) (by omega) hc
  rw [decimal, hall, if_neg, Nat.ofDigitChars_ten_toDigits]
  simp [hne]

private theorem isSpaceChar_of_isDigit {c : Char} (h : c.isDigit = true) : isSpaceChar c = false := by
  have hrange : 48 ≤ c.toNat ∧ c.toNat ≤ 57 := by
    simpa [Char.isDigit, UInt32.le_iff_toNat_le] using h
  obtain ⟨hlow, hhigh⟩ := hrange
  rw [isSpaceChar]
  generalize c.toNat = code at *
  interval_cases code <;> rfl

private theorem trim_of_all {l : List Char} (h : ∀ c ∈ l, isSpaceChar c = false) : trim isSpaceChar l = l := by
  have hfront : l.dropWhile isSpaceChar = l := by
    rw [List.dropWhile_eq_self_iff]
    intro hl
    simp [h _ (List.getElem_mem hl)]
  have hback : l.rdropWhile isSpaceChar = l := by
    rw [List.rdropWhile_eq_self_iff]
    intro hl
    simp [h _ (List.getLast_mem hl)]
  rw [trim, hfront, hback]

theorem longLongOf_of_string2ll {text : QString} {n : Int} (h : string2ll text = some n) : longLongOf text = n := by
  rw [string2ll, filter_eq_some_iff] at h
  obtain ⟨hvalue, hrange⟩ := h
  rw [longLongOf]
  split at hvalue
  · next htext =>
    cases hvalue
    rw [htext]
    rfl
  · cases hvalue
  · cases hvalue
  · next digits _ htext =>
    obtain ⟨value, hdecimal, rfl⟩ := map_eq_some_iff.mp hvalue
    have hdigits := (decimal_eq_some hdecimal).2.1
    have htrim : trim isSpaceChar ('-' :: digits) = '-' :: digits :=
      trim_of_all (List.forall_mem_cons.mpr ⟨rfl, fun c hc => isSpaceChar_of_isDigit (hdigits c hc)⟩)
    rw [htext, htrim]
    simp only [hdecimal, map_some, filter_some, hrange, if_true, getD_some]
  · next htext =>
    obtain ⟨hne, hdigits, -⟩ := decimal_eq_some hvalue
    have htrim : trim isSpaceChar text.toList = text.toList :=
      trim_of_all fun c hc => isSpaceChar_of_isDigit (hdigits c hc)
    rw [htrim]
    split
    · next digits heq =>
      have hminus := hdigits '-' (by rw [heq]; exact List.mem_cons_self)
      exact absurd hminus (by decide)
    · next digits heq =>
      have hplus := hdigits '+' (by rw [heq]; exact List.mem_cons_self)
      exact absurd hplus (by decide)
    · rw [hvalue, filter_some, if_pos hrange, getD_some]

/-- What Redis reads in the text of an integer is that integer. -/
theorem eq_of_string2ll_toString {n m : Int} (h : string2ll (toString n) = some m) : m = n := by
  rw [string2ll, filter_eq_some_iff] at h
  obtain ⟨hvalue, -⟩ := h
  rw [Int.toString_eq_repr, Int.repr_eq_if] at hvalue
  by_cases hsign : 0 ≤ n
  · have hdecimal := decimal_toDigits n.toNat
    rw [if_pos hsign, Nat.toList_repr] at hvalue
    split at hvalue
    · next heq =>
      rw [heq] at hdecimal
      have hzero : (0 : Int) = n.toNat := Option.some.inj hdecimal
      have hm : (0 : Int) = m := Option.some.inj hvalue
      omega
    · cases hvalue
    · cases hvalue
    · next digits _ heq =>
      have hminus := (decimal_eq_some hdecimal).2.1 '-' (by rw [heq]; exact List.mem_cons_self)
      exact absurd hminus (by decide)
    · rw [hdecimal] at hvalue
      have hm : (n.toNat : Int) = m := Option.some.inj hvalue
      omega
  · have hdecimal := decimal_toDigits (-n).toNat
    have htext : ("-" ++ (-n).toNat.repr).toList = '-' :: Nat.toDigits 10 (-n).toNat := by
      rw [String.toList_append, Nat.toList_repr]
      rfl
    rw [if_neg hsign, htext] at hvalue
    split at hvalue
    · next heq => exact absurd (List.cons.inj heq).1 (by decide)
    · next heq => exact absurd (List.cons.inj heq).1 (by decide)
    · cases hvalue
    · next digits _ heq =>
      rw [← (List.cons.inj heq).2, hdecimal] at hvalue
      have hm : -((-n).toNat : Int) = m := Option.some.inj hvalue
      omega
    · next hother => exact absurd rfl (hother _)

end SynQt
