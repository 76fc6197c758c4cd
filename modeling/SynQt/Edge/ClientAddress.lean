import SynQt.Edge.IdentityProvider
import SynQt.Client.QmlLexis
import SynQt.Lib.Words
import Mathlib.Algebra.Group.Nat.Defs

/-! Which address is the caller, when the peer may be a balancer: the walk over the hops a
forwarding header names, from the nearest one back. -/
namespace SynQt
open List

/-- What the network library answers about addresses, whose texts and forms are its own. -/
structure HostAddresses (A : Type) where
  ofText : Text → A
  isNull : A → Bool
  toIPv4Address : A → UInt32 × Bool
  ofIPv4 : UInt32 → A
  isInSubnet : A → A × Int → Bool
  /-- The length is negative for a text it cannot read. -/
  parseSubnet : Text → A × Int
  toText : A → Text

def fromLatin1 (bytes : QByteArray) : Text := bytes.map UInt8.toUInt16

structure ClientAddress (A : Type) where
  trusted : List (A × Int)

namespace ClientAddress
variable {A : Type} (q : HostAddresses A)

/-- An IPv4-mapped address as plain IPv4, and anything else unchanged. -/
def normalizedAddress (address : A) : A :=
  let asIPv4 := q.toIPv4Address address
  if asIPv4.2 then q.ofIPv4 asIPv4.1 else address

/-- An entry nothing can read is dropped, so that a typo does not widen the trust. -/
def make (trustedProxies : List Text) : ClientAddress A where
  trusted := trustedProxies.filterMap fun entry =>
    let text := trim Qml.isSpace entry
    if text.isEmpty then none
    else
      let subnet := q.parseSubnet text
      if 0 ≤ subnet.2 then some subnet else none

def isTrusted (c : ClientAddress A) (address : A) : Bool :=
  c.trusted.any (q.isInSubnet (normalizedAddress q address))

def trustsPeer (c : ClientAddress A) (peer : A) : Bool := c.isTrusted q peer

def addressOf (hop : QByteArray) : A := q.ofText (fromLatin1 (trimmed hop))

/-- The loop of `resolve`, the nearest hop first. -/
def walk (c : ClientAddress A) (peerAddress : Text) : List QByteArray → Text
  | [] => peerAddress
  | hop :: hops =>
    let parsed := addressOf q hop
    if q.isNull parsed then peerAddress
    else if !c.isTrusted q parsed then q.toText (normalizedAddress q parsed)
    else c.walk peerAddress hops

def resolve (c : ClientAddress A) (peer : A) (forwardedFor : QByteArray) : Text :=
  let peerAddress := q.toText (normalizedAddress q peer)
  if c.trusted.isEmpty || !c.isTrusted q peer then peerAddress
  else c.walk q peerAddress (forwardedFor.splitOn 44).reverse

/-- One entry of a forwarding header, with the blanks around it, that names an address. -/
structure Names (hop : QByteArray) : Prop where
  whole : 44 ∉ hop
  read : q.isNull (addressOf q hop) = false

def chain (hops : List QByteArray) : QByteArray := [44].intercalate hops

variable {q} {c : ClientAddress A}

private theorem walk_trusted {hops : List QByteArray} (hnames : ∀ hop ∈ hops, Names q hop)
    (htrusted : ∀ hop ∈ hops, c.isTrusted q (addressOf q hop) = true) (peerAddress : Text) (further : List QByteArray) :
    c.walk q peerAddress (hops ++ further) = c.walk q peerAddress further := by
  induction hops with
  | nil => rfl
  | cons hop hops ih =>
    have hread := (hnames hop (mem_cons_self ..)).read
    have htrust := htrusted hop (mem_cons_self ..)
    rw [cons_append, walk, hread, htrust]
    exact ih (fun hop' h => hnames hop' (mem_cons_of_mem _ h)) fun hop' h => htrusted hop' (mem_cons_of_mem _ h)

private theorem walk_untrusted {hop : QByteArray} (hnames : Names q hop) (huntrusted : c.isTrusted q (addressOf q hop) = false)
    (peerAddress : Text) (further : List QByteArray) :
    c.walk q peerAddress (hop :: further) = q.toText (normalizedAddress q (addressOf q hop)) := by
  rw [walk, hnames.read, huntrusted]
  rfl

private theorem hops_after (clientSent : QByteArray) {hops : List QByteArray} (hne : hops ≠ [])
    (hnames : ∀ hop ∈ hops, Names q hop) :
    (clientSent ++ 44 :: chain hops).splitOn 44 = clientSent.splitOn 44 ++ hops := by
  have hchain : (chain hops).splitOn 44 = hops := splitOn_intercalate 44 (fun hop h => (hnames hop h).whole) hne
  calc (clientSent ++ 44 :: chain hops).splitOn 44
      = clientSent.splitOn 44 ++ (chain hops).splitOn 44 := splitOn_append_cons_self ..
    _ = clientSent.splitOn 44 ++ hops := by rw [hchain]

private theorem resolve_untrusted {peer : A} (huntrusted : c.trustsPeer q peer = false) (header : QByteArray) :
    c.resolve q peer header = q.toText (normalizedAddress q peer) := by
  have hpeer : c.isTrusted q peer = false := huntrusted
  rw [resolve, hpeer, Bool.not_false, Bool.or_true]
  rfl

private theorem resolve_trusted {peer : A} (htrusted : c.trustsPeer q peer = true) (header : QByteArray) :
    c.resolve q peer header = c.walk q (q.toText (normalizedAddress q peer)) (header.splitOn 44).reverse := by
  have hpeer : c.isTrusted q peer = true := htrusted
  have hsome : c.trusted.isEmpty = false := by
    cases hlist : c.trusted with
    | nil =>
      rw [isTrusted, hlist] at hpeer
      exact absurd hpeer Bool.false_ne_true
    | cons subnet subnets => rfl
  rw [resolve, hpeer, hsome]
  rfl

/-- Behind a trusted peer the answer is the nearest hop that is not itself trusted, whatever the
client wrote before it; from any other peer the header is not read at all. -/
theorem resolve_ignores_client (q : HostAddresses A) (trustedProxies : List Text) (peer : A) :
    ((make q trustedProxies).trustsPeer q peer = true →
      ∀ (clientSent visitor : QByteArray) (hops : List QByteArray),
        Names q visitor → (make q trustedProxies).isTrusted q (addressOf q visitor) = false →
        (∀ hop ∈ hops, Names q hop) →
        (∀ hop ∈ hops, (make q trustedProxies).isTrusted q (addressOf q hop) = true) →
        (make q trustedProxies).resolve q peer (clientSent ++ 44 :: chain (visitor :: hops)) =
          q.toText (normalizedAddress q (addressOf q visitor))) ∧
    ((make q trustedProxies).trustsPeer q peer = false →
      ∀ header, (make q trustedProxies).resolve q peer header = q.toText (normalizedAddress q peer)) := by
  constructor
  · intro hpeer clientSent visitor hops hvisitor huntrusted hnames htrusted
    have hall : ∀ hop ∈ visitor :: hops, Names q hop := forall_mem_cons.mpr ⟨hvisitor, hnames⟩
    have hnearest : ∀ hop ∈ hops.reverse, Names q hop := fun hop h => hnames hop (mem_reverse.mp h)
    have hskipped : ∀ hop ∈ hops.reverse, (make q trustedProxies).isTrusted q (addressOf q hop) = true :=
      fun hop h => htrusted hop (mem_reverse.mp h)
    rw [resolve_trusted hpeer, hops_after clientSent (cons_ne_nil _ _) hall, reverse_append,
      reverse_cons, append_assoc, walk_trusted hnearest hskipped, singleton_append]
    exact walk_untrusted hvisitor huntrusted _ _
  · intro hpeer header
    exact resolve_untrusted hpeer header

end ClientAddress

/-- A number below `bound` in decimal. -/
def decimalOf (bound : Nat) (text : Text) : Option Nat :=
  if text.isEmpty || !text.all fun c => 0x30 ≤ c && c ≤ 0x39 then none
  else
    let value := text.foldl (fun value c => 10 * value + (c.toNat - 0x30)) 0
    if value < bound then some value else none

def quadOf (text : Text) : Option UInt32 :=
  match (text.splitOn 0x2E).map (decimalOf 256) with
  | [some a, some b, some c, some d] => some (UInt32.ofNat (((a * 256 + b) * 256 + c) * 256 + d))
  | _ => none

def dottedQuads : HostAddresses (Option UInt32) where
  ofText := quadOf
  isNull address := address.isNone
  toIPv4Address address := (address.getD 0, address.isSome)
  ofIPv4 := some
  isInSubnet address subnet :=
    match address, subnet with
    | some address, (some net, length) =>
      let span := 2 ^ (32 - length.toNat)
      address.toNat / span == net.toNat / span
    | _, _ => false
  parseSubnet text :=
    match text.splitOn 0x2F with
    | [part] => if (quadOf part).isSome then (quadOf part, 32) else (none, -1)
    | [part, length] =>
      match quadOf part, decimalOf 33 length with
      | some net, some length => (some net, length)
      | _, _ => (none, -1)
    | _ => (none, -1)
  toText address :=
    let value := (address.getD 0).toNat
    utf16 (".".intercalate
      [toString (value / 16777216), toString (value / 65536 % 256), toString (value / 256 % 256), toString (value % 256)])

namespace ClientAddress

/-- A visitor behind two hops who wrote entries of every kind, and one who reached the edge directly. -/
theorem forged_entries_unread :
    (make dottedQuads [utf16 " 10.0.0.0/24", utf16 "nonsense"]).resolve dottedQuads
        (dottedQuads.ofText (utf16 "10.0.0.1"))
        (asciiBytes "10.0.0.9,,1.2.3.4:80, ,6.6.6.6" ++ 44 :: chain [asciiBytes " 198.51.100.7", asciiBytes " 10.0.0.2"]) =
      utf16 "198.51.100.7" ∧
    (make dottedQuads [utf16 "10.0.0.0/24"]).resolve dottedQuads (dottedQuads.ofText (utf16 "203.0.113.9"))
        (asciiBytes "198.51.100.7") = utf16 "203.0.113.9" := by
  constructor
  · exact ((resolve_ignores_client dottedQuads [utf16 " 10.0.0.0/24", utf16 "nonsense"] _).1 (by decide +kernel)
      (asciiBytes "10.0.0.9,,1.2.3.4:80, ,6.6.6.6") (asciiBytes " 198.51.100.7") [asciiBytes " 10.0.0.2"]
      ⟨by decide +kernel, by decide +kernel⟩ (by decide +kernel)
      (forall_mem_singleton.mpr ⟨by decide +kernel, by decide +kernel⟩)
      (forall_mem_singleton.mpr (by decide +kernel))).trans (by decide +kernel)
  · exact ((resolve_ignores_client dottedQuads [utf16 "10.0.0.0/24"] _).2 (by decide +kernel)
      (asciiBytes "198.51.100.7")).trans (by decide +kernel)

end ClientAddress
end SynQt
