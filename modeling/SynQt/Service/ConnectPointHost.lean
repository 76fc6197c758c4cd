import SynQt.Service.Caller

/-! The owner's side of a connect point: one Source for each consumer that has a link open, counted by its links. -/
namespace SynQt
open Lib

/-- Who is at the far end of a link, as its transport can vouch for it. -/
structure MeshPeer where
  entity : QString
  authenticated : Bool := false
deriving DecidableEq

def Caller.forEntity (entity : QString) (verified : Bool) : Caller := ⟨[], none, ⟨"", ""⟩, entity, false, verified, [], true⟩

structure PeerSource where
  connections : Int := 0
  source : Option Nat := none
deriving DecidableEq

/-- A link: its transport and its node, each until it is destroyed, and what the node remotes. -/
structure PeerLink where
  entity : QString
  device : Bool := true
  node : Bool := true
  acquired : Option Nat := none
  ending : Bool := false
deriving DecidableEq

/-- What Qt answers while a link is taken up: whether the Source's file loads, whether the contract has a
Source, whether the node takes one. -/
structure Minting where
  loads : Bool := true
  registered : Bool := true
  remotes : Bool := true
deriving DecidableEq

/-- `objects` are the Sources and the mirrors of the peers that have not been deleted, with the Caller bound to
each. The shared Source is none of them. -/
structure ConnectPointHost where
  consumers : List QString
  shared : Bool
  peerSources : Hash QString PeerSource := ∅
  sharedSource : Option Nat := none
  objects : Hash Nat Caller := ∅
  next : Nat := 0
  links : List PeerLink := []
  refused : List QString := []

inductive LinkEvent where
  | peerConnected (peer : MeshPeer) (minting : Minting)
  | disconnected (link : Nat)
  /-- The object a link hangs off is deleted, and with it the node and then the transport. -/
  | linkDestroyed (link : Nat)
  | nodeDestroyed (link : Nat)
  | destroyed (link : Nat)
deriving DecidableEq

namespace ConnectPointHost

def createSource (host : ConnectPointHost) (caller : Caller) (loads : Bool) : ConnectPointHost × Option Nat :=
  if loads then ({ host with objects := host.objects.insert host.next caller, next := host.next + 1 }, some host.next)
  else (host, none)

def sharedSourceOf (host : ConnectPointHost) (loads : Bool) : ConnectPointHost × Option Nat :=
  if host.sharedSource.isSome then (host, host.sharedSource)
  else if loads then ({ host with sharedSource := some host.next, next := host.next + 1 }, some host.next)
  else (host, none)

def mint (host : ConnectPointHost) (peer : MeshPeer) (minting : Minting) : ConnectPointHost × Option Nat :=
  let caller := Caller.forEntity peer.entity peer.authenticated
  if host.shared then
    let shared := host.sharedSourceOf minting.loads
    if shared.2.isSome then shared.1.createSource caller minting.registered else (shared.1, none)
  else host.createSource caller minting.loads

def setEntry (host : ConnectPointHost) (entity : QString) (entry : PeerSource) : ConnectPointHost :=
  { host with peerSources := host.peerSources.insert entity entry }

def entryOf (host : ConnectPointHost) (entity : QString) : PeerSource := (host.peerSources.find entity).getD {}

def sourceForPeer (host : ConnectPointHost) (peer : MeshPeer) (minting : Minting) : ConnectPointHost × Option Nat :=
  let entry := host.entryOf peer.entity
  if entry.source.isSome then (host, entry.source)
  else
    let minted := host.mint peer minting
    if minted.2.isSome then (minted.1.setEntry peer.entity { entry with source := minted.2 }, minted.2) else (minted.1, none)

def releasePeerSource (host : ConnectPointHost) (entity : QString) : ConnectPointHost :=
  match host.peerSources.find entity with
  | none => host
  | some entry =>
    if entry.connections - 1 > 0 then host.setEntry entity { entry with connections := entry.connections - 1 }
    else
      { host with
        objects := match entry.source with
          | none => host.objects
          | some source => host.objects.erase source
        peerSources := host.peerSources.erase entity }

/-- The claim is made before the Source is reached for. -/
def claim (host : ConnectPointHost) (entity : QString) : ConnectPointHost :=
  let entry := host.entryOf entity
  host.setEntry entity { entry with connections := entry.connections + 1 }

def onPeerConnected (host : ConnectPointHost) (peer : MeshPeer) (minting : Minting) : ConnectPointHost :=
  if peer.entity ∉ host.consumers then { host with refused := host.refused ++ [peer.entity] }
  else
    let sourced := (host.claim peer.entity).sourceForPeer peer minting
    if sourced.2.isNone then
      { sourced.1 with
        refused := sourced.1.refused ++ [peer.entity]
        links := sourced.1.links ++ [{ entity := peer.entity, ending := true }] }
    else
      { sourced.1 with
        links := sourced.1.links ++ [{ entity := peer.entity, acquired := if minting.remotes then sourced.2 else none }] }

def setLink (host : ConnectPointHost) (place : Nat) (link : PeerLink) : ConnectPointHost :=
  { host with links := host.links.set place link }

/-- A transport is destroyed once, whatever came before it. -/
def onDestroyed (host : ConnectPointHost) (place : Nat) : ConnectPointHost :=
  match host.links[place]? with
  | none => host
  | some link =>
    if link.device then (host.setLink place { link with device := false }).releasePeerSource link.entity else host

def onNodeDestroyed (host : ConnectPointHost) (place : Nat) : ConnectPointHost :=
  match host.links[place]? with
  | none => host
  | some link => host.setLink place { link with node := false, acquired := none }

def step (host : ConnectPointHost) : LinkEvent → ConnectPointHost
  | .peerConnected peer minting => host.onPeerConnected peer minting
  | .disconnected place =>
    match host.links[place]? with
    | none => host
    | some link => host.setLink place { link with ending := true }
  | .linkDestroyed place => (host.onNodeDestroyed place).onDestroyed place
  | .nodeDestroyed place => host.onNodeDestroyed place
  | .destroyed place => host.onDestroyed place

def make (consumers : List QString) (shared : Bool) : ConnectPointHost := { consumers := consumers, shared := shared }

/-- The links of an entity whose transport has not been destroyed. -/
def standing (host : ConnectPointHost) (entity : QString) : Nat :=
  host.links.countP fun link => link.device && link.entity == entity

/-- A Source is the one that an entity has: no other is, and its Caller names the entity. -/
def IsSourceOf (host : ConnectPointHost) (source : Nat) (entity : QString) : Prop :=
  (∃ verified, host.objects.find source = some (Caller.forEntity entity verified)) ∧
    ∀ other caller, host.objects.find other = some caller → caller.entity = entity → other = source

end ConnectPointHost
end SynQt
