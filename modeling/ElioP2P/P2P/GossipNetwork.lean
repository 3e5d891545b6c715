import ElioP2P.P2P.GossipServer
import ElioP2P.P2P.GossipTick

/-!
# A network of gossiping nodes

Any number of nodes, each as in `GossipTick`, and every message that one of them
has ever sent.  A node may receive each of these messages never, once or many
times and in any order, also one that was meant for another: the address that a
message goes to is hearsay itself.
-/

namespace ElioP2P.P2P

open ElioP2P.Library

/-- What `handle_tcp_connection` reads of a message whose frame has arrived.  The
length in front of it has 32 bits. -/
def arrival (msg : GossipMessage) : Outcome GossipMessage :=
  let data := serializeGossipMessage msg
  let msgSize := (UInt32.ofNat data.length).toNat
  if maxMessageSize < msgSize ∨ msgSize = 0 then .rejected
  else deserializeGossipMessage (data.take msgSize)

/-- The messages that an event of a node puts on the wire: what it adds to the
outbox, or the state sync of a round. -/
def GossipService.posted (s : GossipService) (event : GossipService.Event) :
    List GossipMessage :=
  match event with
  | .send round =>
      match s.rounds[round]? with
      | some { sending := none, targets := peer :: _ } => (s.beginGossip peer).1.toList
      | _ => []
  | event =>
      match s.step event with
      | some s' => (s'.discovery.outbox.drop s.discovery.outbox.length).map Prod.snd
      | none => []

structure GossipNetwork where
  nodes : List GossipService
  sent : List GossipMessage := []

namespace GossipNetwork

/-- A node does something of its own, its listener is bound to a port, or a
message reaches it. -/
inductive Event where
  | act (node : Nat) (event : GossipService.Event)
  | listening (node : Nat) (port : UInt16)
  | deliver (node message : Nat)
  deriving DecidableEq

def Own : GossipService.Event → Bool
  | .call (.gossip _) => false
  | _ => true

/-- The thread of `start_tcp_server_internal`: a node that was registered without
a port takes the one it listens on. -/
def listen (s : NodeDiscovery) (port : UInt16) : NodeDiscovery :=
  if s.localNodePort = 0 then { s with localNodePort := port } else s

/-- A message that is refused changes nothing, and there is no step for it; nor
is there one if the decoder leaves its buffer. -/
def step (net : GossipNetwork) : Event → Option GossipNetwork
  | .act node event =>
      if Own event then do
        let s ← net.nodes[node]?
        let s' ← s.step event
        some { nodes := net.nodes.set node s', sent := net.sent ++ s.posted event }
      else none
  | .listening node port => do
      let s ← net.nodes[node]?
      let s' := { s with discovery := listen s.discovery port }
      some { net with nodes := net.nodes.set node s' }
  | .deliver node message => do
      let s ← net.nodes[node]?
      let msg ← net.sent[message]?
      match arrival msg with
      | .ok msg =>
          let s' := { s with discovery := s.discovery.handleGossipMessage msg }
          some { net with nodes := net.nodes.set node s' }
      | .rejected | .outOfBounds => none

structure Fresh (net : GossipNetwork) : Prop where
  nodes : ∀ s ∈ net.nodes, s.discovery.peers = ∅ ∧ s.discovery.chunkLocations = ∅ ∧
    s.discovery.localNodeId = []
  sent : net.sent = []

end GossipNetwork

end ElioP2P.P2P
