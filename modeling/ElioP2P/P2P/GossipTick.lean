import ElioP2P.P2P.NodeDiscovery

/-!
# Periodic gossip

`gossip_tick`, `gossip_with_peer` and `heartbeat_tick` of
`src/p2p/node_discovery.cpp`.  A tick sends a state sync to one peer after the
other and waits for each send; meanwhile messages arrive, other calls are made
and, if gossip was stopped and started again, another tick may be under way.
So a tick is cut where it waits, and the node is a step system.
-/

namespace ElioP2P.P2P

open ElioP2P.Library

structure GossipRound where
  sending : Option PeerNode := none
  targets : List PeerNode
  deriving DecidableEq

structure GossipService where
  discovery : NodeDiscovery
  running : Bool := false
  rounds : List GossipRound := []

namespace GossipService

/-- Both `gossip_tick` and `gossip_with_peer` do nothing otherwise. -/
def gossips (s : GossipService) : Bool := s.running && s.discovery.gossipRunning

/-- `gossip_tick` up to its loop. -/
def beginTick (s : GossipService) : GossipService :=
  if !s.gossips then s
  else
    let (peers, discovery) := s.discovery.getAllPeers
    let maxGossip := min (UInt32.ofNat peers.length) (discovery.maxPeers / 2)
    let shuffled := (discovery.rng discovery.shuffles).apply peers
    { s with
      discovery := { discovery with shuffles := discovery.shuffles + 1 }
      rounds := s.rounds ++ [{ targets := shuffled.take maxGossip.toNat }] }

/-- `gossip_with_peer` up to its send: whether there is one, and the message. -/
def beginGossip (s : GossipService) (peer : PeerNode) : Option GossipMessage × GossipService :=
  if !s.gossips then (none, s)
  else if peer.nodeId = s.discovery.localNodeId then (none, s)
  else
    let (msg, discovery) := s.discovery.createGossipMessage .stateSync
    (some msg, { s with discovery := discovery })

/-- `gossip_with_peer` behind its send.  Whether it succeeded only goes into the
log. -/
def endGossip (s : GossipService) (peer : PeerNode) (_success : Bool) : GossipService :=
  match s.discovery.peers.lookup peer.nodeId with
  | some known =>
      let (now, discovery) := s.discovery.currentSeconds
      { s with discovery := { discovery with
          peers := discovery.peers.insert peer.nodeId { known with lastSeen := now } } }
  | none => s

/-- `heartbeat_tick`.  The steady clock is read for a line in the log. -/
def heartbeatTick (s : GossipService) : GossipService :=
  if !s.running then s
  else
    let discovery := { s.discovery with steadyTicks := s.discovery.steadyTicks + 1 }
    if discovery.localNodeId.isEmpty then { s with discovery := discovery }
    else
      let (now, discovery) := discovery.currentSeconds
      let peer := (discovery.peers.lookup discovery.localNodeId).getD {}
      { s with discovery := { discovery with
          peers := discovery.peers.insert discovery.localNodeId { peer with lastSeen := now } } }

/-! ## Runs -/

/-- What can happen next: a call or a message, a tick that begins, goes on or
ends, a heartbeat.  `measured` is `update_peer_latency` or
`update_peer_throughput` with the new averages. -/
inductive Event where
  | call (op : NodeDiscovery.Op)
  | getAllPeers
  | getPeersWithChunk (chunkId : Bytes)
  | measured (nodeId : Bytes) (latencyMs throughputMbps : Double)
  | start
  | stop
  | startGossip
  | stopGossip
  | tick
  | send (round : Nat)
  | sent (round : Nat) (success : Bool)
  | tickEnd (round : Nat)
  | heartbeat
  deriving DecidableEq

def sendingTo (s : GossipService) (round : Nat) : Option PeerNode :=
  (s.rounds[round]?).bind GossipRound.sending

def step (s : GossipService) : Event → Option GossipService
  | .call op => some { s with discovery := s.discovery.apply op }
  | .getAllPeers => some { s with discovery := s.discovery.getAllPeers.2 }
  | .getPeersWithChunk chunkId =>
      some { s with discovery := (s.discovery.getPeersWithChunk chunkId).2 }
  | .measured nodeId latencyMs throughputMbps =>
      some { s with discovery := s.discovery.updatePeer nodeId fun peer =>
        { peer with latencyMs := latencyMs, throughputMbps := throughputMbps } }
  | .start => some { s with running := true }
  | .stop =>
      some { s with running := false, discovery := { s.discovery with gossipRunning := false } }
  | .startGossip => some { s with discovery := { s.discovery with gossipRunning := true } }
  | .stopGossip => some { s with discovery := { s.discovery with gossipRunning := false } }
  | .tick => some s.beginTick
  | .send round =>
      match s.rounds[round]? with
      | some { sending := none, targets := peer :: targets } =>
          let (msg, s) := s.beginGossip peer
          let next : GossipRound :=
            { sending := if msg.isSome then some peer else none, targets := targets }
          some { s with rounds := s.rounds.set round next }
      | _ => none
  | .sent round success =>
      (s.sendingTo round).map fun peer =>
        let s := s.endGossip peer success
        { s with rounds := s.rounds.modify round fun r => { r with sending := none } }
  | .tickEnd round =>
      match s.rounds[round]? with
      | some { sending := none, targets := [] } =>
          some { s with
            discovery := s.discovery.cleanupStalePeers
            rounds := s.rounds.eraseIdx round }
      | _ => none
  | .heartbeat => some s.heartbeatTick

end GossipService

end ElioP2P.P2P
