import ElioP2P.P2P.GossipMessage

/-!
# Peer discovery and gossip

`NodeDiscovery` of `src/p2p/node_discovery.cpp`: the peer table, the index of
chunk locations and the gossip handlers that merge what other nodes say into
them.

`clock` is the system clock in milliseconds and `steady` the steady clock that
drives the clean-up of seen messages; every reading takes the next value.
Spawning a send is an entry in `outbox`, and a call of the discovered or lost
callback an entry in `events`.
-/

namespace ElioP2P.P2P

open ElioP2P.Library

structure Shuffle where
  apply : List PeerNode → List PeerNode
  perm : ∀ peers, (apply peers).Perm peers

def Shuffle.id : Shuffle := ⟨fun peers => peers, fun _ => List.Perm.refl _⟩

inductive MembershipEvent where
  | discovered (peer : PeerNode)
  | lost (nodeId : Bytes)
  deriving DecidableEq

structure NodeDiscovery where
  maxPeers : UInt32
  hasScheduler : Bool
  onNodeDiscovered : Bool
  onNodeLost : Bool
  clock : Nat → Nat
  ticks : Nat
  steady : Nat → Nat
  steadyTicks : Nat
  rng : Nat → Shuffle
  shuffles : Nat
  peers : AList (fun _ : Bytes => PeerNode)
  chunkLocations : AList (fun _ : Bytes => HashSet Bytes)
  localNodeId : Bytes
  localNodeAddress : Bytes
  localNodePort : UInt16
  gossipRunning : Bool
  receivedMessages : HashSet Bytes
  lastCleanup : Nat
  outbox : List (PeerNode × GossipMessage)
  events : List MembershipEvent

namespace NodeDiscovery

def new (maxPeers : UInt32) (clock steady : Nat → Nat) (rng : Nat → Shuffle) :
    NodeDiscovery where
  maxPeers := maxPeers
  hasScheduler := true
  onNodeDiscovered := true
  onNodeLost := true
  clock := clock
  ticks := 0
  steady := steady
  steadyTicks := 1
  rng := rng
  shuffles := 0
  peers := ∅
  chunkLocations := ∅
  localNodeId := []
  localNodeAddress := []
  localNodePort := 0
  gossipRunning := false
  receivedMessages := ∅
  lastCleanup := steady 0
  outbox := []
  events := []

/-! ## Clocks and liveness -/

def currentMillis (s : NodeDiscovery) : UInt64 × NodeDiscovery :=
  (UInt64.ofNat (s.clock s.ticks), { s with ticks := s.ticks + 1 })

def currentSeconds (s : NodeDiscovery) : UInt64 × NodeDiscovery :=
  (UInt64.ofNat (s.clock s.ticks / 1000), { s with ticks := s.ticks + 1 })

/-- `PeerNode::is_active`.  The difference is unsigned, so a time stamp ahead
of the clock counts as very old. -/
def isActive (s : NodeDiscovery) (peer : PeerNode) : Bool × NodeDiscovery :=
  let (now, s) := s.currentSeconds
  (now - peer.lastSeen < 300, s)

/-- One pass over a list of peers that reads the clock for each of them and
keeps those whose liveness is `wanted`. -/
def filterActive (wanted : Bool) :
    List (Sigma fun _ : Bytes => PeerNode) → NodeDiscovery →
      List (Sigma fun _ : Bytes => PeerNode) × NodeDiscovery
  | [], s => ([], s)
  | entry :: entries, s =>
      let (active, s) := s.isActive entry.2
      let (kept, s) := filterActive wanted entries s
      (if active = wanted then entry :: kept else kept, s)

/-! ## Message ids -/

def fnv1a (hash : UInt64) (bytes : Bytes) : UInt64 :=
  bytes.foldl (fun hash b => (hash ^^^ b.toUInt64) * 1099511628211) hash

def hostBytes32 (n : UInt32) : Bytes :=
  [n.toUInt8, (n >>> 8).toUInt8, (n >>> 16).toUInt8, (n >>> 24).toUInt8]

def generateMessageId (msg : GossipMessage) : Bytes :=
  let hash : UInt64 := 1469598103934665603
  let hash := fnv1a hash (hostBytes32 msg.type.toUInt32)
  let hash := fnv1a hash msg.sourceNodeId
  let hash := msg.chunkMap.entries.foldl
    (fun hash entry => entry.2.toList.foldl fnv1a (fnv1a hash entry.1)) hash
  let hash := msg.peerUpdates.entries.foldl (fun hash entry => fnv1a hash entry.1) hash
  msg.sourceNodeId ++ ascii ":" ++ decimal msg.timestamp.toNat ++ ascii ":" ++
    hexadecimal hash.toNat

def isMessageSeen (s : NodeDiscovery) (msg : GossipMessage) : Bool :=
  generateMessageId msg ∈ s.receivedMessages

/-- All seen ids are dropped once five minutes have passed since the last
time. -/
def markMessageSeen (s : NodeDiscovery) (msg : GossipMessage) : NodeDiscovery :=
  let s := { s with receivedMessages := s.receivedMessages.insert (generateMessageId msg) }
  let now := s.steady s.steadyTicks
  let s := { s with steadyTicks := s.steadyTicks + 1 }
  if 5 ≤ (now - s.lastCleanup) / 60000 then
    { s with receivedMessages := ∅, lastCleanup := now }
  else s

/-! ## The peer table -/

def forgetPeer (s : NodeDiscovery) (nodeId : Bytes) : NodeDiscovery :=
  { s with
    peers := s.peers.erase nodeId
    chunkLocations := mapValues (fun _ locations => locations.erase nodeId) s.chunkLocations }

def cleanupStalePeers (s : NodeDiscovery) : NodeDiscovery :=
  let (stale, s) := filterActive false s.peers.entries s
  stale.foldl (fun s entry => s.forgetPeer entry.1) s

def getAllPeers (s : NodeDiscovery) : List PeerNode × NodeDiscovery :=
  let s := s.cleanupStalePeers
  let (active, s) := filterActive true s.peers.entries s
  (active.map fun entry => entry.2, s)

def getPeersWithChunk (s : NodeDiscovery) (chunkId : Bytes) : List PeerNode × NodeDiscovery :=
  match s.chunkLocations.lookup chunkId with
  | none => ([], s)
  | some locations =>
      let known := locations.toList.filterMap fun nodeId =>
        (s.peers.lookup nodeId).map fun peer => (⟨nodeId, peer⟩ : Sigma fun _ : Bytes => PeerNode)
      let (active, s) := filterActive true known s
      (active.map fun entry => entry.2, s)

def getChunkRarity (s : NodeDiscovery) (chunkId : Bytes) : UInt32 :=
  match s.chunkLocations.lookup chunkId with
  | none => 0
  | some locations => UInt32.ofNat locations.toList.length

def notifyDiscovered (s : NodeDiscovery) (isNew : Bool) (peer : PeerNode) : NodeDiscovery :=
  if isNew && s.onNodeDiscovered then { s with events := s.events ++ [.discovered peer] } else s

def notifyLost (s : NodeDiscovery) (nodeId : Bytes) : NodeDiscovery :=
  if s.onNodeLost then { s with events := s.events ++ [.lost nodeId] } else s

def addPeer (s : NodeDiscovery) (peer : PeerNode) : NodeDiscovery :=
  let isNew := (s.peers.lookup peer.nodeId).isNone
  { s with peers := s.peers.insert peer.nodeId peer }.notifyDiscovered isNew peer

def removePeer (s : NodeDiscovery) (nodeId : Bytes) : NodeDiscovery :=
  if (s.peers.lookup nodeId).isSome then (s.forgetPeer nodeId).notifyLost nodeId else s

/-! ## Broadcasts -/

/-- Send `msg` to a random subset of the active peers, at most `maxPeers`
divided by `share`. -/
def sendToSubset (s : NodeDiscovery) (share : UInt32) (wanted : PeerNode → Bool)
    (msg : GossipMessage) : NodeDiscovery :=
  let (peers, s) := s.getAllPeers
  let targetCount := min (s.maxPeers / share) (UInt32.ofNat peers.length)
  let shuffled := (s.rng s.shuffles).apply peers
  let s := { s with shuffles := s.shuffles + 1 }
  let targets := (shuffled.take targetCount.toNat).filter wanted
  if s.hasScheduler then { s with outbox := s.outbox ++ targets.map fun peer => (peer, msg) }
  else s

/-- `broadcast_node_join`.  The record it sends is declared without an
initialiser, so the two capacities are whatever the memory held. -/
def broadcastNodeJoin (garbage : UInt64 × UInt64) (s : NodeDiscovery) : NodeDiscovery :=
  if s.localNodeId.isEmpty || !s.gossipRunning then s
  else
    let (now, s) := s.currentMillis
    let localPeer : PeerNode :=
      { nodeId := s.localNodeId
        address := s.localNodeAddress
        port := s.localNodePort
        lastSeen := now / 1000
        availableMemoryMb := garbage.1
        availableDiskMb := garbage.2 }
    s.sendToSubset 2 (fun peer => peer.nodeId != s.localNodeId)
      { type := .nodeJoin
        sourceNodeId := s.localNodeId
        timestamp := now
        peerUpdates := AList.singleton s.localNodeId localPeer }

def broadcastNodeLeave (s : NodeDiscovery) : NodeDiscovery :=
  if s.localNodeId.isEmpty then s
  else
    let (now, s) := s.currentMillis
    s.sendToSubset 2 (fun peer => peer.nodeId != s.localNodeId)
      { type := .nodeLeave, sourceNodeId := s.localNodeId, timestamp := now }

def broadcastChunkAnnounce (s : NodeDiscovery) (chunkId : Bytes) : NodeDiscovery :=
  if s.localNodeId.isEmpty || !s.gossipRunning then s
  else
    let (now, s) := s.currentMillis
    s.sendToSubset 3 (fun _ => true)
      { type := .chunkAnnounce
        sourceNodeId := s.localNodeId
        timestamp := now
        chunkMap := insertAt ∅ s.localNodeId chunkId }

/-- `broadcast_chunk_remove`: the chunk id only goes into the log. -/
def broadcastChunkRemove (s : NodeDiscovery) (_chunkId : Bytes) : NodeDiscovery :=
  if s.localNodeId.isEmpty || !s.gossipRunning then s
  else
    let (now, s) := s.currentMillis
    s.sendToSubset 3 (fun _ => true)
      { type := .chunkRemove, sourceNodeId := s.localNodeId, timestamp := now }

/-! ## The local node -/

def registerNode (garbage : UInt64 × UInt64) (s : NodeDiscovery) (localNode : PeerNode) :
    NodeDiscovery :=
  let s := { s with
    localNodeId := localNode.nodeId
    localNodeAddress := localNode.address
    localNodePort := localNode.port }
  let (now, s) := s.currentSeconds
  let s := { s with
    peers := s.peers.insert localNode.nodeId { localNode with lastSeen := now }
    gossipRunning := true }
  s.broadcastNodeJoin garbage

def unregisterNode (s : NodeDiscovery) : NodeDiscovery :=
  let s := if s.localNodeId.isEmpty then s
    else { s.broadcastNodeLeave with
      localNodeId := []
      localNodeAddress := []
      localNodePort := 0 }
  { s with gossipRunning := false }

def announceChunk (s : NodeDiscovery) (chunkId : Bytes) : NodeDiscovery :=
  if s.localNodeId.isEmpty then s
  else
    let s := { s with chunkLocations := insertAt s.chunkLocations chunkId s.localNodeId }
    -- `operator[]` makes an empty record when the node was never registered.
    let peer := (s.peers.lookup s.localNodeId).getD {}
    let peer := { peer with availableChunks := peer.availableChunks.insert chunkId }
    { s with peers := s.peers.insert s.localNodeId peer }.broadcastChunkAnnounce chunkId

def updatePeer (s : NodeDiscovery) (nodeId : Bytes) (f : PeerNode → PeerNode) :
    NodeDiscovery :=
  match s.peers.lookup nodeId with
  | some peer => { s with peers := s.peers.insert nodeId (f peer) }
  | none => s

def removeChunkAnnouncement (s : NodeDiscovery) (chunkId : Bytes) : NodeDiscovery :=
  let s := match s.chunkLocations.lookup chunkId with
    | some locations =>
        { s with
          chunkLocations := s.chunkLocations.insert chunkId (locations.erase s.localNodeId) }
    | none => s
  let s := s.updatePeer s.localNodeId fun peer =>
    { peer with availableChunks := peer.availableChunks.erase chunkId }
  s.broadcastChunkRemove chunkId

/-! ## Gossip messages -/

/-- `create_gossip_message`: the location index is copied as it is, keyed by
chunk. -/
def createGossipMessage (s : NodeDiscovery) (type : GossipMessageType) :
    GossipMessage × NodeDiscovery :=
  let (now, s) := s.currentMillis
  let msg : GossipMessage :=
    { type := type
      sourceNodeId := s.localNodeId
      timestamp := now
      chunkMap := s.chunkLocations }
  match type with
  | .stateSync =>
      let (active, s) := filterActive true s.peers.entries s
      ({ msg with
        peerUpdates := active.foldl (fun m entry => m.insert entry.1 entry.2) ∅ }, s)
  | .nodeJoin | .nodeLeave =>
      match s.peers.lookup s.localNodeId with
      | some peer => ({ msg with peerUpdates := AList.singleton s.localNodeId peer }, s)
      | none => (msg, s)
  | .chunkAnnounce | .chunkRemove | .unknown _ _ => (msg, s)

/-- Record one peer of a message.  A join stamps it with the receiver's clock,
a state sync keeps the sender's stamp. -/
def mergePeer (stamp : Bool) (s : NodeDiscovery) (peerId : Bytes) (peer : PeerNode) :
    NodeDiscovery :=
  if peerId = s.localNodeId then s
  else
    let isNew := (s.peers.lookup peerId).isNone
    let (peer, s) :=
      if stamp then
        let (now, s) := s.currentSeconds
        ({ peer with lastSeen := now }, s)
      else (peer, s)
    { s with peers := s.peers.insert peerId peer }.notifyDiscovered isNew peer

def handleNodeJoin (s : NodeDiscovery) (msg : GossipMessage) : NodeDiscovery :=
  msg.peerUpdates.entries.foldl (fun s entry => s.mergePeer true entry.1 entry.2) s

def handleNodeLeave (s : NodeDiscovery) (msg : GossipMessage) : NodeDiscovery :=
  s.removePeer msg.sourceNodeId

/-- `chunk_locations[chunk].insert(node_id)` for every listed chunk. -/
def addLocations (s : NodeDiscovery) (nodeId : Bytes) (chunks : List Bytes) :
    NodeDiscovery :=
  { s with
    chunkLocations := chunks.foldl (fun m chunk => insertAt m chunk nodeId) s.chunkLocations }

def handleChunkAnnounce (s : NodeDiscovery) (msg : GossipMessage) : NodeDiscovery :=
  msg.chunkMap.entries.foldl
    (fun s entry =>
      if entry.1 = s.localNodeId then s
      else
        (s.addLocations entry.1 entry.2.toList).updatePeer entry.1 fun peer =>
          { peer with availableChunks := peer.availableChunks.insertAll entry.2.toList })
    s

def handleChunkRemove (s : NodeDiscovery) (msg : GossipMessage) : NodeDiscovery :=
  msg.chunkMap.entries.foldl
    (fun s entry =>
      if entry.1 = s.localNodeId then s
      else
        let s := { s with
          chunkLocations := entry.2.toList.foldl
            (fun m chunk =>
              match m.lookup chunk with
              | some locations => m.insert chunk (locations.erase entry.1)
              | none => m)
            s.chunkLocations }
        s.updatePeer entry.1 fun peer =>
          { peer with
            availableChunks := entry.2.toList.foldl HashSet.erase peer.availableChunks })
    s

/-- The part of `handle_state_sync` that merges the locations: the map is read
as keyed by node. -/
def mergeLocations (s : NodeDiscovery) (chunkMap : AList fun _ : Bytes => HashSet Bytes) :
    NodeDiscovery :=
  chunkMap.entries.foldl
    (fun s entry =>
      if entry.1 = s.localNodeId then s else s.addLocations entry.1 entry.2.toList)
    s

def handleStateSync (s : NodeDiscovery) (msg : GossipMessage) : NodeDiscovery :=
  let s := msg.peerUpdates.entries.foldl
    (fun s entry => s.mergePeer false entry.1 entry.2) s
  let s := s.mergeLocations msg.chunkMap
  match msg.chunkMap.lookup msg.sourceNodeId with
  | some chunks =>
      s.updatePeer msg.sourceNodeId fun peer => { peer with availableChunks := chunks }
  | none => s

def handleGossipMessage (s : NodeDiscovery) (msg : GossipMessage) : NodeDiscovery :=
  if s.isMessageSeen msg then s
  else
    let s := s.markMessageSeen msg
    match msg.type with
    | .nodeJoin => s.handleNodeJoin msg
    | .nodeLeave => s.handleNodeLeave msg
    | .chunkAnnounce => s.handleChunkAnnounce msg
    | .chunkRemove => s.handleChunkRemove msg
    | .stateSync => s.handleStateSync msg
    | .unknown _ _ => s

/-! ## Runs -/

inductive Op where
  | register (garbage : UInt64 × UInt64) (localNode : PeerNode)
  | unregister
  | addPeer (peer : PeerNode)
  | removePeer (nodeId : Bytes)
  | announce (chunkId : Bytes)
  | removeAnnouncement (chunkId : Bytes)
  | cleanup
  | gossip (msg : GossipMessage)
  deriving DecidableEq

def apply (s : NodeDiscovery) : Op → NodeDiscovery
  | .register garbage localNode => s.registerNode garbage localNode
  | .unregister => s.unregisterNode
  | .addPeer peer => s.addPeer peer
  | .removePeer nodeId => s.removePeer nodeId
  | .announce chunkId => s.announceChunk chunkId
  | .removeAnnouncement chunkId => s.removeChunkAnnouncement chunkId
  | .cleanup => s.cleanupStalePeers
  | .gossip msg => s.handleGossipMessage msg

end NodeDiscovery

end ElioP2P.P2P
