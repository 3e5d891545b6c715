import ElioP2P.P2P.GossipServer
import ElioP2P.P2P.Proofs.PeerTable
import Mathlib.Algebra.Order.BigOperators.Group.List

/-!
# How long gossip messages get

A receiver drops what is longer than `MAX_MESSAGE_SIZE`, and no sender looks at
that limit.  The four broadcasts carry a fixed number of ids, so they stay short
unless an id is long.  A state sync carries the whole location index and every
active peer with its chunks; its length is that of the tables.
-/

namespace ElioP2P.P2P

open ElioP2P.Library

/-! ## Encoded lengths -/

def chunksSize (chunks : HashSet Bytes) : Nat :=
  4 + (chunks.toList.map fun chunk => 4 + chunk.length).sum

def chunkEntrySize (entry : Sigma fun _ : Bytes => HashSet Bytes) : Nat :=
  4 + entry.1.length + chunksSize entry.2

def peerEntrySize (entry : Sigma fun _ : Bytes => PeerNode) : Nat :=
  52 + entry.1.length + entry.2.address.length + chunksSize entry.2.availableChunks

theorem length_serializeChunks (chunks : HashSet Bytes) :
    (serializeChunks chunks).length = chunksSize chunks := by
  simp only [serializeChunks, length_writeCounted, length_writeString, chunksSize]

theorem length_serializeChunkEntry (entry : Sigma fun _ : Bytes => HashSet Bytes) :
    (serializeChunkEntry entry).length = chunkEntrySize entry := by
  rw [serializeChunkEntry, List.length_append, length_writeString, length_serializeChunks,
    chunkEntrySize]

theorem length_serializePeerEntry (entry : Sigma fun _ : Bytes => PeerNode) :
    (serializePeerEntry entry).length = peerEntrySize entry := by
  simp only [serializePeerEntry, writeUInt16, writeUInt64, writeDouble, List.length_append,
    length_bigEndian, length_littleEndian, length_writeString, length_serializeChunks,
    peerEntrySize]
  omega

theorem length_serializeGossipMessage (msg : GossipMessage) :
    (serializeGossipMessage msg).length =
      32 + msg.sourceNodeId.length + (msg.chunkMap.entries.map chunkEntrySize).sum +
        (msg.peerUpdates.entries.map peerEntrySize).sum := by
  have hchunks := funext length_serializeChunkEntry
  have hpeers := funext length_serializePeerEntry
  simp only [serializeGossipMessage, serializeBody, writeUInt32, writeUInt64, List.length_append,
    length_bigEndian, length_writeString, length_writeCounted, hchunks, hpeers]
  omega

namespace NodeDiscovery

/-! ## What is sent -/

def listedPeers (s : NodeDiscovery) : List (Sigma fun _ : Bytes => PeerNode) :=
  (filterActive true s.peers.entries s.currentMillis.2).1

def stateSyncSize (s : NodeDiscovery) : Nat :=
  32 + s.localNodeId.length + (s.chunkLocations.entries.map chunkEntrySize).sum +
    (s.listedPeers.map peerEntrySize).sum

theorem filterActive_sublist (wanted : Bool) (entries : List (Sigma fun _ : Bytes => PeerNode))
    (s : NodeDiscovery) : (filterActive wanted entries s).1.Sublist entries := by
  induction entries generalizing s with
  | nil => exact List.Sublist.refl []
  | cons entry entries ih =>
      simp only [filterActive]
      split
      · exact (ih _).cons_cons entry
      · exact (ih _).cons entry

theorem length_stateSync (s : NodeDiscovery) :
    (serializeGossipMessage (s.createGossipMessage .stateSync).1).length = s.stateSyncSize := by
  have hnodup : s.listedPeers.NodupKeys :=
    s.peers.nodupKeys.sublist (filterActive_sublist true _ _)
  have hentries := entries_foldl_insert hnodup ∅ (fun e _ => AList.notMem_empty e.1)
  have hsum : ((s.createGossipMessage .stateSync).1.peerUpdates.entries.map peerEntrySize).sum =
      (s.listedPeers.map peerEntrySize).sum := by
    change ((s.listedPeers.foldl (fun m e => AList.insert e.1 e.2 m) ∅).entries.map
      peerEntrySize).sum = _
    rw [hentries]
    change ((s.listedPeers.reverse ++ []).map peerEntrySize).sum = _
    rw [List.append_nil, List.map_reverse, List.sum_reverse]
  rw [length_serializeGossipMessage, hsum]
  rfl

def joinMessage (garbage : UInt64 × UInt64) (s : NodeDiscovery) : GossipMessage where
  type := .nodeJoin
  sourceNodeId := s.localNodeId
  timestamp := s.currentMillis.1
  peerUpdates := AList.singleton s.localNodeId
    { nodeId := s.localNodeId
      address := s.localNodeAddress
      port := s.localNodePort
      lastSeen := s.currentMillis.1 / 1000
      availableMemoryMb := garbage.1
      availableDiskMb := garbage.2 }

def announceMessage (chunkId : Bytes) (s : NodeDiscovery) : GossipMessage where
  type := .chunkAnnounce
  sourceNodeId := s.localNodeId
  timestamp := s.currentMillis.1
  chunkMap := insertAt ∅ s.localNodeId chunkId

def bareMessage (type : GossipMessageType) (s : NodeDiscovery) : GossipMessage where
  type := type
  sourceNodeId := s.localNodeId
  timestamp := s.currentMillis.1

theorem broadcastNodeJoin_eq (garbage : UInt64 × UInt64) (s : NodeDiscovery) :
    s.broadcastNodeJoin garbage =
      if s.localNodeId.isEmpty || !s.gossipRunning then s
      else s.currentMillis.2.sendToSubset 2 (fun peer => peer.nodeId != s.localNodeId)
        (s.joinMessage garbage) :=
  rfl

theorem broadcastNodeLeave_eq (s : NodeDiscovery) :
    s.broadcastNodeLeave =
      if s.localNodeId.isEmpty then s
      else s.currentMillis.2.sendToSubset 2 (fun peer => peer.nodeId != s.localNodeId)
        (s.bareMessage .nodeLeave) :=
  rfl

theorem broadcastChunkAnnounce_eq (s : NodeDiscovery) (chunkId : Bytes) :
    s.broadcastChunkAnnounce chunkId =
      if s.localNodeId.isEmpty || !s.gossipRunning then s
      else s.currentMillis.2.sendToSubset 3 (fun _ => true) (s.announceMessage chunkId) :=
  rfl

theorem broadcastChunkRemove_eq (s : NodeDiscovery) (chunkId : Bytes) :
    s.broadcastChunkRemove chunkId =
      if s.localNodeId.isEmpty || !s.gossipRunning then s
      else s.currentMillis.2.sendToSubset 3 (fun _ => true) (s.bareMessage .chunkRemove) :=
  rfl

/-! ## The limit -/

theorem length_joinMessage (garbage : UInt64 × UInt64) (s : NodeDiscovery) :
    (serializeGossipMessage (s.joinMessage garbage)).length =
      88 + 2 * s.localNodeId.length + s.localNodeAddress.length := by
  rw [length_serializeGossipMessage]
  change 32 + s.localNodeId.length + 0 +
    (52 + s.localNodeId.length + s.localNodeAddress.length + 4 + 0) = _
  omega

theorem length_announceMessage (chunkId : Bytes) (s : NodeDiscovery) :
    (serializeGossipMessage (s.announceMessage chunkId)).length =
      44 + 2 * s.localNodeId.length + chunkId.length := by
  rw [length_serializeGossipMessage]
  change 32 + s.localNodeId.length +
    (4 + s.localNodeId.length + (4 + (4 + chunkId.length + 0)) + 0) + 0 = _
  omega

theorem length_bareMessage (type : GossipMessageType) (s : NodeDiscovery) :
    (serializeGossipMessage (s.bareMessage type)).length = 32 + s.localNodeId.length := by
  rw [length_serializeGossipMessage]
  rfl

def Fits (msg : GossipMessage) : Prop := (serializeGossipMessage msg).length ≤ maxMessageSize

def Gossips (s : NodeDiscovery) : Prop := s.localNodeId ≠ [] ∧ s.gossipRunning = true

structure MessagesFit (garbage : UInt64 × UInt64) (chunkId : Bytes) (s : NodeDiscovery) :
    Prop where
  stateSync : Fits (s.createGossipMessage .stateSync).1
  nodeJoin : s.Gossips → Fits (s.joinMessage garbage)
  nodeLeave : s.localNodeId ≠ [] → Fits (s.bareMessage .nodeLeave)
  chunkAnnounce : s.Gossips → Fits (s.announceMessage chunkId)
  chunkRemove : s.Gossips → Fits (s.bareMessage .chunkRemove)

/-- Whatever has happened before: the messages fit exactly if the tables are
small, and the ids are short. -/
theorem messagesFit_iff (start : NodeDiscovery) (ops : List Op) (garbage : UInt64 × UInt64)
    (chunkId : Bytes) :
    let s := ops.foldl apply start
    MessagesFit garbage chunkId s ↔
      s.stateSyncSize ≤ maxMessageSize ∧
        (s.Gossips →
          88 + 2 * s.localNodeId.length + s.localNodeAddress.length ≤ maxMessageSize ∧
          44 + 2 * s.localNodeId.length + chunkId.length ≤ maxMessageSize) := by
  intro s
  constructor
  · intro h
    refine ⟨?_, fun hgossips => ⟨?_, ?_⟩⟩
    · rw [← length_stateSync]
      exact h.stateSync
    · rw [← length_joinMessage garbage]
      exact h.nodeJoin hgossips
    · rw [← length_announceMessage]
      exact h.chunkAnnounce hgossips
  · rintro ⟨hsync, hids⟩
    have hbare : ∀ type, Fits (s.bareMessage type) := by
      intro type
      rw [Fits, length_bareMessage]
      rw [stateSyncSize] at hsync
      omega
    refine ⟨?_, fun hgossips => ?_, fun _ => hbare _, fun hgossips => ?_, fun _ => hbare _⟩
    · rw [Fits, length_stateSync]
      exact hsync
    · rw [Fits, length_joinMessage]
      exact (hids hgossips).1
    · rw [Fits, length_announceMessage]
      exact (hids hgossips).2

/-! ## Many chunks -/

theorem keys_cleanupStalePeers (s : NodeDiscovery) :
    s.cleanupStalePeers.chunkLocations.keys = s.chunkLocations.keys := by
  have hforget : ∀ (s : NodeDiscovery) (entry : Sigma fun _ : Bytes => PeerNode),
      (s.forgetPeer entry.1).chunkLocations.keys = s.chunkLocations.keys := by
    intro s entry
    exact keys_mapValues _ s.chunkLocations
  calc
    s.cleanupStalePeers.chunkLocations.keys
        = (filterActive false s.peers.entries s).2.chunkLocations.keys :=
      foldl_frame (fun s : NodeDiscovery => s.chunkLocations.keys) hforget _ _
    _ = s.chunkLocations.keys := by
      rw [(sameTables_filterActive false s.peers.entries s).chunkLocations]

theorem keys_broadcastChunkAnnounce (s : NodeDiscovery) (chunkId : Bytes) :
    (s.broadcastChunkAnnounce chunkId).chunkLocations.keys = s.chunkLocations.keys := by
  have hpeers : ∀ s : NodeDiscovery,
      s.getAllPeers.2.chunkLocations.keys = s.chunkLocations.keys := by
    intro s
    rw [← keys_cleanupStalePeers s]
    exact congrArg AList.keys (sameTables_filterActive true _ s.cleanupStalePeers).chunkLocations
  rw [broadcastChunkAnnounce_eq]
  split
  · rfl
  · unfold sendToSubset
    simp only
    split <;> exact hpeers s.currentMillis.2

theorem mem_keys_announceChunk {s : NodeDiscovery} (hid : s.localNodeId ≠ [])
    (chunkId k : Bytes) :
    k ∈ (s.announceChunk chunkId).chunkLocations.keys ↔
      k = chunkId ∨ k ∈ s.chunkLocations.keys := by
  unfold announceChunk
  rw [if_neg (by simpa using hid)]
  simp only [keys_broadcastChunkAnnounce]
  exact AList.mem_insert _

theorem subset_keys_announceAll {s : NodeDiscovery} (hid : s.localNodeId ≠ [])
    (chunks : List Bytes) :
    s.chunkLocations.keys ++ chunks ⊆
      ((chunks.map Op.announce).foldl apply s).chunkLocations.keys := by
  induction chunks generalizing s with
  | nil => simp
  | cons chunk chunks ih =>
      have hid' : (s.announceChunk chunk).localNodeId ≠ [] := by
        rw [localNodeId_announceChunk]
        exact hid
      refine List.Subset.trans (fun k hk => ?_) (ih hid')
      rw [List.mem_append, apply, mem_keys_announceChunk hid]
      simp only [List.mem_append, List.mem_cons] at hk
      grind

theorem eight_mul_le_stateSyncSize {s : NodeDiscovery} {chunks : List Bytes}
    (hnodup : chunks.Nodup) (hsub : chunks ⊆ s.chunkLocations.keys) :
    32 + 8 * chunks.length ≤ s.stateSyncSize := by
  have hlength : chunks.length ≤ s.chunkLocations.entries.length := by
    have hle := (List.subperm_of_subset hnodup hsub).length_le
    rwa [AList.keys, List.keys, List.length_map] at hle
  have hsum : s.chunkLocations.entries.length * 8 ≤
      (s.chunkLocations.entries.map chunkEntrySize).sum := by
    have hle := List.card_nsmul_le_sum (s.chunkLocations.entries.map chunkEntrySize) 8 ?_
    · simpa using hle
    · intro size hsize
      obtain ⟨entry, -, rfl⟩ := List.mem_map.mp hsize
      rw [chunkEntrySize, chunksSize]
      omega
  rw [stateSyncSize]
  omega

/-- A node that serves 8192 chunks, which is 128 GiB with chunks of 16 MiB. -/
def manyChunks : List Bytes := (List.range 8192).map fun i => ascii "object_" ++ decimal i

def manyAnnouncements : List Op :=
  .register (0, 0) { nodeId := ascii "A" } :: manyChunks.map .announce

theorem not_messagesFit_manyChunks :
    ¬ MessagesFit (0, 0) []
      (manyAnnouncements.foldl apply (.new 50 (fun _ => 0) (fun _ => 0) fun _ => .id)) := by
  intro hfit
  have hnodup : manyChunks.Nodup := by
    refine List.Nodup.map ?_ List.nodup_range
    intro i j h
    exact decimal_injective (List.append_cancel_left h)
  have hsub : manyChunks ⊆ (manyAnnouncements.foldl apply
      (.new 50 (fun _ => 0) (fun _ => 0) fun _ => .id)).chunkLocations.keys := by
    rw [manyAnnouncements, List.foldl_cons]
    exact List.Subset.trans (List.subset_append_right _ _)
      (subset_keys_announceAll (by decide) manyChunks)
  have hsize := eight_mul_le_stateSyncSize hnodup hsub
  have hlimit := hfit.stateSync
  rw [Fits, length_stateSync] at hlimit
  have hcount : manyChunks.length = 8192 := by rw [manyChunks, List.length_map, List.length_range]
  rw [hcount] at hsize
  have hmax : maxMessageSize = 65536 := rfl
  omega

end NodeDiscovery

end ElioP2P.P2P
