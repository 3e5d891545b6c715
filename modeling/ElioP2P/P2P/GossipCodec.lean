import ElioP2P.Library.WireFormat
import ElioP2P.P2P.GossipMessage

/-!
# The gossip wire format

`serialize_gossip_message` and `deserialize_gossip_message` of
`src/p2p/node_discovery.cpp`.  Integers are in network order; the two doubles of
a peer record are copied in the byte order of the host.
-/

namespace ElioP2P.P2P

open ElioP2P.Library

def gossipProtocolVersion : UInt32 := 1

def gossipMagic : UInt32 := 0x47505350

/-! ## Encoder -/

def writeDouble (d : Double) : Bytes := littleEndian 8 d.bits.toNat

def serializeChunks (chunks : HashSet Bytes) : Bytes := writeCounted writeString chunks.toList

def serializeChunkEntry (entry : Sigma fun _ : Bytes => HashSet Bytes) : Bytes :=
  writeString entry.1 ++ serializeChunks entry.2

/-- A peer record is written under the key of its map entry. -/
def serializePeerEntry (entry : Sigma fun _ : Bytes => PeerNode) : Bytes :=
  writeString entry.1 ++ (writeString entry.2.address ++
    (writeUInt16 entry.2.port ++ (writeUInt16 entry.2.gossipPort ++
      (writeUInt64 entry.2.lastSeen ++ (writeUInt64 entry.2.availableMemoryMb ++
        (writeUInt64 entry.2.availableDiskMb ++ (writeDouble entry.2.latencyMs ++
          (writeDouble entry.2.throughputMbps ++
            serializeChunks entry.2.availableChunks))))))))

def serializeBody (msg : GossipMessage) : Bytes :=
  writeUInt32 msg.type.toUInt32 ++ (writeString msg.sourceNodeId ++
    (writeUInt64 msg.timestamp ++ (writeCounted serializeChunkEntry msg.chunkMap.entries ++
      writeCounted serializePeerEntry msg.peerUpdates.entries)))

def serializeGossipMessage (msg : GossipMessage) : Bytes :=
  writeUInt32 gossipMagic ++ (writeUInt32 gossipProtocolVersion ++ serializeBody msg)

/-! ## Decoder -/

open Decoder

def readDouble : Decoder Double := readFixed 8 fun bytes => ⟨UInt64.ofNat (littleEndianValue bytes)⟩

def readChunks : Decoder (HashSet Bytes) :=
  readCounted (fun chunks => do
    let chunk ← readString
    pure (chunks.insert chunk)) ∅

def readChunkEntry (chunkMap : AList fun _ : Bytes => HashSet Bytes) :
    Decoder (AList fun _ : Bytes => HashSet Bytes) := do
  let nodeId ← readString
  let chunks ← readChunks
  pure (chunkMap.insert nodeId chunks)

def readPeerEntry (peerUpdates : AList fun _ : Bytes => PeerNode) :
    Decoder (AList fun _ : Bytes => PeerNode) := do
  let nodeId ← readString
  let address ← readString
  let port ← readUInt16
  let gossipPort ← readUInt16
  let lastSeen ← readUInt64
  let availableMemoryMb ← readUInt64
  let availableDiskMb ← readUInt64
  let latencyMs ← readDouble
  let throughputMbps ← readDouble
  let availableChunks ← readChunks
  pure (peerUpdates.insert nodeId
    { nodeId, address, port, gossipPort, lastSeen, availableMemoryMb, availableDiskMb,
      latencyMs, throughputMbps, availableChunks })

def deserializeBody : Decoder GossipMessage := do
  let type ← readUInt32
  let sourceNodeId ← readString
  let timestamp ← readUInt64
  let chunkMap ← readCounted readChunkEntry ∅
  let peerUpdates ← readCounted readPeerEntry ∅
  pure { type := .ofUInt32 type, sourceNodeId, timestamp, chunkMap, peerUpdates }

def deserializeChecked : Decoder GossipMessage := do
  let magic ← readUInt32
  if magic ≠ gossipMagic then reject
  else
    let version ← readUInt32
    if version ≠ gossipProtocolVersion then reject else deserializeBody

def deserializeGossipMessage (data : Bytes) : Outcome GossipMessage :=
  if data.length < 12 then .rejected
  else
    match deserializeChecked data 0 with
    | .ok (msg, _) => .ok msg
    | .rejected => .rejected
    | .outOfBounds => .outOfBounds

end ElioP2P.P2P
