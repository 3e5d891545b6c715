import ElioP2P.Library.Bytes
import ElioP2P.Library.Double
import ElioP2P.Library.Maps

/-!
# Peers and gossip messages

The data of `include/eliop2p/p2p/node_discovery.h`.
-/

namespace ElioP2P.P2P

open ElioP2P.Library

structure PeerNode where
  nodeId : Bytes := []
  address : Bytes := []
  port : UInt16 := 0
  gossipPort : UInt16 := 0
  lastSeen : UInt64 := 0
  availableMemoryMb : UInt64 := 0
  availableDiskMb : UInt64 := 0
  latencyMs : Double := .zero
  throughputMbps : Double := .zero
  availableChunks : HashSet Bytes := ∅
  deriving DecidableEq

/-- The message type is read off the wire without a check, so besides the five
enumerators it can be any other 32-bit value. -/
inductive GossipMessageType where
  | nodeJoin
  | nodeLeave
  | chunkAnnounce
  | chunkRemove
  | stateSync
  | unknown (raw : UInt32) (h : 5 ≤ raw)
  deriving DecidableEq

namespace GossipMessageType

def toUInt32 : GossipMessageType → UInt32
  | .nodeJoin => 0
  | .nodeLeave => 1
  | .chunkAnnounce => 2
  | .chunkRemove => 3
  | .stateSync => 4
  | .unknown raw _ => raw

/-- `static_cast<GossipMessageType>` of a 32-bit value. -/
def ofUInt32 (raw : UInt32) : GossipMessageType :=
  if h : 5 ≤ raw then .unknown raw h
  else if raw = 0 then .nodeJoin
  else if raw = 1 then .nodeLeave
  else if raw = 2 then .chunkAnnounce
  else if raw = 3 then .chunkRemove
  else .stateSync

theorem ofUInt32_toUInt32 (t : GossipMessageType) : ofUInt32 t.toUInt32 = t := by
  cases t with
  | unknown raw h => simp [ofUInt32, toUInt32, h]
  | _ => rfl

end GossipMessageType

structure GossipMessage where
  type : GossipMessageType
  sourceNodeId : Bytes
  timestamp : UInt64
  chunkMap : AList (fun _ : Bytes => HashSet Bytes) := ∅
  peerUpdates : AList (fun _ : Bytes => PeerNode) := ∅
  deriving DecidableEq

end ElioP2P.P2P
