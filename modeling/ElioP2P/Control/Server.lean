import ElioP2P.Library.Bytes
import ElioP2P.Library.Maps

/-!
# The control plane server

The node registry and the chunk index of `src/control/server.cpp`, with the
handlers that register a node and take its chunk reports.  Every handler runs
under one lock.  JSON bodies are taken as already read.
-/

namespace ElioP2P.Control

open ElioP2P.Library

/-! ## Request paths -/

/-- The node id in a path, as each handler reads it: what stands between the
fifteenth character behind the start of `"/api/v1/nodes/"` and the first
`suffix` from there on.  Empty if there is no such part. -/
def nodeIdFromPath (suffix reqPath : Bytes) : Bytes :=
  match find reqPath (ascii "/api/v1/nodes/") 0 with
  | none => []
  | some nodesPos =>
      let start := nodesPos + 15
      match find reqPath suffix start with
      | none => []
      | some stop => substr reqPath start (stop - start)

def heartbeatNodeId : Bytes → Bytes := nodeIdFromPath (ascii "/heartbeat")

def chunksNodeId : Bytes → Bytes := nodeIdFromPath (ascii "/chunks")

def commandsNodeId : Bytes → Bytes := nodeIdFromPath (ascii "/commands")

def ackNodeId : Bytes → Bytes := nodeIdFromPath (ascii "/commands/ack")

/-! ## The registry -/

structure NodeRegistration where
  nodeId : Bytes
  address : Bytes
  p2pPort : UInt16 := 0
  httpPort : UInt16 := 0
  memoryCapacityMb : UInt64 := 0
  diskCapacityMb : UInt64 := 0
  availableChunks : List Bytes := []

/-- What is kept about a node; `chunks` is its last report. -/
structure NodeInfo where
  registration : NodeRegistration
  lastHeartbeatTime : UInt64 := 0
  online : Bool := false
  chunks : List Bytes := []

/-- `is_node_active`, with the setting and the time that it reads. -/
def NodeInfo.isActive (heartbeatTimeoutSec : UInt32) (now : UInt64) (node : NodeInfo) : Bool :=
  now - node.lastHeartbeatTime ≤ heartbeatTimeoutSec.toUInt64

structure ControlPlaneServer where
  maxNodes : Nat
  nodes : AList (fun _ : Bytes => NodeInfo)
  chunkIndex : AList (fun _ : Bytes => HashSet Bytes)

namespace ControlPlaneServer

def new (maxNodes : Nat) : ControlPlaneServer := ⟨maxNodes, ∅, ∅⟩

/-- `update_chunk_index_locked` -/
def updateChunkIndex (s : ControlPlaneServer) (nodeId : Bytes) (chunkIds : List Bytes)
    (add : Bool) : ControlPlaneServer :=
  if add then
    { s with
      chunkIndex := chunkIds.foldl (fun m chunkId => insertAt m chunkId nodeId) s.chunkIndex }
  else
    { s with
      chunkIndex := chunkIds.foldl (fun m chunkId => eraseAt m chunkId nodeId) s.chunkIndex }

/-- `POST /api/v1/nodes`: whether the node is registered now.  A node that is
known keeps its last report. -/
def registerNode (s : ControlPlaneServer) (now : UInt64) (reg : NodeRegistration) :
    Bool × ControlPlaneServer :=
  match s.nodes.lookup reg.nodeId with
  | some info =>
      let info := { info with registration := reg, lastHeartbeatTime := now, online := true }
      let s := { s with nodes := s.nodes.insert reg.nodeId info }
      (true, s.updateChunkIndex reg.nodeId reg.availableChunks true)
  | none =>
      if s.maxNodes ≤ s.nodes.keys.length then (false, s)
      else
        let info : NodeInfo := { registration := reg, lastHeartbeatTime := now, online := true }
        let s := { s with nodes := s.nodes.insert reg.nodeId info }
        (true, s.updateChunkIndex reg.nodeId reg.availableChunks true)

/-- `PUT /api/v1/nodes/:node_id/chunks`: whether the report was taken. -/
def reportChunks (s : ControlPlaneServer) (nodeId : Bytes) (chunkIds : List Bytes) :
    Bool × ControlPlaneServer :=
  match s.nodes.lookup nodeId with
  | none => (false, s)
  | some info =>
      let s := s.updateChunkIndex nodeId info.chunks false
      let s := s.updateChunkIndex nodeId chunkIds true
      (true, { s with nodes := s.nodes.insert nodeId { info with chunks := chunkIds } })

inductive Op where
  | register (now : UInt64) (reg : NodeRegistration)
  | reportChunks (nodeId : Bytes) (chunkIds : List Bytes)

def apply (s : ControlPlaneServer) : Op → ControlPlaneServer
  | .register now reg => (s.registerNode now reg).2
  | .reportChunks nodeId chunkIds => (s.reportChunks nodeId chunkIds).2

end ControlPlaneServer

end ElioP2P.Control
