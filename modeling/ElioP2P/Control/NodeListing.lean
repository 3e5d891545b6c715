import ElioP2P.Control.Server
import ElioP2P.Library.Json

/-!
# Registering and listing nodes

The JSON bodies of `register_node` and `query_nodes` in `src/control/client.cpp`
and of the two handlers behind them in `src/control/server.cpp`.  HTTP hands
the bodies over as they are; `none` is an exception.

A number is read by `value(key, 0)`, whose default makes it an `int`: it passes
through 32 bits on its way into a field of any width.
-/

namespace ElioP2P.Control

open ElioP2P.Library

/-- `int` assigned to a `uint16_t`, and to a `uint64_t`. -/
def uint16OfInt (n : Int32) : UInt16 := n.toUInt32.toUInt16

def uint64OfInt (n : Int32) : UInt64 := n.toInt64.toUInt64

/-! ## The client's request and what is read of it -/

/-- The body of `register_node`. -/
def registrationToJson (r : NodeRegistration) : Json :=
  .object
    [(ascii "address", .string r.address),
      (ascii "available_chunks", .array (r.availableChunks.map .string)),
      (ascii "disk_capacity_mb", .unsigned r.diskCapacityMb),
      (ascii "http_port", .unsigned r.httpPort.toUInt64),
      (ascii "memory_capacity_mb", .unsigned r.memoryCapacityMb),
      (ascii "node_id", .string r.nodeId),
      (ascii "p2p_port", .unsigned r.p2pPort.toUInt64)]

/-- The fields of a registration, as the handler reads them from a request and
`query_nodes` from a listed node. -/
def readRegistration (j : Json) : Option NodeRegistration := do
  let nodeId ← j.value Json.getString (ascii "node_id") []
  let address ← j.value Json.getString (ascii "address") []
  let p2pPort ← j.value Json.getInt (ascii "p2p_port") 0
  let httpPort ← j.value Json.getInt (ascii "http_port") 0
  let memoryCapacityMb ← j.value Json.getInt (ascii "memory_capacity_mb") 0
  let diskCapacityMb ← j.value Json.getInt (ascii "disk_capacity_mb") 0
  let availableChunks ← (j.at? (ascii "available_chunks")).elim (some [])
    fun chunks => chunks.items.mapM Json.getString
  some {
    nodeId, address
    p2pPort := uint16OfInt p2pPort
    httpPort := uint16OfInt httpPort
    memoryCapacityMb := uint64OfInt memoryCapacityMb
    diskCapacityMb := uint64OfInt diskCapacityMb
    availableChunks }

def parseJsonBody (text : JsonText) (body : Bytes) : Json :=
  if body.isEmpty then .object [] else (text.parse body).getD (.object [])

/-! ## The server -/

/-- What a heartbeat leaves of a node for the listing.  A hit rate that is not
finite is written as `null`. -/
structure NodeStatus where
  memoryUsedMb : UInt64 := 0
  diskUsedMb : UInt64 := 0
  cacheHitRate : Json := .float 0
  totalChunks : UInt64 := 0
  activeConnections : UInt64 := 0

structure NodeServer where
  registry : ControlPlaneServer
  heartbeatTimeoutSec : UInt32
  statuses : AList (fun _ : Bytes => NodeStatus)

inductive RegisterResponse where
  | created
  | badRequest
  | serviceUnavailable
  /-- An exception has left the handler. -/
  | internalError
  deriving DecidableEq

namespace NodeServer

def new (maxNodes : Nat) (heartbeatTimeoutSec : UInt32) : NodeServer :=
  ⟨ControlPlaneServer.new maxNodes, heartbeatTimeoutSec, ∅⟩

/-- A new node starts with an empty status. -/
def register (s : NodeServer) (now : UInt64) (reg : NodeRegistration) : Bool × NodeServer :=
  let (accepted, registry) := s.registry.registerNode now reg
  let statuses :=
    if accepted && (s.registry.nodes.lookup reg.nodeId).isNone then
      s.statuses.insert reg.nodeId {}
    else s.statuses
  (accepted, { s with registry := registry, statuses := statuses })

/-- `POST /api/v1/nodes` -/
def handleRegister (text : JsonText) (s : NodeServer) (now : UInt64) (body : Bytes) :
    RegisterResponse × NodeServer :=
  let j := parseJsonBody text body
  if (j.at? (ascii "node_id")).isNone || (j.at? (ascii "address")).isNone then (.badRequest, s)
  else
    match readRegistration j with
    | none => (.internalError, s)
    | some reg =>
        let (accepted, s) := s.register now reg
        (if accepted then .created else .serviceUnavailable, s)

/-- `PUT /api/v1/nodes/:node_id/heartbeat` -/
def heartbeat (s : NodeServer) (now : UInt64) (nodeId : Bytes) (status : NodeStatus) :
    Bool × NodeServer :=
  match s.registry.nodes.lookup nodeId with
  | none => (false, s)
  | some info =>
      let info := { info with lastHeartbeatTime := now, online := true }
      (true, { s with
        registry := { s.registry with nodes := s.registry.nodes.insert nodeId info }
        statuses := s.statuses.insert nodeId status })

/-- One node of the listing.  Its chunks are those of the last report. -/
def nodeToJson (s : NodeServer) (now : UInt64) (nodeId : Bytes) (info : NodeInfo) : Json :=
  let status := (s.statuses.lookup nodeId).getD {}
  let isActive := info.isActive s.heartbeatTimeoutSec now
  let whenActive (field : Bytes × Json) : List (Bytes × Json) := if isActive then [field] else []
  .object <|
    whenActive (ascii "active_connections", .unsigned status.activeConnections) ++
    [(ascii "address", .string info.registration.address),
      (ascii "available_chunks", .array (info.chunks.map .string))] ++
    whenActive (ascii "cache_hit_rate", status.cacheHitRate) ++
    [(ascii "disk_capacity_mb", .unsigned info.registration.diskCapacityMb)] ++
    whenActive (ascii "disk_used_mb", .unsigned status.diskUsedMb) ++
    [(ascii "http_port", .unsigned info.registration.httpPort.toUInt64),
      (ascii "memory_capacity_mb", .unsigned info.registration.memoryCapacityMb)] ++
    whenActive (ascii "memory_used_mb", .unsigned status.memoryUsedMb) ++
    [(ascii "node_id", .string info.registration.nodeId),
      (ascii "online", .boolean isActive),
      (ascii "p2p_port", .unsigned info.registration.p2pPort.toUInt64)] ++
    whenActive (ascii "total_chunks", .unsigned status.totalChunks)

def listNodes (s : NodeServer) (now : UInt64) : Json :=
  let nodes := s.registry.nodes.entries
  let active := nodes.countP fun e => e.2.isActive s.heartbeatTimeoutSec now
  .object
    [(ascii "active", .unsigned (UInt64.ofNat active)),
      (ascii "nodes", .array (nodes.map fun e => s.nodeToJson now e.1 e.2)),
      (ascii "total", .unsigned (UInt64.ofNat nodes.length))]

inductive Op where
  | register (now : UInt64) (reg : NodeRegistration)
  | reportChunks (nodeId : Bytes) (chunkIds : List Bytes)
  | heartbeat (now : UInt64) (nodeId : Bytes) (status : NodeStatus)

def apply (s : NodeServer) : Op → NodeServer
  | .register now reg => (s.register now reg).2
  | .reportChunks nodeId chunkIds =>
      { s with registry := (s.registry.reportChunks nodeId chunkIds).2 }
  | .heartbeat now nodeId status => (s.heartbeat now nodeId status).2

def run (maxNodes : Nat) (heartbeatTimeoutSec : UInt32) (ops : List Op) : NodeServer :=
  ops.foldl apply (new maxNodes heartbeatTimeoutSec)

end NodeServer

/-! ## The client -/

/-- `register_node` of a connected client: whether the node was registered.  A
body that cannot be written is not sent. -/
def registerNode (text : JsonText) (s : NodeServer) (now : UInt64) (r : NodeRegistration) :
    Bool × NodeServer :=
  match text.dump (registrationToJson r) with
  | none => (false, s)
  | some body =>
      let (response, s) := s.handleRegister text now body
      (response == .created, s)

def queryNodes (text : JsonText) (s : NodeServer) (now : UInt64) :
    Option (List NodeRegistration) := do
  let response ← text.dump (s.listNodes now)
  let result ← text.parse response
  match result.at? (ascii "nodes") with
  | none => some []
  | some nodes => nodes.items.mapM readRegistration

end ElioP2P.Control
