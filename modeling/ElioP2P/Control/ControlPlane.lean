import ElioP2P.Control.Commands
import ElioP2P.Control.NodeListing

/-!
# The control plane

The handlers of `src/control/server.cpp` with the answers that they give and the
metrics that they count, and the calls of `src/control/client.cpp` that they
answer.  HTTP hands requests and answers over as they are.
-/

namespace ElioP2P.Control

open ElioP2P.Library

/-! ## Answers -/

inductive Status where
  | ok
  | created
  | noContent
  | badRequest
  | notFound
  | serviceUnavailable
  /-- An exception has left the handler. -/
  | internalError
  deriving DecidableEq

structure Reply where
  status : Status
  body : Bytes := []
  deriving DecidableEq

def jsonReply (text : JsonText) (status : Status) (j : Json) : Reply :=
  match text.dump j with
  | some body => { status := status, body := body }
  | none => { status := .internalError }

def errorReply (text : JsonText) (status : Status) (message : Bytes) : Reply :=
  jsonReply text status (.object [(ascii "error", .string message)])

/-! ## The status of a node -/

/-- `j.get<bool>()` -/
def getBoolean : Json → Option Bool
  | .boolean value => some value
  | _ => none

/-- `j.get<double>()`; the value is not used. -/
def getDouble : Json → Option Unit
  | .unsigned _ | .integer _ | .float _ => some ()
  | _ => none

/-- `j.get<float>()`, by `static_cast`; a boolean is a number to it.  `narrow` is
what a number is written as once it has been a `float`. -/
def getFloat (narrow : Json → Json) : Json → Option Json
  | .null | .string _ | .array _ | .object _ => none
  | j => some (narrow j)

/-- An assignment from `body.value(key, default)`.  If that throws, the
assignments before it stay. -/
def assign {α : Type} (value : Option α) (set : α → NodeStatus → NodeStatus) :
    ExceptT Unit (StateM NodeStatus) Unit :=
  match value with
  | some value => modify (set value)
  | none => throw ()

/-- The assignments of a heartbeat, in their order.  Nothing reads the fields
that `NodeStatus` does not have. -/
def assignStatus (narrow : Json → Json) (body : Json) :
    ExceptT Unit (StateM NodeStatus) Unit := do
  assign (body.value getBoolean (ascii "online") true) fun _ status => status
  assign (body.value Json.getInt (ascii "memory_used_mb") 0) fun n status =>
    { status with memoryUsedMb := uint64OfInt n }
  assign (body.value Json.getInt (ascii "disk_used_mb") 0) fun n status =>
    { status with diskUsedMb := uint64OfInt n }
  assign (body.value (getFloat narrow) (ascii "cache_hit_rate") (.float 0)) fun rate status =>
    { status with cacheHitRate := rate }
  assign (body.value Json.getInt (ascii "total_chunks") 0) fun n status =>
    { status with totalChunks := uint64OfInt n }
  assign (body.value Json.getInt (ascii "active_connections") 0) fun n status =>
    { status with activeConnections := uint64OfInt n }
  assign (body.value getDouble (ascii "upload_speed_mbps") ()) fun _ status => status
  assign (body.value getDouble (ascii "download_speed_mbps") ()) fun _ status => status
  assign (body.value Json.getInt (ascii "timestamp") 0) fun _ status => status

/-! ## The server -/

/-- Nothing counts commands or decisions. -/
structure ControlPlaneServerMetrics where
  totalNodes : UInt64 := 0
  activeNodes : UInt64 := 0
  totalHeartbeats : UInt64 := 0
  totalChunkReports : UInt64 := 0
  totalQueries : UInt64 := 0
  commandsIssued : UInt64 := 0
  replicationDecisions : UInt64 := 0
  deriving DecidableEq

structure ChunkLocation where
  chunkId : Bytes
  peerIds : List Bytes
  deriving DecidableEq

/-- Nothing here puts a command into `pendingCommands`. -/
structure ControlPlane where
  server : NodeServer
  pendingCommands : AList (fun _ : Bytes => List PendingCommand) := ∅
  metrics : ControlPlaneServerMetrics := {}

/-- A request that the router takes to a handler, with the body and, where the
handler reads it, the path. -/
inductive Request where
  | postNodes (body : Bytes)
  | putHeartbeat (path body : Bytes)
  | putChunks (path body : Bytes)
  | getNodes
  | postLocations (body : Bytes)
  | getMetrics
  | getCommands (path : Bytes)
  | postAck (path body : Bytes)
  deriving DecidableEq

def readChunkIds (j : Json) : Option (List Bytes) :=
  (j.at? (ascii "chunk_ids")).bind fun chunks => chunks.items.mapM Json.getString

namespace ControlPlane

variable (text : JsonText) (narrow : Json → Json)

def new (maxNodes : UInt32) (heartbeatTimeoutSec : UInt32) : ControlPlane where
  server := .new maxNodes.toNat heartbeatTimeoutSec

/-- `get_node_count` -/
def nodeCount (s : ControlPlane) : Nat := s.server.registry.nodes.keys.length

/-- `get_active_node_count` -/
def activeNodeCount (s : ControlPlane) (now : UInt64) : Nat :=
  s.server.registry.nodes.entries.countP fun e => e.2.isActive s.server.heartbeatTimeoutSec now

/-- `POST /api/v1/nodes` -/
def handleRegister (s : ControlPlane) (now : UInt64) (body : Bytes) : Reply × ControlPlane :=
  match s.server.handleRegister text now body with
  | (.created, server) =>
      let s := { s with server := server }
      let nodeId := ((parseJsonBody text body).value Json.getString (ascii "node_id") []).getD []
      (jsonReply text .created (.object
        [(ascii "message", .string (ascii "Node registered successfully")),
          (ascii "node_id", .string nodeId),
          (ascii "success", .boolean true)]),
        { s with metrics := { s.metrics with totalNodes := UInt64.ofNat s.nodeCount } })
  | (.badRequest, _) =>
      (errorReply text .badRequest (ascii "Missing required fields: node_id, address"), s)
  | (.serviceUnavailable, _) =>
      (errorReply text .serviceUnavailable (ascii "Maximum node limit reached"), s)
  | (.internalError, _) => ({ status := .internalError }, s)

/-- `PUT /api/v1/nodes/:node_id/heartbeat` -/
def handleHeartbeat (s : ControlPlane) (now : UInt64) (path body : Bytes) :
    Reply × ControlPlane :=
  let nodeId := heartbeatNodeId path
  if nodeId.isEmpty then (errorReply text .badRequest (ascii "Invalid path"), s)
  else
    match s.server.registry.nodes.lookup nodeId with
    | none => (errorReply text .notFound (ascii "Node not found: " ++ nodeId), s)
    | some _ =>
        let status := (s.server.statuses.lookup nodeId).getD {}
        match (assignStatus narrow (parseJsonBody text body)).run.run status with
        | (.ok (), status) =>
            ({ status := .noContent },
              { s with
                server := (s.server.heartbeat now nodeId status).2
                metrics := { s.metrics with
                  totalHeartbeats := s.metrics.totalHeartbeats + 1 } })
        | (.error (), status) =>
            let statuses := s.server.statuses.insert nodeId status
            ({ status := .internalError }, { s with server := { s.server with statuses } })

/-- `PUT /api/v1/nodes/:node_id/chunks` -/
def handleChunks (s : ControlPlane) (path body : Bytes) : Reply × ControlPlane :=
  let nodeId := chunksNodeId path
  if nodeId.isEmpty then (errorReply text .badRequest (ascii "Invalid path"), s)
  else
    let j := parseJsonBody text body
    if (j.at? (ascii "chunk_ids")).isNone then
      (errorReply text .badRequest (ascii "Missing chunk_ids"), s)
    else
      match readChunkIds j with
      | none => ({ status := .internalError }, s)
      | some chunkIds =>
          match s.server.registry.reportChunks nodeId chunkIds with
          | (false, _) => (errorReply text .notFound (ascii "Node not found: " ++ nodeId), s)
          | (true, registry) =>
              ({ status := .noContent },
                { s with
                  server := { s.server with registry }
                  metrics := { s.metrics with
                    totalChunkReports := s.metrics.totalChunkReports + 1 } })

def counted (s : ControlPlane) (now : UInt64) : ControlPlane :=
  { s with metrics := { s.metrics with
      totalNodes := UInt64.ofNat s.nodeCount
      activeNodes := UInt64.ofNat (s.activeNodeCount now) } }

/-- `GET /api/v1/nodes` -/
def handleNodes (s : ControlPlane) (now : UInt64) : Reply × ControlPlane :=
  (jsonReply text .ok (s.server.listNodes now), s.counted now)

def queryChunkLocations (s : ControlPlane) (chunkIds : List Bytes) : List ChunkLocation :=
  chunkIds.map fun chunkId =>
    { chunkId
      peerIds := (s.server.registry.chunkIndex.lookup chunkId).elim [] HashSet.toList }

def locationToJson (location : ChunkLocation) : Json :=
  .object
    [(ascii "chunk_id", .string location.chunkId),
      (ascii "peer_ids", .array (location.peerIds.map .string))]

def locationsToJson (locations : List ChunkLocation) : Json :=
  .object [(ascii "locations", .array (locations.map locationToJson))]

/-- `POST /api/v1/chunks/locations`, which looks up each chunk as
`query_chunk_locations` does. -/
def handleLocations (s : ControlPlane) (body : Bytes) : Reply × ControlPlane :=
  let j := parseJsonBody text body
  if (j.at? (ascii "chunk_ids")).isNone then
    (errorReply text .badRequest (ascii "Missing chunk_ids"), s)
  else
    match readChunkIds j with
    | none => ({ status := .internalError }, s)
    | some chunkIds =>
        (jsonReply text .ok (locationsToJson (s.queryChunkLocations chunkIds)),
          { s with metrics := { s.metrics with totalQueries := s.metrics.totalQueries + 1 } })

def metricsToJson (s : ControlPlane) : Json :=
  .object
    [(ascii "active_nodes", .unsigned s.metrics.activeNodes),
      (ascii "commands_issued", .unsigned s.metrics.commandsIssued),
      (ascii "replication_decisions", .unsigned s.metrics.replicationDecisions),
      (ascii "total_chunk_reports", .unsigned s.metrics.totalChunkReports),
      (ascii "total_chunks",
        .unsigned (UInt64.ofNat s.server.registry.chunkIndex.keys.length)),
      (ascii "total_heartbeats", .unsigned s.metrics.totalHeartbeats),
      (ascii "total_nodes", .unsigned s.metrics.totalNodes),
      (ascii "total_queries", .unsigned s.metrics.totalQueries)]

/-- `GET /api/v1/metrics` -/
def handleMetrics (s : ControlPlane) (now : UInt64) : Reply × ControlPlane :=
  let s := s.counted now
  (jsonReply text .ok s.metricsToJson, s)

def commandServer (s : ControlPlane) : CommandServer where
  registry := s.server.registry
  pendingCommands := s.pendingCommands

def commandToJson (cmd : ReplicationCommand) : Json :=
  .object
    [(ascii "action", .string cmd.action),
      (ascii "chunk_id", .string cmd.chunkId),
      (ascii "command_id", .string cmd.commandId),
      (ascii "created_at", .unsigned cmd.createdAt),
      (ascii "priority", .unsigned cmd.priority.toUInt64),
      (ascii "source_node_id", .string cmd.sourceNodeId),
      (ascii "target_node_id", .string cmd.targetNodeId)]

def commandsToJson (commands : List ReplicationCommand) : Json :=
  .object [(ascii "commands", .array (commands.map commandToJson))]

/-- `GET /api/v1/nodes/:node_id/commands` -/
def handleCommands (s : ControlPlane) (now : UInt64) (path : Bytes) : Reply × ControlPlane :=
  let nodeId := commandsNodeId path
  match s.commandServer.getCommands now nodeId with
  | (.badRequest, _) => (errorReply text .badRequest (ascii "Invalid path"), s)
  | (.notFound, _) => (errorReply text .notFound (ascii "Node not found: " ++ nodeId), s)
  | (.ok commands, server) =>
      (jsonReply text .ok (commandsToJson commands),
        { s with pendingCommands := server.pendingCommands })

/-- `POST /api/v1/nodes/:node_id/commands/ack` -/
def handleAck (s : ControlPlane) (path body : Bytes) : Reply × ControlPlane :=
  match (parseJsonBody text body).value Json.getString (ascii "command_id") [] with
  | none => ({ status := .internalError }, s)
  | some commandId =>
      match s.commandServer.ackCommand (ackNodeId path) commandId with
      | (false, _) =>
          (errorReply text .badRequest (ascii "node_id and command_id are required"), s)
      | (true, server) =>
          (jsonReply text .ok (.object [(ascii "status", .string (ascii "ok"))]),
            { s with pendingCommands := server.pendingCommands })

def handle (s : ControlPlane) (now : UInt64) : Request → Reply × ControlPlane
  | .postNodes body => s.handleRegister text now body
  | .putHeartbeat path body => s.handleHeartbeat text narrow now path body
  | .putChunks path body => s.handleChunks text path body
  | .getNodes => s.handleNodes text now
  | .postLocations body => s.handleLocations text body
  | .getMetrics => s.handleMetrics text now
  | .getCommands path => s.handleCommands text now path
  | .postAck path body => s.handleAck text path body

end ControlPlane

/-! ## The client -/

/-- What `send_heartbeat` is given. -/
structure OwnStatus where
  nodeId : Bytes
  online : Bool := true
  status : NodeStatus := {}
  uploadSpeedMbps : Json := .float 0
  downloadSpeedMbps : Json := .float 0

/-- The body of `send_heartbeat`, with the time in milliseconds. -/
def heartbeatToJson (own : OwnStatus) (timestamp : Int64) : Json :=
  .object
    [(ascii "active_connections", .unsigned own.status.activeConnections),
      (ascii "cache_hit_rate", own.status.cacheHitRate),
      (ascii "disk_used_mb", .unsigned own.status.diskUsedMb),
      (ascii "download_speed_mbps", own.downloadSpeedMbps),
      (ascii "memory_used_mb", .unsigned own.status.memoryUsedMb),
      (ascii "node_id", .string own.nodeId),
      (ascii "online", .boolean own.online),
      (ascii "timestamp", .integer timestamp),
      (ascii "total_chunks", .unsigned own.status.totalChunks),
      (ascii "upload_speed_mbps", own.uploadSpeedMbps)]

/-- The body of `report_chunks` and of `query_chunk_locations`. -/
def chunkIdsToJson (chunkIds : List Bytes) : Json :=
  .object [(ascii "chunk_ids", .array (chunkIds.map .string))]

inductive ClientCall where
  | registerNode (registration : NodeRegistration)
  | sendHeartbeat (own : OwnStatus) (timestamp : Int64)
  | reportChunks (nodeId : Bytes) (chunkIds : List Bytes)
  | queryChunkLocations (chunkIds : List Bytes)
  | queryNodes
  | getMetrics
  | fetchReplicationCommands (nodeId : Bytes)
  | ackCommand (nodeId commandId : Bytes)

def ClientCall.request (text : JsonText) : ClientCall → Option Request
  | .registerNode registration =>
      (text.dump (registrationToJson registration)).map .postNodes
  | .sendHeartbeat own timestamp =>
      (text.dump (heartbeatToJson own timestamp)).map (.putHeartbeat (heartbeatPath own.nodeId))
  | .reportChunks nodeId chunkIds =>
      (text.dump (chunkIdsToJson chunkIds)).map (.putChunks (chunksPath nodeId))
  | .queryChunkLocations chunkIds =>
      (text.dump (chunkIdsToJson chunkIds)).map .postLocations
  | .queryNodes => some .getNodes
  | .getMetrics => some .getMetrics
  | .fetchReplicationCommands nodeId =>
      if nodeId.isEmpty then none else some (.getCommands (commandsPath nodeId))
  | .ackCommand nodeId commandId =>
      if nodeId.isEmpty || commandId.isEmpty then none
      else
        (text.dump (.object [(ascii "command_id", .string commandId)])).map
          (.postAck (ackPath nodeId))

def readLocation (j : Json) : Option ChunkLocation := do
  let chunkId ← j.value Json.getString (ascii "chunk_id") []
  let peerIds ← (j.at? (ascii "peer_ids")).elim (some [])
    fun peers => peers.items.mapM Json.getString
  some { chunkId, peerIds }

/-- What `query_chunk_locations` makes of the answer. -/
def readLocations (text : JsonText) (reply : Reply) : Option (List ChunkLocation) :=
  if reply.status = .ok then do
    let result ← text.parse reply.body
    match result.at? (ascii "locations") with
    | none => some []
    | some locations => locations.items.mapM readLocation
  else none

/-- `query_chunk_locations` of a connected client. -/
def queryChunkLocations (text : JsonText) (s : ControlPlane) (chunkIds : List Bytes) :
    Option (List ChunkLocation) × ControlPlane :=
  match text.dump (chunkIdsToJson chunkIds) with
  | none => (none, s)
  | some body =>
      let (reply, s) := s.handleLocations text body
      (readLocations text reply, s)

structure ControlPlaneMetrics where
  totalNodes : UInt64
  activeNodes : UInt64
  totalChunks : UInt64
  cacheHitRate : UInt64
  deriving DecidableEq

/-- `get_metrics` of a connected client.  The server has no hit rate. -/
def getMetrics (text : JsonText) (s : ControlPlane) (now : UInt64) :
    Option ControlPlaneMetrics × ControlPlane :=
  let (reply, s) := s.handleMetrics text now
  let metrics := if reply.status = .ok then do
      let result ← text.parse reply.body
      let totalNodes ← result.value Json.getInt (ascii "total_nodes") 0
      let activeNodes ← result.value Json.getInt (ascii "active_nodes") 0
      let totalChunks ← result.value Json.getInt (ascii "total_chunks") 0
      let cacheHitRate ← result.value Json.getInt (ascii "cache_hit_rate") 0
      some {
        totalNodes := uint64OfInt totalNodes
        activeNodes := uint64OfInt activeNodes
        totalChunks := uint64OfInt totalChunks
        cacheHitRate := uint64OfInt cacheHitRate }
    else none
  (metrics, s)

end ElioP2P.Control
