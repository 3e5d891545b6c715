import ElioP2P.Control.ControlPlane
import ElioP2P.Control.Proofs.ChunkIndex
import ElioP2P.Control.Proofs.Registration

/-!
# What the control plane counts and answers

Nodes are never removed, so the first refusal for want of room is for good.  The
metrics are the numbers of requests that were taken.
-/

namespace ElioP2P.Control

open ElioP2P.Library

theorem status_jsonReply (text : JsonText) (status : Status) (j : Json) :
    (jsonReply text status j).status = status ∨
      (jsonReply text status j).status = .internalError := by
  unfold jsonReply
  split
  · exact Or.inl rfl
  · exact Or.inr rfl

theorem status_jsonReply_ne {text : JsonText} {status other : Status} {j : Json}
    (hother : other ≠ .internalError) (hne : status ≠ other) :
    (jsonReply text status j).status ≠ other := by
  rcases status_jsonReply text status j with h | h
  · rw [h]
    exact hne
  · rw [h]
    exact hother.symm

/-- The request was taken, as far as its answer tells; a query is taken if its
list can be read. -/
def Request.Taken (text : JsonText) (reply : Reply) : Request → Prop
  | .postNodes _ => reply.status = .created
  | .putHeartbeat _ _ | .putChunks _ _ => reply.status = .noContent
  | .postLocations body => (readChunkIds (parseJsonBody text body)).isSome
  | .getNodes | .getMetrics => True
  | .getCommands _ | .postAck _ _ => reply.status = .ok

instance (text : JsonText) (reply : Reply) : ∀ request, Decidable (Request.Taken text reply request)
  | .postNodes _ => inferInstanceAs (Decidable (_ = _))
  | .putHeartbeat _ _ | .putChunks _ _ => inferInstanceAs (Decidable (_ = _))
  | .postLocations _ => inferInstanceAs (Decidable (_ = true))
  | .getNodes | .getMetrics => inferInstanceAs (Decidable True)
  | .getCommands _ | .postAck _ _ => inferInstanceAs (Decidable (_ = _))

namespace ControlPlane

variable {text : JsonText} {narrow : Json → Json} {s s' : ControlPlane} {now : UInt64}
  {request : Request} {reply : Reply}

/-! ## What a handler can do -/

def registered (s : ControlPlane) (now : UInt64) (reg : NodeRegistration) : ControlPlane :=
  let s := { s with server := (s.server.register now reg).2 }
  { s with metrics := { s.metrics with totalNodes := UInt64.ofNat s.nodeCount } }

def heard (s : ControlPlane) (now : UInt64) (nodeId : Bytes) (status : NodeStatus) :
    ControlPlane where
  server := (s.server.heartbeat now nodeId status).2
  pendingCommands := s.pendingCommands
  metrics := { s.metrics with totalHeartbeats := s.metrics.totalHeartbeats + 1 }

def told (s : ControlPlane) (nodeId : Bytes) (chunkIds : List Bytes) : ControlPlane where
  server := { s.server with registry := (s.server.registry.reportChunks nodeId chunkIds).2 }
  pendingCommands := s.pendingCommands
  metrics := { s.metrics with totalChunkReports := s.metrics.totalChunkReports + 1 }

inductive Served (text : JsonText) (s : ControlPlane) (now : UInt64) :
    Request → Reply → ControlPlane → Prop
  | refused {request : Request} {reply : Reply} (htaken : ¬ request.Taken text reply)
      (hfull : reply.status = .serviceUnavailable → s.server.registry.maxNodes ≤ s.nodeCount) :
      Served text s now request reply s
  | interrupted {path body : Bytes} {statuses : AList fun _ : Bytes => NodeStatus} :
      Served text s now (.putHeartbeat path body) { status := .internalError }
        { s with server := { s.server with statuses } }
  | registered {body : Bytes} {reply : Reply} {reg : NodeRegistration}
      (hread : readRegistration (parseJsonBody text body) = some reg)
      (haccepted : (s.server.register now reg).1 = true)
      (hstatus : reply.status ≠ .serviceUnavailable) :
      Served text s now (.postNodes body) reply (s.registered now reg)
  | heard {path body : Bytes} {info : NodeInfo} {status : NodeStatus}
      (hknown : s.server.registry.nodes.lookup (heartbeatNodeId path) = some info) :
      Served text s now (.putHeartbeat path body) { status := .noContent }
        (s.heard now (heartbeatNodeId path) status)
  | told {path body : Bytes} {info : NodeInfo} {chunkIds : List Bytes}
      (hread : readChunkIds (parseJsonBody text body) = some chunkIds)
      (hknown : s.server.registry.nodes.lookup (chunksNodeId path) = some info) :
      Served text s now (.putChunks path body) { status := .noContent }
        (s.told (chunksNodeId path) chunkIds)
  | listed {request : Request} {reply : Reply}
      (hlists : request = .getNodes ∨ request = .getMetrics)
      (hstatus : reply.status ≠ .serviceUnavailable) :
      Served text s now request reply (s.counted now)
  | queried {body : Bytes} {reply : Reply} {chunkIds : List Bytes}
      (hread : readChunkIds (parseJsonBody text body) = some chunkIds)
      (hstatus : reply.status ≠ .serviceUnavailable) :
      Served text s now (.postLocations body) reply
        { s with metrics := { s.metrics with totalQueries := s.metrics.totalQueries + 1 } }
  | fetched {path : Bytes} {commands : List ReplicationCommand} {server : CommandServer}
      (hget : s.commandServer.getCommands now (commandsNodeId path) = (.ok commands, server)) :
      Served text s now (.getCommands path) (jsonReply text .ok (commandsToJson commands))
        { s with pendingCommands := server.pendingCommands }
  | acked {path body commandId : Bytes} {reply : Reply} {server : CommandServer}
      (hack : s.commandServer.ackCommand (ackNodeId path) commandId = (true, server))
      (hstatus : reply.status ≠ .serviceUnavailable) :
      Served text s now (.postAck path body) reply
        { s with pendingCommands := server.pendingCommands }

theorem Served.of_error {status : Status} {j : Json} (hstatus : status ≠ .serviceUnavailable)
    (htaken : ¬ request.Taken text (jsonReply text status j)) :
    Served text s now request (jsonReply text status j) s :=
  .refused htaken fun hfull => absurd hfull (status_jsonReply_ne (by decide) hstatus)

theorem full_of_refused {reg : NodeRegistration} (h : (s.server.register now reg).1 = false) :
    s.server.registry.maxNodes ≤ s.nodeCount := by
  have hrefused : (s.server.registry.registerNode now reg).1 = false := h
  unfold ControlPlaneServer.registerNode at hrefused
  split at hrefused
  · cases hrefused
  · split at hrefused
    · assumption
    · cases hrefused

theorem served_handleRegister (body : Bytes) :
    Served text s now (.postNodes body) (s.handleRegister text now body).1
      (s.handleRegister text now body).2 := by
  unfold handleRegister NodeServer.handleRegister
  simp only []
  split_ifs with hfields
  · exact .of_error (by decide) (status_jsonReply_ne (by decide) (by decide))
  · cases hread : readRegistration (parseJsonBody text body) with
    | none => exact .refused (by simp [Request.Taken]) (by simp)
    | some reg =>
        cases haccepted : (s.server.register now reg).1 with
        | true =>
            simp only [haccepted, if_true]
            exact .registered hread haccepted (status_jsonReply_ne (by decide) (by decide))
        | false =>
            simp only [haccepted, Bool.false_eq_true, if_false]
            refine .refused ?_ fun _ => full_of_refused haccepted
            exact status_jsonReply_ne (by decide) (by decide)

theorem served_handleHeartbeat (path body : Bytes) :
    Served text s now (.putHeartbeat path body) (s.handleHeartbeat text narrow now path body).1
      (s.handleHeartbeat text narrow now path body).2 := by
  unfold handleHeartbeat
  simp only []
  split_ifs with hempty
  · exact .of_error (by decide) (status_jsonReply_ne (by decide) (by decide))
  · cases hknown : s.server.registry.nodes.lookup (heartbeatNodeId path) with
    | none => exact .of_error (by decide) (status_jsonReply_ne (by decide) (by decide))
    | some info =>
        simp only []
        split
        · exact .heard hknown
        · exact .interrupted

theorem served_handleChunks (path body : Bytes) :
    Served text s now (.putChunks path body) (s.handleChunks text path body).1
      (s.handleChunks text path body).2 := by
  unfold handleChunks
  simp only []
  split_ifs with hempty hmissing
  · exact .of_error (by decide) (status_jsonReply_ne (by decide) (by decide))
  · exact .of_error (by decide) (status_jsonReply_ne (by decide) (by decide))
  · cases hread : readChunkIds (parseJsonBody text body) with
    | none => exact .refused (by simp [Request.Taken]) (by simp)
    | some chunkIds =>
        have hreport : ∀ info, s.server.registry.nodes.lookup (chunksNodeId path) = some info →
            (s.server.registry.reportChunks (chunksNodeId path) chunkIds).1 = true := by
          intro info hknown
          simp [ControlPlaneServer.reportChunks, hknown]
        cases hknown : s.server.registry.nodes.lookup (chunksNodeId path) with
        | none =>
            simp only [ControlPlaneServer.reportChunks, hknown]
            exact .of_error (by decide) (status_jsonReply_ne (by decide) (by decide))
        | some info =>
            have htrue := hreport info hknown
            simp only []
            split
            · rename_i hreported
              rw [hreported] at htrue
              cases htrue
            · rename_i registry hreported
              have hregistry : registry =
                  (s.server.registry.reportChunks (chunksNodeId path) chunkIds).2 := by
                rw [hreported]
              subst hregistry
              exact .told hread hknown

theorem served_handleLocations (body : Bytes) :
    Served text s now (.postLocations body) (s.handleLocations text body).1
      (s.handleLocations text body).2 := by
  unfold handleLocations
  simp only []
  split_ifs with hmissing
  · apply Served.of_error (by decide)
    simp [Request.Taken, readChunkIds, Option.isNone_iff_eq_none.mp hmissing]
  · cases hread : readChunkIds (parseJsonBody text body) with
    | none => exact .refused (by simp [Request.Taken, hread]) (by simp)
    | some chunkIds => exact .queried hread (status_jsonReply_ne (by decide) (by decide))

theorem served_handleCommands (path : Bytes) :
    Served text s now (.getCommands path) (s.handleCommands text now path).1
      (s.handleCommands text now path).2 := by
  unfold handleCommands
  simp only []
  rcases hget : s.commandServer.getCommands now (commandsNodeId path) with
    ⟨badRequest | notFound | commands, server⟩
  · exact .of_error (by decide) (status_jsonReply_ne (by decide) (by decide))
  · exact .of_error (by decide) (status_jsonReply_ne (by decide) (by decide))
  · exact .fetched hget

theorem served_handleAck (path body : Bytes) :
    Served text s now (.postAck path body) (s.handleAck text path body).1
      (s.handleAck text path body).2 := by
  unfold handleAck
  cases (parseJsonBody text body).value Json.getString (ascii "command_id") [] with
  | none => exact .refused (by simp [Request.Taken]) (by simp)
  | some commandId =>
      simp only []
      rcases hack : s.commandServer.ackCommand (ackNodeId path) commandId with
        ⟨refused | acked, server⟩
      · exact .of_error (by decide) (status_jsonReply_ne (by decide) (by decide))
      · exact .acked hack (status_jsonReply_ne (by decide) (by decide))

theorem served (request : Request) :
    Served text s now request (s.handle text narrow now request).1
      (s.handle text narrow now request).2 := by
  cases request with
  | postNodes body => exact served_handleRegister body
  | putHeartbeat path body => exact served_handleHeartbeat path body
  | putChunks path body => exact served_handleChunks path body
  | getNodes => exact .listed (Or.inl rfl) (status_jsonReply_ne (by decide) (by decide))
  | postLocations body => exact served_handleLocations body
  | getMetrics => exact .listed (Or.inr rfl) (status_jsonReply_ne (by decide) (by decide))
  | getCommands path => exact served_handleCommands path
  | postAck path body => exact served_handleAck path body

/-! ## Nodes stay -/

structure Grows (r r' : ControlPlaneServer) : Prop where
  maxNodes : r'.maxNodes = r.maxNodes
  kept : ∀ nodeId ∈ r.nodes, nodeId ∈ r'.nodes
  count : r.nodes.keys.length ≤ r'.nodes.keys.length
  room : r.nodes.keys.length ≤ r.maxNodes → r'.nodes.keys.length ≤ r.maxNodes

theorem Grows.refl (r : ControlPlaneServer) : Grows r r :=
  ⟨rfl, fun _ h => h, Nat.le_refl _, fun h => h⟩

theorem Grows.of_update {r r' : ControlPlaneServer} {nodeId : Bytes} {info info' : NodeInfo}
    (hknown : r.nodes.lookup nodeId = some info) (hmax : r'.maxNodes = r.maxNodes)
    (hnodes : r'.nodes = r.nodes.insert nodeId info') : Grows r r' := by
  have hmem : nodeId ∈ r.nodes := AList.lookup_isSome.mp (by rw [hknown]; rfl)
  have hcount := length_keys_insert_of_mem hmem info'
  rw [← hnodes] at hcount
  refine ⟨hmax, fun other hother => ?_, hcount.ge, fun h => hcount.trans_le h⟩
  rw [hnodes]
  exact (AList.mem_insert _).mpr (Or.inr hother)

theorem maxNodes_updateChunkIndex (r : ControlPlaneServer) (nodeId : Bytes)
    (chunkIds : List Bytes) (add : Bool) :
    (r.updateChunkIndex nodeId chunkIds add).maxNodes = r.maxNodes := by
  unfold ControlPlaneServer.updateChunkIndex
  split <;> rfl

theorem grows_registerNode (r : ControlPlaneServer) (now : UInt64) (reg : NodeRegistration) :
    Grows r (r.registerNode now reg).2 := by
  unfold ControlPlaneServer.registerNode
  cases hlookup : r.nodes.lookup reg.nodeId with
  | some info =>
      exact .of_update hlookup (maxNodes_updateChunkIndex _ _ _ _)
        (NodeServer.nodes_updateChunkIndex _ _ _ _)
  | none =>
      simp only []
      split
      · exact .refl r
      · rename_i hroom
        have hnew : reg.nodeId ∉ r.nodes := AList.lookup_eq_none.mp hlookup
        have hcount := length_keys_insert_of_notMem hnew
          ({ registration := reg, lastHeartbeatTime := now, online := true } : NodeInfo)
        refine ⟨maxNodes_updateChunkIndex _ _ _ _, ?_, ?_, ?_⟩ <;>
          simp only [NodeServer.nodes_updateChunkIndex]
        · exact fun other hother => (AList.mem_insert _).mpr (Or.inr hother)
        · omega
        · omega

theorem grows_heartbeat (server : NodeServer) (now : UInt64) (nodeId : Bytes)
    (status : NodeStatus) :
    Grows server.registry (server.heartbeat now nodeId status).2.registry := by
  unfold NodeServer.heartbeat
  cases hlookup : server.registry.nodes.lookup nodeId with
  | none => exact .refl _
  | some info => exact .of_update hlookup rfl rfl

theorem grows_reportChunks (r : ControlPlaneServer) (nodeId : Bytes) (chunkIds : List Bytes) :
    Grows r (r.reportChunks nodeId chunkIds).2 := by
  unfold ControlPlaneServer.reportChunks
  cases hlookup : r.nodes.lookup nodeId with
  | none => exact .refl r
  | some info =>
      have hnodes : ((r.updateChunkIndex nodeId info.chunks false).updateChunkIndex nodeId
          chunkIds true).nodes = r.nodes := by
        rw [NodeServer.nodes_updateChunkIndex, NodeServer.nodes_updateChunkIndex]
      have hmax : ((r.updateChunkIndex nodeId info.chunks false).updateChunkIndex nodeId
          chunkIds true).maxNodes = r.maxNodes := by
        rw [maxNodes_updateChunkIndex, maxNodes_updateChunkIndex]
      exact .of_update hlookup hmax (congrArg (AList.insert nodeId _) hnodes)

theorem Served.grows (h : Served text s now request reply s') :
    Grows s.server.registry s'.server.registry := by
  cases h with
  | refused | interrupted | listed | queried | fetched | acked => exact .refl _
  | registered hread haccepted hstatus => exact grows_registerNode _ _ _
  | heard hknown => exact grows_heartbeat _ _ _ _
  | told hread hknown => exact grows_reportChunks _ _ _

theorem mem_of_accepted {server : NodeServer} {reg : NodeRegistration}
    (h : (server.register now reg).1 = true) :
    reg.nodeId ∈ (server.register now reg).2.registry.nodes := by
  obtain ⟨hrefused, -⟩ | ⟨-, info, -, -, hnodes⟩ := server.register_cases now reg
  · rw [hrefused] at h
    cases h
  · rw [hnodes]
    exact (AList.mem_insert _).mpr (Or.inl rfl)

/-! ## What the metrics say -/

def serve (text : JsonText) (narrow : Json → Json) (logged : List (Request × Reply) × ControlPlane)
    (timed : UInt64 × Request) : List (Request × Reply) × ControlPlane :=
  let (reply, s) := logged.2.handle text narrow timed.1 timed.2
  (logged.1 ++ [(timed.2, reply)], s)

def run (text : JsonText) (narrow : Json → Json) (maxNodes heartbeatTimeoutSec : UInt32)
    (requests : List (UInt64 × Request)) : List (Request × Reply) × ControlPlane :=
  requests.foldl (serve text narrow) ([], new maxNodes heartbeatTimeoutSec)

end ControlPlane

def Request.isHeartbeat : Request → Bool
  | .putHeartbeat _ _ => true
  | _ => false

def Request.isReport : Request → Bool
  | .putChunks _ _ => true
  | _ => false

def Request.isQuery : Request → Bool
  | .postLocations _ => true
  | _ => false

def takenCount (text : JsonText) (kind : Request → Bool) (log : List (Request × Reply)) : Nat :=
  log.countP fun e => kind e.1 && decide (e.1.Taken text e.2)

theorem takenCount_append (text : JsonText) (kind : Request → Bool) (log : List (Request × Reply))
    (request : Request) (reply : Reply) :
    takenCount text kind (log ++ [(request, reply)]) = takenCount text kind log +
      if kind request && decide (request.Taken text reply) then 1 else 0 := by
  rw [takenCount, List.countP_append, List.countP_singleton]
  rfl

namespace ControlPlane

variable {text : JsonText} {narrow : Json → Json} {s s' : ControlPlane} {now : UInt64}
  {request : Request} {reply : Reply} {log : List (Request × Reply)}

structure Tallied (text : JsonText) (limit : UInt32) (log : List (Request × Reply))
    (s : ControlPlane) : Prop where
  maxNodes : s.server.registry.maxNodes = limit.toNat
  totalNodes : s.metrics.totalNodes.toNat = s.nodeCount
  room : s.nodeCount ≤ limit.toNat
  activeNodes : s.metrics.activeNodes ≤ s.metrics.totalNodes
  heartbeats : s.metrics.totalHeartbeats = UInt64.ofNat (takenCount text Request.isHeartbeat log)
  reports : s.metrics.totalChunkReports = UInt64.ofNat (takenCount text Request.isReport log)
  queries : s.metrics.totalQueries = UInt64.ofNat (takenCount text Request.isQuery log)
  uncounted : s.metrics.commandsIssued = 0 ∧ s.metrics.replicationDecisions = 0
  idle : s.pendingCommands = ∅
  unissued : ∀ path reply, (.getCommands path, reply) ∈ log → reply.status = .ok →
    reply = jsonReply text .ok (commandsToJson [])
  members : ∀ body reply, (.postNodes body, reply) ∈ log → reply.status = .created →
    ∃ reg, readRegistration (parseJsonBody text body) = some reg ∧
      reg.nodeId ∈ s.server.registry.nodes
  full : ∀ request reply, (request, reply) ∈ log → reply.status = .serviceUnavailable →
    s.nodeCount = limit.toNat

theorem tallied_new (text : JsonText) (limit heartbeatTimeoutSec : UInt32) :
    Tallied text limit [] (new limit heartbeatTimeoutSec) where
  maxNodes := rfl
  totalNodes := rfl
  room := Nat.zero_le _
  activeNodes := UInt64.le_refl _
  heartbeats := rfl
  reports := rfl
  queries := rfl
  uncounted := ⟨rfl, rfl⟩
  idle := rfl
  unissued _ _ h := nomatch h
  members _ _ h := nomatch h
  full _ _ h := nomatch h

theorem nodeCount_heard {nodeId : Bytes} {info : NodeInfo} (status : NodeStatus)
    (hknown : s.server.registry.nodes.lookup nodeId = some info) :
    (s.heard now nodeId status).nodeCount = s.nodeCount := by
  have hmem : nodeId ∈ s.server.registry.nodes := AList.lookup_isSome.mp (by rw [hknown]; rfl)
  simp only [nodeCount, heard, NodeServer.heartbeat, hknown]
  exact length_keys_insert_of_mem hmem _

theorem nodeCount_told {nodeId : Bytes} {info : NodeInfo} (chunkIds : List Bytes)
    (hknown : s.server.registry.nodes.lookup nodeId = some info) :
    (s.told nodeId chunkIds).nodeCount = s.nodeCount := by
  have hmem : nodeId ∈ s.server.registry.nodes := AList.lookup_isSome.mp (by rw [hknown]; rfl)
  simp only [nodeCount, told, ControlPlaneServer.reportChunks, hknown,
    NodeServer.nodes_updateChunkIndex]
  exact length_keys_insert_of_mem hmem _

theorem activeNodeCount_le (s : ControlPlane) (now : UInt64) :
    s.activeNodeCount now ≤ s.nodeCount := by
  have hkeys : s.nodeCount = s.server.registry.nodes.entries.length := List.length_map _
  rw [hkeys]
  exact List.countP_le_length

/-! ### The counters -/

/-- Each counter goes up by one when a request of its kind is taken. -/
theorem counters_of_served (h : Served text s now request reply s') :
    (s'.metrics.totalHeartbeats = s.metrics.totalHeartbeats +
        if request.isHeartbeat && decide (request.Taken text reply) then 1 else 0) ∧
      (s'.metrics.totalChunkReports = s.metrics.totalChunkReports +
        if request.isReport && decide (request.Taken text reply) then 1 else 0) ∧
      s'.metrics.totalQueries = s.metrics.totalQueries +
        if request.isQuery && decide (request.Taken text reply) then 1 else 0 := by
  cases h with
  | refused htaken hfull => simp [htaken]
  | interrupted => simp [Request.isHeartbeat, Request.isReport, Request.isQuery, Request.Taken]
  | registered hread haccepted hstatus =>
      simp [Request.isHeartbeat, Request.isReport, Request.isQuery, registered]
  | heard hknown =>
      simp [Request.isHeartbeat, Request.isReport, Request.isQuery, Request.Taken, heard]
  | told hread hknown =>
      simp [Request.isHeartbeat, Request.isReport, Request.isQuery, Request.Taken, told]
  | listed hlists hstatus =>
      rcases hlists with rfl | rfl <;>
        simp [Request.isHeartbeat, Request.isReport, Request.isQuery, counted]
  | queried hread hstatus =>
      simp [Request.isHeartbeat, Request.isReport, Request.isQuery, Request.Taken, hread]
  | fetched | acked => simp [Request.isHeartbeat, Request.isReport, Request.isQuery]

theorem tally_append {counter counter' : UInt64} {kind : Request → Bool}
    (h : counter = UInt64.ofNat (takenCount text kind log))
    (hstep : counter' =
      counter + if kind request && decide (request.Taken text reply) then 1 else 0) :
    counter' = UInt64.ofNat (takenCount text kind (log ++ [(request, reply)])) := by
  rw [hstep, h, takenCount_append, UInt64.ofNat_add]
  split <;> rfl

/-! ### Commands -/

theorem getCommands_of_idle {server server' : CommandServer} {nodeId : Bytes}
    {commands : List ReplicationCommand} (hidle : server.pendingCommands = ∅)
    (h : server.getCommands now nodeId = (.ok commands, server')) :
    commands = [] ∧ server' = server := by
  have hpending : server.pendingCommands.lookup nodeId = none := by rw [hidle]; rfl
  unfold CommandServer.getCommands at h
  rw [hpending] at h
  split_ifs at h
  · cases h
  · split at h <;> cases h
    exact ⟨rfl, rfl⟩

theorem ackCommand_of_idle {server server' : CommandServer} {nodeId commandId : Bytes}
    {answered : Bool} (hidle : server.pendingCommands = ∅)
    (h : server.ackCommand nodeId commandId = (answered, server')) : server' = server := by
  have hpending : server.pendingCommands.lookup nodeId = none := by rw [hidle]; rfl
  unfold CommandServer.ackCommand at h
  rw [hpending] at h
  split_ifs at h <;> cases h <;> rfl

theorem idle_of_served (hidle : s.pendingCommands = ∅) (h : Served text s now request reply s') :
    s'.pendingCommands = ∅ := by
  cases h with
  | refused | interrupted | registered | heard | told | listed | queried => exact hidle
  | fetched hget =>
      rw [(getCommands_of_idle hidle hget).2]
      exact hidle
  | acked hack hstatus =>
      rw [ackCommand_of_idle hidle hack]
      exact hidle

/-! ### The registry -/

theorem toNat_nodeCount {limit : UInt32} (h : s.nodeCount ≤ limit.toNat) :
    (UInt64.ofNat s.nodeCount).toNat = s.nodeCount := by
  have hlimit := limit.toNat_lt
  exact UInt64.toNat_ofNat_of_lt' (by change s.nodeCount < 2 ^ 64; omega)

theorem totalNodes_of_served {limit : UInt32} (htotal : s.metrics.totalNodes.toNat = s.nodeCount)
    (hroom : s'.nodeCount ≤ limit.toNat) (h : Served text s now request reply s') :
    s'.metrics.totalNodes.toNat = s'.nodeCount := by
  cases h with
  | refused | interrupted | queried | fetched | acked => exact htotal
  | registered hread haccepted hstatus => exact toNat_nodeCount hroom
  | heard hknown =>
      rw [nodeCount_heard _ hknown]
      exact htotal
  | told hread hknown =>
      rw [nodeCount_told _ hknown]
      exact htotal
  | listed hlists hstatus => exact toNat_nodeCount hroom

theorem activeNodes_of_served {limit : UInt32} (hlimit : s'.nodeCount ≤ limit.toNat)
    (htotal : s.metrics.totalNodes.toNat = s.nodeCount)
    (hactive : s.metrics.activeNodes ≤ s.metrics.totalNodes)
    (h : Served text s now request reply s') : s'.metrics.activeNodes ≤ s'.metrics.totalNodes := by
  have hcount := h.grows.count
  cases h with
  | refused | interrupted | heard | told | queried | fetched | acked => exact hactive
  | registered hread haccepted hstatus =>
      rw [UInt64.le_iff_toNat_le] at hactive ⊢
      have htotal' := toNat_nodeCount hlimit
      calc s.metrics.activeNodes.toNat
          ≤ s.nodeCount := htotal ▸ hactive
        _ ≤ _ := hcount
        _ = _ := htotal'.symm
  | listed hlists hstatus =>
      have hle := s.activeNodeCount_le now
      have hsmall := limit.toNat_lt
      change s.nodeCount ≤ limit.toNat at hlimit
      rw [UInt64.le_iff_toNat_le]
      simp only [counted]
      rw [toNat_nodeCount hlimit, UInt64.toNat_ofNat_of_lt']
      · exact hle
      · change s.activeNodeCount now < 2 ^ 64
        omega

theorem Tallied.step {limit : UInt32} (h : Tallied text limit log s)
    (hserved : Served text s now request reply s') :
    Tallied text limit (log ++ [(request, reply)]) s' := by
  have hgrows := hserved.grows
  have hmax : s'.server.registry.maxNodes = limit.toNat := hgrows.maxNodes.trans h.maxNodes
  have hroom : s'.nodeCount ≤ limit.toNat := by
    have hroom := hgrows.room (h.maxNodes ▸ h.room)
    rwa [h.maxNodes] at hroom
  obtain ⟨hheartbeats, hreports, hqueries⟩ := counters_of_served hserved
  exact {
    maxNodes := hmax
    totalNodes := totalNodes_of_served h.totalNodes hroom hserved
    room := hroom
    activeNodes := activeNodes_of_served hroom h.totalNodes h.activeNodes hserved
    heartbeats := tally_append h.heartbeats hheartbeats
    reports := tally_append h.reports hreports
    queries := tally_append h.queries hqueries
    uncounted := by
      cases hserved <;> exact h.uncounted
    idle := idle_of_served h.idle hserved
    unissued := by
      intro path answer hmem hok
      rcases List.mem_append.mp hmem with hold | hnew
      · exact h.unissued path answer hold hok
      · cases List.mem_singleton.mp hnew
        cases hserved with
        | refused htaken hfull => exact absurd hok htaken
        | listed hlists hstatus => rcases hlists with hlists | hlists <;> cases hlists
        | fetched hget => rw [(getCommands_of_idle h.idle hget).1]
    members := by
      intro body answer hmem hcreated
      rcases List.mem_append.mp hmem with hold | hnew
      · obtain ⟨reg, hread, hknown⟩ := h.members body answer hold hcreated
        exact ⟨reg, hread, hgrows.kept _ hknown⟩
      · cases List.mem_singleton.mp hnew
        cases hserved with
        | refused htaken hfull => exact absurd hcreated htaken
        | registered hread haccepted hstatus => exact ⟨_, hread, mem_of_accepted haccepted⟩
        | listed hlists hstatus => rcases hlists with hlists | hlists <;> cases hlists
    full := by
      intro other answer hmem hstatus
      apply le_antisymm hroom
      rcases List.mem_append.mp hmem with hold | hnew
      · exact (h.full other answer hold hstatus).ge.trans hgrows.count
      · cases List.mem_singleton.mp hnew
        cases hserved with
        | refused htaken hfull => exact h.maxNodes ▸ hfull hstatus
        | interrupted | heard | told => cases hstatus
        | registered hread haccepted hne => exact absurd hstatus hne
        | listed hlists hne => exact absurd hstatus hne
        | queried hread hne => exact absurd hstatus hne
        | fetched hget => exact absurd hstatus (status_jsonReply_ne (by decide) (by decide))
        | acked hack hne => exact absurd hstatus hne }

/-- After any requests, whatever their bodies: the counters are the numbers of
requests that were taken, no node is ever lost or given a command, and a node is
refused only once the registry is full, which it then stays. -/
theorem tallied_run (text : JsonText) (narrow : Json → Json) (limit heartbeatTimeoutSec : UInt32)
    (requests : List (UInt64 × Request)) :
    Tallied text limit (run text narrow limit heartbeatTimeoutSec requests).1
      (run text narrow limit heartbeatTimeoutSec requests).2 := by
  apply List.foldlRecOn
    (motive := fun logged : List (Request × Reply) × ControlPlane =>
      Tallied text limit logged.1 logged.2)
    requests (serve text narrow) (tallied_new text limit heartbeatTimeoutSec)
  intro logged h timed _
  exact h.step (served timed.2)

end ControlPlane

end ElioP2P.Control
