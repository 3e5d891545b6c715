import ElioP2P.Control.Proofs.LocationHistory
import ElioP2P.Control.Proofs.NodePaths

/-!
# The clients of a control plane

Any number of clients call, and the control plane serves what they have sent, at
any time and any number of times.  As the handlers lose the first character of a
node id, nothing that a client says of its node reaches it, unless another node
is registered under what is left.
-/

namespace ElioP2P.Control

open ElioP2P.Library

structure ControlSystem where
  plane : ControlPlane
  sent : List Request := []

namespace ControlSystem

inductive Event where
  | call (call : ClientCall)
  | serve (now : UInt64) (request : Nat)

def step (text : JsonText) (narrow : Json → Json) (sys : ControlSystem) :
    Event → Option ControlSystem
  | .call call => (call.request text).map fun request => { sys with sent := sys.sent ++ [request] }
  | .serve now request => do
      let request ← sys.sent[request]?
      some { sys with plane := (sys.plane.handle text narrow now request).2 }

def new (limit heartbeatTimeoutSec : UInt32) : ControlSystem where
  plane := .new limit heartbeatTimeoutSec

def registrations (events : List Event) : List NodeRegistration :=
  events.filterMap fun
    | .call (.registerNode registration) => some registration
    | _ => none

def speakers (events : List Event) : List Bytes :=
  events.filterMap fun
    | .call (.sendHeartbeat own _) => some own.nodeId
    | .call (.reportChunks nodeId _) => some nodeId
    | _ => none

/-- No one is registered under what the handlers make of a speaker's id. -/
def Misheard (events : List Event) : Prop :=
  ∀ nodeId ∈ speakers events, nodeId ≠ [] ∧ 47 ∉ nodeId ∧
    ∀ r ∈ registrations events, r.nodeId ≠ nodeId.tail

instance (events : List Event) : Decidable (Misheard events) :=
  inferInstanceAs (Decidable (∀ nodeId ∈ speakers events, _ ∧ _ ∧ ∀ r ∈ registrations events, _))

variable {text : JsonText} {narrow : Json → Json} {start sys sys' : ControlSystem}
  {events : List Event}

def Registers (text : JsonText) (narrow : Json → Json) (start : ControlSystem)
    (events : List Event) (node : Bytes) (now : UInt64) : Prop :=
  ∃ sys request r body, Taken (step text narrow) start events sys (.serve now request) ∧
    sys.sent[request]? = some (.postNodes body) ∧ r ∈ registrations events ∧ r.nodeId = node ∧
    text.dump (registrationToJson r) = some body

structure Unheard (text : JsonText) (narrow : Json → Json) (start : ControlSystem)
    (events : List Event) (sys : ControlSystem) : Prop where
  sent : ∀ request ∈ sys.sent, ∃ call, .call call ∈ events ∧ call.request text = some request
  heartbeats : sys.plane.metrics.totalHeartbeats = 0
  reports : sys.plane.metrics.totalChunkReports = 0
  nodes : ∀ node info, sys.plane.server.registry.nodes.lookup node = some info →
    info.chunks = [] ∧ Registers text narrow start events node info.lastHeartbeatTime
  located : ∀ chunk node, sys.plane.server.registry.Locates chunk node →
    ∃ r ∈ registrations events, r.nodeId = node ∧ chunk ∈ r.availableChunks

theorem readRegistration_of_dump {r : NodeRegistration} {body : Bytes}
    (hempty : text.parse [] = none) (hlossless : text.Lossless (registrationToJson r))
    (hdump : text.dump (registrationToJson r) = some body) :
    readRegistration (parseJsonBody text body) = some r.received := by
  have hparse : text.parse body = some (registrationToJson r) := by
    rwa [JsonText.Lossless, hdump] at hlossless
  rw [ControlPlane.parseJsonBody_eq hempty hparse, readRegistration_registrationToJson]

theorem exists_of_request_postNodes {call : ClientCall} {body : Bytes}
    (h : call.request text = some (.postNodes body)) :
    ∃ r, call = .registerNode r ∧ text.dump (registrationToJson r) = some body := by
  cases call <;> simp_all [ClientCall.request]

theorem exists_of_request_putHeartbeat {call : ClientCall} {path body : Bytes}
    (h : call.request text = some (.putHeartbeat path body)) :
    ∃ own timestamp, call = .sendHeartbeat own timestamp ∧ path = heartbeatPath own.nodeId := by
  cases call <;> simp_all [ClientCall.request]

theorem exists_of_request_putChunks {call : ClientCall} {path body : Bytes}
    (h : call.request text = some (.putChunks path body)) :
    ∃ nodeId chunkIds, call = .reportChunks nodeId chunkIds ∧ path = chunksPath nodeId := by
  cases call <;> simp_all [ClientCall.request]

theorem step_cases {event : Event} (h : step text narrow sys event = some sys') :
    (∃ call request, event = .call call ∧ call.request text = some request ∧
        sys' = { sys with sent := sys.sent ++ [request] }) ∨
      ∃ now index request, event = .serve now index ∧ sys.sent[index]? = some request ∧
        sys' = { sys with plane := (sys.plane.handle text narrow now request).2 } := by
  cases event with
  | call call =>
      obtain ⟨request, hrequest, rfl⟩ := Option.map_eq_some_iff.mp h
      exact Or.inl ⟨call, request, rfl, hrequest, rfl⟩
  | serve now index =>
      obtain ⟨request, hrequest, hstate⟩ := Option.bind_eq_some_iff.mp h
      cases hstate
      exact Or.inr ⟨now, index, request, rfl, hrequest, rfl⟩

theorem mem_registrations {r : NodeRegistration} (h : .call (.registerNode r) ∈ events) :
    r ∈ registrations events := List.mem_filterMap.mpr ⟨_, h, rfl⟩

theorem exists_of_accepted {s : NodeServer} {now : UInt64} {reg : NodeRegistration}
    (h : (s.register now reg).1 = true) :
    ∃ info : NodeInfo, info.lastHeartbeatTime = now ∧ info.chunks = s.reportedChunks reg.nodeId ∧
      (s.register now reg).2.registry.nodes = s.registry.nodes.insert reg.nodeId info := by
  have haccepted : (s.registry.registerNode now reg).1 = true := h
  have hregistry : (s.register now reg).2.registry = (s.registry.registerNode now reg).2 := rfl
  rw [hregistry]
  unfold ControlPlaneServer.registerNode at haccepted ⊢
  unfold NodeServer.reportedChunks
  cases hlookup : s.registry.nodes.lookup reg.nodeId with
  | some info =>
      exact ⟨{ info with registration := reg, lastHeartbeatTime := now, online := true }, rfl, rfl,
        NodeServer.nodes_updateChunkIndex _ _ _ _⟩
  | none =>
      simp only [hlookup] at haccepted ⊢
      split at haccepted
      · cases haccepted
      · rename_i hroom
        rw [if_neg hroom]
        exact ⟨_, rfl, rfl, NodeServer.nodes_updateChunkIndex _ _ _ _⟩

theorem Unheard.exists_registration {node : Bytes} {info : NodeInfo}
    (h : Unheard text narrow start events sys)
    (hknown : sys.plane.server.registry.nodes.lookup node = some info) :
    ∃ r ∈ registrations events, r.nodeId = node := by
  obtain ⟨-, -, -, r, -, -, -, hmem, hid, -⟩ := h.nodes node info hknown
  exact ⟨r, hmem, hid⟩

theorem Unheard.lookup_eq_none {suffix nodeId : Bytes} (h : Unheard text narrow start events sys)
    (hmisheard : Misheard events) (hspeaker : nodeId ∈ speakers events) :
    sys.plane.server.registry.nodes.lookup
      (nodeIdFromPath (47 :: suffix) (nodePath (47 :: suffix) nodeId)) = none := by
  obtain ⟨hne, hslash, htail⟩ := hmisheard nodeId hspeaker
  rw [nodeIdFromPath_nodePath hne hslash, Option.eq_none_iff_forall_ne_some]
  intro info hknown
  obtain ⟨r, hmem, hid⟩ := h.exists_registration hknown
  exact htail r hmem hid

theorem Unheard.register {now : UInt64} {index : Nat} {body : Bytes} {r : NodeRegistration}
    (h : Unheard text narrow start events sys)
    (htaken : Taken (step text narrow) start events sys (.serve now index))
    (hsent : sys.sent[index]? = some (.postNodes body))
    (hmem : r ∈ registrations events) (hdump : text.dump (registrationToJson r) = some body)
    (haccepted : (sys.plane.server.register now r.received).1 = true) :
    Unheard text narrow start events { sys with plane := sys.plane.registered now r.received } := by
  obtain ⟨info, htime, hchunks, hnodes⟩ := exists_of_accepted haccepted
  refine ⟨h.sent, h.heartbeats, h.reports, fun node other hlookup => ?_,
    fun chunk node hmemAt => ?_⟩
  · change (sys.plane.server.register now r.received).2.registry.nodes.lookup node = some other
      at hlookup
    rw [hnodes] at hlookup
    by_cases hnode : node = r.received.nodeId
    · subst hnode
      rw [AList.lookup_insert] at hlookup
      cases hlookup
      refine ⟨?_, sys, index, r, body, htime ▸ htaken, hsent, hmem, rfl, hdump⟩
      rw [hchunks, NodeServer.reportedChunks]
      cases hold : sys.plane.server.registry.nodes.lookup r.received.nodeId with
      | none => rfl
      | some old => exact (h.nodes _ old hold).1
    · rw [AList.lookup_insert_ne hnode] at hlookup
      exact h.nodes node other hlookup
  · rcases (ControlPlaneServer.locates_registerNode sys.plane.server.registry now r.received
      chunk node).mp hmemAt with ⟨hid, hchunk, -⟩ | hold
    · exact ⟨r, hmem, hid, hchunk⟩
    · exact h.located chunk node hold

theorem Unheard.step {event : Event} (h : Unheard text narrow start events sys)
    (hempty : text.parse [] = none)
    (hlossless : ∀ r ∈ registrations events, text.Lossless (registrationToJson r))
    (hmisheard : Misheard events)
    (htaken : Taken (step text narrow) start events sys event)
    (hstep : step text narrow sys event = some sys') : Unheard text narrow start events sys' := by
  obtain ⟨call, request, rfl, hrequest, rfl⟩ | ⟨now, index, request, rfl, hsent, rfl⟩ :=
    step_cases hstep
  · refine ⟨fun other hother => ?_, h.heartbeats, h.reports, h.nodes, h.located⟩
    rcases List.mem_append.mp hother with hold | hnew
    · exact h.sent other hold
    · rw [List.mem_singleton.mp hnew]
      exact ⟨call, htaken.mem, hrequest⟩
  · obtain ⟨call, hcall, hrequest⟩ := h.sent request (List.mem_of_getElem? hsent)
    have hserved := @ControlPlane.served text narrow sys.plane now request
    generalize sys.plane.handle text narrow now request = answered at hserved ⊢
    obtain ⟨reply, plane⟩ := answered
    cases hserved with
    | refused | interrupted | listed | queried | fetched | acked =>
        exact ⟨h.sent, h.heartbeats, h.reports, h.nodes, h.located⟩
    | registered hread haccepted hstatus =>
        obtain ⟨r, rfl, hdump⟩ := exists_of_request_postNodes hrequest
        have hmem := mem_registrations hcall
        rw [readRegistration_of_dump hempty (hlossless r hmem) hdump] at hread
        cases hread
        exact h.register htaken hsent hmem hdump haccepted
    | heard hknown =>
        obtain ⟨own, timestamp, rfl, rfl⟩ := exists_of_request_putHeartbeat hrequest
        have hspeaker : own.nodeId ∈ speakers events := List.mem_filterMap.mpr ⟨_, hcall, rfl⟩
        have hnone : sys.plane.server.registry.nodes.lookup
            (heartbeatNodeId (heartbeatPath own.nodeId)) = none :=
          h.lookup_eq_none hmisheard hspeaker
        cases hnone.symm.trans hknown
    | told hread hknown =>
        obtain ⟨nodeId, chunkIds, rfl, rfl⟩ := exists_of_request_putChunks hrequest
        have hspeaker : nodeId ∈ speakers events := List.mem_filterMap.mpr ⟨_, hcall, rfl⟩
        have hnone : sys.plane.server.registry.nodes.lookup
            (chunksNodeId (chunksPath nodeId)) = none :=
          h.lookup_eq_none hmisheard hspeaker
        cases hnone.symm.trans hknown

theorem unheard_new (text : JsonText) (narrow : Json → Json) (limit heartbeatTimeoutSec : UInt32)
    (events : List Event) : Unheard text narrow (new limit heartbeatTimeoutSec) events
      (new limit heartbeatTimeoutSec) where
  sent _ h := nomatch h
  heartbeats := rfl
  reports := rfl
  nodes _ _ h := nomatch h
  located _ _ h := absurd h List.not_mem_nil

/-- Whatever clients send, and whenever and however often it is served: no
heartbeat and no chunk report is ever taken, the last sign of life of a node is a
registration, and so is all that the index has of it. -/
theorem unheard_of_run {limit heartbeatTimeoutSec : UInt32} (hempty : text.parse [] = none)
    (hlossless : ∀ r ∈ registrations events, text.Lossless (registrationToJson r))
    (hmisheard : Misheard events)
    (hrun : runSteps (step text narrow) (new limit heartbeatTimeoutSec) events = some sys) :
    Unheard text narrow (new limit heartbeatTimeoutSec) events sys :=
  runSteps_invariant_taken
    (fun _ _ _ h htaken hstep => h.step hempty hlossless hmisheard htaken hstep)
    (unheard_new text narrow limit heartbeatTimeoutSec events) hrun

/-! ## One client -/

def node1 : NodeRegistration where
  nodeId := ascii "node-1"
  address := ascii "h"
  p2pPort := 9001
  httpPort := 8080
  memoryCapacityMb := 1
  diskCapacityMb := 2

def node1Body : Bytes :=
  ascii "\x7b\"address\":\"h\",\"available_chunks\":[],\"disk_capacity_mb\":2," ++
    ascii "\"http_port\":8080,\"memory_capacity_mb\":1,\"node_id\":\"node-1\"," ++
    ascii "\"p2p_port\":9001\x7d"

def node1Heartbeat : Bytes :=
  ascii "\x7b\"active_connections\":0,\"cache_hit_rate\":0.0,\"disk_used_mb\":0," ++
    ascii "\"download_speed_mbps\":0.0,\"memory_used_mb\":0,\"node_id\":\"node-1\"," ++
    ascii "\"online\":true,\"timestamp\":1700000000000,\"total_chunks\":0," ++
    ascii "\"upload_speed_mbps\":0.0\x7d"

def node1Report : Bytes := ascii "\x7b\"chunk_ids\":[\"c\"]\x7d"

def node1Text : JsonText where
  dump j := some <|
    if (j.at? (ascii "chunk_ids")).isSome then node1Report
    else if (j.at? (ascii "timestamp")).isSome then node1Heartbeat
    else node1Body
  parse text :=
    if text = node1Report then some (chunkIdsToJson [ascii "c"])
    else if text = node1Heartbeat then
      some (heartbeatToJson { nodeId := ascii "node-1" } 1700000000000)
    else if text = node1Body then some (registrationToJson node1)
    else none

def node1Calls : List Event :=
  [.call (.registerNode node1),
    .call (.sendHeartbeat { nodeId := ascii "node-1" } 1700000000000),
    .call (.reportChunks (ascii "node-1") [ascii "c"]),
    .serve 1700000000 0, .serve 1700000001 1, .serve 1700000002 2, .serve 1700000003 1]

theorem unheard_of_run_node1 :
    ∃ sys, runSteps (step node1Text id) (new 10 60) node1Calls = some sys ∧
      Unheard node1Text id (new 10 60) node1Calls sys := by
  have hlossless : ∀ r ∈ registrations node1Calls,
      node1Text.Lossless (registrationToJson r) := by
    intro r hr
    cases List.mem_singleton.mp hr
    rfl
  exact ⟨_, rfl, unheard_of_run rfl hlossless (by decide) rfl⟩

end ControlSystem

end ElioP2P.Control
