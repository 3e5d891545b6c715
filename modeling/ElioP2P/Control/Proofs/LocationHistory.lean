import ElioP2P.Control.Proofs.ControlPlane
import ElioP2P.Library.Runs

/-!
# What a query tells of the past

A node is in the answer for a chunk if it has registered with the chunk or
reported it, and no report since then has dropped the chunk: a report drops what
the node's report before it had and it has not.
-/

namespace ElioP2P.Control

open ElioP2P.Library

namespace ControlPlaneServer

def Offers (chunk node : Bytes) (s : ControlPlaneServer) : Op → Prop
  | .register now reg =>
      reg.nodeId = node ∧ chunk ∈ reg.availableChunks ∧ (s.registerNode now reg).1 = true
  | .reportChunks nodeId chunkIds => nodeId = node ∧ chunk ∈ chunkIds ∧ nodeId ∈ s.nodes

def Drops (chunk node : Bytes) (s : ControlPlaneServer) : Op → Prop
  | .register _ _ => False
  | .reportChunks nodeId chunkIds =>
      nodeId = node ∧ chunk ∉ chunkIds ∧ ∃ info ∈ s.nodes.lookup nodeId, chunk ∈ info.chunks

theorem registerNode_cases (s : ControlPlaneServer) (now : UInt64) (reg : NodeRegistration) :
    ((s.registerNode now reg).1 = false ∧ (s.registerNode now reg).2 = s) ∨
      ((s.registerNode now reg).1 = true ∧ (s.registerNode now reg).2.chunkIndex =
        (s.updateChunkIndex reg.nodeId reg.availableChunks true).chunkIndex) := by
  unfold registerNode
  cases s.nodes.lookup reg.nodeId with
  | some info => exact Or.inr ⟨rfl, rfl⟩
  | none =>
      dsimp only
      split
      · exact Or.inl ⟨rfl, rfl⟩
      · exact Or.inr ⟨rfl, rfl⟩

theorem locates_registerNode (s : ControlPlaneServer) (now : UInt64) (reg : NodeRegistration)
    (chunk node : Bytes) :
    (s.registerNode now reg).2.Locates chunk node ↔
      Offers chunk node s (.register now reg) ∨ s.Locates chunk node := by
  rcases registerNode_cases s now reg with ⟨hrefused, hsame⟩ | ⟨haccepted, hindex⟩
  · simp [Offers, hrefused, hsame]
  · have hadd := locates_updateChunkIndex_add s reg.nodeId reg.availableChunks chunk node
    rw [Locates, ← hindex, ← Locates] at hadd
    rw [hadd]
    simp only [Offers, haccepted, and_true, eq_comm (a := node)]
    tauto

theorem locates_apply (s : ControlPlaneServer) (op : Op) (chunk node : Bytes) :
    (s.apply op).Locates chunk node ↔
      Offers chunk node s op ∨ s.Locates chunk node ∧ ¬ Drops chunk node s op := by
  cases op with
  | register now reg =>
      rw [Drops, not_false_iff, and_true]
      exact locates_registerNode s now reg chunk node
  | reportChunks nodeId chunkIds =>
      cases hlookup : s.nodes.lookup nodeId with
      | none =>
          have hunknown : nodeId ∉ s.nodes := AList.lookup_eq_none.mp hlookup
          simp [apply, reportChunks, Offers, Drops, hlookup, hunknown]
      | some info =>
          have hknown : nodeId ∈ s.nodes := AList.lookup_isSome.mp (by rw [hlookup]; rfl)
          rw [apply, locates_reportChunks hlookup]
          simp only [Offers, Drops, hlookup, hknown, Option.mem_some_iff, exists_eq_left', and_true,
            eq_comm (a := node)]
          tauto

end ControlPlaneServer

/-! ## Requests -/

def Request.op (text : JsonText) (now : UInt64) : Request → Option ControlPlaneServer.Op
  | .postNodes body =>
      let j := parseJsonBody text body
      if (j.at? (ascii "node_id")).isNone || (j.at? (ascii "address")).isNone then none
      else (readRegistration j).map (.register now)
  | .putChunks path body =>
      if (chunksNodeId path).isEmpty then none
      else (readChunkIds (parseJsonBody text body)).map (.reportChunks (chunksNodeId path))
  | _ => none

namespace ControlPlane

variable {text : JsonText} {narrow : Json → Json} {s s' : ControlPlane} {chunk node : Bytes}

theorem chunkIndex_handleRegister (text : JsonText) (s : ControlPlane) (now : UInt64)
    (body : Bytes) :
    (s.handleRegister text now body).2.server.registry.chunkIndex =
      ((Request.op text now (.postNodes body)).elim s.server.registry
        s.server.registry.apply).chunkIndex := by
  unfold handleRegister NodeServer.handleRegister Request.op
  simp only []
  split_ifs with hfields
  · rfl
  · cases readRegistration (parseJsonBody text body) with
    | none => rfl
    | some reg =>
        have happly : s.server.registry.apply (.register now reg) =
            (s.server.register now reg).2.registry := rfl
        simp only [Option.map_some, Option.elim_some, happly]
        obtain ⟨hrefused, hsame⟩ | ⟨haccepted, -⟩ := s.server.register_cases now reg
        · simp [hrefused, hsame]
        · simp [haccepted]

theorem chunkIndex_handleChunks (text : JsonText) (s : ControlPlane) (now : UInt64)
    (path body : Bytes) :
    (s.handleChunks text path body).2.server.registry.chunkIndex =
      ((Request.op text now (.putChunks path body)).elim s.server.registry
        s.server.registry.apply).chunkIndex := by
  unfold handleChunks Request.op
  simp only []
  split_ifs with hempty hmissing
  · rfl
  · have hnone : readChunkIds (parseJsonBody text body) = none := by
      rw [readChunkIds, Option.isNone_iff_eq_none.mp hmissing]
      rfl
    rw [hnone]
    rfl
  · cases readChunkIds (parseJsonBody text body) with
    | none => rfl
    | some chunkIds =>
        simp only [Option.map_some, Option.elim_some, ControlPlaneServer.apply]
        unfold ControlPlaneServer.reportChunks
        cases s.server.registry.nodes.lookup (chunksNodeId path) <;> rfl

theorem chunkIndex_handleHeartbeat (s : ControlPlane) (now : UInt64) (path body : Bytes) :
    (s.handleHeartbeat text narrow now path body).2.server.registry.chunkIndex =
      s.server.registry.chunkIndex := by
  unfold handleHeartbeat
  simp only []
  split_ifs
  · rfl
  · cases hknown : s.server.registry.nodes.lookup (heartbeatNodeId path) with
    | none => rfl
    | some info =>
        simp only []
        split
        · simp only [NodeServer.heartbeat, hknown]
        · rfl

theorem chunkIndex_handle (text : JsonText) (narrow : Json → Json) (s : ControlPlane) (now : UInt64)
    (request : Request) :
    (s.handle text narrow now request).2.server.registry.chunkIndex =
      ((request.op text now).elim s.server.registry s.server.registry.apply).chunkIndex := by
  cases request with
  | postNodes body => exact chunkIndex_handleRegister text s now body
  | putHeartbeat path body => exact chunkIndex_handleHeartbeat s now path body
  | putChunks path body => exact chunkIndex_handleChunks text s now path body
  | getNodes | getMetrics => rfl
  | postLocations body =>
      simp only [handle, handleLocations]
      split_ifs
      · rfl
      · cases readChunkIds (parseJsonBody text body) <;> rfl
  | getCommands path =>
      simp only [handle, handleCommands]
      split <;> rfl
  | postAck path body =>
      simp only [handle, handleAck]
      split
      · rfl
      · split <;> rfl

/-! ## The history of a location -/

def step (text : JsonText) (narrow : Json → Json) (s : ControlPlane)
    (timed : UInt64 × Request) : Option ControlPlane :=
  some (s.handle text narrow timed.1 timed.2).2

def Offers (text : JsonText) (chunk node : Bytes) (s : ControlPlane)
    (timed : UInt64 × Request) : Prop :=
  ∃ op ∈ timed.2.op text timed.1, s.server.registry.Offers chunk node op

def Drops (text : JsonText) (chunk node : Bytes) (s : ControlPlane)
    (timed : UInt64 × Request) : Prop :=
  ∃ op ∈ timed.2.op text timed.1, s.server.registry.Drops chunk node op

/-- Some request has put the node into the location set of the chunk, and none
has taken it out since. -/
def Offered (text : JsonText) (narrow : Json → Json) (start : ControlPlane)
    (requests : List (UInt64 × Request)) (chunk node : Bytes) : Prop :=
  ∃ front timed back t t', requests = front ++ timed :: back ∧
    runSteps (step text narrow) start front = some t ∧ step text narrow t timed = some t' ∧
    Offers text chunk node t timed ∧
    EveryStep (step text narrow) (fun s timed => ¬ Drops text chunk node s timed) t' back

theorem locates_step {timed : UInt64 × Request} (hstep : step text narrow s timed = some s') :
    s'.server.registry.Locates chunk node ↔
      Offers text chunk node s timed ∨
        s.server.registry.Locates chunk node ∧ ¬ Drops text chunk node s timed := by
  cases hstep
  have hindex := chunkIndex_handle text narrow s timed.1 timed.2
  rw [ControlPlaneServer.Locates, hindex, ← ControlPlaneServer.Locates]
  unfold Offers Drops
  cases timed.2.op text timed.1 with
  | none => simp
  | some op => simpa using ControlPlaneServer.locates_apply s.server.registry op chunk node

theorem locates_iff_offered {limit heartbeatTimeoutSec : UInt32}
    {requests : List (UInt64 × Request)}
    (hrun : runSteps (step text narrow) (new limit heartbeatTimeoutSec) requests = some s) :
    s.server.registry.Locates chunk node ↔
      Offered text narrow (new limit heartbeatTimeoutSec) requests chunk node := by
  have hnone : ¬ (new limit heartbeatTimeoutSec).server.registry.Locates chunk node := by
    exact List.not_mem_nil
  have hstep : ∀ t timed t', step text narrow t timed = some t' →
      (t'.server.registry.Locates chunk node ↔ Offers text chunk node t timed ∨
        t.server.registry.Locates chunk node ∧ ¬ Drops text chunk node t timed) :=
    fun _ _ _ h => locates_step h
  rw [holds_of_runSteps_iff hstep hrun]
  simp [hnone, Offered]

/-! ## Queries -/

theorem parseJsonBody_eq {body : Bytes} {j : Json} (hempty : text.parse [] = none)
    (hparse : text.parse body = some j) : parseJsonBody text body = j := by
  have hnonempty : body.isEmpty = false := by
    cases body with
    | nil => cases hempty.symm.trans hparse
    | cons => rfl
  simp [parseJsonBody, hnonempty, hparse]

theorem readChunkIds_chunkIdsToJson (chunkIds : List Bytes) :
    readChunkIds (chunkIdsToJson chunkIds) = some chunkIds := mapM_getString chunkIds

theorem readLocation_locationToJson (location : ChunkLocation) :
    readLocation (locationToJson location) = some location := by
  have hread : readLocation (locationToJson location) =
      ((location.peerIds.map Json.string).mapM Json.getString).bind fun peerIds =>
        some { chunkId := location.chunkId, peerIds } := rfl
  rw [hread, mapM_getString]
  rfl

theorem mapM_readLocation (locations : List ChunkLocation) :
    (locations.map locationToJson).mapM readLocation = some locations := by
  rw [List.mapM_map]
  have hread : readLocation ∘ locationToJson = pure := funext readLocation_locationToJson
  rw [hread]
  exact List.mapM_pure.trans (congrArg some (List.map_id locations))

theorem queryChunkLocations_eq {chunkIds : List Bytes} (hempty : text.parse [] = none)
    (hrequest : text.Lossless (chunkIdsToJson chunkIds))
    (hanswer : text.Lossless (locationsToJson (s.queryChunkLocations chunkIds))) :
    (Control.queryChunkLocations text s chunkIds).1 = some (s.queryChunkLocations chunkIds) := by
  obtain ⟨body, hdump, hparse⟩ := Option.bind_eq_some_iff.mp hrequest
  obtain ⟨answer, hdump', hparse'⟩ := Option.bind_eq_some_iff.mp hanswer
  have hbody := parseJsonBody_eq hempty hparse
  have hfield : ((chunkIdsToJson chunkIds).at? (ascii "chunk_ids")).isNone = false := rfl
  simp only [Control.queryChunkLocations, hdump, handleLocations, hbody, hfield,
    Bool.false_eq_true, if_false, readChunkIds_chunkIdsToJson, jsonReply, hdump', readLocations,
    if_true, Option.bind_eq_bind, hparse', Option.bind_some]
  exact mapM_readLocation _

theorem mem_peerIds_iff {location : ChunkLocation} {chunkIds : List Bytes}
    (h : location ∈ s.queryChunkLocations chunkIds) (node : Bytes) :
    node ∈ location.peerIds ↔ s.server.registry.Locates location.chunkId node := by
  obtain ⟨chunkId, -, rfl⟩ := List.mem_map.mp h
  rw [ControlPlaneServer.Locates, MemAt]
  cases s.server.registry.chunkIndex.lookup chunkId <;> rfl

theorem nodup_peerIds {location : ChunkLocation} {chunkIds : List Bytes}
    (h : location ∈ s.queryChunkLocations chunkIds) : location.peerIds.Nodup := by
  obtain ⟨chunkId, -, rfl⟩ := List.mem_map.mp h
  cases s.server.registry.chunkIndex.lookup chunkId with
  | none => exact List.nodup_nil
  | some nodes => exact nodes.nodup

/-- After any requests a client that asks for chunks gets one location for each, in
the order in which it asked, and in it, once each, the nodes that have been offered
for the chunk and not dropped since. -/
theorem queryChunkLocations_of_run {limit heartbeatTimeoutSec : UInt32}
    {requests : List (UInt64 × Request)}
    (hrun : runSteps (step text narrow) (new limit heartbeatTimeoutSec) requests = some s)
    {chunkIds : List Bytes} (hempty : text.parse [] = none)
    (hrequest : text.Lossless (chunkIdsToJson chunkIds))
    (hanswer : text.Lossless (locationsToJson (s.queryChunkLocations chunkIds))) :
    ∃ locations, (Control.queryChunkLocations text s chunkIds).1 = some locations ∧
      locations.map ChunkLocation.chunkId = chunkIds ∧
      ∀ location ∈ locations, location.peerIds.Nodup ∧ ∀ node,
        node ∈ location.peerIds ↔
          Offered text narrow (new limit heartbeatTimeoutSec) requests location.chunkId node := by
  refine ⟨_, queryChunkLocations_eq hempty hrequest hanswer, ?_, fun location hlocation => ?_⟩
  · rw [ControlPlane.queryChunkLocations, List.map_map]
    exact List.map_id chunkIds
  · refine ⟨nodup_peerIds hlocation, fun node => ?_⟩
    rw [mem_peerIds_iff hlocation, locates_iff_offered hrun]

def registrationBody : Bytes :=
  ascii "\x7b\"address\":\"h\",\"available_chunks\":[\"c\"],\"node_id\":\"n\"\x7d"

def queryBody : Bytes := ascii "\x7b\"chunk_ids\":[\"c\",\"d\"]\x7d"

def answerBody : Bytes :=
  ascii "\x7b\"locations\":[\x7b\"chunk_id\":\"c\",\"peer_ids\":[\"n\"]\x7d," ++
    ascii "\x7b\"chunk_id\":\"d\",\"peer_ids\":[]\x7d]\x7d"

def queryText : JsonText where
  dump j := some (if (j.at? (ascii "chunk_ids")).isSome then queryBody else answerBody)
  parse text :=
    if text = registrationBody then
      some (.object [(ascii "address", .string (ascii "h")),
        (ascii "available_chunks", .array [.string (ascii "c")]),
        (ascii "node_id", .string (ascii "n"))])
    else if text = queryBody then some (chunkIdsToJson [ascii "c", ascii "d"])
    else if text = answerBody then
      some (locationsToJson [⟨ascii "c", [ascii "n"]⟩, ⟨ascii "d", []⟩])
    else none

def withC : ControlPlane := ((new 10 60).handle queryText id 5 (.postNodes registrationBody)).2

theorem queryChunkLocations_of_run_withC :
    ∃ locations, (Control.queryChunkLocations queryText withC [ascii "c", ascii "d"]).1 =
        some locations ∧
      locations.map ChunkLocation.chunkId = [ascii "c", ascii "d"] ∧
      ∀ location ∈ locations, location.peerIds.Nodup ∧ ∀ node, node ∈ location.peerIds ↔
        Offered queryText id (new 10 60) [(5, .postNodes registrationBody)] location.chunkId
          node := by
  have hrun : runSteps (step queryText id) (new 10 60) [(5, .postNodes registrationBody)] =
      some withC := rfl
  exact queryChunkLocations_of_run hrun rfl rfl rfl

end ControlPlane

end ElioP2P.Control
