import ElioP2P.Control.NodeListing
import Mathlib.Data.UInt

/-!
# What a registration comes back as

A capacity is read through an `int` on both sides, so it comes back whole only
if it has 31 bits or is the sign extension of 32.  The listing shows the chunks
of the last report: those of the registration go to the chunk index alone.
-/

namespace ElioP2P.Control

open ElioP2P.Library

/-! ## Numbers -/

/-- What an unsigned number is read as by `value(key, 0)`. -/
def throughInt (n : UInt64) : UInt64 := uint64OfInt n.toUInt32.toInt32

/-- What an `int` keeps of an unsigned number. -/
def FitsInt (n : UInt64) : Prop := n.toNat < 2 ^ 31 ∨ 2 ^ 64 - 2 ^ 31 ≤ n.toNat

theorem toNat_throughInt (n : UInt64) :
    (throughInt n).toNat =
      if n.toNat % 2 ^ 32 < 2 ^ 31 then n.toNat % 2 ^ 32
      else n.toNat % 2 ^ 32 + (2 ^ 64 - 2 ^ 32) := by
  have hbits : (throughInt n).toBitVec = (n.toBitVec.setWidth 32).signExtend 64 := rfl
  rw [← UInt64.toNat_toBitVec, hbits, BitVec.toNat_signExtend, BitVec.msb_eq_decide,
    BitVec.toNat_setWidth, BitVec.toNat_setWidth, UInt64.toNat_toBitVec]
  simp only [decide_eq_true_eq]
  split_ifs <;> omega

theorem throughInt_eq_self_iff (n : UInt64) : throughInt n = n ↔ FitsInt n := by
  have hn := n.toNat_lt
  rw [FitsInt, ← UInt64.toNat_inj, toNat_throughInt]
  split_ifs <;> omega

/-- Reading twice loses no more than reading once. -/
theorem throughInt_throughInt (n : UInt64) : throughInt (throughInt n) = throughInt n := by
  rw [throughInt_eq_self_iff, FitsInt, toNat_throughInt]
  split_ifs <;> omega

theorem uint16OfInt_toInt32 (port : UInt16) :
    uint16OfInt port.toUInt64.toUInt32.toInt32 = port := by
  have hbits : (uint16OfInt port.toUInt64.toUInt32.toInt32).toBitVec =
      ((port.toBitVec.setWidth 64).setWidth 32).setWidth 16 := rfl
  have hport := port.toNat_lt
  rw [← UInt16.toNat_inj, ← UInt16.toNat_toBitVec, hbits, BitVec.toNat_setWidth,
    BitVec.toNat_setWidth, BitVec.toNat_setWidth, UInt16.toNat_toBitVec]
  omega

/-! ## Records -/

def NodeRegistration.received (r : NodeRegistration) : NodeRegistration :=
  { r with
    memoryCapacityMb := throughInt r.memoryCapacityMb
    diskCapacityMb := throughInt r.diskCapacityMb }

def NodeInfo.listed (info : NodeInfo) : NodeRegistration :=
  { info.registration with availableChunks := info.chunks }

/-- Equal in every field; the chunks are a set. -/
structure NodeRegistration.Same (r r' : NodeRegistration) : Prop where
  nodeId : r.nodeId = r'.nodeId
  address : r.address = r'.address
  p2pPort : r.p2pPort = r'.p2pPort
  httpPort : r.httpPort = r'.httpPort
  memoryCapacityMb : r.memoryCapacityMb = r'.memoryCapacityMb
  diskCapacityMb : r.diskCapacityMb = r'.diskCapacityMb
  availableChunks : ∀ chunkId, chunkId ∈ r.availableChunks ↔ chunkId ∈ r'.availableChunks

theorem mapM_getString (texts : List Bytes) :
    (texts.map Json.string).mapM Json.getString = some texts := by
  rw [List.mapM_map]
  exact List.mapM_pure.trans (congrArg some (List.map_id texts))

theorem readRegistration_registrationToJson (r : NodeRegistration) :
    readRegistration (registrationToJson r) = some r.received := by
  have hread : readRegistration (registrationToJson r) =
      ((r.availableChunks.map Json.string).mapM Json.getString).bind fun chunks =>
        some { r.received with
          p2pPort := uint16OfInt r.p2pPort.toUInt64.toUInt32.toInt32
          httpPort := uint16OfInt r.httpPort.toUInt64.toUInt32.toInt32
          availableChunks := chunks } := rfl
  rw [hread, mapM_getString, uint16OfInt_toInt32, uint16OfInt_toInt32]
  rfl

namespace NodeServer

/-- The fields that an active node has besides are not read. -/
theorem readRegistration_nodeToJson (s : NodeServer) (now : UInt64) (nodeId : Bytes)
    (info : NodeInfo) :
    readRegistration (s.nodeToJson now nodeId info) = some info.listed.received := by
  have hread : readRegistration (s.nodeToJson now nodeId info) =
      readRegistration (registrationToJson info.listed) := by
    unfold nodeToJson
    cases info.isActive s.heartbeatTimeoutSec now <;> rfl
  rw [hread, readRegistration_registrationToJson]

theorem mapM_readRegistration (s : NodeServer) (now : UInt64)
    (nodes : List ((_ : Bytes) × NodeInfo)) :
    (nodes.map fun e => s.nodeToJson now e.1 e.2).mapM readRegistration =
      some (nodes.map fun e => e.2.listed.received) := by
  rw [List.mapM_map]
  have hread : (readRegistration ∘ fun e : (_ : Bytes) × NodeInfo => s.nodeToJson now e.1 e.2) =
      fun e => pure e.2.listed.received := funext fun e => readRegistration_nodeToJson s now e.1 e.2
  rw [hread]
  exact List.mapM_pure

/-! ## The registry -/

def reportedChunks (s : NodeServer) (nodeId : Bytes) : List Bytes :=
  (s.registry.nodes.lookup nodeId).elim [] NodeInfo.chunks

def Keyed (s : NodeServer) : Prop :=
  ∀ nodeId info, s.registry.nodes.lookup nodeId = some info → info.registration.nodeId = nodeId

theorem Keyed.insert {s t : NodeServer} {info : NodeInfo} (hs : s.Keyed)
    (ht : t.registry.nodes = s.registry.nodes.insert info.registration.nodeId info) :
    t.Keyed := by
  intro nodeId info' hlookup
  rw [ht] at hlookup
  by_cases hkey : nodeId = info.registration.nodeId
  · rw [hkey, AList.lookup_insert] at hlookup
    rw [← Option.some.inj hlookup, hkey]
  · rw [AList.lookup_insert_ne hkey] at hlookup
    exact hs nodeId info' hlookup

theorem nodes_updateChunkIndex (s : ControlPlaneServer) (nodeId : Bytes) (chunkIds : List Bytes)
    (add : Bool) : (s.updateChunkIndex nodeId chunkIds add).nodes = s.nodes := by
  unfold ControlPlaneServer.updateChunkIndex
  split <;> rfl

theorem register_cases (s : NodeServer) (now : UInt64) (reg : NodeRegistration) :
    (s.register now reg).1 = false ∧ (s.register now reg).2.registry = s.registry ∨
      (s.register now reg).1 = true ∧ ∃ info : NodeInfo, info.registration = reg ∧
        info.chunks = s.reportedChunks reg.nodeId ∧
        (s.register now reg).2.registry.nodes = s.registry.nodes.insert reg.nodeId info := by
  have haccepted : (s.register now reg).1 = (s.registry.registerNode now reg).1 := rfl
  have hregistry : (s.register now reg).2.registry = (s.registry.registerNode now reg).2 := rfl
  rw [haccepted, hregistry]
  unfold reportedChunks ControlPlaneServer.registerNode
  cases s.registry.nodes.lookup reg.nodeId with
  | some info =>
      exact .inr ⟨rfl, { info with registration := reg, lastHeartbeatTime := now, online := true },
        rfl, rfl, nodes_updateChunkIndex _ _ _ _⟩
  | none =>
      dsimp only
      split
      · exact .inl ⟨rfl, rfl⟩
      · exact .inr ⟨rfl, _, rfl, rfl, nodes_updateChunkIndex _ _ _ _⟩

/-- Reports and heartbeats keep the registration. -/
theorem Keyed.update {s t : NodeServer} {nodeId : Bytes} {info info' : NodeInfo} (hs : s.Keyed)
    (hlookup : s.registry.nodes.lookup nodeId = some info)
    (hinfo : info'.registration = info.registration)
    (ht : t.registry.nodes = s.registry.nodes.insert nodeId info') : t.Keyed := by
  have hid : info'.registration.nodeId = nodeId := by rw [hinfo, hs nodeId info hlookup]
  exact hs.insert (by rw [ht, hid])

theorem Keyed.apply {s : NodeServer} (hs : s.Keyed) (op : Op) : (s.apply op).Keyed := by
  cases op with
  | register now reg =>
      obtain ⟨-, hsame⟩ | ⟨-, info, rfl, -, hnodes⟩ := register_cases s now reg
      · intro nodeId info hlookup
        exact hs nodeId info (hsame ▸ hlookup)
      · exact hs.insert hnodes
  | reportChunks nodeId chunkIds =>
      have hregistry : (s.apply (.reportChunks nodeId chunkIds)).registry =
          (s.registry.reportChunks nodeId chunkIds).2 := rfl
      rw [ControlPlaneServer.reportChunks] at hregistry
      cases hlookup : s.registry.nodes.lookup nodeId with
      | none =>
          simp only [hlookup] at hregistry
          intro nodeId info hlookup
          exact hs nodeId info (hregistry ▸ hlookup)
      | some info =>
          simp only [hlookup] at hregistry
          have hnodes : (s.apply (.reportChunks nodeId chunkIds)).registry.nodes =
              s.registry.nodes.insert nodeId { info with chunks := chunkIds } := by
            rw [hregistry]
            simp only [nodes_updateChunkIndex]
          exact hs.update hlookup (by rfl) hnodes
  | heartbeat now nodeId status =>
      have happly : s.apply (.heartbeat now nodeId status) = (s.heartbeat now nodeId status).2 :=
        rfl
      rw [happly, heartbeat]
      cases hlookup : s.registry.nodes.lookup nodeId with
      | none => exact hs
      | some info =>
          have hinfo :
              ({ info with lastHeartbeatTime := now, online := true } : NodeInfo).registration =
              info.registration := rfl
          exact hs.update hlookup hinfo rfl

theorem keyed_run (maxNodes : Nat) (heartbeatTimeoutSec : UInt32) (ops : List Op) :
    (run maxNodes heartbeatTimeoutSec ops).Keyed := by
  suffices h : ∀ s : NodeServer, s.Keyed → (ops.foldl NodeServer.apply s).Keyed from
    h _ fun nodeId info hlookup => nomatch hlookup
  induction ops with
  | nil => exact fun s hs => hs
  | cons op ops ih => exact fun s hs => ih _ (hs.apply op)

end NodeServer

/-! ## The round trip -/

/-- Both capacities fit into an `int`, and the chunks are those that the node has
reported before. -/
def ComesBack (s : NodeServer) (r : NodeRegistration) : Prop :=
  FitsInt r.memoryCapacityMb ∧ FitsInt r.diskCapacityMb ∧
    ∀ chunkId, chunkId ∈ s.reportedChunks r.nodeId ↔ chunkId ∈ r.availableChunks

theorem queryNodes_eq {text : JsonText} {s : NodeServer} {now : UInt64}
    (h : text.Lossless (s.listNodes now)) :
    queryNodes text s now =
      some (s.registry.nodes.entries.map fun e => e.2.listed.received) := by
  obtain ⟨response, hdump, hparse⟩ := Option.bind_eq_some_iff.mp h
  have hread := s.mapM_readRegistration now s.registry.nodes.entries
  simp only [queryNodes, hdump, Option.bind_eq_bind, Option.bind_some, hparse]
  exact hread

theorem handleRegister_eq {text : JsonText} {s : NodeServer} {now : UInt64} {body : Bytes}
    {r : NodeRegistration} (hread : parseJsonBody text body = registrationToJson r) :
    s.handleRegister text now body =
      (if (s.register now r.received).1 then .created else .serviceUnavailable,
        (s.register now r.received).2) := by
  unfold NodeServer.handleRegister
  simp only [hread, readRegistration_registrationToJson]
  rfl

/-- Registering through HTTP registers what is read of the body. -/
theorem registerNode_eq {text : JsonText} {s : NodeServer} {now : UInt64} {r : NodeRegistration}
    (hempty : text.parse [] = none)
    (hbody : ∀ body, text.dump (registrationToJson r) = some body →
      text.parse body = some (registrationToJson r))
    (haccepted : (registerNode text s now r).1 = true) :
    (s.register now r.received).1 = true ∧
      (registerNode text s now r).2 = (s.register now r.received).2 := by
  unfold registerNode at haccepted ⊢
  cases hdump : text.dump (registrationToJson r) with
  | none => simp [hdump] at haccepted
  | some body =>
      have hparse := hbody body hdump
      have hnonempty : body.isEmpty = false := by
        cases body with
        | nil => cases hempty.symm.trans hparse
        | cons => rfl
      have hread : parseJsonBody text body = registrationToJson r := by
        simp [parseJsonBody, hnonempty, hparse]
      simp only [hdump, handleRegister_eq hread] at haccepted ⊢
      refine ⟨?_, trivial⟩
      cases hregister : (s.register now r.received).1 with
      | true => rfl
      | false => simp [hregister] at haccepted

theorem same_listed_iff {s : NodeServer} {r : NodeRegistration} {info : NodeInfo}
    (hinfo : info.registration = r.received)
    (hchunks : info.chunks = s.reportedChunks r.nodeId) :
    info.listed.received.Same r ↔ ComesBack s r := by
  have hlisted : info.listed.received =
      { r.received with availableChunks := s.reportedChunks r.nodeId } := by
    simp only [NodeInfo.listed, NodeRegistration.received, hinfo, hchunks, throughInt_throughInt]
  rw [hlisted, ComesBack, ← throughInt_eq_self_iff, ← throughInt_eq_self_iff]
  exact ⟨fun h => ⟨h.memoryCapacityMb, h.diskCapacityMb, h.availableChunks⟩,
    fun ⟨hmemory, hdisk, hsets⟩ => ⟨rfl, rfl, rfl, rfl, hmemory, hdisk, hsets⟩⟩

theorem exists_listed_iff {s : NodeServer} {r : NodeRegistration} {info : NodeInfo}
    (hkeyed : s.Keyed) (hlookup : s.registry.nodes.lookup r.nodeId = some info) :
    (∃ nr ∈ s.registry.nodes.entries.map fun e => e.2.listed.received, nr.Same r) ↔
      info.listed.received.Same r := by
  constructor
  · rintro ⟨nr, hmem, hsame⟩
    obtain ⟨⟨nodeId, info'⟩, hentry, rfl⟩ := List.mem_map.mp hmem
    have hlookup' : s.registry.nodes.lookup nodeId = some info' :=
      AList.mem_lookup_iff.mpr hentry
    have hid : nodeId = r.nodeId := (hkeyed nodeId info' hlookup').symm.trans hsame.nodeId
    subst hid
    cases hlookup.symm.trans hlookup'
    exact hsame
  · exact fun hsame =>
      ⟨_, List.mem_map.mpr ⟨⟨r.nodeId, info⟩, AList.mem_lookup_iff.mp hlookup, rfl⟩,
      hsame⟩

/-- A registration that was accepted is listed as it was given exactly if its
capacities fit into an `int` and its chunks are the ones reported before. -/
theorem queryNodes_registerNode_iff (text : JsonText) (maxNodes : Nat)
    (heartbeatTimeoutSec : UInt32) (ops : List NodeServer.Op) (now later : UInt64)
    (r : NodeRegistration)
    (hempty : text.parse [] = none)
    (hbody : ∀ body, text.dump (registrationToJson r) = some body →
      text.parse body = some (registrationToJson r))
    (hlisting : text.Lossless ((registerNode text
      (NodeServer.run maxNodes heartbeatTimeoutSec ops) now r).2.listNodes later))
    (haccepted : (registerNode text
      (NodeServer.run maxNodes heartbeatTimeoutSec ops) now r).1 = true) :
    (∃ nodes, queryNodes text (registerNode text
        (NodeServer.run maxNodes heartbeatTimeoutSec ops) now r).2 later = some nodes ∧
      ∃ nr ∈ nodes, nr.Same r) ↔
    ComesBack (NodeServer.run maxNodes heartbeatTimeoutSec ops) r := by
  have hkeyed := NodeServer.keyed_run maxNodes heartbeatTimeoutSec ops
  generalize NodeServer.run maxNodes heartbeatTimeoutSec ops = s at *
  obtain ⟨hregistered, hstate⟩ := registerNode_eq hempty hbody haccepted
  obtain ⟨hrefused, -⟩ | ⟨-, info, hinfo, hchunks, hnodes⟩ := s.register_cases now r.received
  · cases hregistered.symm.trans hrefused
  have hlookup : (s.register now r.received).2.registry.nodes.lookup r.nodeId = some info := by
    rw [hnodes]
    exact AList.lookup_insert _
  rw [hstate] at hlisting ⊢
  rw [← same_listed_iff hinfo hchunks,
    ← exists_listed_iff (hkeyed.apply (.register now r.received)) hlookup, queryNodes_eq hlisting]
  simp only [Option.some.injEq, exists_eq_left']
  rfl

def sampleText (r : NodeRegistration) (body listing : Bytes) : JsonText where
  dump j := some (if (j.at? (ascii "nodes")).isSome then listing else body)
  parse text :=
    if text = listing then
      some (((NodeServer.new 1 60).register 5 r.received).2.listNodes 100)
    else if text = body then some (registrationToJson r)
    else none

def sampleNode (memoryCapacityMb : UInt64) (availableChunks : List Bytes) : NodeRegistration where
  nodeId := ascii "n"
  address := ascii "h"
  p2pPort := 9001
  httpPort := 8080
  memoryCapacityMb := memoryCapacityMb
  diskCapacityMb := 2
  availableChunks := availableChunks

def smallText : JsonText :=
  sampleText (sampleNode 1 [])
    (ascii "\x7b\"address\":\"h\",\"available_chunks\":[],\"disk_capacity_mb\":2," ++
      ascii "\"http_port\":8080,\"memory_capacity_mb\":1,\"node_id\":\"n\"," ++
      ascii "\"p2p_port\":9001\x7d")
    (ascii "\x7b\"active\":0,\"nodes\":[\x7b\"address\":\"h\"," ++
      ascii "\"available_chunks\":[],\"disk_capacity_mb\":2,\"http_port\":8080," ++
      ascii "\"memory_capacity_mb\":1,\"node_id\":\"n\",\"online\":false," ++
      ascii "\"p2p_port\":9001\x7d],\"total\":1\x7d")

def largeText : JsonText :=
  sampleText (sampleNode (2 ^ 31) [ascii "c"])
    (ascii "\x7b\"address\":\"h\",\"available_chunks\":[\"c\"]," ++
      ascii "\"disk_capacity_mb\":2,\"http_port\":8080," ++
      ascii "\"memory_capacity_mb\":2147483648,\"node_id\":\"n\"," ++
      ascii "\"p2p_port\":9001\x7d")
    (ascii "\x7b\"active\":0,\"nodes\":[\x7b\"address\":\"h\"," ++
      ascii "\"available_chunks\":[],\"disk_capacity_mb\":2,\"http_port\":8080," ++
      ascii "\"memory_capacity_mb\":18446744071562067968,\"node_id\":\"n\"," ++
      ascii "\"online\":false,\"p2p_port\":9001\x7d],\"total\":1\x7d")

set_option maxRecDepth 2000

theorem queryNodes_registerNode_iff_small :
    ∃ nodes, queryNodes smallText
        (registerNode smallText (NodeServer.new 1 60) 5 (sampleNode 1 [])).2 100 = some nodes ∧
      ∃ nr ∈ nodes, nr.Same (sampleNode 1 []) := by
  refine (queryNodes_registerNode_iff smallText 1 60 [] 5 100 (sampleNode 1 []) rfl ?_ rfl rfl).mpr
    ⟨.inl (by decide), .inl (by decide), fun _ => Iff.rfl⟩
  rintro body ⟨⟩
  rfl

/-- The capacity is sign-extended, and the chunk is not listed. -/
theorem not_queryNodes_registerNode_large :
    (registerNode largeText (NodeServer.new 1 60) 5 (sampleNode (2 ^ 31) [ascii "c"])).1 = true ∧
      ¬ ∃ nodes, queryNodes largeText (registerNode largeText (NodeServer.new 1 60) 5
          (sampleNode (2 ^ 31) [ascii "c"])).2 100 = some nodes ∧
        ∃ nr ∈ nodes, nr.Same (sampleNode (2 ^ 31) [ascii "c"]) := by
  refine ⟨rfl, ?_⟩
  rintro ⟨nodes, hnodes, nr, hmem, hsame⟩
  have hquery : queryNodes largeText (registerNode largeText (NodeServer.new 1 60) 5
      (sampleNode (2 ^ 31) [ascii "c"])).2 100 =
      some [sampleNode (2 ^ 64 - 2 ^ 31) []] := rfl
  obtain rfl := Option.some.inj (hquery.symm.trans hnodes)
  obtain rfl := List.mem_singleton.mp hmem
  exact absurd hsame.memoryCapacityMb (by decide)

end ElioP2P.Control
