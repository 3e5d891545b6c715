import ElioP2P.P2P.Proofs.GossipCodec
import ElioP2P.P2P.Proofs.MessageSize

/-!
# What a join tells about the node

`broadcast_node_join` does not send the record that was registered.  It builds
another one from the id, the address and the port, and the receiver puts it in
the place of whatever it had.
-/

namespace ElioP2P.P2P.NodeDiscovery

open ElioP2P.Library

def withIdentity (s : NodeDiscovery) (localNode : PeerNode) : NodeDiscovery :=
  let s := { s with
    localNodeId := localNode.nodeId
    localNodeAddress := localNode.address
    localNodePort := localNode.port }
  { s.currentSeconds.2 with
    peers := s.peers.insert localNode.nodeId { localNode with lastSeen := s.currentSeconds.1 }
    gossipRunning := true }

def joinBroadcast (garbage : UInt64 × UInt64) (s : NodeDiscovery) (localNode : PeerNode) :
    Option GossipMessage :=
  if localNode.nodeId.isEmpty then none else some ((s.withIdentity localNode).joinMessage garbage)

theorem registerNode_eq (garbage : UInt64 × UInt64) (s : NodeDiscovery) (localNode : PeerNode) :
    s.registerNode garbage localNode =
      (joinBroadcast garbage s localNode).elim (s.withIdentity localNode) fun msg =>
        (s.withIdentity localNode).currentMillis.2.sendToSubset 2
          (fun peer => peer.nodeId != localNode.nodeId) msg := by
  have hbroadcast := broadcastNodeJoin_eq garbage (s.withIdentity localNode)
  change (s.withIdentity localNode).broadcastNodeJoin garbage = _
  rw [hbroadcast, joinBroadcast]
  change (if localNode.nodeId.isEmpty || false then _ else _) = _
  rw [Bool.or_false]
  split <;> rfl

def ListsContact (s : NodeDiscovery) (localNode : PeerNode) : Prop :=
  ∃ record, s.peers.lookup localNode.nodeId = some record ∧
    record.nodeId = localNode.nodeId ∧ record.address = localNode.address ∧
    record.port = localNode.port ∧ record.gossipPort = localNode.gossipPort

def KnowsHolder (s : NodeDiscovery) (nodeId chunk : Bytes) : Prop :=
  ∃ record, s.peers.lookup nodeId = some record ∧ chunk ∈ record.availableChunks

/-- If `receiver` takes and handles the broadcast of `localNode`, it lists the
node as it was registered and forgets none of its chunks. -/
def JoinAnnounces (garbage : UInt64 × UInt64) (s : NodeDiscovery) (localNode : PeerNode)
    (receiver : NodeDiscovery) : Prop :=
  ∀ msg received, joinBroadcast garbage s localNode = some msg → Fits msg →
    deserializeGossipMessage (serializeGossipMessage msg) = .ok received →
      (receiver.handleNodeJoin received).ListsContact localNode ∧
        ∀ chunk, receiver.KnowsHolder localNode.nodeId chunk →
          (receiver.handleNodeJoin received).KnowsHolder localNode.nodeId chunk

/-! ## The record that arrives -/

theorem encodable_joinMessage {garbage : UInt64 × UInt64} {s : NodeDiscovery}
    (hfits : Fits (s.joinMessage garbage)) : (s.joinMessage garbage).Encodable := by
  rw [Fits, length_joinMessage] at hfits
  have hid : s.localNodeId.length < 2 ^ 32 := by
    have hmax : maxMessageSize = 65536 := rfl
    omega
  have haddress : s.localNodeAddress.length < 2 ^ 32 := by
    have hmax : maxMessageSize = 65536 := rfl
    omega
  refine ⟨hid, by simp [joinMessage], fun e he => ?_, by simp [joinMessage], fun e he => ?_,
    fun e he => ?_⟩
  · cases he
  · rw [List.mem_singleton.mp he]
    exact ⟨hid, haddress, Nat.two_pow_pos 32, fun _ hchunk => (List.not_mem_nil hchunk).elim⟩
  · rw [List.mem_singleton.mp he]

/-- The receiver ends up with the id, the address and the port, no gossip port
and no chunks. -/
theorem exists_record_of_join {garbage : UInt64 × UInt64} {s receiver : NodeDiscovery}
    (hother : receiver.localNodeId ≠ s.localNodeId) (hfits : Fits (s.joinMessage garbage)) :
    ∃ received record,
      deserializeGossipMessage (serializeGossipMessage (s.joinMessage garbage)) = .ok received ∧
      (receiver.handleNodeJoin received).peers.lookup s.localNodeId = some record ∧
      record.nodeId = s.localNodeId ∧ record.address = s.localNodeAddress ∧
      record.port = s.localNodePort ∧ record.gossipPort = 0 ∧
      ∀ chunk, chunk ∉ record.availableChunks := by
  obtain ⟨received, hreceived, hequiv⟩ := deserialize_serialize (encodable_joinMessage hfits)
  obtain ⟨seen, hlookup⟩ := lookup_handleNodeJoin receiver received s.localNodeId
  have hsent : (s.joinMessage garbage).peerUpdates.lookup s.localNodeId = some
      { nodeId := s.localNodeId
        address := s.localNodeAddress
        port := s.localNodePort
        lastSeen := s.currentMillis.1 / 1000
        availableMemoryMb := garbage.1
        availableDiskMb := garbage.2 } := List.dlookup_cons_eq [] s.localNodeId _
  have hrecord := hequiv.peerUpdates s.localNodeId
  rw [hsent] at hrecord
  rw [if_neg hother.symm] at hlookup
  cases hgot : received.peerUpdates.lookup s.localNodeId with
  | none =>
      rw [hgot] at hrecord
      cases hrecord
  | some record =>
      rw [hgot] at hrecord hlookup
      obtain ⟨hfields, hchunks⟩ : PeerNode.Equiv _ record := by
        cases hrecord with
        | some h => exact h
      refine ⟨received, { record with lastSeen := seen }, hreceived, hlookup, ?_, ?_, ?_, ?_, ?_⟩
      · exact (congrArg PeerNode.nodeId hfields).symm
      · exact (congrArg PeerNode.address hfields).symm
      · exact (congrArg PeerNode.port hfields).symm
      · exact (congrArg PeerNode.gossipPort hfields).symm
      · exact fun chunk hmem => HashSet.notMem_empty chunk ((hchunks chunk).mpr hmem)

/-- A broadcast that is taken announces the node faithfully exactly if there is
no gossip port of its own and nothing is known about its chunks. -/
theorem joinAnnounces_iff {garbage : UInt64 × UInt64} {s : NodeDiscovery} {localNode : PeerNode}
    {receiver : NodeDiscovery} (hother : receiver.localNodeId ≠ localNode.nodeId) :
    JoinAnnounces garbage s localNode receiver ↔
      localNode.nodeId = [] ∨
      maxMessageSize < 88 + 2 * localNode.nodeId.length + localNode.address.length ∨
      (localNode.gossipPort = 0 ∧ ∀ chunk, ¬ receiver.KnowsHolder localNode.nodeId chunk) := by
  have hlength := length_joinMessage garbage (s.withIdentity localNode)
  change _ = 88 + 2 * localNode.nodeId.length + localNode.address.length at hlength
  by_cases hid : localNode.nodeId = []
  · refine iff_of_true (fun msg received hmsg => ?_) (.inl hid)
    rw [joinBroadcast, hid] at hmsg
    cases hmsg
  have hsent : joinBroadcast garbage s localNode =
      some ((s.withIdentity localNode).joinMessage garbage) := by
    rw [joinBroadcast, if_neg]
    rwa [List.isEmpty_iff]
  by_cases hfits : Fits ((s.withIdentity localNode).joinMessage garbage)
  · have hshort : ¬ maxMessageSize <
        88 + 2 * localNode.nodeId.length + localNode.address.length := by
      rw [Fits, hlength] at hfits
      omega
    rw [or_iff_right hid, or_iff_right hshort]
    obtain ⟨received, record, hreceived, hlookup, hnodeId, haddress, hport, hgossip, hchunks⟩ :=
      exists_record_of_join hother hfits
    constructor
    · intro hannounces
      obtain ⟨⟨listed, hlisted, -, -, -, hlistedPort⟩, hkept⟩ :=
        hannounces _ received hsent hfits hreceived
      refine ⟨?_, fun chunk hknown => ?_⟩
      · rw [← Option.some.inj (hlookup.symm.trans hlisted)] at hlistedPort
        exact hlistedPort.symm.trans hgossip
      · obtain ⟨listed, hlisted, hmem⟩ := hkept chunk hknown
        rw [← Option.some.inj (hlookup.symm.trans hlisted)] at hmem
        exact hchunks chunk hmem
    · rintro ⟨hzero, hnone⟩ msg received' hmsg - hreceived'
      rw [← Option.some.inj (hsent.symm.trans hmsg), hreceived] at hreceived'
      cases hreceived'
      refine ⟨⟨record, hlookup, hnodeId, haddress, hport, hgossip.trans hzero.symm⟩, ?_⟩
      exact fun chunk hknown => absurd hknown (hnone chunk)
  · have hlong : maxMessageSize < 88 + 2 * localNode.nodeId.length + localNode.address.length := by
      rw [Fits, hlength] at hfits
      omega
    refine iff_of_true (fun msg received hmsg hmsgFits => ?_) (.inr (.inl hlong))
    rw [← Option.some.inj (hsent.symm.trans hmsg)] at hmsgFits
    exact absurd hmsgFits hfits

/-- A node with one port for everything, and a receiver that does not know it. -/
theorem joinAnnounces_single_port :
    JoinAnnounces (0, 0) (new 50 (fun _ => 0) (fun _ => 0) fun _ => Shuffle.id)
      { nodeId := ascii "X", address := ascii "10.0.0.1", port := 9000 }
      (new 50 (fun _ => 0) (fun _ => 0) fun _ => Shuffle.id) := by
  refine (joinAnnounces_iff (by decide)).mpr (.inr (.inr ⟨rfl, ?_⟩))
  rintro chunk ⟨record, hrecord, -⟩
  cases hrecord

/-- A node that listens for gossip on a port of its own. -/
theorem joinAnnounces_counterexample :
    ¬ JoinAnnounces (0, 0) (new 50 (fun _ => 0) (fun _ => 0) fun _ => Shuffle.id)
      { nodeId := ascii "X", address := ascii "10.0.0.1", port := 9000, gossipPort := 9001 }
      (new 50 (fun _ => 0) (fun _ => 0) fun _ => Shuffle.id) := by
  intro hannounces
  have hfits : Fits ((withIdentity (new 50 (fun _ => 0) (fun _ => 0) fun _ => Shuffle.id)
      { nodeId := ascii "X", address := ascii "10.0.0.1", port := 9000,
        gossipPort := 9001 }).joinMessage (0, 0)) := by
    rw [Fits, length_joinMessage]
    decide
  have hother : (new 50 (fun _ => 0) (fun _ => 0) fun _ => Shuffle.id).localNodeId ≠
      ascii "X" := by decide
  obtain ⟨received, record, hreceived, hlookup, -, -, -, hgossip, -⟩ :=
    exists_record_of_join hother hfits
  obtain ⟨⟨listed, hlisted, -, -, -, hport⟩, -⟩ := hannounces _ received rfl hfits hreceived
  have hsame := Option.some.inj (hlookup.symm.trans hlisted)
  rw [← hsame, hgossip] at hport
  exact absurd hport (by decide)

end ElioP2P.P2P.NodeDiscovery
