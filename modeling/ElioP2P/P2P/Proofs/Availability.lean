import ElioP2P.Library.Runs
import ElioP2P.P2P.Proofs.PeerTable

/-!
# The two availability indexes

Which node has which chunk is kept twice: in the location sets, which lookups
read, and in the peer records, which the selection by rarity reads.  Announcing,
withdrawing and forgetting keep the two in step.  Taking over a whole record, or
the chunks of a node that has no record, does not: there it is up to the caller
or the sender of the message.
-/

namespace ElioP2P.P2P.NodeDiscovery

open ElioP2P.Library

/-- Every located node has a record, and its record lists exactly the chunks it
is located for. -/
structure IndexesAgree (s : NodeDiscovery) : Prop where
  known : ∀ chunk nodeId, s.Locates chunk nodeId → (s.peers.lookup nodeId).isSome = true
  agree : ∀ nodeId peer, s.peers.lookup nodeId = some peer →
    ∀ chunk, chunk ∈ peer.availableChunks ↔ s.Locates chunk nodeId

def chunksOf (s : NodeDiscovery) (nodeId : Bytes) : HashSet Bytes :=
  ((s.peers.lookup nodeId).map PeerNode.availableChunks).getD ∅

theorem chunksOf_of_lookup {s s' : NodeDiscovery} {nodeId : Bytes}
    (h : s'.peers.lookup nodeId = s.peers.lookup nodeId) :
    s'.chunksOf nodeId = s.chunksOf nodeId := by
  rw [chunksOf, chunksOf, h]

theorem indexesAgree_iff {s : NodeDiscovery} :
    IndexesAgree s ↔ ∀ chunk nodeId, s.Locates chunk nodeId ↔ chunk ∈ s.chunksOf nodeId := by
  constructor
  · intro h chunk nodeId
    unfold chunksOf
    cases hpeer : s.peers.lookup nodeId with
    | none =>
        have hunlocated : ¬ s.Locates chunk nodeId := fun hlocated => by
          have := h.known chunk nodeId hlocated
          rw [hpeer] at this
          cases this
        simp [hunlocated]
    | some peer => exact (h.agree nodeId peer hpeer chunk).symm
  · intro h
    refine ⟨fun chunk nodeId hlocated => ?_, fun nodeId peer hpeer chunk => ?_⟩
    · rw [h, chunksOf] at hlocated
      cases hpeer : s.peers.lookup nodeId with
      | none => simp [hpeer] at hlocated
      | some peer => rfl
    · rw [h, chunksOf, hpeer]
      rfl

/-! ## What keeps the agreement -/

theorem SameTables.indexesAgree {s s' : NodeDiscovery} (hsame : SameTables s s')
    (h : IndexesAgree s) : IndexesAgree s' := by
  rw [indexesAgree_iff] at h ⊢
  intro chunk nodeId
  rw [hsame.locates, h, chunksOf_of_lookup (by rw [hsame.peers])]

theorem Forgets.indexesAgree {gone : List Bytes} {s s' : NodeDiscovery} (hgone : Forgets gone s s')
    (h : IndexesAgree s) : IndexesAgree s' := by
  rw [indexesAgree_iff] at h ⊢
  intro chunk nodeId
  rw [hgone.locates, h, chunksOf, chunksOf, hgone.peers]
  by_cases hmem : nodeId ∈ gone
  · simp [hmem]
  · simp [hmem]

theorem indexesAgree_insert {s s' : NodeDiscovery} {nodeId : Bytes} {peer : PeerNode}
    (h : IndexesAgree s) (hpeers : s'.peers = s.peers.insert nodeId peer)
    (hlocations : s'.chunkLocations = s.chunkLocations)
    (hchunks : ∀ chunk, chunk ∈ peer.availableChunks ↔ s.Locates chunk nodeId) :
    IndexesAgree s' := by
  rw [indexesAgree_iff] at h ⊢
  intro chunk k
  rw [Locates, hlocations, chunksOf, hpeers]
  by_cases hk : k = nodeId
  · subst hk
    rw [AList.lookup_insert]
    exact (hchunks chunk).symm
  · rw [AList.lookup_insert_ne hk]
    exact h chunk k

theorem indexesAgree_registerNode {s : NodeDiscovery} {garbage : UInt64 × UInt64}
    {localNode : PeerNode} (h : IndexesAgree s)
    (hchunks : ∀ chunk, chunk ∈ localNode.availableChunks ↔ s.Locates chunk localNode.nodeId) :
    IndexesAgree (s.registerNode garbage localNode) := by
  unfold registerNode
  obtain ⟨gone, hgone⟩ := forgets_broadcastNodeJoin garbage
    { s.currentSeconds.2 with
      localNodeId := localNode.nodeId
      localNodeAddress := localNode.address
      localNodePort := localNode.port
      peers := s.peers.insert localNode.nodeId { localNode with lastSeen := s.currentSeconds.1 }
      gossipRunning := true }
  exact hgone.indexesAgree (indexesAgree_insert h rfl rfl hchunks)

theorem indexesAgree_unregisterNode {s : NodeDiscovery} (h : IndexesAgree s) :
    IndexesAgree s.unregisterNode := by
  unfold unregisterNode
  split
  · exact ⟨h.known, h.agree⟩
  · obtain ⟨gone, hgone⟩ := forgets_broadcastNodeLeave s
    have hleft := hgone.indexesAgree h
    exact ⟨hleft.known, hleft.agree⟩

theorem indexesAgree_addPeer {s : NodeDiscovery} {peer : PeerNode} (h : IndexesAgree s)
    (hchunks : ∀ chunk, chunk ∈ peer.availableChunks ↔ s.Locates chunk peer.nodeId) :
    IndexesAgree (s.addPeer peer) :=
  (sameTables_notifyDiscovered _ _ _).indexesAgree (indexesAgree_insert h rfl rfl hchunks)

theorem indexesAgree_announceChunk {s : NodeDiscovery} (h : IndexesAgree s) (chunkId : Bytes) :
    IndexesAgree (s.announceChunk chunkId) := by
  obtain hsame | ⟨-, gone, hgone⟩ := s.announceChunk_cases chunkId
  · rw [hsame]
    exact h
  · apply hgone.indexesAgree
    rw [indexesAgree_iff] at h ⊢
    intro chunk nodeId
    have hbefore := h chunk nodeId
    simp only [Locates, chunksOf, withOwnChunk] at hbefore ⊢
    rw [memAt_insertAt, hbefore]
    by_cases hnode : nodeId = s.localNodeId
    · subst hnode
      rw [AList.lookup_insert]
      simp only [Option.map_some, Option.getD_some, HashSet.mem_insert, and_true]
      cases s.peers.lookup s.localNodeId with
      | none =>
          have hblank : ¬ chunk ∈ ({} : PeerNode).availableChunks := HashSet.notMem_empty chunk
          simp [hblank]
      | some peer => exact or_comm
    · rw [AList.lookup_insert_ne hnode]
      simp [hnode]

theorem indexesAgree_removeChunkAnnouncement {s : NodeDiscovery} (h : IndexesAgree s)
    (chunkId : Bytes) : IndexesAgree (s.removeChunkAnnouncement chunkId) := by
  rw [removeChunkAnnouncement_eq]
  obtain ⟨gone, hgone⟩ := forgets_broadcastChunkRemove
    ({ s with chunkLocations := dropAt s.chunkLocations chunkId s.localNodeId }.updatePeer
      s.localNodeId fun peer =>
        { peer with availableChunks := peer.availableChunks.erase chunkId }) chunkId
  apply hgone.indexesAgree
  rw [indexesAgree_iff] at h ⊢
  intro chunk nodeId
  have hbefore := h chunk nodeId
  rw [Locates, (sameIndex_updatePeer _ _ _).1, chunksOf, lookup_updatePeer]
  simp only [Locates, chunksOf] at hbefore ⊢
  rw [memAt_dropAt, hbefore]
  by_cases hnode : nodeId = s.localNodeId
  · subst hnode
    cases s.peers.lookup s.localNodeId with
    | none => simp
    | some peer =>
        simp only [Option.map_some, Option.getD_some, if_true, HashSet.mem_erase, and_true]
        exact and_comm
  · simp [hnode]

/-! ## Messages -/

/-- The chunks that the record of another node ends up with after a state sync:
those of the message's map for its source, else those of the record that the
message brings, else those known before. -/
def syncedChunks (s : NodeDiscovery) (msg : GossipMessage) (nodeId : Bytes) : HashSet Bytes :=
  (((msg.peerUpdates.lookup nodeId).or (s.peers.lookup nodeId)).map fun peer =>
    if nodeId = msg.sourceNodeId then (msg.chunkMap.lookup nodeId).getD peer.availableChunks
    else peer.availableChunks).getD ∅

def ConsistentMessage (s : NodeDiscovery) (msg : GossipMessage) : Prop :=
  match msg.type with
  | .nodeJoin => ∀ nodeId peer, nodeId ≠ s.localNodeId →
      msg.peerUpdates.lookup nodeId = some peer →
        ∀ chunk, chunk ∈ peer.availableChunks ↔ s.Locates chunk nodeId
  | .chunkAnnounce => ∀ nodeId chunk, nodeId ≠ s.localNodeId → MemAt msg.chunkMap nodeId chunk →
      (s.peers.lookup nodeId).isSome = true
  | .stateSync =>
      (∀ nodeId, nodeId ≠ s.localNodeId →
        (msg.peerUpdates.lookup nodeId).isSome = true ∨
          (msg.chunkMap.lookup nodeId).isSome = true →
        ∀ chunk, chunk ∈ s.syncedChunks msg nodeId ↔
          s.Locates chunk nodeId ∨ MemAt msg.chunkMap nodeId chunk) ∧
      (msg.sourceNodeId = s.localNodeId → (s.peers.lookup s.localNodeId).isSome = true →
        ∀ chunks, msg.chunkMap.lookup s.localNodeId = some chunks →
          ∀ chunk, chunk ∈ chunks ↔ s.Locates chunk s.localNodeId)
  | .nodeLeave | .chunkRemove | .unknown _ _ => True

theorem indexesAgree_handleNodeJoin {s : NodeDiscovery} {msg : GossipMessage}
    (h : IndexesAgree s)
    (hchunks : ∀ nodeId peer, nodeId ≠ s.localNodeId →
      msg.peerUpdates.lookup nodeId = some peer →
        ∀ chunk, chunk ∈ peer.availableChunks ↔ s.Locates chunk nodeId) :
    IndexesAgree (s.handleNodeJoin msg) := by
  rw [indexesAgree_iff] at h ⊢
  intro chunk nodeId
  obtain ⟨seen, hseen⟩ := lookup_handleNodeJoin s msg nodeId
  rw [locates_handleNodeJoin, chunksOf, hseen]
  by_cases hlocal : nodeId = s.localNodeId
  · rw [if_pos hlocal]
    exact h chunk nodeId
  · rw [if_neg hlocal]
    cases hpeer : msg.peerUpdates.lookup nodeId with
    | none => exact h chunk nodeId
    | some peer => exact (hchunks nodeId peer hlocal hpeer chunk).symm

theorem indexesAgree_handleChunkAnnounce {s : NodeDiscovery} {msg : GossipMessage}
    (h : IndexesAgree s)
    (hknown : ∀ nodeId chunk, nodeId ≠ s.localNodeId → MemAt msg.chunkMap nodeId chunk →
      (s.peers.lookup nodeId).isSome = true) :
    IndexesAgree (s.handleChunkAnnounce msg) := by
  rw [indexesAgree_iff] at h ⊢
  intro chunk nodeId
  have hbefore := h chunk nodeId
  rw [locates_handleChunkAnnounce, chunksOf, lookup_handleChunkAnnounce]
  by_cases hlocal : nodeId = s.localNodeId
  · subst hlocal
    rw [if_pos rfl]
    simpa [chunksOf] using hbefore
  · rw [if_neg hlocal, hbefore, chunksOf]
    cases hpeer : s.peers.lookup nodeId with
    | none =>
        have hnone : ¬ MemAt msg.chunkMap nodeId chunk := fun hmem => by
          have := hknown nodeId chunk hlocal hmem
          rw [hpeer] at this
          cases this
        simp [hnone]
    | some peer =>
        simp only [Option.map_some, Option.getD_some, HashSet.mem_insertAll, hlocal, ne_eq,
          not_false_eq_true, true_and]
        exact or_comm

theorem mem_foldl_erase {set : HashSet Bytes} {items : List Bytes} {chunk : Bytes} :
    chunk ∈ items.foldl HashSet.erase set ↔ chunk ∈ set ∧ chunk ∉ items := by
  induction items generalizing set with
  | nil => simp
  | cons item items ih =>
      rw [List.foldl_cons, ih, HashSet.mem_erase, List.mem_cons, not_or]
      tauto

theorem indexesAgree_handleChunkRemove {s : NodeDiscovery} {msg : GossipMessage}
    (h : IndexesAgree s) : IndexesAgree (s.handleChunkRemove msg) := by
  rw [indexesAgree_iff] at h ⊢
  intro chunk nodeId
  have hbefore := h chunk nodeId
  rw [locates_handleChunkRemove, chunksOf, lookup_handleChunkRemove]
  by_cases hlocal : nodeId = s.localNodeId
  · subst hlocal
    rw [if_pos rfl]
    simpa [chunksOf] using hbefore
  · rw [if_neg hlocal, hbefore, chunksOf]
    cases s.peers.lookup nodeId with
    | none => simp
    | some peer =>
        simp only [Option.map_some, Option.getD_some, mem_foldl_erase, hlocal, ne_eq,
          not_false_eq_true, true_and]
        rfl

theorem indexesAgree_handleStateSync {s : NodeDiscovery} {msg : GossipMessage}
    (h : IndexesAgree s)
    (hother : ∀ nodeId, nodeId ≠ s.localNodeId →
      (msg.peerUpdates.lookup nodeId).isSome = true ∨
        (msg.chunkMap.lookup nodeId).isSome = true →
      ∀ chunk, chunk ∈ s.syncedChunks msg nodeId ↔
        s.Locates chunk nodeId ∨ MemAt msg.chunkMap nodeId chunk)
    (hlocal : msg.sourceNodeId = s.localNodeId → (s.peers.lookup s.localNodeId).isSome = true →
      ∀ chunks, msg.chunkMap.lookup s.localNodeId = some chunks →
        ∀ chunk, chunk ∈ chunks ↔ s.Locates chunk s.localNodeId) :
    IndexesAgree (s.handleStateSync msg) := by
  rw [indexesAgree_iff] at h ⊢
  intro chunk nodeId
  have hbefore := h chunk nodeId
  obtain ⟨seen, hseen⟩ := lookup_handleStateSync s msg nodeId
  rw [locates_handleStateSync, chunksOf, hseen]
  by_cases hnode : nodeId = s.localNodeId
  · subst hnode
    rw [if_pos rfl, hbefore, chunksOf]
    cases hpeer : s.peers.lookup s.localNodeId with
    | none => simp
    | some peer =>
        by_cases hsource : s.localNodeId = msg.sourceNodeId
        · cases hchunks : msg.chunkMap.lookup s.localNodeId with
          | none => simp [hsource]
          | some chunks =>
              have hsame := hlocal hsource.symm (by rw [hpeer]; rfl) chunks hchunks chunk
              rw [hbefore, chunksOf, hpeer] at hsame
              simpa [← hsource] using hsame.symm
        · simp [hsource]
  · rw [if_neg hnode]
    by_cases hnamed : (msg.peerUpdates.lookup nodeId).isSome = true ∨
        (msg.chunkMap.lookup nodeId).isSome = true
    · have hsynced := hother nodeId hnode hnamed chunk
      rw [syncedChunks] at hsynced
      simp only [hnode, ne_eq, not_false_eq_true, true_and]
      rw [← hsynced]
      cases msg.peerUpdates.lookup nodeId with
      | none =>
          cases s.peers.lookup nodeId with
          | none => rfl
          | some peer => by_cases hsource : nodeId = msg.sourceNodeId <;> simp [hsource]
      | some peer => by_cases hsource : nodeId = msg.sourceNodeId <;> simp [hsource]
    · rw [not_or] at hnamed
      have hupdates : msg.peerUpdates.lookup nodeId = none := by simpa using hnamed.1
      have hmap : msg.chunkMap.lookup nodeId = none := by simpa using hnamed.2
      rw [hbefore, hupdates, hmap, chunksOf]
      simp [MemAt, hmap]

theorem indexesAgree_handleGossipMessage {s : NodeDiscovery} {msg : GossipMessage}
    (h : IndexesAgree s) (hmsg : s.isMessageSeen msg = true ∨ s.ConsistentMessage msg) :
    IndexesAgree (s.handleGossipMessage msg) := by
  unfold handleGossipMessage
  split
  · exact h
  · rename_i hseen
    have hfits := hmsg.resolve_left hseen
    have hmarked := sameTables_markMessageSeen s msg
    have h' := hmarked.indexesAgree h
    unfold ConsistentMessage at hfits
    cases htype : msg.type with
    | nodeJoin =>
        rw [htype] at hfits
        refine indexesAgree_handleNodeJoin h' fun nodeId peer hlocal hpeer chunk => ?_
        rw [hmarked.localNodeId] at hlocal
        rw [hmarked.locates]
        exact hfits nodeId peer hlocal hpeer chunk
    | nodeLeave => exact (forgets_removePeer _ msg.sourceNodeId).indexesAgree h'
    | chunkAnnounce =>
        rw [htype] at hfits
        refine indexesAgree_handleChunkAnnounce h' fun nodeId chunk hlocal hmem => ?_
        rw [hmarked.localNodeId] at hlocal
        rw [hmarked.peers]
        exact hfits nodeId chunk hlocal hmem
    | chunkRemove => exact indexesAgree_handleChunkRemove h'
    | stateSync =>
        rw [htype] at hfits
        refine indexesAgree_handleStateSync h' ?_ ?_
        · intro nodeId hlocal hnamed chunk
          rw [hmarked.localNodeId] at hlocal
          rw [hmarked.locates, syncedChunks, hmarked.peers]
          exact hfits.1 nodeId hlocal hnamed chunk
        · intro hsource hknown chunks hchunks chunk
          rw [hmarked.localNodeId] at hsource hchunks hknown
          rw [hmarked.peers] at hknown
          rw [hmarked.locates, hmarked.localNodeId]
          exact hfits.2 hsource hknown chunks hchunks chunk
    | unknown raw hraw => exact h'

/-! ## Runs -/

def step (s : NodeDiscovery) (op : Op) : Option NodeDiscovery := some (s.apply op)

def ConsistentOp (s : NodeDiscovery) : Op → Prop
  | .register _ localNode =>
      ∀ chunk, chunk ∈ localNode.availableChunks ↔ s.Locates chunk localNode.nodeId
  | .addPeer peer => ∀ chunk, chunk ∈ peer.availableChunks ↔ s.Locates chunk peer.nodeId
  | .gossip msg => s.isMessageSeen msg = true ∨ s.ConsistentMessage msg
  | .unregister | .removePeer _ | .announce _ | .removeAnnouncement _ | .cleanup => True

theorem indexesAgree_apply {s : NodeDiscovery} {op : Op} (h : IndexesAgree s)
    (hop : s.ConsistentOp op) : IndexesAgree (s.apply op) := by
  cases op with
  | register garbage localNode => exact indexesAgree_registerNode h hop
  | unregister => exact indexesAgree_unregisterNode h
  | addPeer peer => exact indexesAgree_addPeer h hop
  | removePeer nodeId => exact (forgets_removePeer s nodeId).indexesAgree h
  | announce chunkId => exact indexesAgree_announceChunk h chunkId
  | removeAnnouncement chunkId => exact indexesAgree_removeChunkAnnouncement h chunkId
  | cleanup => exact (forgets_cleanupStalePeers s).indexesAgree h
  | gossip msg => exact indexesAgree_handleGossipMessage h hop

/-- From empty tables, calls that fit the state they meet keep the two indexes in
agreement. -/
theorem indexesAgree_of_run {s s' : NodeDiscovery} {ops : List Op} (hpeers : s.peers = ∅)
    (hlocations : s.chunkLocations = ∅) (hops : EveryStep step ConsistentOp s ops)
    (hrun : runSteps step s ops = some s') : IndexesAgree s' := by
  have hempty : IndexesAgree s := by
    rw [indexesAgree_iff]
    intro chunk nodeId
    rw [Locates, MemAt, chunksOf, hlocations, hpeers]
    simp
  refine runSteps_invariant (fun s op t h hop hstep => ?_) hempty hops hrun
  cases hstep
  exact indexesAgree_apply h hop

def fresh : NodeDiscovery := new 50 (fun _ => 1700000000000) (fun _ => 0) fun _ => .id

def announcementOfB : GossipMessage :=
  { type := .chunkAnnounce
    sourceNodeId := ascii "B"
    timestamp := 1700000000000
    chunkMap := insertAt ∅ (ascii "B") (ascii "c") }

def consistentOps : List Op :=
  [.register (0, 0) { nodeId := ascii "A", address := ascii "10.0.0.1", port := 9000 },
    .addPeer { nodeId := ascii "B", lastSeen := 1700000000 }, .announce (ascii "d"),
    .gossip announcementOfB]

theorem everyStep_consistentOps : EveryStep step ConsistentOp fresh consistentOps := by
  have hempty : ∀ s : NodeDiscovery, s.chunkLocations = ∅ → ∀ nodeId chunk,
      chunk ∈ (∅ : HashSet Bytes) ↔ s.Locates chunk nodeId := by
    intro s hs nodeId chunk
    rw [Locates, MemAt, hs]
    simp
  refine ⟨hempty _ rfl _, hempty _ rfl _, trivial, Or.inr fun nodeId chunk _ hmem => ?_, trivial⟩
  have hnode : nodeId = ascii "B" := by
    rcases memAt_insertAt.mp hmem with hnone | ⟨hkey, -⟩
    · simp [MemAt] at hnone
    · exact hkey
  rw [hnode]
  decide +kernel

theorem indexesAgree_of_run_sample : ∃ s', runSteps step fresh consistentOps = some s' ∧
    IndexesAgree s' ∧ s'.Locates (ascii "c") (ascii "B") ∧ s'.Locates (ascii "d") (ascii "A") := by
  refine ⟨consistentOps.foldl apply fresh, rfl, ?_, by decide +kernel, by decide +kernel⟩
  exact indexesAgree_of_run rfl rfl everyStep_consistentOps rfl

/-- `B`'s announcement arrives before `B` is known: `B` is located for `c`
without having a record. -/
theorem not_indexesAgree_unknownNode :
    ∃ s', runSteps step fresh
      [.register (0, 0) { nodeId := ascii "A", address := ascii "10.0.0.1", port := 9000 },
        .gossip announcementOfB] = some s' ∧ ¬ IndexesAgree s' := by
  refine ⟨_, rfl, fun h => ?_⟩
  have hknown := h.known (ascii "c") (ascii "B") (by decide +kernel)
  revert hknown
  decide +kernel

end ElioP2P.P2P.NodeDiscovery
