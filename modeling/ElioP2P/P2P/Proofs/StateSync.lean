import ElioP2P.P2P.NodeDiscovery

/-!
# Anti-entropy through state sync

The sender of a `StateSync` message copies its location index, keyed by chunk,
into a field the receiver reads as keyed by node.  The merge is therefore the
union with the transposed index, and it converges exactly when the transposed
index brings the same news as the index itself.
-/

namespace ElioP2P.P2P.NodeDiscovery

open ElioP2P.Library

def Locates (s : NodeDiscovery) (chunk nodeId : Bytes) : Prop :=
  MemAt s.chunkLocations chunk nodeId

instance (s : NodeDiscovery) (chunk nodeId : Bytes) : Decidable (s.Locates chunk nodeId) :=
  inferInstanceAs (Decidable (MemAt _ _ _))

/-! ## Steps that leave the location index alone -/

def SameIndex (s s' : NodeDiscovery) : Prop :=
  s'.chunkLocations = s.chunkLocations ∧ s'.localNodeId = s.localNodeId

theorem SameIndex.trans {s t u : NodeDiscovery} (hst : SameIndex s t) (htu : SameIndex t u) :
    SameIndex s u :=
  ⟨htu.1.trans hst.1, htu.2.trans hst.2⟩

theorem sameIndex_markMessageSeen (s : NodeDiscovery) (msg : GossipMessage) :
    SameIndex s (s.markMessageSeen msg) := by
  unfold markMessageSeen
  simp only
  split <;> exact ⟨rfl, rfl⟩

theorem sameIndex_notifyDiscovered (s : NodeDiscovery) (isNew : Bool) (peer : PeerNode) :
    SameIndex s (s.notifyDiscovered isNew peer) := by
  unfold notifyDiscovered
  split <;> exact ⟨rfl, rfl⟩

theorem sameIndex_mergePeer (stamp : Bool) (s : NodeDiscovery) (peerId : Bytes)
    (peer : PeerNode) : SameIndex s (s.mergePeer stamp peerId peer) := by
  unfold mergePeer
  split
  · exact ⟨rfl, rfl⟩
  · cases stamp with
    | false => exact sameIndex_notifyDiscovered _ _ _
    | true => exact sameIndex_notifyDiscovered _ _ _

theorem sameIndex_mergePeers (stamp : Bool) (entries : List (Sigma fun _ : Bytes => PeerNode))
    (s : NodeDiscovery) :
    SameIndex s (entries.foldl (fun s entry => s.mergePeer stamp entry.1 entry.2) s) := by
  induction entries generalizing s with
  | nil => exact ⟨rfl, rfl⟩
  | cons entry entries ih =>
      rw [List.foldl_cons]
      exact (sameIndex_mergePeer stamp s entry.1 entry.2).trans (ih _)

theorem sameIndex_updatePeer (s : NodeDiscovery) (nodeId : Bytes) (f : PeerNode → PeerNode) :
    SameIndex s (s.updatePeer nodeId f) := by
  unfold updatePeer
  split <;> exact ⟨rfl, rfl⟩

/-! ## The merge -/

theorem locates_foldl_addLocations (s : NodeDiscovery)
    (entries : List (Sigma fun _ : Bytes => HashSet Bytes)) (chunk nodeId : Bytes) :
    (entries.foldl (fun s entry =>
        if entry.1 = s.localNodeId then s
        else s.addLocations entry.1 entry.2.toList) s).Locates chunk nodeId ↔
      s.Locates chunk nodeId ∨
        ∃ entry ∈ entries, entry.1 ≠ s.localNodeId ∧ entry.1 = nodeId ∧ chunk ∈ entry.2 := by
  induction entries generalizing s with
  | nil => simp
  | cons entry entries ih =>
      rw [List.foldl_cons, ih]
      by_cases hlocal : entry.1 = s.localNodeId
      · rw [if_pos hlocal]
        simp [hlocal]
      · rw [if_neg hlocal]
        have hadd : (s.addLocations entry.1 entry.2.toList).Locates chunk nodeId ↔
            s.Locates chunk nodeId ∨ (chunk ∈ entry.2 ∧ nodeId = entry.1) :=
          memAt_foldl_insertAt
        rw [hadd]
        simp only [addLocations, List.mem_cons, exists_eq_or_imp, hlocal, ne_eq, not_false_eq_true,
          true_and]
        constructor
        · rintro ((h | ⟨hchunk, rfl⟩) | h)
          · exact Or.inl h
          · exact Or.inr (Or.inl ⟨rfl, hchunk⟩)
          · exact Or.inr (Or.inr h)
        · rintro (h | ⟨rfl, hchunk⟩ | h)
          · exact Or.inl (Or.inl h)
          · exact Or.inl (Or.inr ⟨hchunk, rfl⟩)
          · exact Or.inr h

/-- Merging adds `nodeId` to the set of `chunk` exactly when the received map
has `chunk` under the key `nodeId`, the local node excepted. -/
theorem locates_mergeLocations (s : NodeDiscovery)
    (chunkMap : AList fun _ : Bytes => HashSet Bytes) (chunk nodeId : Bytes) :
    (s.mergeLocations chunkMap).Locates chunk nodeId ↔
      s.Locates chunk nodeId ∨ (nodeId ≠ s.localNodeId ∧ MemAt chunkMap nodeId chunk) := by
  unfold mergeLocations
  rw [locates_foldl_addLocations, memAt_iff_entries]
  constructor
  · rintro (h | ⟨entry, hentry, hlocal, rfl, hchunk⟩)
    · exact Or.inl h
    · exact Or.inr ⟨hlocal, entry, hentry, rfl, hchunk⟩
  · rintro (h | ⟨hlocal, entry, hentry, rfl, hchunk⟩)
    · exact Or.inl h
    · exact Or.inr ⟨entry, hentry, hlocal, rfl, hchunk⟩

theorem locates_handleStateSync (s : NodeDiscovery) (msg : GossipMessage)
    (chunk nodeId : Bytes) :
    (s.handleStateSync msg).Locates chunk nodeId ↔
      s.Locates chunk nodeId ∨ (nodeId ≠ s.localNodeId ∧ MemAt msg.chunkMap nodeId chunk) := by
  have hmerged := sameIndex_mergePeers false msg.peerUpdates.entries s
  have hlocates := locates_mergeLocations
    (msg.peerUpdates.entries.foldl (fun s entry => s.mergePeer false entry.1 entry.2) s)
    msg.chunkMap chunk nodeId
  rw [hmerged.2, Locates, Locates, hmerged.1] at hlocates
  unfold handleStateSync
  simp only
  split
  · rw [Locates, (sameIndex_updatePeer _ _ _).1]
    exact hlocates
  · exact hlocates

theorem locates_handleGossipMessage_stateSync (s : NodeDiscovery) {msg : GossipMessage}
    (htype : msg.type = .stateSync) (hseen : s.isMessageSeen msg = false)
    (chunk nodeId : Bytes) :
    (s.handleGossipMessage msg).Locates chunk nodeId ↔
      s.Locates chunk nodeId ∨ (nodeId ≠ s.localNodeId ∧ MemAt msg.chunkMap nodeId chunk) := by
  have hmarked := sameIndex_markMessageSeen s msg
  have hlocates := locates_handleStateSync (s.markMessageSeen msg) msg chunk nodeId
  rw [hmarked.2, Locates, Locates, hmarked.1] at hlocates
  unfold handleGossipMessage
  rw [if_neg (by simp [hseen])]
  simp only [htype]
  exact hlocates

theorem createGossipMessage_stateSync (s : NodeDiscovery) :
    (s.createGossipMessage .stateSync).1.type = .stateSync ∧
      (s.createGossipMessage .stateSync).1.chunkMap = s.chunkLocations := by
  unfold createGossipMessage
  exact ⟨rfl, rfl⟩

/-! ## Convergence -/

/-- `b'` knows what `b` and `a` knew about every node other than `b`'s own, and
what `b` knew about itself. -/
def Converges (a b b' : NodeDiscovery) : Prop :=
  (∀ chunk nodeId, nodeId ≠ b.localNodeId →
    (b'.Locates chunk nodeId ↔ b.Locates chunk nodeId ∨ a.Locates chunk nodeId)) ∧
  ∀ chunk, b'.Locates chunk b.localNodeId ↔ b.Locates chunk b.localNodeId

/-- One state sync from `a` makes `b` converge exactly when `a`'s index and its
transpose agree on everything that is news to `b`. -/
theorem converges_stateSync_iff {a b : NodeDiscovery}
    (hseen : b.isMessageSeen (a.createGossipMessage .stateSync).1 = false) :
    Converges a b (b.handleGossipMessage (a.createGossipMessage .stateSync).1) ↔
      ∀ chunk nodeId, nodeId ≠ b.localNodeId → ¬ b.Locates chunk nodeId →
        (a.Locates nodeId chunk ↔ a.Locates chunk nodeId) := by
  obtain ⟨htype, hmap⟩ := createGossipMessage_stateSync a
  have hlocates := locates_handleGossipMessage_stateSync b htype hseen
  simp only [hmap] at hlocates
  constructor
  · rintro ⟨hother, -⟩ chunk nodeId hne hnews
    have hafter := hother chunk nodeId hne
    rw [hlocates] at hafter
    constructor
    · intro htransposed
      exact (hafter.mp (Or.inr ⟨hne, htransposed⟩)).resolve_left hnews
    · intro hindex
      exact ((hafter.mpr (Or.inr hindex)).resolve_left hnews).2
  · intro hagree
    refine ⟨fun chunk nodeId hne => ?_, fun chunk => ?_⟩
    · rw [hlocates]
      by_cases hknown : b.Locates chunk nodeId
      · simp [hknown]
      · simp only [hknown, false_or, hne, ne_eq, not_false_eq_true, true_and]
        exact hagree chunk nodeId hne hknown
    · rw [hlocates]
      simp

def registered (nodeId : Bytes) : NodeDiscovery :=
  (new 50 (fun _ => 1700000000000) (fun _ => 0) fun _ => .id).registerNode (0, 0)
    { nodeId := nodeId, address := ascii "10.0.0.1", port := 9000 }

theorem converges_stateSync_iff_announced :
    Converges ((registered (ascii "A")).announceChunk (ascii "c")) (registered (ascii "B"))
        ((registered (ascii "B")).handleGossipMessage
          (((registered (ascii "A")).announceChunk (ascii "c")).createGossipMessage
            .stateSync).1) ↔
      ∀ chunk nodeId, nodeId ≠ (registered (ascii "B")).localNodeId →
        ¬ (registered (ascii "B")).Locates chunk nodeId →
        (((registered (ascii "A")).announceChunk (ascii "c")).Locates nodeId chunk ↔
          ((registered (ascii "A")).announceChunk (ascii "c")).Locates chunk nodeId) :=
  converges_stateSync_iff (by decide)

/-- Node `A` announces chunk `c` and syncs its state to node `B`: `B` does not
learn that `A` has `c`, but files a chunk called `A` at a node called `c`. -/
theorem not_converges_stateSync :
    (registered (ascii "B")).isMessageSeen
        (((registered (ascii "A")).announceChunk (ascii "c")).createGossipMessage
          .stateSync).1 = false ∧
    ((registered (ascii "B")).handleGossipMessage
        (((registered (ascii "A")).announceChunk (ascii "c")).createGossipMessage
          .stateSync).1).Locates (ascii "A") (ascii "c") ∧
    ¬ Converges ((registered (ascii "A")).announceChunk (ascii "c")) (registered (ascii "B"))
        ((registered (ascii "B")).handleGossipMessage
          (((registered (ascii "A")).announceChunk (ascii "c")).createGossipMessage
            .stateSync).1) := by
  refine ⟨by decide, by decide, fun hconverges => ?_⟩
  have hlearned := (hconverges.1 (ascii "c") (ascii "A") (by decide)).mpr (Or.inr (by decide))
  revert hlearned
  decide

end ElioP2P.P2P.NodeDiscovery
