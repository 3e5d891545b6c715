import ElioP2P.P2P.Proofs.StateSync

/-!
# What the operations do to the peer table

One lemma for each way in which peers or locations change: peers are forgotten,
records of a message are merged, chunks are announced or removed.  Everything
else an operation does (clocks, callbacks, the outbox) leaves both tables as
they are.
-/

namespace ElioP2P.P2P.NodeDiscovery

open ElioP2P.Library

structure SameTables (s s' : NodeDiscovery) : Prop where
  peers : s'.peers = s.peers
  chunkLocations : s'.chunkLocations = s.chunkLocations
  localNodeId : s'.localNodeId = s.localNodeId

namespace SameTables

theorem trans {s t u : NodeDiscovery} (hst : SameTables s t) (htu : SameTables t u) :
    SameTables s u :=
  ⟨htu.peers.trans hst.peers, htu.chunkLocations.trans hst.chunkLocations,
    htu.localNodeId.trans hst.localNodeId⟩

theorem locates {s s' : NodeDiscovery} (h : SameTables s s') (chunk nodeId : Bytes) :
    s'.Locates chunk nodeId ↔ s.Locates chunk nodeId := by
  rw [Locates, Locates, h.chunkLocations]

end SameTables

theorem sameTables_markMessageSeen (s : NodeDiscovery) (msg : GossipMessage) :
    SameTables s (s.markMessageSeen msg) := by
  unfold markMessageSeen
  simp only
  split <;> exact ⟨rfl, rfl, rfl⟩

theorem sameTables_notifyDiscovered (s : NodeDiscovery) (isNew : Bool) (peer : PeerNode) :
    SameTables s (s.notifyDiscovered isNew peer) := by
  unfold notifyDiscovered
  split <;> exact ⟨rfl, rfl, rfl⟩

theorem sameTables_notifyLost (s : NodeDiscovery) (nodeId : Bytes) :
    SameTables s (s.notifyLost nodeId) := by
  unfold notifyLost
  split <;> exact ⟨rfl, rfl, rfl⟩

theorem sameTables_filterActive (wanted : Bool)
    (entries : List (Sigma fun _ : Bytes => PeerNode)) (s : NodeDiscovery) :
    SameTables s (filterActive wanted entries s).2 := by
  induction entries generalizing s with
  | nil => exact ⟨rfl, rfl, rfl⟩
  | cons entry entries ih =>
      have hread : SameTables s (s.isActive entry.2).2 := ⟨rfl, rfl, rfl⟩
      exact hread.trans (ih _)

/-! ## Forgetting peers -/

/-- The second state has lost the peers in `gone`, in both tables. -/
structure Forgets (gone : List Bytes) (s s' : NodeDiscovery) : Prop where
  peers : ∀ nodeId, s'.peers.lookup nodeId =
    if nodeId ∈ gone then none else s.peers.lookup nodeId
  locates : ∀ chunk nodeId, s'.Locates chunk nodeId ↔
    s.Locates chunk nodeId ∧ nodeId ∉ gone
  localNodeId : s'.localNodeId = s.localNodeId

namespace Forgets

theorem of_sameTables {s s' : NodeDiscovery} (h : SameTables s s') : Forgets [] s s' := by
  refine ⟨fun nodeId => ?_, fun chunk nodeId => ?_, h.localNodeId⟩
  · rw [h.peers]
    simp
  · rw [h.locates]
    simp

theorem trans {gone gone' : List Bytes} {s t u : NodeDiscovery} (hst : Forgets gone s t)
    (htu : Forgets gone' t u) : Forgets (gone ++ gone') s u := by
  refine ⟨fun nodeId => ?_, fun chunk nodeId => ?_, htu.localNodeId.trans hst.localNodeId⟩
  · rw [htu.peers, hst.peers]
    by_cases hgone : nodeId ∈ gone
    · simp [hgone]
    · simp [hgone]
  · rw [htu.locates, hst.locates, List.mem_append, not_or, and_assoc]

theorem then_same {gone : List Bytes} {s t u : NodeDiscovery} (hst : Forgets gone s t)
    (htu : SameTables t u) : Forgets gone s u := by
  have h := hst.trans (of_sameTables htu)
  rwa [List.append_nil] at h

theorem same_then {gone : List Bytes} {s t u : NodeDiscovery} (hst : SameTables s t)
    (htu : Forgets gone t u) : Forgets gone s u :=
  (of_sameTables hst).trans htu

theorem lookup_of_some {gone : List Bytes} {s s' : NodeDiscovery} {nodeId : Bytes}
    {peer : PeerNode} (h : Forgets gone s s') (hpeer : s'.peers.lookup nodeId = some peer) :
    s.peers.lookup nodeId = some peer := by
  rw [h.peers] at hpeer
  split at hpeer
  · cases hpeer
  · exact hpeer

end Forgets

theorem forgets_forgetPeer (s : NodeDiscovery) (nodeId : Bytes) :
    Forgets [nodeId] s (s.forgetPeer nodeId) := by
  refine ⟨fun k => ?_, fun chunk k => ?_, rfl⟩
  · simp only [forgetPeer, List.mem_singleton]
    by_cases hk : k = nodeId
    · subst hk
      rw [if_pos rfl]
      exact AList.lookup_erase _ _
    · rw [if_neg hk]
      exact AList.lookup_erase_ne hk
  · simp only [Locates, MemAt, forgetPeer, lookup_mapValues, List.mem_singleton]
    cases s.chunkLocations.lookup chunk with
    | none => simp
    | some locations =>
        simp only [Option.map_some, Option.getD_some, HashSet.mem_erase]
        exact and_comm

theorem forgets_foldl_forgetPeer (entries : List (Sigma fun _ : Bytes => PeerNode))
    (s : NodeDiscovery) :
    Forgets (entries.map Sigma.fst) s
      (entries.foldl (fun s entry => s.forgetPeer entry.1) s) := by
  induction entries generalizing s with
  | nil => exact Forgets.of_sameTables ⟨rfl, rfl, rfl⟩
  | cons entry entries ih => exact (forgets_forgetPeer s entry.1).trans (ih _)

theorem forgets_cleanupStalePeers (s : NodeDiscovery) :
    Forgets ((filterActive false s.peers.entries s).1.map Sigma.fst) s s.cleanupStalePeers :=
  Forgets.same_then (sameTables_filterActive false s.peers.entries s)
    (forgets_foldl_forgetPeer _ _)

theorem forgets_getAllPeers (s : NodeDiscovery) : ∃ gone, Forgets gone s s.getAllPeers.2 :=
  ⟨_, (forgets_cleanupStalePeers s).then_same (sameTables_filterActive true _ _)⟩

theorem forgets_sendToSubset (s : NodeDiscovery) (share : UInt32) (wanted : PeerNode → Bool)
    (msg : GossipMessage) : ∃ gone, Forgets gone s (s.sendToSubset share wanted msg) := by
  obtain ⟨gone, hgone⟩ := forgets_getAllPeers s
  refine ⟨gone, hgone.then_same ?_⟩
  unfold sendToSubset
  simp only
  split <;> exact ⟨rfl, rfl, rfl⟩

theorem forgets_stampedSend (s : NodeDiscovery) (share : UInt32) (wanted : PeerNode → Bool)
    (msg : GossipMessage) :
    ∃ gone, Forgets gone s (s.currentMillis.2.sendToSubset share wanted msg) := by
  have hread : SameTables s s.currentMillis.2 := ⟨rfl, rfl, rfl⟩
  obtain ⟨gone, hgone⟩ := forgets_sendToSubset s.currentMillis.2 share wanted msg
  exact ⟨gone, Forgets.same_then hread hgone⟩

theorem forgets_broadcastNodeJoin (garbage : UInt64 × UInt64) (s : NodeDiscovery) :
    ∃ gone, Forgets gone s (s.broadcastNodeJoin garbage) := by
  unfold broadcastNodeJoin
  split
  · exact ⟨[], Forgets.of_sameTables ⟨rfl, rfl, rfl⟩⟩
  · exact forgets_stampedSend s _ _ _

theorem forgets_broadcastNodeLeave (s : NodeDiscovery) :
    ∃ gone, Forgets gone s s.broadcastNodeLeave := by
  unfold broadcastNodeLeave
  split
  · exact ⟨[], Forgets.of_sameTables ⟨rfl, rfl, rfl⟩⟩
  · exact forgets_stampedSend s _ _ _

theorem forgets_broadcastChunkAnnounce (s : NodeDiscovery) (chunkId : Bytes) :
    ∃ gone, Forgets gone s (s.broadcastChunkAnnounce chunkId) := by
  unfold broadcastChunkAnnounce
  split
  · exact ⟨[], Forgets.of_sameTables ⟨rfl, rfl, rfl⟩⟩
  · exact forgets_stampedSend s _ _ _

/-- The tables with the node's own chunk entered, before it is broadcast. -/
def withOwnChunk (s : NodeDiscovery) (chunkId : Bytes) : NodeDiscovery :=
  { s with
    chunkLocations := insertAt s.chunkLocations chunkId s.localNodeId
    peers := s.peers.insert s.localNodeId
      { (s.peers.lookup s.localNodeId).getD {} with
        availableChunks :=
          ((s.peers.lookup s.localNodeId).getD {}).availableChunks.insert chunkId } }

theorem announceChunk_cases (s : NodeDiscovery) (chunkId : Bytes) :
    s.announceChunk chunkId = s ∨ s.localNodeId ≠ [] ∧
      ∃ gone, Forgets gone (s.withOwnChunk chunkId) (s.announceChunk chunkId) := by
  unfold announceChunk
  split
  · exact Or.inl rfl
  · rename_i hid
    exact Or.inr ⟨fun hnil => hid (by rw [hnil]; rfl),
      forgets_broadcastChunkAnnounce (s.withOwnChunk chunkId) chunkId⟩

theorem forgets_broadcastChunkRemove (s : NodeDiscovery) (chunkId : Bytes) :
    ∃ gone, Forgets gone s (s.broadcastChunkRemove chunkId) := by
  unfold broadcastChunkRemove
  split
  · exact ⟨[], Forgets.of_sameTables ⟨rfl, rfl, rfl⟩⟩
  · exact forgets_stampedSend s _ _ _

/-! ## Changing known records -/

theorem lookup_updatePeer (s : NodeDiscovery) (nodeId : Bytes) (f : PeerNode → PeerNode)
    (k : Bytes) :
    (s.updatePeer nodeId f).peers.lookup k =
      if k = nodeId then (s.peers.lookup k).map f else s.peers.lookup k := by
  unfold updatePeer
  cases hpeer : s.peers.lookup nodeId with
  | none =>
      simp only
      split
      · rename_i hk
        rw [hk, hpeer]
        rfl
      · rfl
  | some peer =>
      simp only
      split
      · rename_i hk
        rw [hk, hpeer, AList.lookup_insert]
        rfl
      · rename_i hk
        exact AList.lookup_insert_ne hk

/-- A pass over the chunk lists of a message: every entry but the local node's
changes the index and the record of its node. -/
def chunkPass (index : (Sigma fun _ : Bytes => HashSet Bytes) → NodeDiscovery →
      AList fun _ : Bytes => HashSet Bytes)
    (record : HashSet Bytes → PeerNode → PeerNode)
    (entries : List (Sigma fun _ : Bytes => HashSet Bytes)) (s : NodeDiscovery) : NodeDiscovery :=
  entries.foldl
    (fun s entry =>
      if entry.1 = s.localNodeId then s
      else { s with chunkLocations := index entry s }.updatePeer entry.1 (record entry.2))
    s

section ChunkPass

variable {index : (Sigma fun _ : Bytes => HashSet Bytes) → NodeDiscovery →
    AList fun _ : Bytes => HashSet Bytes} {record : HashSet Bytes → PeerNode → PeerNode}

theorem localNodeId_chunkPass (entries : List (Sigma fun _ : Bytes => HashSet Bytes))
    (s : NodeDiscovery) : (chunkPass index record entries s).localNodeId = s.localNodeId := by
  unfold chunkPass
  induction entries generalizing s with
  | nil => rfl
  | cons entry entries ih =>
      rw [List.foldl_cons, ih]
      split
      · rfl
      · exact (sameIndex_updatePeer _ _ _).2

theorem lookup_chunkPass {entries : List (Sigma fun _ : Bytes => HashSet Bytes)}
    (hnodup : entries.NodupKeys) (s : NodeDiscovery) (nodeId : Bytes) :
    (chunkPass index record entries s).peers.lookup nodeId =
      if nodeId = s.localNodeId then s.peers.lookup nodeId
      else (s.peers.lookup nodeId).map ((entries.dlookup nodeId).elim id record) := by
  unfold chunkPass
  induction entries generalizing s with
  | nil => simp
  | cons entry entries ih =>
      obtain ⟨key, chunks⟩ := entry
      obtain ⟨hfresh, hrest⟩ := List.nodupKeys_cons.mp hnodup
      rw [List.foldl_cons, ih hrest]
      by_cases hlocal : key = s.localNodeId
      · rw [if_pos hlocal]
        by_cases hnode : nodeId = s.localNodeId
        · rw [if_pos hnode, if_pos hnode]
        · rw [if_neg hnode, if_neg hnode, List.dlookup_cons_ne _ _ (hlocal ▸ hnode)]
      · rw [if_neg hlocal, (sameIndex_updatePeer _ _ _).2, lookup_updatePeer]
        by_cases hnode : nodeId = s.localNodeId
        · have hne : nodeId ≠ key := fun h => hlocal (h ▸ hnode)
          simp only [if_pos hnode, if_neg hne]
        · simp only [if_neg hnode]
          by_cases hkey : nodeId = key
          · subst hkey
            rw [List.dlookup_eq_none.mpr hfresh, List.dlookup_cons_eq, if_pos rfl]
            simp
          · rw [List.dlookup_cons_ne _ _ hkey, if_neg hkey]

/-- A node that the message does not list is one with an empty list. -/
theorem lookup_chunkPass_chunkMap (hempty : ∀ peer, record ∅ peer = peer)
    (chunkMap : AList fun _ : Bytes => HashSet Bytes) (s : NodeDiscovery) (nodeId : Bytes) :
    (chunkPass index record chunkMap.entries s).peers.lookup nodeId =
      if nodeId = s.localNodeId then s.peers.lookup nodeId
      else (s.peers.lookup nodeId).map (record ((chunkMap.lookup nodeId).getD ∅)) := by
  rw [lookup_chunkPass chunkMap.nodupKeys]
  have hlookup : chunkMap.entries.dlookup nodeId = chunkMap.lookup nodeId := rfl
  rw [hlookup]
  cases chunkMap.lookup nodeId with
  | none =>
      rw [Option.getD_none, funext hempty]
      rfl
  | some chunks => rfl

end ChunkPass

theorem mergeLocations_frame (s : NodeDiscovery)
    (chunkMap : AList fun _ : Bytes => HashSet Bytes) :
    (s.mergeLocations chunkMap).peers = s.peers ∧
      (s.mergeLocations chunkMap).localNodeId = s.localNodeId := by
  unfold mergeLocations
  generalize chunkMap.entries = entries
  induction entries generalizing s with
  | nil => exact ⟨rfl, rfl⟩
  | cons entry entries ih =>
      rw [List.foldl_cons]
      split
      · exact ih s
      · exact ih (s.addLocations entry.1 entry.2.toList)

/-! ## Announcements -/

theorem handleChunkAnnounce_eq (s : NodeDiscovery) (msg : GossipMessage) :
    s.handleChunkAnnounce msg = chunkPass
      (fun entry s => entry.2.toList.foldl (fun m chunk => insertAt m chunk entry.1)
        s.chunkLocations)
      (fun chunks peer => { peer with
        availableChunks := peer.availableChunks.insertAll chunks.toList })
      msg.chunkMap.entries s :=
  rfl

theorem localNodeId_handleChunkAnnounce (s : NodeDiscovery) (msg : GossipMessage) :
    (s.handleChunkAnnounce msg).localNodeId = s.localNodeId := by
  rw [handleChunkAnnounce_eq]
  exact localNodeId_chunkPass _ s

theorem lookup_handleChunkAnnounce (s : NodeDiscovery) (msg : GossipMessage) (nodeId : Bytes) :
    (s.handleChunkAnnounce msg).peers.lookup nodeId =
      if nodeId = s.localNodeId then s.peers.lookup nodeId
      else (s.peers.lookup nodeId).map fun peer => { peer with
        availableChunks := peer.availableChunks.insertAll
          ((msg.chunkMap.lookup nodeId).getD ∅).toList } := by
  rw [handleChunkAnnounce_eq]
  exact lookup_chunkPass_chunkMap (fun _ => rfl) msg.chunkMap s nodeId

/-- The records do not matter for the index: an announcement merges the map of
the message into it. -/
theorem chunkLocations_handleChunkAnnounce (s : NodeDiscovery) (msg : GossipMessage) :
    (s.handleChunkAnnounce msg).chunkLocations =
      (s.mergeLocations msg.chunkMap).chunkLocations := by
  unfold handleChunkAnnounce mergeLocations
  generalize msg.chunkMap.entries = entries
  -- The two passes go side by side.
  suffices hpass : ∀ s s' : NodeDiscovery, SameIndex s' s →
      SameIndex (entries.foldl (fun s entry => if entry.1 = s.localNodeId then s
          else s.addLocations entry.1 entry.2.toList) s')
        (entries.foldl (fun s entry => if entry.1 = s.localNodeId then s
          else (s.addLocations entry.1 entry.2.toList).updatePeer entry.1 fun peer =>
            { peer with availableChunks := peer.availableChunks.insertAll entry.2.toList }) s) by
    exact (hpass s s ⟨rfl, rfl⟩).1
  induction entries with
  | nil => exact fun s s' h => h
  | cons entry entries ih =>
      intro s s' h
      rw [List.foldl_cons, List.foldl_cons]
      apply ih
      rw [h.2]
      split
      · exact h
      · refine SameIndex.trans ?_ (sameIndex_updatePeer _ _ _)
        exact ⟨by simp only [addLocations, h.1], h.2⟩

theorem locates_handleChunkAnnounce (s : NodeDiscovery) (msg : GossipMessage)
    (chunk nodeId : Bytes) :
    (s.handleChunkAnnounce msg).Locates chunk nodeId ↔
      s.Locates chunk nodeId ∨ (nodeId ≠ s.localNodeId ∧ MemAt msg.chunkMap nodeId chunk) := by
  rw [← locates_mergeLocations, Locates, Locates, chunkLocations_handleChunkAnnounce]

/-! ## Removals -/

/-- `m[key].erase(item)` for a key that is there; the set stays even if it
becomes empty. -/
def dropAt (m : AList fun _ : Bytes => HashSet Bytes) (key item : Bytes) :
    AList fun _ : Bytes => HashSet Bytes :=
  match m.lookup key with
  | some items => m.insert key (items.erase item)
  | none => m

theorem memAt_dropAt {m : AList fun _ : Bytes => HashSet Bytes} {key item k a : Bytes} :
    MemAt (dropAt m key item) k a ↔ MemAt m k a ∧ ¬ (k = key ∧ a = item) := by
  unfold dropAt MemAt
  cases hitems : m.lookup key with
  | none =>
      simp only
      constructor
      · intro hmem
        refine ⟨hmem, ?_⟩
        rintro ⟨rfl, -⟩
        simp [hitems] at hmem
      · exact And.left
  | some items =>
      simp only
      by_cases hk : k = key
      · subst hk
        rw [AList.lookup_insert, hitems]
        simp only [Option.getD_some, HashSet.mem_erase, true_and]
        exact and_comm
      · rw [AList.lookup_insert_ne hk]
        simp [hk]

theorem memAt_foldl_dropAt {m : AList fun _ : Bytes => HashSet Bytes} {keys : List Bytes}
    {item k a : Bytes} :
    MemAt (keys.foldl (fun m key => dropAt m key item) m) k a ↔
      MemAt m k a ∧ ¬ (k ∈ keys ∧ a = item) := by
  induction keys generalizing m with
  | nil => simp
  | cons key keys ih =>
      rw [List.foldl_cons, ih, memAt_dropAt]
      simp only [List.mem_cons]
      tauto

theorem handleChunkRemove_eq (s : NodeDiscovery) (msg : GossipMessage) :
    s.handleChunkRemove msg = chunkPass
      (fun entry s => entry.2.toList.foldl (fun m chunk => dropAt m chunk entry.1)
        s.chunkLocations)
      (fun chunks peer => { peer with
        availableChunks := chunks.toList.foldl HashSet.erase peer.availableChunks })
      msg.chunkMap.entries s :=
  rfl

theorem localNodeId_handleChunkRemove (s : NodeDiscovery) (msg : GossipMessage) :
    (s.handleChunkRemove msg).localNodeId = s.localNodeId := by
  rw [handleChunkRemove_eq]
  exact localNodeId_chunkPass _ s

theorem lookup_handleChunkRemove (s : NodeDiscovery) (msg : GossipMessage) (nodeId : Bytes) :
    (s.handleChunkRemove msg).peers.lookup nodeId =
      if nodeId = s.localNodeId then s.peers.lookup nodeId
      else (s.peers.lookup nodeId).map fun peer => { peer with
        availableChunks := ((msg.chunkMap.lookup nodeId).getD ∅).toList.foldl HashSet.erase
          peer.availableChunks } := by
  rw [handleChunkRemove_eq]
  exact lookup_chunkPass_chunkMap (fun _ => rfl) msg.chunkMap s nodeId

theorem locates_foldl_dropAt {record : HashSet Bytes → PeerNode → PeerNode}
    (entries : List (Sigma fun _ : Bytes => HashSet Bytes)) (s : NodeDiscovery)
    (chunk nodeId : Bytes) :
    (chunkPass (fun entry s => entry.2.toList.foldl (fun m chunk => dropAt m chunk entry.1)
        s.chunkLocations) record entries s).Locates chunk nodeId ↔
      s.Locates chunk nodeId ∧
        ¬ ∃ entry ∈ entries, entry.1 ≠ s.localNodeId ∧ entry.1 = nodeId ∧ chunk ∈ entry.2 := by
  unfold chunkPass
  induction entries generalizing s with
  | nil => simp
  | cons entry entries ih =>
      rw [List.foldl_cons, ih]
      by_cases hlocal : entry.1 = s.localNodeId
      · rw [if_pos hlocal]
        simp [hlocal]
      · rw [if_neg hlocal, Locates, (sameIndex_updatePeer _ _ _).1, (sameIndex_updatePeer _ _ _).2]
        simp only [List.mem_cons, exists_eq_or_imp, hlocal, ne_eq, not_false_eq_true, true_and]
        rw [memAt_foldl_dropAt, not_or, and_assoc]
        have hcomm : (chunk ∈ entry.2.toList ∧ nodeId = entry.1) ↔
            (entry.1 = nodeId ∧ chunk ∈ entry.2) := by
          constructor
          · rintro ⟨hchunk, rfl⟩
            exact ⟨rfl, hchunk⟩
          · rintro ⟨rfl, hchunk⟩
            exact ⟨hchunk, rfl⟩
        rw [hcomm]
        rfl

theorem locates_handleChunkRemove (s : NodeDiscovery) (msg : GossipMessage)
    (chunk nodeId : Bytes) :
    (s.handleChunkRemove msg).Locates chunk nodeId ↔
      s.Locates chunk nodeId ∧
        ¬ (nodeId ≠ s.localNodeId ∧ MemAt msg.chunkMap nodeId chunk) := by
  rw [handleChunkRemove_eq, locates_foldl_dropAt, memAt_iff_entries]
  refine and_congr_right fun _ => not_congr ⟨?_, ?_⟩
  · rintro ⟨entry, hentry, hlocal, rfl, hchunk⟩
    exact ⟨hlocal, entry, hentry, rfl, hchunk⟩
  · rintro ⟨hlocal, entry, hentry, rfl, hchunk⟩
    exact ⟨entry, hentry, hlocal, rfl, hchunk⟩

/-! ## Records of a message -/

theorem lookup_mergePeer (stamp : Bool) (s : NodeDiscovery) (peerId : Bytes) (peer : PeerNode) :
    ∃ seen, ∀ k, (s.mergePeer stamp peerId peer).peers.lookup k =
      if peerId ≠ s.localNodeId ∧ k = peerId then some { peer with lastSeen := seen }
      else s.peers.lookup k := by
  have hinsert : ∀ (peers : AList fun _ : Bytes => PeerNode) (new : PeerNode) (k : Bytes),
      (peers.insert peerId new).lookup k = if k = peerId then some new else peers.lookup k := by
    intro peers new k
    split
    · rename_i hk
      rw [hk, AList.lookup_insert]
    · rename_i hk
      exact AList.lookup_insert_ne hk
  by_cases hlocal : peerId = s.localNodeId
  · refine ⟨0, fun k => ?_⟩
    rw [mergePeer, if_pos hlocal, if_neg fun h => h.1 hlocal]
  · have hcond : ∀ k, (peerId ≠ s.localNodeId ∧ k = peerId) ↔ k = peerId :=
      fun k => and_iff_right hlocal
    simp only [hcond]
    cases stamp with
    | true =>
        refine ⟨s.currentSeconds.1, fun k => ?_⟩
        rw [mergePeer, if_neg hlocal, (sameTables_notifyDiscovered _ _ _).peers]
        exact hinsert _ _ k
    | false =>
        refine ⟨peer.lastSeen, fun k => ?_⟩
        rw [mergePeer, if_neg hlocal, (sameTables_notifyDiscovered _ _ _).peers]
        exact hinsert _ _ k

/-- Records of other nodes replace what was known; the stamp is the receiver's
or the sender's. -/
theorem lookup_mergePeers (stamp : Bool) {entries : List (Sigma fun _ : Bytes => PeerNode)}
    (hnodup : entries.NodupKeys) (s : NodeDiscovery) (nodeId : Bytes) :
    ∃ seen, (entries.foldl (fun s entry => s.mergePeer stamp entry.1 entry.2) s).peers.lookup
        nodeId =
      if nodeId = s.localNodeId then s.peers.lookup nodeId
      else ((entries.dlookup nodeId).map fun peer => { peer with lastSeen := seen }).or
        (s.peers.lookup nodeId) := by
  induction entries generalizing s with
  | nil => exact ⟨0, by simp⟩
  | cons entry entries ih =>
      obtain ⟨key, peer⟩ := entry
      obtain ⟨hfresh, hrest⟩ := List.nodupKeys_cons.mp hnodup
      obtain ⟨seen, hseen⟩ := lookup_mergePeer stamp s key peer
      obtain ⟨later, hlater⟩ := ih hrest (s.mergePeer stamp key peer)
      rw [(sameIndex_mergePeer stamp s key peer).2, hseen nodeId] at hlater
      by_cases hkey : nodeId = key
      · subst hkey
        refine ⟨seen, hlater.trans ?_⟩
        rw [List.dlookup_eq_none.mpr hfresh, List.dlookup_cons_eq]
        by_cases hlocal : nodeId = s.localNodeId
        · simp [hlocal]
        · simp [hlocal]
      · refine ⟨later, hlater.trans ?_⟩
        have hother : ¬ (key ≠ s.localNodeId ∧ nodeId = key) := fun h => hkey h.2
        rw [List.dlookup_cons_ne _ _ hkey, if_neg hother]

theorem lookup_handleNodeJoin (s : NodeDiscovery) (msg : GossipMessage) (nodeId : Bytes) :
    ∃ seen, (s.handleNodeJoin msg).peers.lookup nodeId =
      if nodeId = s.localNodeId then s.peers.lookup nodeId
      else ((msg.peerUpdates.lookup nodeId).map fun peer => { peer with lastSeen := seen }).or
        (s.peers.lookup nodeId) :=
  lookup_mergePeers true msg.peerUpdates.nodupKeys s nodeId

theorem locates_handleNodeJoin (s : NodeDiscovery) (msg : GossipMessage) (chunk nodeId : Bytes) :
    (s.handleNodeJoin msg).Locates chunk nodeId ↔ s.Locates chunk nodeId := by
  rw [Locates, Locates, handleNodeJoin, (sameIndex_mergePeers true _ s).1]

/-- The sender of a state sync ends up with the chunks that the map has under
its name, even if that name is the receiver's own. -/
theorem lookup_handleStateSync (s : NodeDiscovery) (msg : GossipMessage) (nodeId : Bytes) :
    ∃ seen, (s.handleStateSync msg).peers.lookup nodeId =
      (if nodeId = s.localNodeId then s.peers.lookup nodeId
        else ((msg.peerUpdates.lookup nodeId).map fun peer => { peer with lastSeen := seen }).or
          (s.peers.lookup nodeId)).map fun peer =>
        if nodeId = msg.sourceNodeId then
          { peer with
            availableChunks := (msg.chunkMap.lookup nodeId).getD peer.availableChunks }
        else peer := by
  obtain ⟨seen, hseen⟩ := lookup_mergePeers false msg.peerUpdates.nodupKeys s nodeId
  have hmerged := (mergeLocations_frame
    (msg.peerUpdates.entries.foldl (fun s entry => s.mergePeer false entry.1 entry.2) s)
    msg.chunkMap).1
  refine ⟨seen, ?_⟩
  change _ = (if nodeId = s.localNodeId then s.peers.lookup nodeId
    else ((msg.peerUpdates.entries.dlookup nodeId).map fun peer =>
      { peer with lastSeen := seen }).or (s.peers.lookup nodeId)).map _
  rw [← hseen]
  unfold handleStateSync
  simp only
  cases hchunks : msg.chunkMap.lookup msg.sourceNodeId with
  | none =>
      simp only [hmerged]
      by_cases hnode : nodeId = msg.sourceNodeId
      · rw [hnode, hchunks]
        simp
      · simp [hnode]
  | some chunks =>
      simp only [lookup_updatePeer, hmerged]
      by_cases hnode : nodeId = msg.sourceNodeId
      · rw [hnode, hchunks]
        simp
      · simp [hnode]

theorem localNodeId_handleStateSync (s : NodeDiscovery) (msg : GossipMessage) :
    (s.handleStateSync msg).localNodeId = s.localNodeId := by
  have hmerged := sameIndex_mergePeers false msg.peerUpdates.entries s
  rw [← hmerged.2]
  unfold handleStateSync
  simp only
  split
  · rw [(sameIndex_updatePeer _ _ _).2, (mergeLocations_frame _ _).2]
  · rw [(mergeLocations_frame _ _).2]

theorem forgets_removePeer (s : NodeDiscovery) (nodeId : Bytes) :
    Forgets (if (s.peers.lookup nodeId).isSome then [nodeId] else []) s (s.removePeer nodeId) := by
  unfold removePeer
  split
  · exact (forgets_forgetPeer s nodeId).then_same (sameTables_notifyLost _ _)
  · exact Forgets.of_sameTables ⟨rfl, rfl, rfl⟩

theorem localNodeId_handleGossipMessage (s : NodeDiscovery) (msg : GossipMessage) :
    (s.handleGossipMessage msg).localNodeId = s.localNodeId := by
  unfold handleGossipMessage
  split
  · rfl
  · have hmarked := (sameTables_markMessageSeen s msg).localNodeId
    rw [← hmarked]
    cases msg.type with
    | nodeJoin => exact (sameIndex_mergePeers true _ _).2
    | nodeLeave => exact (forgets_removePeer _ _).localNodeId
    | chunkAnnounce => exact localNodeId_handleChunkAnnounce _ msg
    | chunkRemove => exact localNodeId_handleChunkRemove _ msg
    | stateSync => exact localNodeId_handleStateSync _ msg
    | unknown raw hraw => rfl

/-! ## The local node -/

theorem localNodeId_announceChunk (s : NodeDiscovery) (chunkId : Bytes) :
    (s.announceChunk chunkId).localNodeId = s.localNodeId := by
  obtain hsame | ⟨-, gone, hgone⟩ := s.announceChunk_cases chunkId
  · rw [hsame]
  · exact hgone.localNodeId

theorem removeChunkAnnouncement_eq (s : NodeDiscovery) (chunkId : Bytes) :
    s.removeChunkAnnouncement chunkId =
      ({ s with chunkLocations := dropAt s.chunkLocations chunkId s.localNodeId }.updatePeer
        s.localNodeId fun peer =>
          { peer with availableChunks := peer.availableChunks.erase chunkId }).broadcastChunkRemove
        chunkId := by
  unfold removeChunkAnnouncement dropAt
  cases s.chunkLocations.lookup chunkId <;> rfl

end ElioP2P.P2P.NodeDiscovery
