import ElioP2P.P2P.Proofs.StateSync

/-!
# Removal of announced chunks

`broadcast_chunk_announce` puts the chunk into the map of its message;
`broadcast_chunk_remove` sends an empty map.  The receiver removes what the map
lists, so the announcement stays.
-/

namespace ElioP2P.P2P.NodeDiscovery

open ElioP2P.Library

/-! ## What a broadcast sends -/

def sentSince (before after : NodeDiscovery) : List GossipMessage :=
  (after.outbox.drop before.outbox.length).map Prod.snd

theorem outbox_filterActive (wanted : Bool)
    (entries : List (Sigma fun _ : Bytes => PeerNode)) (s : NodeDiscovery) :
    (filterActive wanted entries s).2.outbox = s.outbox := by
  induction entries generalizing s with
  | nil => rfl
  | cons entry entries ih =>
      simp only [filterActive]
      exact ih _

theorem outbox_foldl_forgetPeer (entries : List (Sigma fun _ : Bytes => PeerNode))
    (s : NodeDiscovery) :
    (entries.foldl (fun s entry => s.forgetPeer entry.1) s).outbox = s.outbox := by
  induction entries generalizing s with
  | nil => rfl
  | cons entry entries ih =>
      rw [List.foldl_cons, ih]
      rfl

theorem outbox_getAllPeers (s : NodeDiscovery) : s.getAllPeers.2.outbox = s.outbox := by
  simp only [getAllPeers, cleanupStalePeers]
  rw [outbox_filterActive, outbox_foldl_forgetPeer, outbox_filterActive]

theorem sentSince_self {before s : NodeDiscovery} (houtbox : s.outbox = before.outbox) :
    sentSince before s = [] := by
  rw [sentSince, houtbox, List.drop_length]
  rfl

theorem sent_sendToSubset {before s : NodeDiscovery} {share : UInt32} {wanted : PeerNode → Bool}
    {msg m : GossipMessage} (hm : m ∈ sentSince before (s.sendToSubset share wanted msg))
    (houtbox : s.outbox = before.outbox) : m = msg := by
  have hall := outbox_getAllPeers s
  unfold sentSince sendToSubset at hm
  simp only at hm
  split at hm
  · rw [hall, houtbox, List.drop_left, List.map_map, List.mem_map] at hm
    obtain ⟨peer, -, rfl⟩ := hm
    rfl
  · rw [hall, houtbox, List.drop_length] at hm
    cases hm

theorem sent_broadcastChunkAnnounce {before s : NodeDiscovery} {chunkId : Bytes}
    {m : GossipMessage} (hm : m ∈ sentSince before (s.broadcastChunkAnnounce chunkId))
    (houtbox : s.outbox = before.outbox) :
    m.type = .chunkAnnounce ∧ m.chunkMap = insertAt ∅ s.localNodeId chunkId := by
  unfold broadcastChunkAnnounce at hm
  split at hm
  · rw [sentSince_self houtbox] at hm
    cases hm
  · simp only [currentMillis] at hm
    rw [sent_sendToSubset hm houtbox]
    exact ⟨rfl, rfl⟩

theorem sent_broadcastChunkRemove {before s : NodeDiscovery} {chunkId : Bytes}
    {m : GossipMessage} (hm : m ∈ sentSince before (s.broadcastChunkRemove chunkId))
    (houtbox : s.outbox = before.outbox) :
    m.type = .chunkRemove ∧ m.chunkMap = ∅ := by
  unfold broadcastChunkRemove at hm
  split at hm
  · rw [sentSince_self houtbox] at hm
    cases hm
  · simp only [currentMillis] at hm
    rw [sent_sendToSubset hm houtbox]
    exact ⟨rfl, rfl⟩

theorem sent_announceChunk {s : NodeDiscovery} {chunkId : Bytes} {m : GossipMessage}
    (hm : m ∈ sentSince s (s.announceChunk chunkId)) :
    m.type = .chunkAnnounce ∧ m.chunkMap = insertAt ∅ s.localNodeId chunkId := by
  unfold announceChunk at hm
  split at hm
  · rw [sentSince_self rfl] at hm
    cases hm
  · have hsent := sent_broadcastChunkAnnounce hm rfl
    exact hsent

theorem outbox_updatePeer (s : NodeDiscovery) (nodeId : Bytes) (f : PeerNode → PeerNode) :
    (s.updatePeer nodeId f).outbox = s.outbox := by
  unfold updatePeer
  split <;> rfl

theorem sent_removeChunkAnnouncement {s : NodeDiscovery} {chunkId : Bytes} {m : GossipMessage}
    (hm : m ∈ sentSince s (s.removeChunkAnnouncement chunkId)) :
    m.type = .chunkRemove ∧ m.chunkMap = ∅ := by
  unfold removeChunkAnnouncement at hm
  apply sent_broadcastChunkRemove hm
  rw [outbox_updatePeer]
  split <;> rfl

/-! ## What the receiver makes of it -/

theorem locates_handleGossipMessage_announce {s : NodeDiscovery} {m : GossipMessage}
    {nodeId chunkId : Bytes} (hseen : s.isMessageSeen m = false) (htype : m.type = .chunkAnnounce)
    (hmap : m.chunkMap = insertAt ∅ nodeId chunkId) (hother : s.localNodeId ≠ nodeId) :
    (s.handleGossipMessage m).Locates chunkId nodeId := by
  have hmarked := sameIndex_markMessageSeen s m
  have hentries : m.chunkMap.entries = [⟨nodeId, (∅ : HashSet Bytes).insert chunkId⟩] := by
    rw [hmap]
    rfl
  unfold handleGossipMessage
  rw [if_neg (by simp [hseen])]
  simp only [htype, handleChunkAnnounce, hentries, List.foldl_cons, List.foldl_nil]
  rw [if_neg (by rw [hmarked.2]; exact Ne.symm hother), Locates, (sameIndex_updatePeer _ _ _).1]
  exact memAt_foldl_insertAt.mpr (Or.inr ⟨HashSet.mem_insert.mpr (Or.inl rfl), rfl⟩)

theorem locates_handleGossipMessage_remove {s : NodeDiscovery} {m : GossipMessage}
    (htype : m.type = .chunkRemove) (hmap : m.chunkMap = ∅) (chunk nodeId : Bytes) :
    (s.handleGossipMessage m).Locates chunk nodeId ↔ s.Locates chunk nodeId := by
  unfold handleGossipMessage
  split
  · exact Iff.rfl
  · simp only [htype, handleChunkRemove, hmap]
    rw [Locates, Locates]
    change MemAt (s.markMessageSeen m).chunkLocations chunk nodeId ↔ _
    rw [(sameIndex_markMessageSeen s m).1]

/-- `y'` has forgotten that `x` holds the chunk and is like `y` otherwise. -/
structure RemovalPropagated (y y' : NodeDiscovery) (x chunkId : Bytes) : Prop where
  location : ¬ y'.Locates chunkId x
  record : ∀ peer, y'.peers.lookup x = some peer → ¬ chunkId ∈ peer.availableChunks
  otherLocations : ∀ chunk nodeId, ¬ (chunk = chunkId ∧ nodeId = x) →
    (y'.Locates chunk nodeId ↔ y.Locates chunk nodeId)
  otherPeers : ∀ nodeId, nodeId ≠ x → y'.peers.lookup nodeId = y.peers.lookup nodeId

/-- Whatever the states of the two nodes, the removal of an announced chunk
does not reach the receiver. -/
theorem removal_never_propagated {x x' y : NodeDiscovery} {chunkId : Bytes}
    {announce remove : GossipMessage} (hsame : x'.localNodeId = x.localNodeId)
    (hother : y.localNodeId ≠ x.localNodeId)
    (hannounce : announce ∈ sentSince x (x.announceChunk chunkId))
    (hremove : remove ∈ sentSince x' (x'.removeChunkAnnouncement chunkId))
    (hseen : y.isMessageSeen announce = false) :
    ¬ RemovalPropagated y ((y.handleGossipMessage announce).handleGossipMessage remove)
      x'.localNodeId chunkId := by
  obtain ⟨hannounceType, hannounceMap⟩ := sent_announceChunk hannounce
  obtain ⟨hremoveType, hremoveMap⟩ := sent_removeChunkAnnouncement hremove
  intro hpropagated
  apply hpropagated.location
  rw [locates_handleGossipMessage_remove hremoveType hremoveMap, hsame]
  exact locates_handleGossipMessage_announce hseen hannounceType hannounceMap hother

def announcer : NodeDiscovery :=
  (registered (ascii "A")).addPeer { nodeId := ascii "B", lastSeen := 1700000000 }

def receiver : NodeDiscovery := registered (ascii "B")

def Announced (c : Bytes) (announce remove : GossipMessage) : Prop :=
  announce ∈ sentSince announcer (announcer.announceChunk c) ∧
    remove ∈ sentSince (announcer.announceChunk c)
      ((announcer.announceChunk c).removeChunkAnnouncement c) ∧
    receiver.isMessageSeen announce = false ∧ receiver.isMessageSeen remove = false

theorem exists_announced : ∃ announce remove, Announced (ascii "c") announce remove := by
  have hsent : ((sentSince announcer (announcer.announceChunk (ascii "c"))).head?.any
      fun announce => !receiver.isMessageSeen announce) = true := by
    decide +kernel
  have hsent' : ((sentSince (announcer.announceChunk (ascii "c"))
      ((announcer.announceChunk (ascii "c")).removeChunkAnnouncement (ascii "c"))).head?.any
      fun remove => !receiver.isMessageSeen remove) = true := by
    decide +kernel
  obtain ⟨announce, hannounce, hunseen⟩ := (Option.any_eq_true _ _).mp hsent
  obtain ⟨remove, hremove, hunseen'⟩ := (Option.any_eq_true _ _).mp hsent'
  exact ⟨announce, remove, List.mem_of_head? hannounce, List.mem_of_head? hremove,
    by simpa using hunseen, by simpa using hunseen'⟩

theorem removal_never_propagated_sample :
    ∃ announce remove, Announced (ascii "c") announce remove ∧
      ¬ RemovalPropagated receiver
        ((receiver.handleGossipMessage announce).handleGossipMessage remove)
        (announcer.announceChunk (ascii "c")).localNodeId (ascii "c") := by
  obtain ⟨announce, remove, hannounced⟩ := exists_announced
  refine ⟨announce, remove, hannounced, ?_⟩
  obtain ⟨hannounce, hremove, hunseen, -⟩ := hannounced
  exact removal_never_propagated (by decide +kernel) (by decide +kernel) hannounce hremove hunseen

/-- `B` still lists `A` for `c`. -/
theorem announcement_survives_removal :
    ∃ announce remove, Announced (ascii "c") announce remove ∧
      ((receiver.handleGossipMessage announce).handleGossipMessage remove).Locates (ascii "c")
        (ascii "A") := by
  obtain ⟨announce, remove, hannounced⟩ := exists_announced
  refine ⟨announce, remove, hannounced, ?_⟩
  obtain ⟨hannounce, hremove, hunseen, -⟩ := hannounced
  obtain ⟨hannounceType, hannounceMap⟩ := sent_announceChunk hannounce
  obtain ⟨hremoveType, hremoveMap⟩ := sent_removeChunkAnnouncement hremove
  rw [locates_handleGossipMessage_remove hremoveType hremoveMap]
  exact locates_handleGossipMessage_announce hunseen hannounceType hannounceMap (by decide +kernel)

end ElioP2P.P2P.NodeDiscovery
