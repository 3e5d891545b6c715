import ElioP2P.P2P.Proofs.Arrivals
import ElioP2P.P2P.Proofs.Availability
import ElioP2P.P2P.Proofs.ChunkRemoval
import ElioP2P.P2P.Proofs.Staleness

/-!
# What nodes know by hearsay

Nothing that a node stores or sends is invented.  A `Testimony` says which
locations, chunk lists and contacts have a witness; it is closed under what
nodes do with them, in particular under the exchange of chunk and node that a
state sync amounts to.  Every call and every message keeps a node within the
testimony, and so do all runs of a network.
-/

namespace ElioP2P.P2P

open ElioP2P.Library

structure Contact where
  nodeId : Bytes := []
  address : Bytes := []
  port : UInt16 := 0
  gossipPort : UInt16 := 0
  deriving DecidableEq

def PeerNode.contact (peer : PeerNode) : Contact where
  nodeId := peer.nodeId
  address := peer.address
  port := peer.port
  gossipPort := peer.gossipPort

/-- What may be said: that an item stands under a key in a map of locations, that
a node has a chunk, that a contact stands in a record of a node, that a node has
an address and a port of its own. -/
structure Testimony where
  located : Bytes → Bytes → Prop
  holds : Bytes → Bytes → Prop
  contact : Bytes → Contact → Prop
  joins : Bytes → Bytes → UInt16 → Prop
  /-- The sender's index is keyed by chunk, the receiver's reading by node. -/
  symm : ∀ {key item}, located key item → located item key
  holds_of_located : ∀ {nodeId chunk}, located nodeId chunk → holds nodeId chunk
  /-- The record of a join has no gossip port. -/
  contact_of_joins : ∀ {nodeId address port}, joins nodeId address port →
    contact nodeId { nodeId := nodeId, address := address, port := port }
  /-- A record that has been sent carries the id that it was filed under. -/
  named : ∀ {nodeId contact'}, contact nodeId contact' →
    contact nodeId { contact' with nodeId := nodeId }

/-- The record may be filed under this id. -/
structure Testimony.Accepts (J : Testimony) (nodeId : Bytes) (peer : PeerNode) : Prop where
  contact : J.contact nodeId peer.contact
  holds : ∀ chunk ∈ peer.availableChunks, J.holds nodeId chunk

structure GossipMessage.Vouched (J : Testimony) (msg : GossipMessage) : Prop where
  located : ∀ key item, MemAt msg.chunkMap key item → J.located key item
  accepted : ∀ nodeId peer, msg.peerUpdates.lookup nodeId = some peer → J.Accepts nodeId peer
  /-- `broadcast_chunk_remove` leaves the map of its message empty. -/
  removes : msg.type = .chunkRemove → ∀ key item, ¬ MemAt msg.chunkMap key item

namespace NodeDiscovery

structure Vouched (J : Testimony) (s : NodeDiscovery) : Prop where
  located : ∀ chunk nodeId, s.Locates chunk nodeId → J.located chunk nodeId
  accepted : ∀ nodeId peer, s.peers.lookup nodeId = some peer → J.Accepts nodeId peer
  self : s.localNodeId ≠ [] → J.joins s.localNodeId s.localNodeAddress s.localNodePort

/-- The node may make an empty record of itself if it has none. -/
def MayBlank (J : Testimony) (s : NodeDiscovery) : Prop :=
  s.localNodeId ≠ [] → s.peers.lookup s.localNodeId = none → J.contact s.localNodeId {}

def voice (s : NodeDiscovery) : Bytes × Bytes × UInt16 × List (PeerNode × GossipMessage) :=
  (s.localNodeId, s.localNodeAddress, s.localNodePort, s.outbox)

/-- The second state stores and sends nothing that the first one does not. -/
structure Quieter (s s' : NodeDiscovery) : Prop where
  located : ∀ chunk nodeId, s'.Locates chunk nodeId → s.Locates chunk nodeId
  peers : ∀ nodeId peer, s'.peers.lookup nodeId = some peer → s.peers.lookup nodeId = some peer
  voice : s'.voice = s.voice

namespace Quieter

variable {s t u : NodeDiscovery}

theorem trans (hst : Quieter s t) (htu : Quieter t u) : Quieter s u where
  located chunk nodeId h := hst.located chunk nodeId (htu.located chunk nodeId h)
  peers nodeId peer h := hst.peers nodeId peer (htu.peers nodeId peer h)
  voice := htu.voice.trans hst.voice

theorem of_forgets {gone : List Bytes} (h : Forgets gone s t) (hvoice : t.voice = s.voice) :
    Quieter s t where
  located chunk nodeId hmem := ((h.locates chunk nodeId).mp hmem).1
  peers _ _ hpeer := h.lookup_of_some hpeer
  voice := hvoice

theorem of_same (h : SameTables s t) (hvoice : t.voice = s.voice) : Quieter s t :=
  of_forgets (Forgets.of_sameTables h) hvoice

end Quieter

structure Relays (J : Testimony) (s s' : NodeDiscovery) : Prop where
  vouched : s'.Vouched J
  outbox : ∃ new, s'.outbox = s.outbox ++ new ∧ ∀ entry ∈ new, entry.2.Vouched J

variable {J : Testimony} {s t u : NodeDiscovery}

theorem Vouched.relays_quieter (hs : s.Vouched J) (h : Quieter s t) : Relays J s t := by
  have hvoice := h.voice
  simp only [voice, Prod.mk.injEq] at hvoice
  obtain ⟨hid, haddress, hport, houtbox⟩ := hvoice
  refine ⟨⟨fun chunk nodeId hmem => hs.located _ _ (h.located _ _ hmem),
    fun nodeId peer hpeer => hs.accepted _ _ (h.peers _ _ hpeer), ?_⟩, [], by simp [houtbox], nofun⟩
  rw [hid, haddress, hport]
  exact hs.self

theorem Relays.trans (hst : Relays J s t) (htu : Relays J t u) : Relays J s u := by
  obtain ⟨new, hnew, hvouched⟩ := hst.outbox
  obtain ⟨more, hmore, hvouched'⟩ := htu.outbox
  refine ⟨htu.vouched, new ++ more, by rw [hmore, hnew, List.append_assoc], fun entry hentry => ?_⟩
  exact (List.mem_append.mp hentry).elim (hvouched entry) (hvouched' entry)

theorem Relays.then_quieter (hst : Relays J s t) (htu : Quieter t u) : Relays J s u :=
  hst.trans (hst.vouched.relays_quieter htu)

theorem Vouched.foldl_relays {ι : Type} {f : NodeDiscovery → ι → NodeDiscovery} {items : List ι}
    (hs : s.Vouched J)
    (hf : ∀ s : NodeDiscovery, s.Vouched J → ∀ item ∈ items, Relays J s (f s item)) :
    Relays J s (items.foldl f s) := by
  induction items generalizing s with
  | nil => exact hs.relays_quieter (Quieter.of_same ⟨rfl, rfl, rfl⟩ rfl)
  | cons item items ih =>
      have hfirst := hf s hs item List.mem_cons_self
      exact hfirst.trans (ih hfirst.vouched fun s hs item' hitem =>
        hf s hs item' (List.mem_cons_of_mem item hitem))

theorem Vouched.relays_insert {nodeId : Bytes} {peer : PeerNode} (hs : s.Vouched J)
    (haccept : J.Accepts nodeId peer) (hpeers : t.peers = s.peers.insert nodeId peer)
    (hlocations : t.chunkLocations = s.chunkLocations) (hvoice : t.voice = s.voice) :
    Relays J s t := by
  simp only [voice, Prod.mk.injEq] at hvoice
  obtain ⟨hid, haddress, hport, houtbox⟩ := hvoice
  refine ⟨⟨fun chunk k hmem => hs.located chunk k ?_, fun k other hother => ?_, ?_⟩, [],
    by simp [houtbox], nofun⟩
  · rwa [Locates, ← hlocations]
  · rw [hpeers] at hother
    by_cases hk : k = nodeId
    · subst hk
      rw [AList.lookup_insert] at hother
      cases hother
      exact haccept
    · rw [AList.lookup_insert_ne hk] at hother
      exact hs.accepted k other hother
  · rw [hid, haddress, hport]
    exact hs.self

theorem Vouched.accepts_getD (hs : s.Vouched J) (hblank : MayBlank J s)
    (hself : s.localNodeId ≠ []) :
    J.Accepts s.localNodeId ((s.peers.lookup s.localNodeId).getD {}) := by
  cases hpeer : s.peers.lookup s.localNodeId with
  | none => exact ⟨hblank hself hpeer, fun _ hmem => absurd hmem (HashSet.notMem_empty _)⟩
  | some peer => exact hs.accepted _ peer hpeer

/-! ## Reading and forgetting -/

theorem voice_filterActive (wanted : Bool) (entries : List (Sigma fun _ : Bytes => PeerNode))
    (s : NodeDiscovery) : (filterActive wanted entries s).2.voice = s.voice := by
  induction entries generalizing s with
  | nil => rfl
  | cons entry entries ih => exact ih _

theorem voice_cleanupStalePeers (s : NodeDiscovery) : s.cleanupStalePeers.voice = s.voice := by
  unfold cleanupStalePeers
  have hforget : ∀ (s : NodeDiscovery) (entry : Sigma fun _ : Bytes => PeerNode),
      (s.forgetPeer entry.1).voice = s.voice := fun _ _ => rfl
  exact (foldl_frame voice hforget _ _).trans (voice_filterActive _ _ _)

theorem voice_getAllPeers (s : NodeDiscovery) : s.getAllPeers.2.voice = s.voice := by
  simp only [getAllPeers]
  rw [voice_filterActive, voice_cleanupStalePeers]

theorem voice_notifyDiscovered (s : NodeDiscovery) (isNew : Bool) (peer : PeerNode) :
    (s.notifyDiscovered isNew peer).voice = s.voice := by
  unfold notifyDiscovered
  split <;> rfl

theorem voice_removePeer (s : NodeDiscovery) (nodeId : Bytes) :
    (s.removePeer nodeId).voice = s.voice := by
  unfold removePeer notifyLost
  split
  · split <;> rfl
  · rfl

theorem voice_markMessageSeen (s : NodeDiscovery) (msg : GossipMessage) :
    (s.markMessageSeen msg).voice = s.voice := by
  unfold markMessageSeen
  simp only
  split <;> rfl

theorem quieter_cleanupStalePeers (s : NodeDiscovery) : Quieter s s.cleanupStalePeers :=
  Quieter.of_forgets (forgets_cleanupStalePeers s) (voice_cleanupStalePeers s)

theorem quieter_getAllPeers (s : NodeDiscovery) : Quieter s s.getAllPeers.2 := by
  obtain ⟨gone, hgone⟩ := forgets_getAllPeers s
  exact Quieter.of_forgets hgone (voice_getAllPeers s)

theorem quieter_removePeer (s : NodeDiscovery) (nodeId : Bytes) :
    Quieter s (s.removePeer nodeId) :=
  Quieter.of_forgets (forgets_removePeer s nodeId) (voice_removePeer s nodeId)

theorem quieter_notifyDiscovered (s : NodeDiscovery) (isNew : Bool) (peer : PeerNode) :
    Quieter s (s.notifyDiscovered isNew peer) :=
  Quieter.of_same (sameTables_notifyDiscovered _ _ _) (voice_notifyDiscovered _ _ _)

/-! ## Sending -/

theorem Vouched.relays_sendToSubset (hs : s.Vouched J) {share : UInt32} {wanted : PeerNode → Bool}
    {msg : GossipMessage} (hmsg : msg.Vouched J) :
    Relays J s (s.sendToSubset share wanted msg) := by
  have hlisted := hs.relays_quieter (quieter_getAllPeers s)
  refine hlisted.trans ?_
  unfold sendToSubset
  simp only
  split
  · refine ⟨⟨hlisted.vouched.located, hlisted.vouched.accepted, hlisted.vouched.self⟩, _, rfl,
      fun entry hentry => ?_⟩
    obtain ⟨peer, -, rfl⟩ := List.mem_map.mp hentry
    exact hmsg
  · exact hlisted.vouched.relays_quieter (Quieter.of_same ⟨rfl, rfl, rfl⟩ rfl)

theorem Vouched.relays_stampedSend (hs : s.Vouched J) {share : UInt32} {wanted : PeerNode → Bool}
    {msg : GossipMessage} (hmsg : msg.Vouched J) :
    Relays J s (s.currentMillis.2.sendToSubset share wanted msg) := by
  have hread := hs.relays_quieter (t := s.currentMillis.2) (Quieter.of_same ⟨rfl, rfl, rfl⟩ rfl)
  exact hread.trans (hread.vouched.relays_sendToSubset hmsg)

theorem Vouched.relays_same (hs : s.Vouched J) : Relays J s s :=
  hs.relays_quieter (Quieter.of_same ⟨rfl, rfl, rfl⟩ rfl)

theorem vouched_bareMessage (type : GossipMessageType) (s : NodeDiscovery) :
    (s.bareMessage type).Vouched J :=
  ⟨fun _ _ hmem => absurd hmem (HashSet.notMem_empty _), nofun,
    fun _ _ _ => HashSet.notMem_empty _⟩

theorem Vouched.relays_broadcastNodeJoin (hs : s.Vouched J) (garbage : UInt64 × UInt64) :
    Relays J s (s.broadcastNodeJoin garbage) := by
  rw [broadcastNodeJoin_eq]
  split
  · exact hs.relays_same
  · rename_i hid
    have hself : s.localNodeId ≠ [] := by
      rintro hempty
      simp [hempty] at hid
    refine hs.relays_stampedSend ⟨fun _ _ hmem => absurd hmem (HashSet.notMem_empty _), ?_, nofun⟩
    intro nodeId peer hpeer
    rw [joinMessage, ← AList.insert_empty] at hpeer
    by_cases hk : nodeId = s.localNodeId
    · subst hk
      rw [AList.lookup_insert] at hpeer
      cases hpeer
      exact ⟨J.contact_of_joins (hs.self hself),
        fun _ hmem => absurd hmem (HashSet.notMem_empty _)⟩
    · rw [AList.lookup_insert_ne hk] at hpeer
      cases hpeer

theorem Vouched.relays_broadcastNodeLeave (hs : s.Vouched J) :
    Relays J s s.broadcastNodeLeave := by
  rw [broadcastNodeLeave_eq]
  split
  · exact hs.relays_same
  · exact hs.relays_stampedSend (vouched_bareMessage _ _)

theorem Vouched.relays_broadcastChunkRemove (hs : s.Vouched J) (chunkId : Bytes) :
    Relays J s (s.broadcastChunkRemove chunkId) := by
  rw [broadcastChunkRemove_eq]
  split
  · exact hs.relays_same
  · exact hs.relays_stampedSend (vouched_bareMessage _ _)

theorem Vouched.relays_broadcastChunkAnnounce (hs : s.Vouched J) {chunkId : Bytes}
    (hannounced : s.localNodeId ≠ [] → J.located s.localNodeId chunkId) :
    Relays J s (s.broadcastChunkAnnounce chunkId) := by
  rw [broadcastChunkAnnounce_eq]
  split
  · exact hs.relays_same
  · rename_i hid
    have hself : s.localNodeId ≠ [] := by
      rintro hempty
      simp [hempty] at hid
    refine hs.relays_stampedSend ⟨fun key item hmem => ?_, nofun, nofun⟩
    rw [announceMessage, memAt_insertAt] at hmem
    rcases hmem with hnone | ⟨rfl, rfl⟩
    · exact absurd hnone (HashSet.notMem_empty _)
    · exact hannounced hself

/-! ## Calls -/

def Sourced (J : Testimony) (s : NodeDiscovery) : Op → Prop
  | .register _ localNode => J.Accepts localNode.nodeId localNode ∧
      J.joins localNode.nodeId localNode.address localNode.port
  | .addPeer peer => J.Accepts peer.nodeId peer
  | .announce chunkId =>
      (s.localNodeId ≠ [] → J.located s.localNodeId chunkId) ∧ MayBlank J s
  | .gossip msg => msg.Vouched J
  | .unregister | .removePeer _ | .removeAnnouncement _ | .cleanup => True

theorem Vouched.relays_registerNode (hs : s.Vouched J) (garbage : UInt64 × UInt64)
    {localNode : PeerNode} (haccept : J.Accepts localNode.nodeId localNode)
    (hjoins : J.joins localNode.nodeId localNode.address localNode.port) :
    Relays J s (s.registerNode garbage localNode) := by
  have hrecorded : Relays J s { s.currentSeconds.2 with
      localNodeId := localNode.nodeId
      localNodeAddress := localNode.address
      localNodePort := localNode.port
      peers := s.peers.insert localNode.nodeId { localNode with lastSeen := s.currentSeconds.1 }
      gossipRunning := true } := by
    refine ⟨⟨hs.located, fun nodeId peer hpeer => ?_, fun _ => ?_⟩, [], by simp [currentSeconds],
      nofun⟩
    · by_cases hk : nodeId = localNode.nodeId
      · subst hk
        rw [AList.lookup_insert] at hpeer
        cases hpeer
        exact ⟨haccept.contact, haccept.holds⟩
      · rw [AList.lookup_insert_ne hk] at hpeer
        exact hs.accepted nodeId peer hpeer
    · exact hjoins
  exact hrecorded.trans (hrecorded.vouched.relays_broadcastNodeJoin garbage)

theorem Vouched.relays_unregisterNode (hs : s.Vouched J) : Relays J s s.unregisterNode := by
  unfold unregisterNode
  split
  · exact hs.relays_quieter (Quieter.of_same ⟨rfl, rfl, rfl⟩ rfl)
  · have hleft := hs.relays_broadcastNodeLeave
    exact ⟨⟨hleft.vouched.located, hleft.vouched.accepted, fun hid => absurd rfl hid⟩,
      hleft.outbox⟩

theorem Vouched.relays_addPeer (hs : s.Vouched J) {peer : PeerNode}
    (haccept : J.Accepts peer.nodeId peer) : Relays J s (s.addPeer peer) := by
  have hwritten : Relays J s { s with peers := s.peers.insert peer.nodeId peer } :=
    hs.relays_insert haccept rfl rfl rfl
  exact hwritten.then_quieter (quieter_notifyDiscovered _ _ _)

theorem Vouched.relays_announceChunk (hs : s.Vouched J) {chunkId : Bytes}
    (hannounced : s.localNodeId ≠ [] → J.located s.localNodeId chunkId) (hblank : MayBlank J s) :
    Relays J s (s.announceChunk chunkId) := by
  unfold announceChunk
  split
  · exact hs.relays_same
  · rename_i hid
    have hself : s.localNodeId ≠ [] := by
      rintro hempty
      simp [hempty] at hid
    have hlocated := hannounced hself
    have hlisted : Relays J s
        { s with chunkLocations := insertAt s.chunkLocations chunkId s.localNodeId } := by
      refine ⟨⟨fun chunk nodeId hmem => ?_, hs.accepted, hs.self⟩, [], by simp, nofun⟩
      rw [Locates, memAt_insertAt] at hmem
      rcases hmem with hold | ⟨rfl, rfl⟩
      · exact hs.located chunk nodeId hold
      · exact J.symm hlocated
    have hknown := hs.accepts_getD hblank hself
    have hwritten : Relays J s { s with
        chunkLocations := insertAt s.chunkLocations chunkId s.localNodeId
        peers := s.peers.insert s.localNodeId
          { (s.peers.lookup s.localNodeId).getD {} with
            availableChunks :=
              ((s.peers.lookup s.localNodeId).getD {}).availableChunks.insert chunkId } } := by
      have haccept : J.Accepts s.localNodeId { (s.peers.lookup s.localNodeId).getD {} with
          availableChunks :=
            ((s.peers.lookup s.localNodeId).getD {}).availableChunks.insert chunkId } := by
        refine ⟨hknown.contact, fun chunk hmem => ?_⟩
        rcases HashSet.mem_insert.mp hmem with rfl | hold
        · exact J.holds_of_located hlocated
        · exact hknown.holds chunk hold
      exact hlisted.trans (hlisted.vouched.relays_insert haccept rfl rfl rfl)
    exact hwritten.trans (hwritten.vouched.relays_broadcastChunkAnnounce fun _ => hlocated)

theorem Vouched.relays_updatePeer (hs : s.Vouched J) {nodeId : Bytes} {f : PeerNode → PeerNode}
    (hf : ∀ peer, J.Accepts nodeId peer → J.Accepts nodeId (f peer)) :
    Relays J s (s.updatePeer nodeId f) := by
  unfold updatePeer
  cases hpeer : s.peers.lookup nodeId with
  | none => exact hs.relays_same
  | some peer => exact hs.relays_insert (hf peer (hs.accepted nodeId peer hpeer)) rfl rfl rfl

theorem Vouched.relays_removeChunkAnnouncement (hs : s.Vouched J) (chunkId : Bytes) :
    Relays J s (s.removeChunkAnnouncement chunkId) := by
  rw [removeChunkAnnouncement_eq]
  have hdropped := hs.relays_quieter
    (t := { s with chunkLocations := dropAt s.chunkLocations chunkId s.localNodeId })
    ⟨fun _ _ hmem => (memAt_dropAt.mp hmem).1, fun _ _ hpeer => hpeer, rfl⟩
  have hshorter : ∀ peer, J.Accepts s.localNodeId peer → J.Accepts s.localNodeId
      { peer with availableChunks := peer.availableChunks.erase chunkId } := fun peer haccept =>
    ⟨haccept.contact, fun chunk hmem => haccept.holds chunk (HashSet.mem_erase.mp hmem).2⟩
  have hupdated := hdropped.trans (hdropped.vouched.relays_updatePeer hshorter)
  exact hupdated.trans (hupdated.vouched.relays_broadcastChunkRemove chunkId)

/-! ## Messages -/

theorem Vouched.relays_mergePeers (hs : s.Vouched J) (stamp : Bool)
    {entries : List (Sigma fun _ : Bytes => PeerNode)}
    (haccept : ∀ entry ∈ entries, J.Accepts entry.1 entry.2) :
    Relays J s (entries.foldl (fun s entry => s.mergePeer stamp entry.1 entry.2) s) := by
  refine hs.foldl_relays fun s hs entry hentry => ?_
  have hentry := haccept entry hentry
  unfold mergePeer
  split
  · exact hs.relays_same
  · cases stamp with
    | false =>
        have hwritten : Relays J s { s with peers := s.peers.insert entry.1 entry.2 } :=
          hs.relays_insert hentry rfl rfl rfl
        exact hwritten.then_quieter (quieter_notifyDiscovered _ _ _)
    | true =>
        have hstamped : J.Accepts entry.1 { entry.2 with lastSeen := s.currentSeconds.1 } :=
          ⟨hentry.contact, hentry.holds⟩
        have hwritten : Relays J s { s.currentSeconds.2 with
            peers := s.peers.insert entry.1
              { entry.2 with lastSeen := s.currentSeconds.1 } } :=
          hs.relays_insert hstamped rfl rfl rfl
        exact hwritten.then_quieter (quieter_notifyDiscovered _ _ _)

/-- The locations of a map, read as keyed by node. -/
theorem Vouched.relays_addLocations (hs : s.Vouched J) {nodeId : Bytes} {chunks : List Bytes}
    (hlocated : ∀ chunk ∈ chunks, J.located nodeId chunk) :
    Relays J s (s.addLocations nodeId chunks) := by
  refine ⟨⟨fun chunk holder hmem => ?_, hs.accepted, hs.self⟩, [], by simp [addLocations], nofun⟩
  rcases memAt_foldl_insertAt.mp hmem with hold | ⟨hchunk, rfl⟩
  · exact hs.located chunk holder hold
  · exact J.symm (hlocated chunk hchunk)

theorem Vouched.relays_handleChunkAnnounce (hs : s.Vouched J) {msg : GossipMessage}
    (hmsg : msg.Vouched J) : Relays J s (s.handleChunkAnnounce msg) := by
  refine hs.foldl_relays fun s hs entry hentry => ?_
  have hlocated : ∀ chunk ∈ entry.2, J.located entry.1 chunk := fun chunk hchunk =>
    hmsg.located _ _ (memAt_iff_entries.mpr ⟨entry, hentry, rfl, hchunk⟩)
  split
  · exact hs.relays_same
  · have hadded := hs.relays_addLocations hlocated
    refine hadded.trans (hadded.vouched.relays_updatePeer fun peer haccept =>
      ⟨haccept.contact, fun chunk hmem => ?_⟩)
    rcases HashSet.mem_insertAll.mp hmem with hnew | hold
    · exact J.holds_of_located (hlocated chunk hnew)
    · exact haccept.holds chunk hold

theorem Vouched.relays_handleChunkRemove (hs : s.Vouched J) (msg : GossipMessage) :
    Relays J s (s.handleChunkRemove msg) := by
  refine hs.foldl_relays fun s hs entry _ => ?_
  split
  · exact hs.relays_same
  · have hdropped := hs.relays_quieter
      (t := { s with
        chunkLocations :=
          entry.2.toList.foldl (fun m chunk => dropAt m chunk entry.1) s.chunkLocations })
      ⟨fun _ _ hmem => (memAt_foldl_dropAt.mp hmem).1, fun _ _ hpeer => hpeer, rfl⟩
    have hshorter : ∀ peer, J.Accepts entry.1 peer → J.Accepts entry.1
        { peer with availableChunks := entry.2.toList.foldl HashSet.erase peer.availableChunks } :=
      fun peer haccept =>
        ⟨haccept.contact, fun chunk hmem => haccept.holds chunk (mem_foldl_erase.mp hmem).1⟩
    exact hdropped.trans (hdropped.vouched.relays_updatePeer hshorter)

theorem Vouched.relays_mergeLocations (hs : s.Vouched J)
    {chunkMap : AList fun _ : Bytes => HashSet Bytes}
    (hlocated : ∀ key item, MemAt chunkMap key item → J.located key item) :
    Relays J s (s.mergeLocations chunkMap) := by
  refine hs.foldl_relays fun s hs entry hentry => ?_
  split
  · exact hs.relays_same
  · exact hs.relays_addLocations fun chunk hchunk =>
      hlocated _ _ (memAt_iff_entries.mpr ⟨entry, hentry, rfl, hchunk⟩)

theorem Vouched.relays_handleStateSync (hs : s.Vouched J) {msg : GossipMessage}
    (hmsg : msg.Vouched J) : Relays J s (s.handleStateSync msg) := by
  have hmerged := hs.relays_mergePeers false fun entry hentry =>
    hmsg.accepted entry.1 entry.2 (AList.mem_lookup_iff.mpr hentry)
  have hboth := hmerged.trans (hmerged.vouched.relays_mergeLocations hmsg.located)
  unfold handleStateSync
  simp only
  split
  · rename_i chunks hchunks
    refine hboth.trans (hboth.vouched.relays_updatePeer fun peer haccept =>
      ⟨haccept.contact, fun chunk hmem => J.holds_of_located (hmsg.located _ _ ?_)⟩)
    rw [MemAt, hchunks]
    exact hmem
  · exact hboth

theorem Vouched.relays_handleGossipMessage (hs : s.Vouched J) {msg : GossipMessage}
    (hmsg : msg.Vouched J) : Relays J s (s.handleGossipMessage msg) := by
  unfold handleGossipMessage
  split
  · exact hs.relays_same
  · have hmarked := hs.relays_quieter (Quieter.of_same (sameTables_markMessageSeen s msg)
      (voice_markMessageSeen s msg))
    refine hmarked.trans ?_
    cases msg.type with
    | nodeJoin =>
        exact hmarked.vouched.relays_mergePeers true fun entry hentry =>
          hmsg.accepted entry.1 entry.2 (AList.mem_lookup_iff.mpr hentry)
    | nodeLeave => exact hmarked.vouched.relays_quieter (quieter_removePeer _ _)
    | chunkAnnounce => exact hmarked.vouched.relays_handleChunkAnnounce hmsg
    | chunkRemove => exact hmarked.vouched.relays_handleChunkRemove msg
    | stateSync => exact hmarked.vouched.relays_handleStateSync hmsg
    | unknown raw hraw => exact hmarked.vouched.relays_same

theorem Vouched.relays_apply (hs : s.Vouched J) {op : Op} (hop : Sourced J s op) :
    Relays J s (s.apply op) := by
  cases op with
  | register garbage localNode => exact hs.relays_registerNode garbage hop.1 hop.2
  | unregister => exact hs.relays_unregisterNode
  | addPeer peer => exact hs.relays_addPeer hop
  | removePeer nodeId => exact hs.relays_quieter (quieter_removePeer s nodeId)
  | announce chunkId => exact hs.relays_announceChunk hop.1 hop.2
  | removeAnnouncement chunkId => exact hs.relays_removeChunkAnnouncement chunkId
  | cleanup => exact hs.relays_quieter (quieter_cleanupStalePeers s)
  | gossip msg => exact hs.relays_handleGossipMessage hop

/-- A state sync repeats what the node knows. -/
theorem Vouched.createGossipMessage (hs : s.Vouched J) :
    (s.createGossipMessage .stateSync).1.Vouched J := by
  refine ⟨hs.located, fun nodeId peer hpeer => ?_, nofun⟩
  have hlisted : (s.listedPeers.foldl
      (fun (m : AList fun _ : Bytes => PeerNode) entry => m.insert entry.1 entry.2) ∅).lookup
        nodeId = some peer := hpeer
  rcases exists_of_lookup_foldl_insert hlisted with hnone | ⟨entry, hentry, rfl, rfl⟩
  · cases hnone
  · exact hs.accepted _ _ (AList.mem_lookup_iff.mpr ((filterActive_sublist _ _ _).subset hentry))

end NodeDiscovery

end ElioP2P.P2P
