import ElioP2P.Library.Runs
import ElioP2P.P2P.GossipTick
import ElioP2P.P2P.Proofs.PeerTable

/-!
# How peers expire

Nothing that a node does on its own account, or hears about others, makes a peer
look more recent, with one exception: `gossip_with_peer` stamps the peer it has
sent to, and it does so when the send has failed as well.  A peer that is gone
but still listed is picked as a target again and again and stays.
-/

namespace ElioP2P.P2P

open ElioP2P.Library

namespace NodeDiscovery

/-! ## What leaves a time stamp alone -/

structure Ages (p : Bytes) (s s' : NodeDiscovery) : Prop where
  record : ∀ peer', s'.peers.lookup p = some peer' →
    ∃ peer, s.peers.lookup p = some peer ∧ peer'.lastSeen = peer.lastSeen
  remote : (s.localNodeId = p → p = []) → s'.localNodeId = p → p = []

namespace Ages

variable {p : Bytes} {s t u : NodeDiscovery}

theorem trans (hst : Ages p s t) (htu : Ages p t u) : Ages p s u := by
  refine ⟨fun peer'' hpeer'' => ?_, fun h => htu.remote (hst.remote h)⟩
  obtain ⟨peer', hpeer', hseen'⟩ := htu.record peer'' hpeer''
  obtain ⟨peer, hpeer, hseen⟩ := hst.record peer' hpeer'
  exact ⟨peer, hpeer, hseen'.trans hseen⟩

theorem of_lookup (hlookup : t.peers.lookup p = s.peers.lookup p)
    (hlocal : t.localNodeId = s.localNodeId) : Ages p s t := by
  refine ⟨fun peer' hpeer' => ⟨peer', ?_, rfl⟩, fun h ht => h (hlocal ▸ ht)⟩
  rwa [← hlookup]

theorem of_map {f : PeerNode → PeerNode} (hlookup : t.peers.lookup p = (s.peers.lookup p).map f)
    (hf : ∀ peer, (f peer).lastSeen = peer.lastSeen)
    (hlocal : t.localNodeId = s.localNodeId) : Ages p s t := by
  refine ⟨fun peer' hpeer' => ?_, fun h ht => h (hlocal ▸ ht)⟩
  rw [hlookup] at hpeer'
  obtain ⟨peer, hpeer, rfl⟩ := Option.map_eq_some_iff.mp hpeer'
  exact ⟨peer, hpeer, hf peer⟩

theorem of_forgets {gone : List Bytes} (h : Forgets gone s t) : Ages p s t := by
  refine ⟨fun peer' hpeer' => ⟨peer', h.lookup_of_some hpeer', rfl⟩, fun hp ht => hp ?_⟩
  rwa [← h.localNodeId]

theorem of_same (h : SameTables s t) : Ages p s t :=
  of_lookup (by rw [h.peers]) h.localNodeId

theorem of_insert {nodeId : Bytes} {peer : PeerNode} (hp : nodeId ≠ p)
    (hpeers : t.peers = s.peers.insert nodeId peer) (hlocal : t.localNodeId = s.localNodeId) :
    Ages p s t := by
  apply of_lookup _ hlocal
  rw [hpeers, AList.lookup_insert_ne hp.symm]

end Ages

theorem ages_updatePeer {p : Bytes} (s : NodeDiscovery) (nodeId : Bytes) {f : PeerNode → PeerNode}
    (hf : ∀ peer, (f peer).lastSeen = peer.lastSeen) : Ages p s (s.updatePeer nodeId f) := by
  have hlocal := (sameIndex_updatePeer s nodeId f).2
  by_cases hp : p = nodeId
  · refine Ages.of_map ?_ hf hlocal
    rw [lookup_updatePeer, if_pos hp]
  · apply Ages.of_lookup _ hlocal
    rw [lookup_updatePeer, if_neg hp]

/-! ## Calls -/

def SilentMessage (p : Bytes) (msg : GossipMessage) : Prop :=
  msg.sourceNodeId ≠ p ∧ msg.peerUpdates.lookup p = none

theorem ages_handleGossipMessage {p : Bytes} (s : NodeDiscovery) {msg : GossipMessage}
    (hsilent : SilentMessage p msg) : Ages p s (s.handleGossipMessage msg) := by
  unfold handleGossipMessage
  split
  · exact Ages.of_lookup rfl rfl
  · apply (Ages.of_same (sameTables_markMessageSeen s msg)).trans
    generalize s.markMessageSeen msg = marked
    cases msg.type with
    | nodeJoin =>
        obtain ⟨seen, hjoin⟩ := lookup_handleNodeJoin marked msg p
        refine Ages.of_lookup (hjoin.trans ?_) (sameIndex_mergePeers true _ marked).2
        rw [hsilent.2]
        simp
    | nodeLeave => exact Ages.of_forgets (forgets_removePeer _ _)
    | chunkAnnounce =>
        have hlocal := localNodeId_handleChunkAnnounce marked msg
        by_cases hp : p = marked.localNodeId
        · apply Ages.of_lookup _ hlocal
          rw [lookup_handleChunkAnnounce, if_pos hp]
        · have hlookup := (lookup_handleChunkAnnounce marked msg p).trans (if_neg hp)
          exact Ages.of_map hlookup (fun _ => rfl) hlocal
    | chunkRemove =>
        have hlocal := localNodeId_handleChunkRemove marked msg
        by_cases hp : p = marked.localNodeId
        · apply Ages.of_lookup _ hlocal
          rw [lookup_handleChunkRemove, if_pos hp]
        · have hlookup := (lookup_handleChunkRemove marked msg p).trans (if_neg hp)
          exact Ages.of_map hlookup (fun _ => rfl) hlocal
    | stateSync =>
        obtain ⟨seen, hsync⟩ := lookup_handleStateSync marked msg p
        apply Ages.of_lookup _ (localNodeId_handleStateSync marked msg)
        rw [hsync, hsilent.2]
        simp [hsilent.1.symm]
    | unknown raw hraw => exact Ages.of_lookup rfl rfl

def SilentOp (p : Bytes) : Op → Prop
  | .register _ localNode => localNode.nodeId ≠ p
  | .addPeer peer => peer.nodeId ≠ p
  | .gossip msg => SilentMessage p msg
  | .unregister | .removePeer _ | .announce _ | .removeAnnouncement _ | .cleanup => True

theorem ages_registerNode {p : Bytes} (s : NodeDiscovery) {garbage : UInt64 × UInt64}
    {localNode : PeerNode} (hp : localNode.nodeId ≠ p) :
    Ages p s (s.registerNode garbage localNode) := by
  have hrecorded : Ages p s { s.currentSeconds.2 with
      localNodeId := localNode.nodeId
      localNodeAddress := localNode.address
      localNodePort := localNode.port
      peers := s.peers.insert localNode.nodeId { localNode with lastSeen := s.currentSeconds.1 }
      gossipRunning := true } := by
    refine ⟨fun peer' hpeer' => ⟨peer', ?_, rfl⟩, fun _ heq => absurd heq hp⟩
    rwa [← AList.lookup_insert_ne hp.symm]
  obtain ⟨gone, hgone⟩ := forgets_broadcastNodeJoin garbage { s.currentSeconds.2 with
    localNodeId := localNode.nodeId
    localNodeAddress := localNode.address
    localNodePort := localNode.port
    peers := s.peers.insert localNode.nodeId { localNode with lastSeen := s.currentSeconds.1 }
    gossipRunning := true }
  exact hrecorded.trans (Ages.of_forgets hgone)

theorem ages_unregisterNode {p : Bytes} (s : NodeDiscovery) : Ages p s s.unregisterNode := by
  unfold unregisterNode
  split
  · exact Ages.of_same ⟨rfl, rfl, rfl⟩
  · obtain ⟨gone, hgone⟩ := forgets_broadcastNodeLeave s
    exact ⟨(Ages.of_forgets hgone).record, fun _ heq => heq.symm⟩

theorem ages_announceChunk {p : Bytes} {s : NodeDiscovery} (hremote : s.localNodeId = p → p = [])
    (chunkId : Bytes) : Ages p s (s.announceChunk chunkId) := by
  obtain hsame | ⟨hid, gone, hgone⟩ := s.announceChunk_cases chunkId
  · rw [hsame]
    exact Ages.of_same ⟨rfl, rfl, rfl⟩
  · have hp : s.localNodeId ≠ p := fun heq => hid (heq.trans (hremote heq))
    refine Ages.trans ?_ (Ages.of_forgets hgone)
    exact Ages.of_insert hp rfl rfl

theorem ages_removeChunkAnnouncement {p : Bytes} (s : NodeDiscovery) (chunkId : Bytes) :
    Ages p s (s.removeChunkAnnouncement chunkId) := by
  rw [removeChunkAnnouncement_eq]
  obtain ⟨gone, hgone⟩ := forgets_broadcastChunkRemove _ chunkId
  refine Ages.trans ?_ (Ages.of_forgets hgone)
  have hlocations : Ages p s
      { s with chunkLocations := dropAt s.chunkLocations chunkId s.localNodeId } :=
    Ages.of_lookup rfl rfl
  exact hlocations.trans (ages_updatePeer _ _ fun _ => rfl)

theorem ages_apply {p : Bytes} {s : NodeDiscovery} {op : Op} (hremote : s.localNodeId = p → p = [])
    (hsilent : SilentOp p op) : Ages p s (s.apply op) := by
  cases op with
  | register garbage localNode => exact ages_registerNode s hsilent
  | unregister => exact ages_unregisterNode s
  | addPeer peer =>
      have hinsert : Ages p s { s with peers := s.peers.insert peer.nodeId peer } :=
        Ages.of_insert hsilent rfl rfl
      exact hinsert.trans (Ages.of_same (sameTables_notifyDiscovered _ _ _))
  | removePeer nodeId => exact Ages.of_forgets (forgets_removePeer s nodeId)
  | announce chunkId => exact ages_announceChunk hremote chunkId
  | removeAnnouncement chunkId => exact ages_removeChunkAnnouncement s chunkId
  | cleanup => exact Ages.of_forgets (forgets_cleanupStalePeers s)
  | gossip msg => exact ages_handleGossipMessage s hsilent

theorem sameTables_createGossipMessage (s : NodeDiscovery) :
    SameTables s (s.createGossipMessage .stateSync).2 := by
  have hread : SameTables s s.currentMillis.2 := ⟨rfl, rfl, rfl⟩
  exact hread.trans (sameTables_filterActive true _ s.currentMillis.2)

theorem sameTables_getPeersWithChunk (s : NodeDiscovery) (chunkId : Bytes) :
    SameTables s (s.getPeersWithChunk chunkId).2 := by
  unfold getPeersWithChunk
  split
  · exact ⟨rfl, rfl, rfl⟩
  · exact sameTables_filterActive true _ s

/-! ## Clean-up -/

/-- What the clock shows when the clean-up comes to `p`: it is read once for
every peer, in the order of the table. -/
def readingFor (s : NodeDiscovery) (p : Bytes) : UInt64 :=
  UInt64.ofNat (s.clock (s.ticks + s.peers.keys.findIdx fun key => decide (key = p)) / 1000)

theorem mem_filterActive {wanted : Bool} {entries : List (Sigma fun _ : Bytes => PeerNode)}
    {s : NodeDiscovery} {i : Nat} {entry : Sigma fun _ : Bytes => PeerNode}
    (hentry : entries[i]? = some entry)
    (hactive : decide (UInt64.ofNat (s.clock (s.ticks + i) / 1000) - entry.2.lastSeen < 300) =
      wanted) : entry ∈ (filterActive wanted entries s).1 := by
  induction entries generalizing s i with
  | nil => cases hentry
  | cons first entries ih =>
      simp only [filterActive]
      cases i with
      | zero =>
          cases hentry
          have hfirst : (s.isActive entry.2).1 = wanted := hactive
          rw [if_pos hfirst]
          exact List.mem_cons_self
      | succ i =>
          have hrest : entry ∈ (filterActive wanted entries (s.isActive first.2).2).1 := by
            apply ih hentry
            change decide (UInt64.ofNat (s.clock (s.ticks + 1 + i) / 1000) - _ < 300) = wanted
            rw [Nat.add_assoc, Nat.add_comm 1 i]
            exact hactive
          split
          · exact List.mem_cons_of_mem _ hrest
          · exact hrest

theorem not_active_of_le {now seen t : UInt64} (hseen : seen ≤ t)
    (hnow : t.toNat + 300 ≤ now.toNat) : ¬ now - seen < 300 := by
  have hle : seen.toNat ≤ t.toNat := UInt64.le_iff_toNat_le.mp hseen
  have hsub : (now - seen).toNat = now.toNat - seen.toNat :=
    UInt64.toNat_sub_of_le _ _ (UInt64.le_iff_toNat_le.mpr (by omega))
  rw [UInt64.lt_iff_toNat_lt, hsub]
  change ¬ now.toNat - seen.toNat < 300
  omega

theorem lookup_cleanupStalePeers {p : Bytes} {s : NodeDiscovery} {t : UInt64}
    (hseen : ∀ peer, s.peers.lookup p = some peer → peer.lastSeen ≤ t)
    (hnow : t.toNat + 300 ≤ (s.readingFor p).toNat) :
    s.cleanupStalePeers.peers.lookup p = none := by
  rw [(forgets_cleanupStalePeers s).peers]
  split
  · rfl
  · rename_i hkept
    cases hpeer : s.peers.lookup p with
    | none => rfl
    | some peer =>
        have hentry := getElem?_findIdx_keys hpeer
        have hstale := not_active_of_le (hseen peer hpeer) hnow
        have hgone := mem_filterActive hentry (decide_eq_false hstale)
        exact absurd (List.mem_map_of_mem hgone) hkept

end NodeDiscovery

namespace GossipService

open NodeDiscovery

/-! ## Steps -/

def Silent (p : Bytes) (s : GossipService) : Event → Prop
  | .call op => SilentOp p op
  | .sent round success =>
      ∀ peer, s.sendingTo round = some peer → peer.nodeId = p → success = false
  | .getAllPeers | .getPeersWithChunk _ | .measured _ _ _ | .start | .stop | .startGossip
  | .stopGossip | .tick | .send _ | .tickEnd _ | .heartbeat => True

/-- If a send to `p` ends while `p` is listed, the clock does not show more than
`seen`. -/
def Unrefreshed (p : Bytes) (seen : UInt64) (s : GossipService) : Event → Prop
  | .sent round _ =>
      ∀ peer, s.sendingTo round = some peer → peer.nodeId = p →
        (s.discovery.peers.lookup p).isSome = true → s.discovery.currentSeconds.1 ≤ seen
  | .call _ | .getAllPeers | .getPeersWithChunk _ | .measured _ _ _ | .start | .stop
  | .startGossip | .stopGossip | .tick | .send _ | .tickEnd _ | .heartbeat => True

def SeenBy (p : Bytes) (seen : UInt64) (s : GossipService) : Prop :=
  ∀ peer, s.discovery.peers.lookup p = some peer → peer.lastSeen ≤ seen

theorem SeenBy.of_ages {p : Bytes} {seen : UInt64} {s s' : GossipService} (h : SeenBy p seen s)
    (hages : Ages p s.discovery s'.discovery) : SeenBy p seen s' := by
  intro peer' hpeer'
  obtain ⟨peer, hpeer, hseen⟩ := hages.record peer' hpeer'
  rw [hseen]
  exact h peer hpeer

theorem lookup_endGossip (s : GossipService) (peer : PeerNode) (success : Bool) (k : Bytes) :
    (s.endGossip peer success).discovery.peers.lookup k =
      if k = peer.nodeId then (s.discovery.peers.lookup k).map fun known =>
        { known with lastSeen := s.discovery.currentSeconds.1 }
      else s.discovery.peers.lookup k := by
  unfold endGossip
  cases hknown : s.discovery.peers.lookup peer.nodeId with
  | none =>
      by_cases hk : k = peer.nodeId
      · rw [if_pos hk, hk, hknown]
        rfl
      · rw [if_neg hk]
  | some known =>
      by_cases hk : k = peer.nodeId
      · rw [if_pos hk, hk, hknown]
        exact AList.lookup_insert _
      · rw [if_neg hk]
        exact AList.lookup_insert_ne hk

theorem localNodeId_endGossip (s : GossipService) (peer : PeerNode) (success : Bool) :
    (s.endGossip peer success).discovery.localNodeId = s.discovery.localNodeId := by
  unfold endGossip
  split <;> rfl

theorem ages_beginTick {p : Bytes} (s : GossipService) :
    Ages p s.discovery s.beginTick.discovery := by
  unfold beginTick
  split
  · exact Ages.of_same ⟨rfl, rfl, rfl⟩
  · obtain ⟨gone, hgone⟩ := forgets_getAllPeers s.discovery
    exact (Ages.of_forgets hgone).trans (Ages.of_same ⟨rfl, rfl, rfl⟩)

theorem ages_beginGossip {p : Bytes} (s : GossipService) (peer : PeerNode) :
    Ages p s.discovery (s.beginGossip peer).2.discovery := by
  unfold beginGossip
  split
  · exact Ages.of_same ⟨rfl, rfl, rfl⟩
  · split
    · exact Ages.of_same ⟨rfl, rfl, rfl⟩
    · exact Ages.of_same (sameTables_createGossipMessage s.discovery)

theorem ages_heartbeatTick {p : Bytes} {s : GossipService}
    (hremote : s.discovery.localNodeId = p → p = []) :
    Ages p s.discovery s.heartbeatTick.discovery := by
  unfold heartbeatTick
  split
  · exact Ages.of_same ⟨rfl, rfl, rfl⟩
  · simp only
    split
    · exact Ages.of_same ⟨rfl, rfl, rfl⟩
    · rename_i hid
      have hp : s.discovery.localNodeId ≠ p := by
        intro heq
        rw [heq, hremote heq] at hid
        exact hid rfl
      exact Ages.of_insert hp rfl rfl

/-- No step makes `p` look more recent, except the end of a send to `p`. -/
theorem ages_step {p : Bytes} {s s' : GossipService} {event : Event}
    (hremote : s.discovery.localNodeId = p → p = []) (hsilent : Silent p s event)
    (hother : ∀ round success peer, event = .sent round success →
      s.sendingTo round = some peer → peer.nodeId ≠ p)
    (hstep : s.step event = some s') : Ages p s.discovery s'.discovery := by
  cases event with
  | call op =>
      cases hstep
      exact ages_apply hremote hsilent
  | getAllPeers =>
      cases hstep
      obtain ⟨gone, hgone⟩ := forgets_getAllPeers s.discovery
      exact Ages.of_forgets hgone
  | getPeersWithChunk chunkId =>
      cases hstep
      exact Ages.of_same (sameTables_getPeersWithChunk s.discovery chunkId)
  | measured nodeId latencyMs throughputMbps =>
      cases hstep
      exact ages_updatePeer _ _ fun _ => rfl
  | start | stop | startGossip | stopGossip =>
      cases hstep
      exact Ages.of_same ⟨rfl, rfl, rfl⟩
  | tick =>
      cases hstep
      exact ages_beginTick s
  | send round =>
      simp only [step] at hstep
      split at hstep
      · cases hstep
        exact ages_beginGossip s _
      · cases hstep
  | sent round success =>
      obtain ⟨peer, hpeer, hs'⟩ := Option.map_eq_some_iff.mp hstep
      rw [← hs']
      refine Ages.of_lookup ?_ (localNodeId_endGossip s peer success)
      have hne := hother round success peer rfl hpeer
      exact (lookup_endGossip s peer success p).trans (if_neg hne.symm)
  | tickEnd round =>
      simp only [step] at hstep
      split at hstep
      · cases hstep
        exact Ages.of_forgets (forgets_cleanupStalePeers s.discovery)
      · cases hstep
  | heartbeat =>
      cases hstep
      exact ages_heartbeatTick hremote

/-! ## Runs -/

/-- What a step must not do, so that `p` does not look more recent. -/
theorem seenBy_step_iff {p : Bytes} {seen : UInt64} {s : GossipService} {event : Event}
    (hremote : s.discovery.localNodeId = p → p = []) (h : SeenBy p seen s)
    (hsilent : Silent p s event) :
    Unrefreshed p seen s event ↔ ∀ s', s.step event = some s' → SeenBy p seen s' := by
  by_cases hsend : ∃ round success peer, event = .sent round success ∧
      s.sendingTo round = some peer ∧ peer.nodeId = p
  · obtain ⟨round, success, peer, rfl, hpeer, rfl⟩ := hsend
    have hlookup := lookup_endGossip s peer success peer.nodeId
    rw [if_pos rfl] at hlookup
    constructor
    · intro hunrefreshed s' hstep known hknown
      obtain ⟨peer', hpeer', hs'⟩ := Option.map_eq_some_iff.mp hstep
      rw [hpeer] at hpeer'
      cases hpeer'
      rw [← hs'] at hknown
      obtain ⟨old, hold, rfl⟩ := Option.map_eq_some_iff.mp (hlookup.symm.trans hknown)
      exact hunrefreshed peer hpeer rfl (by rw [hold]; rfl)
    · intro hseen peer' hpeer' _ hlisted
      obtain ⟨old, hold⟩ := Option.isSome_iff_exists.mp hlisted
      rw [hold, Option.map_some] at hlookup
      exact hseen _ (Option.map_eq_some_iff.mpr ⟨peer, hpeer, rfl⟩) _ hlookup
  · have hother : ∀ round success peer, event = .sent round success →
        s.sendingTo round = some peer → peer.nodeId ≠ p := by
      intro round success peer hevent hpeer hp
      exact hsend ⟨round, success, peer, hevent, hpeer, hp⟩
    refine iff_of_true ?_ fun s' hstep => h.of_ages (ages_step hremote hsilent hother hstep)
    cases event with
    | sent round success =>
        intro peer hpeer hp
        exact absurd hp (hother round success peer rfl hpeer)
    | _ => trivial

theorem remote_step {p : Bytes} {s s' : GossipService} {event : Event}
    (hremote : s.discovery.localNodeId = p → p = []) (hsilent : Silent p s event)
    (hstep : s.step event = some s') : s'.discovery.localNodeId = p → p = [] := by
  by_cases hsend : ∃ round success peer, event = .sent round success ∧
      s.sendingTo round = some peer ∧ peer.nodeId = p
  · obtain ⟨round, success, peer, rfl, hpeer, -⟩ := hsend
    obtain ⟨peer', -, hs'⟩ := Option.map_eq_some_iff.mp hstep
    have hlocal : s'.discovery.localNodeId = s.discovery.localNodeId := by
      rw [← hs']
      exact localNodeId_endGossip s peer' success
    rwa [hlocal]
  · have hother : ∀ round success peer, event = .sent round success →
        s.sendingTo round = some peer → peer.nodeId ≠ p := by
      intro round success peer hevent hpeer hp
      exact hsend ⟨round, success, peer, hevent, hpeer, hp⟩
    exact (ages_step hremote hsilent hother hstep).remote hremote

/-- While nothing speaks for `p`, its time stamp stays exactly if no send to it
ends with a later reading of the clock; and then the clean-up drops `p` when its
five minutes are over. -/
theorem expires_iff {p : Bytes} {peer : PeerNode} {s : GossipService} {events : List Event}
    (hpeer : s.discovery.peers.lookup p = some peer) (hremote : s.discovery.localNodeId ≠ p)
    (hsilent : EveryStep step (Silent p) s events) :
    ((∀ front s', front <+: events → runSteps step s front = some s' →
        SeenBy p peer.lastSeen s') ↔
      EveryStep step (Unrefreshed p peer.lastSeen) s events) ∧
    (EveryStep step (Unrefreshed p peer.lastSeen) s events →
      ∀ s' t, runSteps step s events = some s' → peer.lastSeen ≤ t →
        t.toNat + 300 ≤ (s'.discovery.readingFor p).toNat →
          s'.discovery.cleanupStalePeers.peers.lookup p = none) := by
  have hstart : SeenBy p peer.lastSeen s := by
    intro known hknown
    rw [hpeer] at hknown
    cases hknown
    exact UInt64.le_refl _
  have hiff := everyStep_iff_forall_reached_of (P := Unrefreshed p peer.lastSeen)
    (I := SeenBy p peer.lastSeen)
    (J := fun s : GossipService => s.discovery.localNodeId = p → p = [])
    (fun s event s' hs hevent hstep => remote_step hs hevent hstep)
    (fun s event hs h hevent => seenBy_step_iff hs h hevent)
    (fun heq => absurd heq hremote) hstart hsilent
  refine ⟨hiff.symm, fun hunrefreshed s' t hrun ht hnow => ?_⟩
  have hseen := hiff.mp hunrefreshed events s' List.prefix_rfl hrun
  refine lookup_cleanupStalePeers (fun known hknown => ?_) hnow
  exact UInt64.le_trans (hseen known hknown) ht

/-- `A` is registered and knows `B`; after a few more readings of the clock, more
than six minutes have passed. -/
def sampleService : GossipService where
  discovery := ((NodeDiscovery.new 50
    (fun n => if n < 10 then 1700000000000 else 1700000400000) (fun _ => 0) fun _ =>
      .id).registerNode
      (0, 0) { nodeId := ascii "A", address := ascii "10.0.0.1", port := 9000 }).addPeer
        { nodeId := ascii "B", address := ascii "10.0.0.2", port := 9000, lastSeen := 1700000000 }
  running := true

def sampleB : PeerNode :=
  { nodeId := ascii "B", address := ascii "10.0.0.2", port := 9000, lastSeen := 1700000000 }

theorem lookup_sampleB : sampleService.discovery.peers.lookup (ascii "B") = some sampleB := by
  decide +kernel

theorem expires_sampleB :
    ∃ s', runSteps step sampleService [.heartbeat, .call (.announce (ascii "c"))] = some s' ∧
      s'.discovery.peers.lookup (ascii "B") = some sampleB ∧
      s'.discovery.cleanupStalePeers.peers.lookup (ascii "B") = none := by
  refine ⟨_, rfl, by decide +kernel, ?_⟩
  have hsilent : EveryStep step (Silent (ascii "B")) sampleService
      [.heartbeat, .call (.announce (ascii "c"))] := ⟨trivial, trivial, trivial⟩
  exact (expires_iff lookup_sampleB (by decide +kernel) hsilent).2 ⟨trivial, trivial, trivial⟩ _
    1700000000 rfl (by decide) (by decide +kernel)

def failedSend : List Event := [.tick, .send 0, .sent 0 false]

/-- `B` looks as if it had just been seen, and the clean-up keeps it. -/
theorem not_expires_failedSend :
    EveryStep step (Silent (ascii "B")) sampleService failedSend ∧
      ∃ s', runSteps step sampleService failedSend = some s' ∧
        ¬ SeenBy (ascii "B") sampleB.lastSeen s' ∧
        sampleB.lastSeen.toNat + 300 ≤ (s'.discovery.readingFor (ascii "B")).toNat ∧
        s'.discovery.cleanupStalePeers.peers.lookup (ascii "B") ≠ none := by
  have hsilent : EveryStep step (Silent (ascii "B")) sampleService failedSend := by
    refine EveryStep.mono (EveryStep.of_forall (Q := fun event => event ∈ failedSend) fun _ h => h)
      ?_
    intro s event hevent
    simp only [failedSend, List.mem_cons, List.not_mem_nil, or_false] at hevent
    rcases hevent with rfl | rfl | rfl
    · trivial
    · trivial
    · exact fun _ _ _ => rfl
  refine ⟨hsilent, ?_⟩
  have hstamped : ((runSteps step sampleService failedSend).any fun s' =>
      decide (s'.discovery.peers.lookup (ascii "B") =
        some { sampleB with lastSeen := 1700000400 }) &&
      decide (sampleB.lastSeen.toNat + 300 ≤ (s'.discovery.readingFor (ascii "B")).toNat) &&
      decide (s'.discovery.cleanupStalePeers.peers.lookup (ascii "B") ≠ none)) = true := by
    decide +kernel
  obtain ⟨s', hrun, hs'⟩ := (Option.any_eq_true _ _).mp hstamped
  simp only [Bool.and_eq_true, decide_eq_true_eq] at hs'
  obtain ⟨⟨hlookup, hlate⟩, hkept⟩ := hs'
  refine ⟨s', hrun, fun hseen => ?_, hlate, hkept⟩
  have hle := hseen _ hlookup
  revert hle
  decide

end GossipService

end ElioP2P.P2P
