import ElioP2P.P2P.Proofs.GossipNetwork

/-!
# Locations that last

The message of `broadcast_chunk_remove` names no chunk, so nothing that a node
hears takes a single location away.  A holder that has been listed for a chunk
stays listed until it is forgotten altogether.
-/

namespace ElioP2P.P2P

open ElioP2P.Library

namespace NodeDiscovery

/-- The holder stays listed for the chunk unless it loses its record. -/
def Keeps (chunk holder : Bytes) (s s' : NodeDiscovery) : Prop :=
  s.Locates chunk holder → holder ∈ s'.peers → s'.Locates chunk holder

section Keeps

variable {chunk holder : Bytes} {s t : NodeDiscovery}

theorem Forgets.keeps {gone : List Bytes} (h : Forgets gone s t) : Keeps chunk holder s t := by
  intro hlisted hknown
  refine (h.locates chunk holder).mpr ⟨hlisted, fun hgone => ?_⟩
  rw [← AList.lookup_isSome, h.peers, if_pos hgone] at hknown
  cases hknown

theorem Keeps.of_grows (h : s.Locates chunk holder → t.Locates chunk holder) :
    Keeps chunk holder s t :=
  fun hlisted _ => h hlisted

theorem SameIndex.keeps (h : SameIndex s t) : Keeps chunk holder s t := by
  refine Keeps.of_grows fun hlisted => ?_
  rwa [Locates, h.1]

theorem keeps_registerNode (garbage : UInt64 × UInt64) (localNode : PeerNode) :
    Keeps chunk holder s (s.registerNode garbage localNode) := by
  obtain ⟨gone, hgone⟩ := forgets_broadcastNodeJoin garbage { s.currentSeconds.2 with
    localNodeId := localNode.nodeId
    localNodeAddress := localNode.address
    localNodePort := localNode.port
    peers := s.peers.insert localNode.nodeId { localNode with lastSeen := s.currentSeconds.1 }
    gossipRunning := true }
  exact fun hlisted => hgone.keeps hlisted

theorem keeps_unregisterNode : Keeps chunk holder s s.unregisterNode := by
  unfold unregisterNode
  split
  · exact fun hlisted _ => hlisted
  · obtain ⟨gone, hgone⟩ := forgets_broadcastNodeLeave s
    exact hgone.keeps

theorem keeps_announceChunk (chunkId : Bytes) :
    Keeps chunk holder s (s.announceChunk chunkId) := by
  obtain hsame | ⟨-, gone, hgone⟩ := s.announceChunk_cases chunkId
  · rw [hsame]
    exact fun hlisted _ => hlisted
  · exact fun hlisted => hgone.keeps (memAt_insertAt.mpr (Or.inl hlisted))

/-- Only the node's own place in the set is withdrawn. -/
theorem keeps_removeChunkAnnouncement {chunkId : Bytes}
    (hother : chunkId = chunk → s.localNodeId ≠ holder) :
    Keeps chunk holder s (s.removeChunkAnnouncement chunkId) := by
  rw [removeChunkAnnouncement_eq]
  obtain ⟨gone, hgone⟩ := forgets_broadcastChunkRemove
    ({ s with chunkLocations := dropAt s.chunkLocations chunkId s.localNodeId }.updatePeer
      s.localNodeId fun peer =>
        { peer with availableChunks := peer.availableChunks.erase chunkId }) chunkId
  refine fun hlisted => hgone.keeps ?_
  rw [Locates, (sameIndex_updatePeer _ _ _).1]
  exact memAt_dropAt.mpr ⟨hlisted, fun h => hother h.1.symm h.2.symm⟩

theorem keeps_handleGossipMessage {msg : GossipMessage}
    (hremoves : msg.type = .chunkRemove → ∀ key item, ¬ MemAt msg.chunkMap key item) :
    Keeps chunk holder s (s.handleGossipMessage msg) := by
  unfold handleGossipMessage
  split
  · exact fun hlisted _ => hlisted
  · intro hlisted
    have hmarked : (s.markMessageSeen msg).Locates chunk holder :=
      ((sameTables_markMessageSeen s msg).locates chunk holder).mpr hlisted
    revert hmarked
    generalize s.markMessageSeen msg = marked
    intro hmarked
    cases htype : msg.type with
    | nodeJoin => exact fun _ => (locates_handleNodeJoin marked msg chunk holder).mpr hmarked
    | nodeLeave => exact (forgets_removePeer marked msg.sourceNodeId).keeps hmarked
    | chunkAnnounce =>
        exact fun _ => (locates_handleChunkAnnounce marked msg chunk holder).mpr (Or.inl hmarked)
    | chunkRemove =>
        exact fun _ => (locates_handleChunkRemove marked msg chunk holder).mpr
          ⟨hmarked, fun h => hremoves htype _ _ h.2⟩
    | stateSync =>
        exact fun _ => (locates_handleStateSync marked msg chunk holder).mpr (Or.inl hmarked)
    | unknown raw hraw => exact fun _ => hmarked

theorem keeps_apply {op : Op}
    (hown : op = .removeAnnouncement chunk → s.localNodeId ≠ holder)
    (hremoves : ∀ msg, op = .gossip msg → msg.type = .chunkRemove →
      ∀ key item, ¬ MemAt msg.chunkMap key item) : Keeps chunk holder s (s.apply op) := by
  cases op with
  | register garbage localNode => exact keeps_registerNode garbage localNode
  | unregister => exact keeps_unregisterNode
  | addPeer peer =>
      have hwritten : SameIndex s { s with peers := s.peers.insert peer.nodeId peer } := ⟨rfl, rfl⟩
      exact (hwritten.trans (sameIndex_notifyDiscovered _ _ _)).keeps
  | removePeer nodeId => exact (forgets_removePeer s nodeId).keeps
  | announce chunkId => exact keeps_announceChunk chunkId
  | removeAnnouncement chunkId =>
      exact keeps_removeChunkAnnouncement fun h => hown (h ▸ rfl)
  | cleanup => exact (forgets_cleanupStalePeers s).keeps
  | gossip msg => exact keeps_handleGossipMessage (hremoves msg rfl)

end Keeps

end NodeDiscovery

namespace GossipService

open NodeDiscovery

theorem sameIndex_endGossip (s : GossipService) (peer : PeerNode) (success : Bool) :
    SameIndex s.discovery (s.endGossip peer success).discovery := by
  unfold endGossip
  split <;> exact ⟨rfl, rfl⟩

theorem sameIndex_heartbeatTick (s : GossipService) :
    SameIndex s.discovery s.heartbeatTick.discovery := by
  unfold heartbeatTick
  split
  · exact ⟨rfl, rfl⟩
  · simp only
    split <;> exact ⟨rfl, rfl⟩

theorem keeps_beginTick {chunk holder : Bytes} (s : GossipService) :
    Keeps chunk holder s.discovery s.beginTick.discovery := by
  unfold beginTick
  split
  · exact fun hlisted _ => hlisted
  · obtain ⟨gone, hgone⟩ := forgets_getAllPeers s.discovery
    exact hgone.keeps

theorem sameTables_beginGossip (s : GossipService) (peer : PeerNode) :
    SameTables s.discovery (s.beginGossip peer).2.discovery := by
  unfold beginGossip
  split
  · exact ⟨rfl, rfl, rfl⟩
  · split
    · exact ⟨rfl, rfl, rfl⟩
    · exact sameTables_createGossipMessage s.discovery

theorem keeps_step {chunk holder : Bytes} {s s' : GossipService} {event : Event}
    (hown : event = .call (.removeAnnouncement chunk) → s.discovery.localNodeId ≠ holder)
    (hremoves : ∀ msg, event = .call (.gossip msg) → msg.type = .chunkRemove →
      ∀ key item, ¬ MemAt msg.chunkMap key item)
    (hstep : s.step event = some s') : Keeps chunk holder s.discovery s'.discovery := by
  cases event with
  | call op =>
      cases hstep
      exact keeps_apply (fun hop => hown (hop ▸ rfl)) fun msg hop => hremoves msg (hop ▸ rfl)
  | getAllPeers =>
      cases hstep
      obtain ⟨gone, hgone⟩ := forgets_getAllPeers s.discovery
      exact hgone.keeps
  | getPeersWithChunk chunkId =>
      cases hstep
      exact (Forgets.of_sameTables (sameTables_getPeersWithChunk s.discovery chunkId)).keeps
  | measured nodeId latencyMs throughputMbps =>
      cases hstep
      exact (sameIndex_updatePeer s.discovery nodeId _).keeps
  | start | stop | startGossip | stopGossip =>
      cases hstep
      exact fun hlisted _ => hlisted
  | tick =>
      cases hstep
      exact keeps_beginTick s
  | send round =>
      simp only [step] at hstep
      split at hstep
      · cases hstep
        exact (Forgets.of_sameTables (sameTables_beginGossip s _)).keeps
      · cases hstep
  | sent round success =>
      obtain ⟨peer, hpeer, rfl⟩ := Option.map_eq_some_iff.mp hstep
      exact (sameIndex_endGossip s peer success).keeps
  | tickEnd round =>
      simp only [step] at hstep
      split at hstep
      · cases hstep
        exact (forgets_cleanupStalePeers s.discovery).keeps
      · cases hstep
  | heartbeat =>
      cases hstep
      exact (sameIndex_heartbeatTick s).keeps

end GossipService

namespace GossipNetwork

variable {chunk holder : Bytes} {node : Nat} {net t t' net' : GossipNetwork}
  {front back : List Event}

/-- The step leaves the holder in the node's peer table, and is not the node's own
withdrawal of the holder's announcement. -/
def Remembers (chunk holder : Bytes) (node : Nat) (net : GossipNetwork) (event : Event) : Prop :=
  (∀ net' ∈ step net event, ∀ s ∈ net'.nodes[node]?, holder ∈ s.discovery.peers) ∧
    (event = .act node (.call (.removeAnnouncement chunk)) →
      ∀ s ∈ net.nodes[node]?, s.discovery.localNodeId ≠ holder)

instance (chunk holder : Bytes) (node : Nat) (net : GossipNetwork) (event : Event) :
    Decidable (Remembers chunk holder node net event) :=
  inferInstanceAs (Decidable (_ ∧ _))

def Lists (chunk holder : Bytes) (node : Nat) (net : GossipNetwork) : Prop :=
  ∀ s ∈ net.nodes[node]?, s.discovery.Locates chunk holder

instance (chunk holder : Bytes) (node : Nat) (net : GossipNetwork) :
    Decidable (Lists chunk holder node net) :=
  inferInstanceAs (Decidable (∀ s ∈ _, _))

def anything : Testimony where
  located _ _ := True
  holds _ _ := True
  contact _ _ := True
  joins _ _ _ := True
  symm := id
  holds_of_located := id
  contact_of_joins := id
  named := id

theorem keeps_listen (s : NodeDiscovery) (port : UInt16) :
    NodeDiscovery.Keeps chunk holder s (listen s port) := by
  unfold listen
  split <;> exact fun hlisted _ => hlisted

theorem lists_step {event : Event} (hvouched : t.Vouched anything)
    (hlists : Lists chunk holder node t) (hnarrow : Narrow t event)
    (hremembers : Remembers chunk holder node t event) (hstep : step t event = some t') :
    Lists chunk holder node t' := by
  obtain ⟨hknown, hown⟩ := hremembers
  intro now hnow
  have hpeer := hknown t' hstep now hnow
  obtain ⟨other, s, s', sent, hs, rfl, hcase⟩ := step_cases hstep
  by_cases hother : other = node
  · subst hother
    have hlt := (List.getElem?_eq_some_iff.mp hs).1
    rw [List.getElem?_set_self hlt] at hnow
    cases hnow
    refine (?_ : NodeDiscovery.Keeps chunk holder s.discovery now.discovery) (hlists s hs) hpeer
    rcases hcase with ⟨event, rfl, hmine, hs', rfl⟩ | ⟨port, rfl, rfl, rfl⟩ |
      ⟨message, msg, msg', rfl, hmsg, harrived, rfl, rfl⟩
    · refine GossipService.keeps_step (fun hremoval => hown (hremoval ▸ rfl) s hs) ?_ hs'
      rintro msg rfl
      cases hmine
    · exact keeps_listen s.discovery port
    · exact NodeDiscovery.keeps_handleGossipMessage
        (hvouched.arrived hnarrow hmsg harrived).removes
  · rw [List.getElem?_set_ne hother] at hnow
    exact hlists now hnow

theorem sourced_anything (net : GossipNetwork) (event : Event) : Sourced anything net event := by
  cases event with
  | act node event =>
      intro hown s hs
      cases event with
      | call op =>
          cases op with
          | gossip msg => cases hown
          | register garbage localNode => exact ⟨⟨trivial, fun _ _ => trivial⟩, trivial⟩
          | addPeer peer => exact ⟨trivial, fun _ _ => trivial⟩
          | announce chunkId => exact ⟨fun _ => trivial, fun _ _ => trivial⟩
          | unregister | removePeer nodeId | removeAnnouncement chunkId | cleanup => trivial
      | heartbeat => exact fun _ _ => trivial
      | _ => trivial
  | listening node port => exact fun _ _ _ _ => trivial
  | deliver node message => trivial

/-- Whatever the nodes of a network do and whatever arrives in whatever order: a
node goes on listing a holder for a chunk as long as it has a record of the holder
and does not itself withdraw the chunk for it. -/
theorem lists_of_run (hfresh : net.Fresh) (hnarrow : EveryStep step Narrow net (front ++ back))
    (hfront : runSteps step net front = some t) (hback : runSteps step t back = some net')
    (hremembers : EveryStep step (Remembers chunk holder node) t back)
    (hlists : Lists chunk holder node t) : Lists chunk holder node net' := by
  have hvouched : t.Vouched anything := runSteps_invariant
    (fun s label s' h hnarrow hstep => vouched_step h (sourced_anything s label) hnarrow hstep)
    (hfresh.vouched anything) (everyStep_append.mp hnarrow).1 hfront
  have hnarrow' := (everyStep_append.mp hnarrow).2 t hfront
  exact (runSteps_invariant
    (I := fun net : GossipNetwork => net.Vouched anything ∧ Lists chunk holder node net)
    (fun s label s' h hP hstep =>
      ⟨vouched_step h.1 (sourced_anything s label) hP.1 hstep,
        lists_step h.1 h.2 hP.1 hP.2 hstep⟩)
    ⟨hvouched, hlists⟩ (hnarrow'.and hremembers) hback).2

def withdrawn : List Event :=
  [.act 0 (.call (.removeAnnouncement (ascii "c"))), .deliver 1 2]

theorem withdrawn_runs :
    (runSteps step twoNodes announcedToB).map (fun t =>
      (decide (Lists (ascii "c") (ascii "A") 1 t),
        decide (EveryStep step (Remembers (ascii "c") (ascii "A") 1) t withdrawn),
        (runSteps step t withdrawn).isSome)) = some (true, true, true) := by decide +kernel

theorem lists_of_run_withdrawn :
    ∃ t net', runSteps step twoNodes announcedToB = some t ∧
      runSteps step t withdrawn = some net' ∧ Lists (ascii "c") (ascii "A") 1 net' := by
  obtain ⟨t, ht, hrest⟩ := Option.map_eq_some_iff.mp withdrawn_runs
  simp only [Prod.mk.injEq, decide_eq_true_eq] at hrest
  obtain ⟨hlists, hremembers, hsome⟩ := hrest
  obtain ⟨net', hnet'⟩ := Option.isSome_iff_exists.mp hsome
  have hnarrow : EveryStep step Narrow twoNodes (announcedToB ++ withdrawn) := by decide +kernel
  exact ⟨t, net', ht, hnet', lists_of_run twoNodes_fresh hnarrow ht hnet' hremembers hlists⟩

end GossipNetwork

end ElioP2P.P2P
