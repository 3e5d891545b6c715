import ElioP2P.Library.Runs
import ElioP2P.P2P.Proofs.Deduplication
import ElioP2P.P2P.Proofs.Hearsay

/-!
# Where the knowledge of a network comes from

Whatever is lost, repeated or reordered, every location that a node holds goes
back to a call of `announce_chunk`, and every contact to a record that somebody
registered or added, to what a node has said of itself when it joined, or to a
node that had no record of itself.
-/

namespace ElioP2P.P2P

open ElioP2P.Library

/-! ## One node -/

namespace GossipService

open NodeDiscovery

variable {J : Testimony} {s s' : GossipService}

def Sourced (J : Testimony) (s : GossipService) : Event → Prop
  | .call op => NodeDiscovery.Sourced J s.discovery op
  | .heartbeat => MayBlank J s.discovery
  | _ => True

theorem relays_beginTick (hs : s.discovery.Vouched J) :
    Relays J s.discovery s.beginTick.discovery := by
  unfold beginTick
  split
  · exact hs.relays_same
  · exact (hs.relays_quieter (quieter_getAllPeers s.discovery)).then_quieter
      (Quieter.of_same ⟨rfl, rfl, rfl⟩ rfl)

theorem relays_beginGossip (hs : s.discovery.Vouched J) (peer : PeerNode) :
    Relays J s.discovery (s.beginGossip peer).2.discovery := by
  unfold beginGossip
  split
  · exact hs.relays_same
  · split
    · exact hs.relays_same
    · refine hs.relays_quieter (Quieter.of_same (sameTables_createGossipMessage s.discovery) ?_)
      exact voice_filterActive true _ s.discovery.currentMillis.2

theorem relays_endGossip (hs : s.discovery.Vouched J) (peer : PeerNode) (success : Bool) :
    Relays J s.discovery (s.endGossip peer success).discovery := by
  unfold endGossip
  cases hpeer : s.discovery.peers.lookup peer.nodeId with
  | none => exact hs.relays_same
  | some known =>
      have hknown := hs.accepted peer.nodeId known hpeer
      have hstamped : J.Accepts peer.nodeId
          { known with lastSeen := s.discovery.currentSeconds.1 } :=
        ⟨hknown.contact, hknown.holds⟩
      exact hs.relays_insert hstamped rfl rfl rfl

theorem relays_heartbeatTick (hs : s.discovery.Vouched J) (hblank : MayBlank J s.discovery) :
    Relays J s.discovery s.heartbeatTick.discovery := by
  unfold heartbeatTick
  split
  · exact hs.relays_same
  · simp only
    split
    · exact hs.relays_quieter (Quieter.of_same ⟨rfl, rfl, rfl⟩ rfl)
    · rename_i hid
      have hself : s.discovery.localNodeId ≠ [] := by
        rintro hempty
        simp [hempty] at hid
      have hknown := hs.accepts_getD hblank hself
      have hstamped : J.Accepts s.discovery.localNodeId
          { (s.discovery.peers.lookup s.discovery.localNodeId).getD {} with
            lastSeen := s.discovery.currentSeconds.1 } :=
        ⟨hknown.contact, hknown.holds⟩
      exact hs.relays_insert hstamped rfl rfl rfl

theorem relays_step {event : Event} (hs : s.discovery.Vouched J) (hsourced : s.Sourced J event)
    (hstep : s.step event = some s') : Relays J s.discovery s'.discovery := by
  cases event with
  | call op =>
      cases hstep
      exact hs.relays_apply hsourced
  | getAllPeers =>
      cases hstep
      exact hs.relays_quieter (quieter_getAllPeers s.discovery)
  | getPeersWithChunk chunkId =>
      cases hstep
      refine hs.relays_quieter
        (Quieter.of_same (sameTables_getPeersWithChunk s.discovery chunkId) ?_)
      unfold getPeersWithChunk
      split
      · rfl
      · exact voice_filterActive true _ s.discovery
  | measured nodeId latencyMs throughputMbps =>
      cases hstep
      exact hs.relays_updatePeer fun peer haccept => ⟨haccept.contact, haccept.holds⟩
  | start | stop | startGossip | stopGossip =>
      cases hstep
      exact hs.relays_quieter (Quieter.of_same ⟨rfl, rfl, rfl⟩ rfl)
  | tick =>
      cases hstep
      exact relays_beginTick hs
  | send round =>
      simp only [step] at hstep
      split at hstep
      · cases hstep
        exact relays_beginGossip hs _
      · cases hstep
  | sent round success =>
      obtain ⟨peer, hpeer, rfl⟩ := Option.map_eq_some_iff.mp hstep
      exact relays_endGossip hs peer success
  | tickEnd round =>
      simp only [step] at hstep
      split at hstep
      · cases hstep
        exact hs.relays_quieter (quieter_cleanupStalePeers s.discovery)
      · cases hstep
  | heartbeat =>
      cases hstep
      exact relays_heartbeatTick hs hsourced

theorem vouched_posted {event : Event} (hs : s.discovery.Vouched J) (hsourced : s.Sourced J event) :
    ∀ msg ∈ s.posted event, msg.Vouched J := by
  have houtbox : ∀ s', s.step event = some s' →
      ∀ msg ∈ (s'.discovery.outbox.drop s.discovery.outbox.length).map Prod.snd,
        msg.Vouched J := by
    intro s' hstep msg hmsg
    obtain ⟨new, hnew, hvouched⟩ := (relays_step hs hsourced hstep).outbox
    rw [hnew, List.drop_left, List.mem_map] at hmsg
    obtain ⟨entry, hentry, rfl⟩ := hmsg
    exact hvouched entry hentry
  intro msg hmsg
  unfold posted at hmsg
  split at hmsg
  · split at hmsg
    · rename_i peer targets _
      unfold beginGossip at hmsg
      split at hmsg
      · cases hmsg
      · split at hmsg
        · cases hmsg
        · rw [Option.mem_toList, Option.some.injEq] at hmsg
          subst hmsg
          exact hs.createGossipMessage
    · cases hmsg
  · split at hmsg
    · exact houtbox _ (by assumption) msg hmsg
    · cases hmsg

end GossipService

/-! ## The wire -/

theorem GossipMessage.Vouched.of_arrived {J : Testimony} {msg msg' : GossipMessage}
    (h : msg.Vouched J) (hequiv : msg.named.Equiv msg') : msg'.Vouched J := by
  refine ⟨fun key item hmem => h.located key item ((hequiv.memAt_iff key item).mpr hmem),
    fun nodeId peer' hpeer' => ?_, fun htype key item hmem =>
      h.removes (hequiv.type.trans htype) key item ((hequiv.memAt_iff key item).mpr hmem)⟩
  have hrel := hequiv.peerUpdates nodeId
  rw [hpeer', GossipMessage.named, lookup_mapValues] at hrel
  cases hpeer : msg.peerUpdates.lookup nodeId with
  | none =>
      rw [hpeer] at hrel
      cases hrel
  | some peer =>
      rw [hpeer] at hrel
      obtain ⟨hfields, hchunks⟩ := Option.rel_some_some.mp hrel
      have haccept := h.accepted nodeId peer hpeer
      simp only [PeerNode.named, PeerNode.mk.injEq] at hfields
      obtain ⟨hid, haddress, hport, hgossipPort, -⟩ := hfields
      have hcontact : peer'.contact = { peer.contact with nodeId := nodeId } := by
        simp only [PeerNode.contact, ← hid, ← haddress, ← hport, ← hgossipPort]
      refine ⟨?_, fun chunk hmem => haccept.holds chunk ((hchunks chunk).mpr hmem)⟩
      rw [hcontact]
      exact J.named haccept.contact

/-! ## The network -/

namespace GossipNetwork

/-- Every message that reaches a node is shorter than 4 GiB, so that its length
fits the four bytes in front of it. -/
def Narrow (net : GossipNetwork) : Event → Prop
  | .deliver _ message =>
      ∀ msg ∈ net.sent[message]?, (serializeGossipMessage msg).length < 2 ^ 32
  | .act _ _ | .listening _ _ => True

instance (net : GossipNetwork) : ∀ event, Decidable (Narrow net event)
  | .deliver _ _ => inferInstanceAs (Decidable (∀ msg ∈ _, _))
  | .act _ _ | .listening _ _ => inferInstanceAs (Decidable True)

def Sourced (J : Testimony) (net : GossipNetwork) : Event → Prop
  | .act node event =>
      Own event = true → ∀ s, net.nodes[node]? = some s → s.Sourced J event
  | .listening node port =>
      ∀ s, net.nodes[node]? = some s → ∀ address,
        J.joins s.discovery.localNodeId address 0 → J.joins s.discovery.localNodeId address port
  | .deliver _ _ => True

section Sources

variable (net : GossipNetwork) (events : List Event)

def Announced (nodeId chunk : Bytes) : Prop :=
  nodeId ≠ [] ∧ ∃ t node s, Taken step net events t (.act node (.call (.announce chunk))) ∧
    t.nodes[node]? = some s ∧ s.discovery.localNodeId = nodeId

def Registered (peer : PeerNode) : Prop :=
  ∃ t node garbage, Taken step net events t (.act node (.call (.register garbage peer)))

def Given (peer : PeerNode) : Prop :=
  Registered net events peer ∨ ∃ t node, Taken step net events t (.act node (.call (.addPeer peer)))

def Listens (nodeId : Bytes) (port : UInt16) : Prop :=
  ∃ t node s, Taken step net events t (.listening node port) ∧ t.nodes[node]? = some s ∧
    s.discovery.localNodeId = nodeId

/-- In the run, a node with this id and without a record of itself announces a
chunk or beats. -/
def Blanked (nodeId : Bytes) : Prop :=
  ∃ t node s event, Taken step net events t (.act node event) ∧ t.nodes[node]? = some s ∧
    s.discovery.localNodeId = nodeId ∧ s.discovery.peers.lookup nodeId = none ∧
    (event = .heartbeat ∨ ∃ chunk, event = .call (.announce chunk))

/-- What a node says of itself when it joins: the address and the port that it has
registered with, or the port that it listens on if it has registered with none. -/
def Joins (nodeId address : Bytes) (port : UInt16) : Prop :=
  ∃ peer, Registered net events peer ∧ peer.nodeId = nodeId ∧ peer.address = address ∧
    (peer.port = port ∨ peer.port = 0 ∧ Listens net events nodeId port)

/-- The contacts that a record of the node may have.  A join has no gossip port, and
a node that has lost the record of itself makes an empty one, which has no id until
it has been sent. -/
inductive Introduced (nodeId : Bytes) : Contact → Prop
  | given {peer : PeerNode} : Given net events peer → peer.nodeId = nodeId →
      Introduced nodeId peer.contact
  | joined {address : Bytes} {port : UInt16} : Joins net events nodeId address port →
      Introduced nodeId { nodeId := nodeId, address := address, port := port }
  | blank : Blanked net events nodeId → Introduced nodeId {}
  | blankSent : Blanked net events nodeId → Introduced nodeId { nodeId := nodeId }

/-- All records but the empty one carry the id of the node. -/
theorem Introduced.named {net : GossipNetwork} {events : List Event} {nodeId : Bytes}
    {contact : Contact} (h : Introduced net events nodeId contact) :
    Introduced net events nodeId { contact with nodeId := nodeId } := by
  cases h with
  | given hgiven hid =>
      subst hid
      exact .given hgiven rfl
  | joined hjoins => exact .joined hjoins
  | blank hblanked => exact .blankSent hblanked
  | blankSent hblanked => exact .blankSent hblanked

def testimony : Testimony where
  located key item := Announced net events key item ∨ Announced net events item key
  holds nodeId chunk := (Announced net events nodeId chunk ∨ Announced net events chunk nodeId) ∨
    ∃ peer, Given net events peer ∧ peer.nodeId = nodeId ∧ chunk ∈ peer.availableChunks
  contact := Introduced net events
  joins := Joins net events
  symm := Or.symm
  holds_of_located := Or.inl
  contact_of_joins := Introduced.joined
  named := Introduced.named

end Sources

structure Vouched (J : Testimony) (net : GossipNetwork) : Prop where
  nodes : ∀ s ∈ net.nodes, s.discovery.Vouched J
  sent : ∀ msg ∈ net.sent, msg.Vouched J

variable {net net' t t' : GossipNetwork} {events : List Event}

theorem Fresh.vouched (h : net.Fresh) (J : Testimony) : net.Vouched J := by
  refine ⟨fun s hs => ?_, by simp [h.sent]⟩
  obtain ⟨hpeers, hlocations, hid⟩ := h.nodes s hs
  refine ⟨fun chunk nodeId hmem => ?_, fun nodeId peer hpeer => ?_, fun hne => absurd hid hne⟩
  · rw [NodeDiscovery.Locates, hlocations] at hmem
    exact absurd hmem (HashSet.notMem_empty _)
  · rw [hpeers] at hpeer
    cases hpeer

theorem Vouched.set {J : Testimony} (h : t.Vouched J) {node : Nat} {s' : GossipService}
    (hs' : s'.discovery.Vouched J) {sent : List GossipMessage}
    (hsent : ∀ msg ∈ sent, msg.Vouched J) :
    Vouched J { nodes := t.nodes.set node s', sent := t.sent ++ sent } := by
  constructor
  · intro s hs
    rcases List.mem_or_eq_of_mem_set hs with hold | rfl
    · exact h.nodes s hold
    · exact hs'
  · intro msg hmsg
    exact (List.mem_append.mp hmsg).elim (h.sent msg) (hsent msg)

theorem step_cases {label : Event} (hstep : step t label = some t') :
    ∃ node s s' sent, t.nodes[node]? = some s ∧
      t' = { nodes := t.nodes.set node s', sent := t.sent ++ sent } ∧
      ((∃ event, label = .act node event ∧ Own event = true ∧ s.step event = some s' ∧
          sent = s.posted event) ∨
        (∃ port, label = .listening node port ∧ sent = [] ∧
          s' = { s with discovery := listen s.discovery port }) ∨
        ∃ message msg msg', label = .deliver node message ∧ t.sent[message]? = some msg ∧
          arrival msg = .ok msg' ∧ sent = [] ∧
          s' = { s with discovery := s.discovery.handleGossipMessage msg' }) := by
  cases label with
  | act node event =>
      simp only [step] at hstep
      split at hstep
      · rename_i hown
        obtain ⟨s, hs, hrest⟩ := Option.bind_eq_some_iff.mp hstep
        obtain ⟨s', hs', hnet⟩ := Option.bind_eq_some_iff.mp hrest
        cases hnet
        exact ⟨node, s, s', _, hs, rfl, Or.inl ⟨event, rfl, hown, hs', rfl⟩⟩
      · cases hstep
  | listening node port =>
      obtain ⟨s, hs, hnet⟩ := Option.bind_eq_some_iff.mp hstep
      cases hnet
      exact ⟨node, s, _, [], hs, by simp, Or.inr (Or.inl ⟨port, rfl, rfl, rfl⟩)⟩
  | deliver node message =>
      obtain ⟨s, hs, hrest⟩ := Option.bind_eq_some_iff.mp hstep
      obtain ⟨msg, hmsg, hnet⟩ := Option.bind_eq_some_iff.mp hrest
      cases harrived : arrival msg with
      | ok msg' =>
          rw [harrived] at hnet
          cases hnet
          exact ⟨node, s, _, [], hs, by simp,
            Or.inr (Or.inr ⟨message, msg, msg', rfl, hmsg, harrived, rfl, rfl⟩)⟩
      | rejected =>
          rw [harrived] at hnet
          cases hnet
      | outOfBounds =>
          rw [harrived] at hnet
          cases hnet

theorem Vouched.arrived {J : Testimony} (h : t.Vouched J) {node message : Nat}
    {msg msg' : GossipMessage} (hnarrow : Narrow t (.deliver node message))
    (hmsg : t.sent[message]? = some msg) (harrived : arrival msg = .ok msg') :
    msg'.Vouched J := by
  rcases arrival_cases (hnarrow msg hmsg) with hrefused | ⟨other, hother, hequiv⟩
  · rw [hrefused] at harrived
    cases harrived
  · rw [hother] at harrived
    cases harrived
    exact (h.sent msg (List.mem_of_getElem? hmsg)).of_arrived hequiv

theorem vouched_step {J : Testimony} {label : Event} (h : t.Vouched J)
    (hsourced : Sourced J t label) (hnarrow : Narrow t label) (hstep : step t label = some t') :
    t'.Vouched J := by
  obtain ⟨node, s, s', sent, hs, rfl, hcase⟩ := step_cases hstep
  have hvouched := h.nodes s (List.mem_of_getElem? hs)
  rcases hcase with ⟨event, rfl, hown, hs', rfl⟩ | ⟨port, rfl, rfl, rfl⟩ |
    ⟨message, msg, msg', rfl, hmsg, harrived, rfl, rfl⟩
  · have hbrings := hsourced hown s hs
    exact h.set (GossipService.relays_step hvouched hbrings hs').vouched
      (GossipService.vouched_posted hvouched hbrings)
  · refine h.set ?_ nofun
    simp only [listen]
    split
    · rename_i hport
      refine ⟨hvouched.located, hvouched.accepted, fun hself => hsourced s hs _ ?_⟩
      have hjoins := hvouched.self hself
      rwa [hport] at hjoins
    · exact hvouched
  · exact h.set (hvouched.relays_handleGossipMessage (h.arrived hnarrow hmsg harrived)).vouched
      nofun

theorem accepts_given {peer : PeerNode} (hgiven : Given net events peer) :
    (testimony net events).Accepts peer.nodeId peer :=
  ⟨.given hgiven rfl, fun _ hmem => Or.inr ⟨peer, hgiven, rfl, hmem⟩⟩

/-- The testimony of a run covers what its calls bring in. -/
theorem sourced_testimony {label : Event} (htaken : Taken step net events t label) :
    Sourced (testimony net events) t label := by
  cases label with
  | act node event =>
      intro hown s hs
      cases event with
      | call op =>
          cases op with
          | register garbage localNode =>
              have hregistered : Registered net events localNode := ⟨t, node, garbage, htaken⟩
              exact ⟨accepts_given (Or.inl hregistered),
                localNode, hregistered, rfl, rfl, Or.inl rfl⟩
          | addPeer peer => exact accepts_given (Or.inr ⟨t, node, htaken⟩)
          | announce chunkId =>
              refine ⟨fun hself => Or.inl ⟨hself, t, node, s, htaken, hs, rfl⟩, fun _ hnone => ?_⟩
              exact .blank ⟨t, node, s, _, htaken, hs, rfl, hnone, Or.inr ⟨chunkId, rfl⟩⟩
          | gossip msg => cases hown
          | unregister | removePeer nodeId | removeAnnouncement chunkId | cleanup => trivial
      | heartbeat =>
          exact fun _ hnone => .blank ⟨t, node, s, _, htaken, hs, rfl, hnone, Or.inl rfl⟩
      | _ => trivial
  | listening node port =>
      rintro s hs address ⟨peer, hregistered, hid, haddress, hport⟩
      have hnone : peer.port = 0 := hport.elim id And.left
      exact ⟨peer, hregistered, hid, haddress, Or.inr ⟨hnone, t, node, s, htaken, hs, rfl⟩⟩
  | deliver node message => trivial

theorem vouched_of_run (hfresh : net.Fresh) (hnarrow : EveryStep step Narrow net events)
    (hrun : runSteps step net events = some net') : net'.Vouched (testimony net events) :=
  runSteps_invariant_taken
    (fun _ _ _ h htaken hstep =>
      vouched_step h (sourced_testimony htaken) (hnarrow.of_taken htaken) hstep)
    (hfresh.vouched _) hrun

/-! ## What the nodes know -/

/-- Every location was announced, either way round; every record has a contact of
its node, and chunks that were announced or given. -/
theorem known_of_run (hfresh : net.Fresh) (hnarrow : EveryStep step Narrow net events)
    (hrun : runSteps step net events = some net') {s : GossipService} (hs : s ∈ net'.nodes) :
    (∀ chunk nodeId, s.discovery.Locates chunk nodeId →
      Announced net events nodeId chunk ∨ Announced net events chunk nodeId) ∧
    ∀ nodeId peer, s.discovery.peers.lookup nodeId = some peer →
      Introduced net events nodeId peer.contact ∧
      ∀ chunk ∈ peer.availableChunks,
        (Announced net events nodeId chunk ∨ Announced net events chunk nodeId) ∨
          ∃ given, Given net events given ∧ given.nodeId = nodeId ∧
            chunk ∈ given.availableChunks := by
  have hvouched := (vouched_of_run hfresh hnarrow hrun).nodes s hs
  refine ⟨fun chunk nodeId hmem => (hvouched.located chunk nodeId hmem).symm,
    fun nodeId peer hpeer => ?_⟩
  have haccept := hvouched.accepted nodeId peer hpeer
  exact ⟨haccept.contact, haccept.holds⟩

theorem exists_of_mem_getPeersWithChunk {s : NodeDiscovery} {chunk : Bytes} {peer : PeerNode}
    (h : peer ∈ (s.getPeersWithChunk chunk).1) :
    ∃ nodeId, s.Locates chunk nodeId ∧ s.peers.lookup nodeId = some peer := by
  unfold NodeDiscovery.getPeersWithChunk at h
  cases hlocations : s.chunkLocations.lookup chunk with
  | none =>
      rw [hlocations] at h
      cases h
  | some locations =>
      rw [hlocations] at h
      obtain ⟨entry, hentry, rfl⟩ := List.mem_map.mp h
      have hknown := (NodeDiscovery.filterActive_sublist true _ s).subset hentry
      obtain ⟨nodeId, hlocated, hpeer⟩ := List.mem_filterMap.mp hknown
      obtain ⟨known, hlookup, rfl⟩ := Option.map_eq_some_iff.mp hpeer
      refine ⟨nodeId, ?_, hlookup⟩
      rw [NodeDiscovery.Locates, MemAt, hlocations]
      exact hlocated

/-- A node asks for a chunk, under an id that no announcing node has: each peer
that it is given is its record of a node that has announced the chunk. -/
theorem announced_of_getPeersWithChunk (hfresh : net.Fresh)
    (hnarrow : EveryStep step Narrow net events) (hrun : runSteps step net events = some net')
    {s : GossipService} (hs : s ∈ net'.nodes) {chunk : Bytes}
    (hchunk : ∀ other, ¬ Announced net events chunk other) {peer : PeerNode}
    (hpeer : peer ∈ (s.discovery.getPeersWithChunk chunk).1) :
    ∃ nodeId, Announced net events nodeId chunk ∧
      s.discovery.peers.lookup nodeId = some peer ∧
      Introduced net events nodeId peer.contact := by
  have hvouched := (vouched_of_run hfresh hnarrow hrun).nodes s hs
  obtain ⟨nodeId, hlocated, hlookup⟩ := exists_of_mem_getPeersWithChunk hpeer
  refine ⟨nodeId, ?_, hlookup, (hvouched.accepted nodeId peer hlookup).contact⟩
  exact (hvouched.located chunk nodeId hlocated).resolve_left (hchunk nodeId)

/-! ## Two nodes -/

def freshNode : GossipService where
  discovery := .new 50 (fun _ => 1700000000000) (fun _ => 0) fun _ => .id

def twoNodes : GossipNetwork where
  nodes := [freshNode, freshNode]

def nodeA : PeerNode where
  nodeId := ascii "A"
  address := ascii "10.0.0.1"
  port := 9000
  lastSeen := 1700000000

def nodeB : PeerNode where
  nodeId := ascii "B"
  address := ascii "10.0.0.2"
  port := 9000
  lastSeen := 1700000000

def announcedToB : List Event :=
  [.act 0 (.call (.register (0, 0) nodeA)), .act 1 (.call (.register (0, 0) nodeB)),
    .act 0 (.call (.addPeer nodeB)), .act 1 (.call (.addPeer nodeA)),
    .act 0 (.call (.announce (ascii "c"))), .deliver 1 0]

theorem twoNodes_fresh : twoNodes.Fresh := by
  refine ⟨fun s hs => ?_, rfl⟩
  simp only [twoNodes, List.mem_cons, List.not_mem_nil, or_false, or_self] at hs
  subst hs
  exact ⟨rfl, rfl, rfl⟩

theorem announcedToB_narrow : EveryStep step Narrow twoNodes announcedToB := by decide +kernel

theorem announcedToB_listed :
    (runSteps step twoNodes announcedToB).map (fun net => net.nodes.map fun s =>
      (s.discovery.getPeersWithChunk (ascii "c")).1.map PeerNode.address) =
      some [[ascii "10.0.0.1"], [ascii "10.0.0.1"]] := by decide +kernel

def AnnouncesUnder (nodeId : Bytes) (net : GossipNetwork) : Event → Prop
  | .act node (.call (.announce _)) =>
      ∀ s ∈ net.nodes[node]?, s.discovery.localNodeId = nodeId
  | _ => True

instance (nodeId : Bytes) (net : GossipNetwork) :
    ∀ event, Decidable (AnnouncesUnder nodeId net event)
  | .act node (.call (.announce _)) =>
      inferInstanceAs (Decidable (∀ s ∈ net.nodes[node]?, s.discovery.localNodeId = nodeId))
  | .act _ (.call (.register _ _)) | .act _ (.call .unregister) | .act _ (.call (.addPeer _))
  | .act _ (.call (.removePeer _)) | .act _ (.call (.removeAnnouncement _))
  | .act _ (.call .cleanup) | .act _ (.call (.gossip _)) | .act _ .getAllPeers
  | .act _ (.getPeersWithChunk _) | .act _ (.measured _ _ _) | .act _ .start | .act _ .stop
  | .act _ .startGossip | .act _ .stopGossip | .act _ .tick | .act _ (.send _)
  | .act _ (.sent _ _) | .act _ (.tickEnd _) | .act _ .heartbeat | .listening _ _
  | .deliver _ _ => inferInstanceAs (Decidable True)

theorem announcedToB_announcer {nodeId chunk : Bytes}
    (h : Announced twoNodes announcedToB nodeId chunk) : nodeId = ascii "A" := by
  have hunder : EveryStep step (AnnouncesUnder (ascii "A")) twoNodes announcedToB := by
    decide +kernel
  obtain ⟨-, t, node, s, htaken, hs, rfl⟩ := h
  exact hunder.of_taken htaken s hs

theorem announced_of_getPeersWithChunk_B :
    ∃ net' s, ∃ peer ∈ (s.discovery.getPeersWithChunk (ascii "c")).1,
      runSteps step twoNodes announcedToB = some net' ∧ s ∈ net'.nodes ∧
      ∃ nodeId, Announced twoNodes announcedToB nodeId (ascii "c") ∧
        s.discovery.peers.lookup nodeId = some peer ∧
        Introduced twoNodes announcedToB nodeId peer.contact := by
  obtain ⟨net', hrun, hlisted⟩ := Option.map_eq_some_iff.mp announcedToB_listed
  obtain ⟨s, hs, hpeers⟩ : ∃ s ∈ net'.nodes,
      (s.discovery.getPeersWithChunk (ascii "c")).1.map PeerNode.address =
        [ascii "10.0.0.1"] := by
    have hmem := List.mem_map.mp (hlisted ▸ List.mem_cons_self)
    exact hmem
  obtain ⟨peer, hpeer, -⟩ := List.mem_map.mp (hpeers ▸ List.mem_singleton.mpr rfl)
  refine ⟨net', s, peer, hpeer, hrun, hs, ?_⟩
  refine announced_of_getPeersWithChunk twoNodes_fresh announcedToB_narrow hrun hs ?_ hpeer
  intro other hannounced
  exact absurd (announcedToB_announcer hannounced) (by decide)

theorem known_of_run_B :
    ∃ net', runSteps step twoNodes announcedToB = some net' ∧ ∀ s ∈ net'.nodes,
      (∀ chunk nodeId, s.discovery.Locates chunk nodeId →
        Announced twoNodes announcedToB nodeId chunk ∨
          Announced twoNodes announcedToB chunk nodeId) ∧
      ∀ nodeId peer, s.discovery.peers.lookup nodeId = some peer →
        Introduced twoNodes announcedToB nodeId peer.contact ∧
        ∀ chunk ∈ peer.availableChunks,
          (Announced twoNodes announcedToB nodeId chunk ∨
            Announced twoNodes announcedToB chunk nodeId) ∨
            ∃ given, Given twoNodes announcedToB given ∧ given.nodeId = nodeId ∧
              chunk ∈ given.availableChunks := by
  obtain ⟨net', hrun, -⟩ := Option.map_eq_some_iff.mp announcedToB_listed
  exact ⟨net', hrun, fun s hs => known_of_run twoNodes_fresh announcedToB_narrow hrun hs⟩

end GossipNetwork

end ElioP2P.P2P
