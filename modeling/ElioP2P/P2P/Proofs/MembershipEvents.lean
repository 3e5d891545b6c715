import ElioP2P.Library.Histories
import ElioP2P.P2P.Proofs.Staleness

/-!
# What the callbacks tell about the peer table

`on_node_discovered` and `on_node_lost` together should let a listener follow
the peer table.  `add_peer`, `remove_peer` and a leave keep to that; the clean-up
drops peers without a word, and a join or a state sync announces a new peer under
the node id in its record, which need not be the one under which it is listed.
-/

namespace ElioP2P.P2P

open ElioP2P.Library

def MembershipEvent.news : MembershipEvent → Bytes × Bool
  | .discovered peer => (peer.nodeId, true)
  | .lost nodeId => (nodeId, false)

namespace NodeDiscovery

def newsOf (nodeId : Bytes) (news : List (Bytes × Bool)) : List Bool :=
  news.filterMap fun entry => if entry.1 = nodeId then some entry.2 else none

def history (s : NodeDiscovery) (nodeId : Bytes) : List Bool :=
  newsOf nodeId (s.events.map MembershipEvent.news)

/-- For every remote node the events alternate, and the last one says whether it
is in the table. -/
def MirrorsPeers (s : NodeDiscovery) : Prop :=
  ∀ nodeId, nodeId ≠ s.localNodeId → Mirrors (s.history nodeId) (nodeId ∈ s.peers)

def Listened (s : NodeDiscovery) : Prop :=
  s.onNodeDiscovered = true ∧ s.onNodeLost = true

/-! ## Steps -/

structure Tells (news : List (Bytes × Bool)) (s s' : NodeDiscovery) : Prop where
  localNodeId : s'.localNodeId = s.localNodeId
  onNodeDiscovered : s'.onNodeDiscovered = s.onNodeDiscovered
  onNodeLost : s'.onNodeLost = s.onNodeLost
  events : s'.events.map MembershipEvent.news = s.events.map MembershipEvent.news ++ news

namespace Tells

variable {news more : List (Bytes × Bool)} {s t u : NodeDiscovery}

theorem quiet (hlocal : t.localNodeId = s.localNodeId)
    (hdiscovered : t.onNodeDiscovered = s.onNodeDiscovered)
    (hlost : t.onNodeLost = s.onNodeLost) (hevents : t.events = s.events) : Tells [] s t :=
  ⟨hlocal, hdiscovered, hlost, by rw [hevents, List.append_nil]⟩

theorem trans (hst : Tells news s t) (htu : Tells more t u) : Tells (news ++ more) s u :=
  ⟨htu.localNodeId.trans hst.localNodeId, htu.onNodeDiscovered.trans hst.onNodeDiscovered,
    htu.onNodeLost.trans hst.onNodeLost, by
      rw [htu.events, hst.events, List.append_assoc]⟩

theorem listened (h : Tells news s t) (hs : s.Listened) : t.Listened :=
  ⟨h.onNodeDiscovered.trans hs.1, h.onNodeLost.trans hs.2⟩

theorem history (h : Tells news s t) (nodeId : Bytes) :
    t.history nodeId = s.history nodeId ++ newsOf nodeId news := by
  rw [NodeDiscovery.history, h.events]
  exact List.filterMap_append

theorem foldl_quiet {ι : Type*} {f : NodeDiscovery → ι → NodeDiscovery}
    (hf : ∀ s item, Tells [] s (f s item)) (s : NodeDiscovery) (items : List ι) :
    Tells [] s (items.foldl f s) := by
  induction items generalizing s with
  | nil => exact quiet rfl rfl rfl rfl
  | cons item items ih => exact (hf s item).trans (ih _)

end Tells

theorem tells_filterActive (wanted : Bool) (entries : List (Sigma fun _ : Bytes => PeerNode))
    (s : NodeDiscovery) : Tells [] s (filterActive wanted entries s).2 := by
  induction entries generalizing s with
  | nil => exact Tells.quiet rfl rfl rfl rfl
  | cons entry entries ih =>
      have hread : Tells [] s (s.isActive entry.2).2 := Tells.quiet rfl rfl rfl rfl
      exact hread.trans (ih _)

theorem tells_cleanupStalePeers (s : NodeDiscovery) : Tells [] s s.cleanupStalePeers := by
  have hforget := Tells.foldl_quiet
    (f := fun s (entry : Sigma fun _ : Bytes => PeerNode) => s.forgetPeer entry.1)
    (fun _ _ => Tells.quiet rfl rfl rfl rfl)
  exact (tells_filterActive false s.peers.entries s).trans (hforget _ _)

theorem tells_updatePeer (s : NodeDiscovery) (nodeId : Bytes) (f : PeerNode → PeerNode) :
    Tells [] s (s.updatePeer nodeId f) := by
  unfold updatePeer
  split <;> exact Tells.quiet rfl rfl rfl rfl

theorem tells_markMessageSeen (s : NodeDiscovery) (msg : GossipMessage) :
    Tells [] s (s.markMessageSeen msg) := by
  unfold markMessageSeen
  simp only
  split <;> exact Tells.quiet rfl rfl rfl rfl

theorem tells_chunkPass (index : (Sigma fun _ : Bytes => HashSet Bytes) → NodeDiscovery →
      AList fun _ : Bytes => HashSet Bytes) (record : HashSet Bytes → PeerNode → PeerNode)
    (entries : List (Sigma fun _ : Bytes => HashSet Bytes)) (s : NodeDiscovery) :
    Tells [] s (chunkPass index record entries s) := by
  refine Tells.foldl_quiet (fun s entry => ?_) s entries
  split
  · exact Tells.quiet rfl rfl rfl rfl
  · have hindex : Tells [] s { s with chunkLocations := index entry s } :=
      Tells.quiet rfl rfl rfl rfl
    exact hindex.trans (tells_updatePeer _ _ _)

theorem tells_mergeLocations (s : NodeDiscovery)
    (chunkMap : AList fun _ : Bytes => HashSet Bytes) : Tells [] s (s.mergeLocations chunkMap) := by
  refine Tells.foldl_quiet (fun s entry => ?_) s chunkMap.entries
  split <;> exact Tells.quiet rfl rfl rfl rfl

structure KeepsMirror (P : Prop) (s s' : NodeDiscovery) : Prop where
  tells : s.Listened → ∃ news, Tells news s s'
  mirrors_iff : s.Listened → s.MirrorsPeers → (P ↔ s'.MirrorsPeers)

structure Still (s s' : NodeDiscovery) : Prop where
  tells : Tells [] s s'
  mem_iff : ∀ nodeId, nodeId ≠ s.localNodeId → (nodeId ∈ s'.peers ↔ nodeId ∈ s.peers)

namespace Still

variable {s t u : NodeDiscovery} {P : Prop}

theorem of_isSome (htells : Tells [] s t)
    (h : ∀ nodeId, (t.peers.lookup nodeId).isSome = (s.peers.lookup nodeId).isSome) :
    Still s t := by
  refine ⟨htells, fun nodeId _ => ?_⟩
  rw [← AList.lookup_isSome, ← AList.lookup_isSome, h]

theorem of_peers (htells : Tells [] s t) (h : t.peers = s.peers) : Still s t :=
  of_isSome htells fun nodeId => by rw [h]

theorem mirrorsPeers_iff (h : Still s t) : t.MirrorsPeers ↔ s.MirrorsPeers := by
  unfold MirrorsPeers
  rw [h.tells.localNodeId]
  refine forall₂_congr fun nodeId hremote => ?_
  have hhistory : t.history nodeId = s.history nodeId :=
    (h.tells.history nodeId).trans (List.append_nil _)
  rw [hhistory, h.mem_iff nodeId hremote]

theorem keepsMirror (h : Still s t) : KeepsMirror True s t :=
  ⟨fun _ => ⟨_, h.tells⟩, fun _ hs => iff_of_true trivial (h.mirrorsPeers_iff.mpr hs)⟩

theorem then_keeps (hst : Still s t) (htu : KeepsMirror P t u) : KeepsMirror P s u := by
  refine ⟨fun hlistened => ?_, fun hlistened hs => ?_⟩
  · obtain ⟨news, htells⟩ := htu.tells (hst.tells.listened hlistened)
    exact ⟨_, hst.tells.trans htells⟩
  · exact htu.mirrors_iff (hst.tells.listened hlistened) (hst.mirrorsPeers_iff.mpr hs)

end Still

theorem KeepsMirror.then_still {s t u : NodeDiscovery} {P : Prop} (hst : KeepsMirror P s t)
    (htu : Still t u) : KeepsMirror P s u := by
  refine ⟨fun hlistened => ?_, fun hlistened hs => ?_⟩
  · obtain ⟨news, htells⟩ := hst.tells hlistened
    exact ⟨_, htells.trans htu.tells⟩
  · exact (hst.mirrors_iff hlistened hs).trans htu.mirrorsPeers_iff.symm

/-! ## Forgetting peers -/

def NoneStale (s : NodeDiscovery) : Prop :=
  ∀ nodeId peer, nodeId ≠ s.localNodeId → s.peers.lookup nodeId = some peer →
    s.readingFor nodeId - peer.lastSeen < 300

/-- Peers that are dropped without a word must not have been listed. -/
theorem mirrorsPeers_iff_of_forgets {s s' : NodeDiscovery} {gone : List Bytes}
    (htells : Tells [] s s') (hforgets : Forgets gone s s') (hs : s.MirrorsPeers) :
    s'.MirrorsPeers ↔ ∀ nodeId, nodeId ≠ s.localNodeId → nodeId ∈ s.peers → nodeId ∉ gone := by
  unfold MirrorsPeers
  rw [htells.localNodeId]
  refine forall₂_congr fun nodeId hremote => ?_
  have hhistory : s'.history nodeId = s.history nodeId :=
    (htells.history nodeId).trans (List.append_nil _)
  rw [hhistory, (hs nodeId hremote).silent_iff, ← AList.lookup_isSome, ← AList.lookup_isSome,
    hforgets.peers]
  by_cases hgone : nodeId ∈ gone
  · simp [hgone]
  · simp [hgone]

theorem mem_filterActive_iff {wanted : Bool} {entries : List (Sigma fun _ : Bytes => PeerNode)}
    {s : NodeDiscovery} {entry : Sigma fun _ : Bytes => PeerNode} :
    entry ∈ (filterActive wanted entries s).1 ↔ ∃ i, entries[i]? = some entry ∧
      decide (UInt64.ofNat (s.clock (s.ticks + i) / 1000) - entry.2.lastSeen < 300) = wanted := by
  constructor
  · intro hentry
    induction entries generalizing s with
    | nil => cases hentry
    | cons first entries ih =>
        have hcases : entry = first ∧ (s.isActive first.2).1 = wanted ∨
            entry ∈ (filterActive wanted entries (s.isActive first.2).2).1 := by
          simp only [filterActive] at hentry
          split at hentry
          · rename_i hwanted
            rcases List.mem_cons.mp hentry with hfirst | hrest
            · exact .inl ⟨hfirst, hwanted⟩
            · exact .inr hrest
          · exact .inr hentry
        rcases hcases with ⟨rfl, hwanted⟩ | hrest
        · exact ⟨0, rfl, hwanted⟩
        · obtain ⟨i, hi, hwanted⟩ := ih hrest
          refine ⟨i + 1, hi, ?_⟩
          rw [Nat.add_comm i 1, ← Nat.add_assoc]
          exact hwanted
  · rintro ⟨i, hi, hwanted⟩
    exact mem_filterActive hi hwanted

theorem mem_stale_iff (s : NodeDiscovery) (nodeId : Bytes) :
    nodeId ∈ (filterActive false s.peers.entries s).1.map Sigma.fst ↔
      ∃ peer, s.peers.lookup nodeId = some peer ∧
        ¬ s.readingFor nodeId - peer.lastSeen < 300 := by
  constructor
  · intro hmem
    obtain ⟨⟨key, peer⟩, hentry, rfl⟩ := List.mem_map.mp hmem
    obtain ⟨i, hi, hstale⟩ := mem_filterActive_iff.mp hentry
    have hpeer : s.peers.lookup key = some peer :=
      AList.mem_lookup_iff.mpr (List.mem_of_getElem? hi)
    refine ⟨peer, hpeer, ?_⟩
    have hfound := getElem?_findIdx_keys hpeer
    have hlt : i < s.peers.entries.length := (List.getElem?_eq_some_iff.mp hi).1
    have hindex := (List.getElem?_inj hlt (List.NodupKeys.nodup s.peers.nodupKeys)).mp
      (hi.trans hfound.symm)
    rw [hindex] at hstale
    exact of_decide_eq_false hstale
  · rintro ⟨peer, hpeer, hstale⟩
    have hentry := mem_filterActive (getElem?_findIdx_keys hpeer) (decide_eq_false hstale)
    exact List.mem_map_of_mem (f := Sigma.fst) hentry

theorem keepsMirror_cleanupStalePeers (s : NodeDiscovery) :
    KeepsMirror s.NoneStale s s.cleanupStalePeers := by
  refine ⟨fun _ => ⟨_, tells_cleanupStalePeers s⟩, fun _ hs => ?_⟩
  rw [mirrorsPeers_iff_of_forgets (tells_cleanupStalePeers s) (forgets_cleanupStalePeers s) hs]
  simp only [mem_stale_iff, not_exists, not_and, not_not]
  constructor
  · intro hfresh nodeId hremote _ peer hpeer
    exact hfresh nodeId peer hremote hpeer
  · intro hkept nodeId peer hremote hpeer
    have hmem : nodeId ∈ s.peers := AList.lookup_isSome.mp (by rw [hpeer]; rfl)
    exact hkept nodeId hremote hmem peer hpeer

theorem keepsMirror_getAllPeers (s : NodeDiscovery) :
    KeepsMirror s.NoneStale s s.getAllPeers.2 := by
  have hactive := tells_filterActive true s.cleanupStalePeers.peers.entries s.cleanupStalePeers
  exact (keepsMirror_cleanupStalePeers s).then_still
    (Still.of_peers hactive (sameTables_filterActive true _ _).peers)

/-! ## One peer -/

theorem tells_notifyDiscovered {s : NodeDiscovery} (hs : s.Listened) (isNew : Bool)
    (peer : PeerNode) :
    Tells (if isNew then [(peer.nodeId, true)] else []) s (s.notifyDiscovered isNew peer) := by
  cases isNew with
  | false => exact Tells.quiet rfl rfl rfl rfl
  | true =>
      have htold : s.notifyDiscovered true peer =
          { s with events := s.events ++ [.discovered peer] } := by
        rw [notifyDiscovered, hs.1]
        rfl
      rw [htold]
      exact ⟨rfl, rfl, rfl, List.map_append⟩

theorem tells_notifyLost {s : NodeDiscovery} (hs : s.Listened) (nodeId : Bytes) :
    Tells [(nodeId, false)] s (s.notifyLost nodeId) := by
  have htold : s.notifyLost nodeId = { s with events := s.events ++ [.lost nodeId] } := by
    rw [notifyLost, if_pos hs.2]
  rw [htold]
  exact ⟨rfl, rfl, rfl, List.map_append⟩

theorem tells_addPeer {s : NodeDiscovery} (hs : s.Listened) (peer : PeerNode) :
    Tells (if (s.peers.lookup peer.nodeId).isNone then [(peer.nodeId, true)] else []) s
      (s.addPeer peer) := by
  have hinserted : Tells [] s { s with peers := s.peers.insert peer.nodeId peer } :=
    Tells.quiet rfl rfl rfl rfl
  exact hinserted.trans (tells_notifyDiscovered (hinserted.listened hs) _ peer)

theorem keepsMirror_addPeer (s : NodeDiscovery) (peer : PeerNode) :
    KeepsMirror True s (s.addPeer peer) := by
  refine ⟨fun hlistened => ⟨_, tells_addPeer hlistened peer⟩, fun hlistened hs =>
    iff_of_true trivial fun nodeId hremote => ?_⟩
  have htells := tells_addPeer hlistened peer
  rw [htells.localNodeId] at hremote
  have hmem : nodeId ∈ (s.addPeer peer).peers ↔ nodeId = peer.nodeId ∨ nodeId ∈ s.peers := by
    rw [addPeer, (sameTables_notifyDiscovered _ _ _).peers]
    exact AList.mem_insert s.peers
  rw [htells.history, hmem]
  have hold := hs nodeId hremote
  by_cases hknown : peer.nodeId ∈ s.peers
  · have hfound : (s.peers.lookup peer.nodeId).isNone = false := by
      rw [← AList.lookup_isSome] at hknown
      rw [← Option.not_isSome, hknown]
      rfl
    rw [hfound, if_neg Bool.false_ne_true, newsOf, List.filterMap_nil, List.append_nil,
      hold.silent_iff]
    constructor
    · rintro (rfl | hmem)
      · exact hknown
      · exact hmem
    · exact .inr
  · have hnew : (s.peers.lookup peer.nodeId).isNone = true := by
      rw [← AList.lookup_isSome] at hknown
      simpa using hknown
    rw [hnew, if_pos rfl]
    by_cases hnode : nodeId = peer.nodeId
    · subst hnode
      simp only [newsOf, List.filterMap_cons, if_true, List.filterMap_nil]
      exact hold.appears_iff.mpr ⟨hknown, .inl trivial⟩
    · simp only [newsOf, List.filterMap_cons, if_neg (Ne.symm hnode), List.filterMap_nil,
        List.append_nil]
      exact hold.silent_iff.mpr (or_iff_right hnode)

theorem tells_removePeer {s : NodeDiscovery} (hs : s.Listened) (nodeId : Bytes) :
    Tells (if (s.peers.lookup nodeId).isSome then [(nodeId, false)] else []) s
      (s.removePeer nodeId) := by
  unfold removePeer
  split
  · have hforgot : Tells [] s (s.forgetPeer nodeId) := Tells.quiet rfl rfl rfl rfl
    exact hforgot.trans (tells_notifyLost (hforgot.listened hs) nodeId)
  · exact Tells.quiet rfl rfl rfl rfl

theorem keepsMirror_removePeer (s : NodeDiscovery) (nodeId : Bytes) :
    KeepsMirror True s (s.removePeer nodeId) := by
  refine ⟨fun hlistened => ⟨_, tells_removePeer hlistened nodeId⟩, fun hlistened hs =>
    iff_of_true trivial fun k hremote => ?_⟩
  have htells := tells_removePeer hlistened nodeId
  rw [htells.localNodeId] at hremote
  rw [htells.history, ← AList.lookup_isSome, (forgets_removePeer s nodeId).peers]
  have hold := hs k hremote
  by_cases hknown : (s.peers.lookup nodeId).isSome = true
  · rw [if_pos hknown, if_pos hknown]
    by_cases hnode : nodeId = k
    · subst hnode
      simp only [newsOf, List.filterMap_cons, if_true, List.filterMap_nil]
      exact hold.goes_iff.mpr ⟨AList.lookup_isSome.mp hknown, by simp⟩
    · simp only [newsOf, List.filterMap_cons, if_neg hnode, List.filterMap_nil, List.append_nil]
      rw [if_neg fun hmem => hnode (List.mem_singleton.mp hmem).symm, AList.lookup_isSome]
      exact hold
  · rw [if_neg hknown, if_neg hknown]
    simpa [newsOf, AList.lookup_isSome] using hold

/-! ## Records of a message -/

def newcomers (s : NodeDiscovery) (entries : List (Sigma fun _ : Bytes => PeerNode)) :
    List (Sigma fun _ : Bytes => PeerNode) :=
  entries.filter fun entry => entry.1 ≠ s.localNodeId ∧ (s.peers.lookup entry.1).isNone

def NamedAsListed (s : NodeDiscovery) (entries : List (Sigma fun _ : Bytes => PeerNode)) : Prop :=
  ((s.newcomers entries).map fun entry => entry.2.nodeId).Perm (s.newcomers entries).keys

theorem tells_mergePeer {s : NodeDiscovery} (hs : s.Listened) (stamp : Bool) (peerId : Bytes)
    (peer : PeerNode) :
    Tells (if peerId ≠ s.localNodeId ∧ (s.peers.lookup peerId).isNone then [(peer.nodeId, true)]
      else []) s (s.mergePeer stamp peerId peer) := by
  by_cases hlocal : peerId = s.localNodeId
  · rw [mergePeer, if_pos hlocal, if_neg fun h => h.1 hlocal]
    exact Tells.quiet rfl rfl rfl rfl
  · rw [mergePeer, if_neg hlocal]
    simp only [ne_eq, hlocal, not_false_eq_true, true_and]
    cases stamp with
    | true =>
        have hinserted : Tells [] s { s.currentSeconds.2 with
            peers := s.peers.insert peerId { peer with lastSeen := s.currentSeconds.1 } } :=
          Tells.quiet rfl rfl rfl rfl
        exact hinserted.trans (tells_notifyDiscovered (hinserted.listened hs) _
          { peer with lastSeen := s.currentSeconds.1 })
    | false =>
        have hinserted : Tells [] s { s with peers := s.peers.insert peerId peer } :=
          Tells.quiet rfl rfl rfl rfl
        exact hinserted.trans (tells_notifyDiscovered (hinserted.listened hs) _ peer)

/-- Every newcomer is told once, since a message lists no node twice. -/
theorem tells_mergePeers {entries : List (Sigma fun _ : Bytes => PeerNode)}
    (hnodup : entries.NodupKeys) {s : NodeDiscovery} (hs : s.Listened) (stamp : Bool) :
    Tells ((s.newcomers entries).map fun entry => (entry.2.nodeId, true)) s
      (entries.foldl (fun s entry => s.mergePeer stamp entry.1 entry.2) s) := by
  induction entries generalizing s with
  | nil => exact Tells.quiet rfl rfl rfl rfl
  | cons entry entries ih =>
      obtain ⟨key, peer⟩ := entry
      obtain ⟨hfresh, hrest⟩ := List.nodupKeys_cons.mp hnodup
      have hfirst := tells_mergePeer hs stamp key peer
      have htold := hfirst.trans (ih hrest (hfirst.listened hs))
      have hsame : (s.mergePeer stamp key peer).newcomers entries = s.newcomers entries := by
        refine List.filter_congr fun entry hentry => ?_
        obtain ⟨seen, hlookup⟩ := lookup_mergePeer stamp s key peer
        have hlisted : entry.1 ∈ entries.keys := List.mem_map_of_mem hentry
        have hne : entry.1 ≠ key := fun heq => hfresh (heq ▸ hlisted)
        rw [hlookup, if_neg fun h => hne h.2, hfirst.localNodeId]
      rw [hsame] at htold
      have hnews : (s.newcomers (⟨key, peer⟩ :: entries)).map
            (fun entry => (entry.2.nodeId, true)) =
          (if key ≠ s.localNodeId ∧ (s.peers.lookup key).isNone then [(peer.nodeId, true)]
            else []) ++ (s.newcomers entries).map fun entry => (entry.2.nodeId, true) := by
        rw [newcomers, List.filter_cons]
        simp only [decide_eq_true_eq]
        split <;> rfl
      rw [hnews]
      exact htold

theorem newsOf_map_true (nodeId : Bytes) (entries : List (Sigma fun _ : Bytes => PeerNode)) :
    newsOf nodeId (entries.map fun entry => (entry.2.nodeId, true)) =
      List.replicate ((entries.map fun entry => entry.2.nodeId).count nodeId) true := by
  induction entries with
  | nil => rfl
  | cons entry entries ih =>
      rw [newsOf] at ih
      simp only [newsOf, List.map_cons, List.filterMap_cons, List.count_cons, beq_iff_eq]
      by_cases hnode : entry.2.nodeId = nodeId
      · rw [if_pos hnode, if_pos hnode, List.replicate_succ, ih]
      · rw [if_neg hnode, if_neg hnode, ih]
        rfl

/-- Two lists of the same length with equal counts of everything but `a`, which
is not in the second, have equal counts of `a` too. -/
theorem perm_of_count_ne {α : Type*} [BEq α] [LawfulBEq α] {xs ys : List α} {a : α}
    (hlength : xs.length = ys.length) (ha : a ∉ ys)
    (hcount : ∀ b, b ≠ a → xs.count b = ys.count b) : xs.Perm ys := by
  have hkept : (xs.filter fun b => b != a).Perm ys := by
    refine List.perm_iff_count.mpr fun b => ?_
    by_cases hb : b = a
    · subst hb
      rw [List.count_eq_zero.mpr ha, List.count_eq_zero]
      simp
    · rw [List.count_filter (by simpa using hb), hcount b hb]
  have hall : xs.filter (fun b => b != a) = xs :=
    List.filter_eq_self.mpr (List.length_filter_eq_length_iff.mp
      (hkept.length_eq.trans hlength.symm))
  rwa [hall] at hkept

theorem mem_mergePeers_iff {entries : List (Sigma fun _ : Bytes => PeerNode)}
    (hnodup : entries.NodupKeys) (s : NodeDiscovery) (stamp : Bool) {nodeId : Bytes}
    (hremote : nodeId ≠ s.localNodeId) :
    nodeId ∈ (entries.foldl (fun s entry => s.mergePeer stamp entry.1 entry.2) s).peers ↔
      nodeId ∈ (s.newcomers entries).keys ∨ nodeId ∈ s.peers := by
  obtain ⟨seen, hlookup⟩ := lookup_mergePeers stamp hnodup s nodeId
  rw [← AList.lookup_isSome, hlookup, if_neg hremote, ← AList.lookup_isSome]
  have hnew : nodeId ∈ (s.newcomers entries).keys ↔
      (entries.dlookup nodeId).isSome = true ∧ (s.peers.lookup nodeId).isNone = true := by
    rw [List.dlookup_isSome, newcomers]
    simp only [List.keys, List.mem_map, List.mem_filter, decide_eq_true_eq]
    constructor
    · rintro ⟨entry, ⟨hentry, -, hnone⟩, rfl⟩
      exact ⟨⟨entry, hentry, rfl⟩, hnone⟩
    · rintro ⟨⟨entry, hentry, rfl⟩, hnone⟩
      exact ⟨entry, ⟨hentry, hremote, hnone⟩, rfl⟩
  rw [hnew]
  cases entries.dlookup nodeId <;> cases s.peers.lookup nodeId <;> simp

theorem keepsMirror_mergePeers {entries : List (Sigma fun _ : Bytes => PeerNode)}
    (hnodup : entries.NodupKeys) (s : NodeDiscovery) (stamp : Bool) :
    KeepsMirror (s.NamedAsListed entries) s
      (entries.foldl (fun s entry => s.mergePeer stamp entry.1 entry.2) s) := by
  refine ⟨fun hlistened => ⟨_, tells_mergePeers hnodup hlistened stamp⟩, fun hlistened hs => ?_⟩
  have htells := tells_mergePeers hnodup hlistened stamp
  have hkeys : (s.newcomers entries).keys.Nodup :=
    List.Nodup.sublist (List.filter_sublist.map Sigma.fst) hnodup
  have hlocal : s.localNodeId ∉ (s.newcomers entries).keys := by
    intro hmem
    obtain ⟨entry, hentry, heq⟩ := List.mem_map.mp hmem
    have hkept := of_decide_eq_true (List.mem_filter.mp hentry).2
    exact hkept.1 heq
  have hnode : ∀ nodeId, nodeId ≠ s.localNodeId →
      (Mirrors ((entries.foldl (fun s entry => s.mergePeer stamp entry.1 entry.2) s).history nodeId)
          (nodeId ∈ (entries.foldl (fun s entry => s.mergePeer stamp entry.1 entry.2) s).peers) ↔
        ((s.newcomers entries).map fun entry => entry.2.nodeId).count nodeId =
          (s.newcomers entries).keys.count nodeId) := by
    intro nodeId hremote
    rw [htells.history, newsOf_map_true, (hs nodeId hremote).appear_times_iff,
      mem_mergePeers_iff hnodup s stamp hremote]
    by_cases hnew : nodeId ∈ (s.newcomers entries).keys
    · have hunknown : nodeId ∉ s.peers := by
        obtain ⟨entry, hentry, rfl⟩ := List.mem_map.mp hnew
        have hkept := of_decide_eq_true (List.mem_filter.mp hentry).2
        rw [← AList.lookup_isSome]
        simpa using hkept.2
      rw [List.count_eq_one_of_mem hkeys hnew]
      simp [hnew, hunknown]
    · rw [List.count_eq_zero.mpr hnew]
      simp [hnew]
  constructor
  · intro hperm nodeId hremote
    rw [htells.localNodeId] at hremote
    exact (hnode nodeId hremote).mpr (List.perm_iff_count.mp hperm nodeId)
  · intro hmirrors
    apply perm_of_count_ne (by simp [List.keys]) hlocal
    intro nodeId hremote
    have hremote' := hremote
    rw [← htells.localNodeId] at hremote'
    exact (hnode nodeId hremote).mp (hmirrors nodeId hremote')

theorem still_chunkPass {index : (Sigma fun _ : Bytes => HashSet Bytes) → NodeDiscovery →
      AList fun _ : Bytes => HashSet Bytes} {record : HashSet Bytes → PeerNode → PeerNode}
    (chunkMap : AList fun _ : Bytes => HashSet Bytes) (s : NodeDiscovery) :
    Still s (chunkPass index record chunkMap.entries s) := by
  refine Still.of_isSome (tells_chunkPass _ _ _ s) fun nodeId => ?_
  rw [lookup_chunkPass chunkMap.nodupKeys]
  split
  · rfl
  · exact Option.isSome_map

theorem still_handleChunkAnnounce (s : NodeDiscovery) (msg : GossipMessage) :
    Still s (s.handleChunkAnnounce msg) := by
  rw [handleChunkAnnounce_eq]
  exact still_chunkPass msg.chunkMap s

theorem still_handleChunkRemove (s : NodeDiscovery) (msg : GossipMessage) :
    Still s (s.handleChunkRemove msg) := by
  rw [handleChunkRemove_eq]
  exact still_chunkPass msg.chunkMap s

theorem still_updatePeer (s : NodeDiscovery) (nodeId : Bytes) (f : PeerNode → PeerNode) :
    Still s (s.updatePeer nodeId f) := by
  refine Still.of_isSome (tells_updatePeer s nodeId f) fun k => ?_
  rw [lookup_updatePeer]
  split
  · exact Option.isSome_map
  · rfl

theorem keepsMirror_handleStateSync (s : NodeDiscovery) (msg : GossipMessage) :
    KeepsMirror (s.NamedAsListed msg.peerUpdates.entries) s (s.handleStateSync msg) := by
  have hmerged := keepsMirror_mergePeers msg.peerUpdates.nodupKeys s false
  have hlocations := hmerged.then_still
    (Still.of_peers (tells_mergeLocations _ msg.chunkMap) (mergeLocations_frame _ _).1)
  unfold handleStateSync
  simp only
  split
  · exact hlocations.then_still (still_updatePeer _ _ _)
  · exact hlocations

/-- If the message has not been seen and brings records, it announces the new
nodes under the ids under which they are listed. -/
def AnnouncesAsListed (s : NodeDiscovery) (msg : GossipMessage) : Prop :=
  s.isMessageSeen msg = false → msg.type = .nodeJoin ∨ msg.type = .stateSync →
    s.NamedAsListed msg.peerUpdates.entries

theorem namedAsListed_markMessageSeen (s : NodeDiscovery) (msg : GossipMessage)
    (entries : List (Sigma fun _ : Bytes => PeerNode)) :
    (s.markMessageSeen msg).NamedAsListed entries ↔ s.NamedAsListed entries := by
  have hsame := sameTables_markMessageSeen s msg
  rw [NamedAsListed, NamedAsListed, newcomers, newcomers, hsame.peers, hsame.localNodeId]

theorem keepsMirror_handleGossipMessage (s : NodeDiscovery) (msg : GossipMessage) :
    KeepsMirror (s.AnnouncesAsListed msg) s (s.handleGossipMessage msg) := by
  have hmarked : Still s (s.markMessageSeen msg) :=
    Still.of_peers (tells_markMessageSeen s msg) (sameTables_markMessageSeen s msg).peers
  have hnamed := namedAsListed_markMessageSeen s msg msg.peerUpdates.entries
  have hrecords : msg.type = .nodeJoin ∨ msg.type = .stateSync → s.isMessageSeen msg = false →
      (s.AnnouncesAsListed msg ↔ (s.markMessageSeen msg).NamedAsListed msg.peerUpdates.entries) :=
    fun htype hunseen => ⟨fun h => hnamed.mpr (h hunseen htype), fun h _ _ => hnamed.mp h⟩
  have hother : ¬ (msg.type = .nodeJoin ∨ msg.type = .stateSync) ∨ s.isMessageSeen msg = true →
      (s.AnnouncesAsListed msg ↔ True) := by
    rintro (htype | hseen)
    · exact iff_true_intro fun _ h => absurd h htype
    · exact iff_true_intro fun h => absurd (hseen.symm.trans h) Bool.true_eq_false.mp
  unfold handleGossipMessage
  split
  · rename_i hseen
    rw [hother (.inr hseen)]
    exact (Still.of_peers (Tells.quiet rfl rfl rfl rfl) rfl).keepsMirror
  · rename_i hunseen
    rw [Bool.not_eq_true] at hunseen
    cases htype : msg.type with
    | nodeJoin =>
        rw [hrecords (.inl htype) hunseen]
        exact hmarked.then_keeps (keepsMirror_mergePeers msg.peerUpdates.nodupKeys _ true)
    | stateSync =>
        rw [hrecords (.inr htype) hunseen]
        exact hmarked.then_keeps (keepsMirror_handleStateSync _ msg)
    | nodeLeave =>
        rw [hother (.inl (by simp [htype]))]
        exact hmarked.then_keeps (keepsMirror_removePeer _ _)
    | chunkAnnounce =>
        rw [hother (.inl (by simp [htype]))]
        exact hmarked.then_keeps (still_handleChunkAnnounce _ msg).keepsMirror
    | chunkRemove =>
        rw [hother (.inl (by simp [htype]))]
        exact hmarked.then_keeps (still_handleChunkRemove _ msg).keepsMirror
    | unknown raw hraw =>
        rw [hother (.inl (by simp [htype]))]
        exact hmarked.keepsMirror

end NodeDiscovery

namespace GossipService

open NodeDiscovery

/-! ## Runs -/

/-- Peers are added and removed, messages handled, ticks run and stale peers
cleaned up; the local node stays as it is. -/
def Membership : Event → Prop
  | .call op =>
      match op with
      | .addPeer _ | .removePeer _ | .cleanup | .gossip _ => True
      | .register _ _ | .unregister | .announce _ | .removeAnnouncement _ => False
  | .getAllPeers | .getPeersWithChunk _ | .measured _ _ _ | .start | .stop | .startGossip
  | .stopGossip | .tick | .send _ | .sent _ _ | .tickEnd _ | .heartbeat => True

/-- Nothing expires in the step, and new nodes are announced under the ids under
which they are listed. -/
def Announced (s : GossipService) : Event → Prop
  | .call op =>
      match op with
      | .cleanup => s.discovery.NoneStale
      | .gossip msg => s.discovery.AnnouncesAsListed msg
      | .addPeer _ | .removePeer _ | .register _ _ | .unregister | .announce _
      | .removeAnnouncement _ => True
  | .getAllPeers => s.discovery.NoneStale
  | .tick => s.gossips = true → s.discovery.NoneStale
  | .tickEnd round =>
      s.rounds[round]? = some { sending := none, targets := [] } → s.discovery.NoneStale
  | .getPeersWithChunk _ | .measured _ _ _ | .start | .stop | .startGossip | .stopGossip
  | .send _ | .sent _ _ | .heartbeat => True

theorem keepsMirror_beginTick (s : GossipService) :
    KeepsMirror (s.gossips = true → s.discovery.NoneStale) s.discovery s.beginTick.discovery := by
  unfold beginTick
  by_cases hgossips : s.gossips = true
  · have hall := (keepsMirror_getAllPeers s.discovery).then_still
      (u := { s.discovery.getAllPeers.2 with shuffles := s.discovery.getAllPeers.2.shuffles + 1 })
      (Still.of_peers (Tells.quiet rfl rfl rfl rfl) rfl)
    simpa [hgossips] using hall
  · have hsame := (Still.of_peers (t := s.discovery) (Tells.quiet rfl rfl rfl rfl) rfl).keepsMirror
    simpa [hgossips] using hsame

theorem still_beginGossip (s : GossipService) (peer : PeerNode) :
    Still s.discovery (s.beginGossip peer).2.discovery := by
  unfold beginGossip
  split
  · exact Still.of_peers (Tells.quiet rfl rfl rfl rfl) rfl
  · split
    · exact Still.of_peers (Tells.quiet rfl rfl rfl rfl) rfl
    · have hread : Tells [] s.discovery s.discovery.currentMillis.2 := Tells.quiet rfl rfl rfl rfl
      exact Still.of_peers (hread.trans (tells_filterActive true _ _))
        (sameTables_createGossipMessage s.discovery).peers

theorem still_endGossip (s : GossipService) (peer : PeerNode) (success : Bool) :
    Still s.discovery (s.endGossip peer success).discovery := by
  have htells : Tells [] s.discovery (s.endGossip peer success).discovery := by
    unfold endGossip
    split <;> exact Tells.quiet rfl rfl rfl rfl
  refine Still.of_isSome htells fun k => ?_
  rw [lookup_endGossip]
  split
  · exact Option.isSome_map
  · rfl

theorem still_heartbeatTick (s : GossipService) :
    Still s.discovery s.heartbeatTick.discovery := by
  unfold heartbeatTick
  split
  · exact Still.of_peers (Tells.quiet rfl rfl rfl rfl) rfl
  · simp only
    split
    · exact Still.of_peers (Tells.quiet rfl rfl rfl rfl) rfl
    · refine ⟨Tells.quiet rfl rfl rfl rfl, fun nodeId hremote => ?_⟩
      exact (AList.mem_insert s.discovery.peers).trans (or_iff_right hremote)

theorem keepsMirror_step {s s' : GossipService} {event : Event} (hscope : Membership event)
    (hstep : s.step event = some s') :
    KeepsMirror (s.Announced event) s.discovery s'.discovery := by
  cases event with
  | call op =>
      cases hstep
      cases op with
      | addPeer peer => exact keepsMirror_addPeer s.discovery peer
      | removePeer nodeId => exact keepsMirror_removePeer s.discovery nodeId
      | cleanup => exact keepsMirror_cleanupStalePeers s.discovery
      | gossip msg => exact keepsMirror_handleGossipMessage s.discovery msg
      | register garbage localNode => exact hscope.elim
      | unregister => exact hscope.elim
      | announce chunkId => exact hscope.elim
      | removeAnnouncement chunkId => exact hscope.elim
  | getAllPeers =>
      cases hstep
      exact keepsMirror_getAllPeers s.discovery
  | getPeersWithChunk chunkId =>
      cases hstep
      have htells : Tells [] s.discovery (s.discovery.getPeersWithChunk chunkId).2 := by
        unfold getPeersWithChunk
        split
        · exact Tells.quiet rfl rfl rfl rfl
        · exact tells_filterActive true _ s.discovery
      exact (Still.of_peers htells
        (sameTables_getPeersWithChunk s.discovery chunkId).peers).keepsMirror
  | measured nodeId latencyMs throughputMbps =>
      cases hstep
      exact (still_updatePeer s.discovery nodeId _).keepsMirror
  | start | stop | startGossip | stopGossip =>
      cases hstep
      exact Still.keepsMirror ⟨Tells.quiet rfl rfl rfl rfl, fun _ _ => Iff.rfl⟩
  | tick =>
      cases hstep
      exact keepsMirror_beginTick s
  | send round =>
      simp only [step] at hstep
      split at hstep
      · cases hstep
        exact (still_beginGossip s _).keepsMirror
      · cases hstep
  | sent round success =>
      obtain ⟨peer, hpeer, rfl⟩ := Option.map_eq_some_iff.mp hstep
      exact (still_endGossip s peer success).keepsMirror
  | tickEnd round =>
      simp only [step] at hstep
      split at hstep
      · rename_i hround
        cases hstep
        have hready : s.Announced (.tickEnd round) ↔ s.discovery.NoneStale :=
          ⟨fun h => h hround, fun h _ => h⟩
        rw [hready]
        exact keepsMirror_cleanupStalePeers s.discovery
      · cases hstep
  | heartbeat =>
      cases hstep
      exact (still_heartbeatTick s).keepsMirror

theorem announced_of_step_none {s : GossipService} {event : Event}
    (hstep : s.step event = none) : s.Announced event := by
  cases event with
  | tickEnd round =>
      intro hround
      rw [step, hround] at hstep
      cases hstep
  | send round => trivial
  | sent round success => trivial
  | _ => cases hstep

/-- From a table without remote peers on, the events mirror the table in every
state of a run exactly if nothing expires and every new node is announced under
the id under which it is listed. -/
theorem everyStep_announced_iff {s : GossipService} {events : List Event}
    (hlistened : s.discovery.Listened) (hevents : s.discovery.events = [])
    (hunknown : ∀ nodeId, nodeId ≠ s.discovery.localNodeId → nodeId ∉ s.discovery.peers)
    (hscope : ∀ event ∈ events, Membership event) :
    EveryStep step Announced s events ↔
      ∀ front t, front <+: events → runSteps step s front = some t →
        t.discovery.MirrorsPeers := by
  have hstart : s.discovery.MirrorsPeers := by
    intro nodeId hremote
    rw [NodeDiscovery.history, hevents]
    exact mirrors_nil (hunknown nodeId hremote)
  refine everyStep_iff_forall_reached_of (I := fun s : GossipService => s.discovery.MirrorsPeers)
    (J := fun s : GossipService => s.discovery.Listened) (Q := fun _ event => Membership event)
    ?_ ?_ hlistened hstart (EveryStep.of_forall hscope)
  · intro s event s' hlistened hscope hstep
    obtain ⟨news, htells⟩ := (keepsMirror_step hscope hstep).tells hlistened
    exact htells.listened hlistened
  · intro s event hlistened hs hscope
    cases hstep : s.step event with
    | none =>
        refine iff_of_true (announced_of_step_none hstep) fun s' hs' => ?_
        exact absurd hs' (Option.some_ne_none s').symm
    | some next =>
        rw [(keepsMirror_step hscope hstep).mirrors_iff hlistened hs]
        constructor
        · intro hnext s' hs'
          rwa [← Option.some.inj hs']
        · exact fun h => h next rfl

/-- A peer comes and goes before it can expire. -/
theorem everyStep_announced_iff_comes_and_goes :
    EveryStep step Announced
        { discovery := new 50 (fun _ => 0) (fun _ => 0) fun _ => Shuffle.id }
        [.call (.addPeer { nodeId := ascii "p" }), .call .cleanup,
          .call (.removePeer (ascii "p"))] ∧
    ∀ front t, front <+: [.call (.addPeer { nodeId := ascii "p" }), .call .cleanup,
        .call (.removePeer (ascii "p"))] →
      runSteps step { discovery := new 50 (fun _ => 0) (fun _ => 0) fun _ => Shuffle.id } front =
        some t → t.discovery.MirrorsPeers := by
  have hfresh : ((new 50 (fun _ => 0) (fun _ => 0) fun _ => Shuffle.id).addPeer
      { nodeId := ascii "p" }).NoneStale := by
    intro nodeId peer _ hpeer
    change ((∅ : AList fun _ : Bytes => PeerNode).insert (ascii "p") { nodeId := ascii "p" }).lookup
      nodeId = some peer at hpeer
    by_cases hp : nodeId = ascii "p"
    · subst hp
      rw [AList.lookup_insert] at hpeer
      cases hpeer
      decide
    · rw [AList.lookup_insert_ne hp] at hpeer
      cases hpeer
  have hannounced : EveryStep step Announced
      { discovery := new 50 (fun _ => 0) (fun _ => 0) fun _ => Shuffle.id }
      [.call (.addPeer { nodeId := ascii "p" }), .call .cleanup,
        .call (.removePeer (ascii "p"))] :=
    ⟨trivial, hfresh, trivial, trivial⟩
  refine ⟨hannounced, (everyStep_announced_iff ⟨rfl, rfl⟩ rfl ?_ ?_).mp hannounced⟩
  · intro nodeId _ hmem
    exact List.not_mem_nil hmem
  · intro event hevent
    simp only [List.mem_cons, List.not_mem_nil, or_false] at hevent
    rcases hevent with rfl | rfl | rfl <;> trivial

/-- A peer that was last seen at second 0 expires at second 1000, and nobody is
told. -/
theorem mirrorsPeers_counterexample :
    ¬ ∀ front t, front <+: [.call (.addPeer { nodeId := ascii "p" }), .call .cleanup] →
      runSteps step { discovery := new 50 (fun _ => 1000000) (fun _ => 0) fun _ => Shuffle.id }
        front = some t → t.discovery.MirrorsPeers := by
  intro h
  have hmirrors := h _ _ (List.prefix_refl _) rfl (ascii "p") (by decide)
  exact absurd (hmirrors.present_iff.mpr (by decide)) (by decide)

end GossipService

end ElioP2P.P2P
