import ElioP2P.Library.Runs
import ElioP2P.P2P.Proofs.PeerTable

/-!
# When peers were last seen, by hearsay

A state sync reports about other nodes, with the time at which its sender last
saw each of them.  The receiver takes every such record as it is, so what it
knew itself survives only reports that are no older.
-/

namespace ElioP2P.P2P

open ElioP2P.Library

def GossipMessage.reportedLastSeen (msg : GossipMessage) (peerId : Bytes) : Option Nat :=
  (msg.peerUpdates.lookup peerId).map fun peer => peer.lastSeen.toNat

namespace NodeDiscovery

theorem lookup_mergeReports {entries : List (Sigma fun _ : Bytes => PeerNode)}
    (hnodup : entries.NodupKeys) (s : NodeDiscovery) (nodeId : Bytes) :
    (entries.foldl (fun s entry => s.mergePeer false entry.1 entry.2) s).peers.lookup nodeId =
      if nodeId = s.localNodeId then s.peers.lookup nodeId
      else (entries.dlookup nodeId).or (s.peers.lookup nodeId) := by
  induction entries generalizing s with
  | nil => simp
  | cons entry entries ih =>
      obtain ⟨key, peer⟩ := entry
      obtain ⟨hfresh, hrest⟩ := List.nodupKeys_cons.mp hnodup
      rw [List.foldl_cons, ih hrest, (sameIndex_mergePeer false s key peer).2]
      by_cases hlocal : key = s.localNodeId
      · rw [mergePeer, if_pos hlocal]
        by_cases hnode : nodeId = s.localNodeId
        · rw [if_pos hnode, if_pos hnode]
        · rw [if_neg hnode, if_neg hnode, List.dlookup_cons_ne _ _ (hlocal ▸ hnode)]
      · rw [mergePeer, if_neg hlocal, (sameTables_notifyDiscovered _ _ _).peers]
        by_cases hkey : nodeId = key
        · subst hkey
          rw [List.dlookup_eq_none.mpr hfresh, List.dlookup_cons_eq, AList.lookup_insert]
          simp [hlocal]
        · rw [List.dlookup_cons_ne _ _ hkey, AList.lookup_insert_ne hkey]
          rfl

def lastSeenOf (s : NodeDiscovery) (peerId : Bytes) : Option Nat :=
  (s.peers.lookup peerId).map fun peer => peer.lastSeen.toNat

/-- What a state sync reports replaces what was known. -/
theorem lastSeenOf_handleStateSync {s : NodeDiscovery} {peerId : Bytes}
    (hremote : peerId ≠ s.localNodeId) (msg : GossipMessage) :
    (s.handleStateSync msg).lastSeenOf peerId =
      (msg.reportedLastSeen peerId).or (s.lastSeenOf peerId) := by
  have hmerged : ((msg.peerUpdates.entries.foldl
      (fun s entry => s.mergePeer false entry.1 entry.2) s).mergeLocations
        msg.chunkMap).peers.lookup peerId =
      (msg.peerUpdates.lookup peerId).or (s.peers.lookup peerId) := by
    rw [(mergeLocations_frame _ _).1, lookup_mergeReports msg.peerUpdates.nodupKeys, if_neg hremote]
    rfl
  have hpeer : ∃ f : PeerNode → PeerNode, (∀ peer, (f peer).lastSeen = peer.lastSeen) ∧
      (s.handleStateSync msg).peers.lookup peerId =
        ((msg.peerUpdates.lookup peerId).or (s.peers.lookup peerId)).map f := by
    unfold handleStateSync
    simp only
    cases msg.chunkMap.lookup msg.sourceNodeId with
    | none => exact ⟨id, fun _ => rfl, by simp only [hmerged, Option.map_id, id]⟩
    | some chunks =>
        simp only [lookup_updatePeer, hmerged]
        split
        · exact ⟨fun peer => { peer with availableChunks := chunks }, fun _ => rfl, rfl⟩
        · exact ⟨id, fun _ => rfl, by rw [Option.map_id, id]⟩
  obtain ⟨f, hf, hlookup⟩ := hpeer
  rw [lastSeenOf, hlookup, GossipMessage.reportedLastSeen, lastSeenOf, Option.map_map]
  have hsame : (fun peer : PeerNode => peer.lastSeen.toNat) ∘ f =
      fun peer => peer.lastSeen.toNat := by
    funext peer
    exact congrArg UInt64.toNat (hf peer)
  rw [hsame]
  cases msg.peerUpdates.lookup peerId <;> rfl

/-! ## Reports that are no older -/

def latest (seen : Nat) (report : Option Nat) : Nat :=
  report.elim seen (max seen)

theorem le_latest (seen : Nat) (report : Option Nat) : seen ≤ latest seen report := by
  cases report with
  | none => exact Nat.le_refl seen
  | some reported => exact Nat.le_max_left seen reported

/-- The merge leaves every known remote peer with the later of the two times. -/
def MergesForward (s : NodeDiscovery) (msg : GossipMessage) : Prop :=
  ∀ peerId seen, peerId ≠ s.localNodeId → s.lastSeenOf peerId = some seen →
    (s.handleStateSync msg).lastSeenOf peerId =
      some (latest seen (msg.reportedLastSeen peerId))

/-- Whatever the message says about a known remote peer is not older than what
the node knows. -/
def NotOlder (s : NodeDiscovery) (msg : GossipMessage) : Prop :=
  ∀ peerId seen reported, peerId ≠ s.localNodeId → s.lastSeenOf peerId = some seen →
    msg.reportedLastSeen peerId = some reported → seen ≤ reported

theorem mergesForward_iff (s : NodeDiscovery) (msg : GossipMessage) :
    s.MergesForward msg ↔ s.NotOlder msg := by
  constructor
  · intro h peerId seen reported hremote hseen hreported
    have hmerged := h peerId seen hremote hseen
    rw [lastSeenOf_handleStateSync hremote, hreported] at hmerged
    have hmax : reported = max seen reported := Option.some.inj hmerged
    omega
  · intro h peerId seen hremote hseen
    rw [lastSeenOf_handleStateSync hremote]
    cases hreported : msg.reportedLastSeen peerId with
    | none => exact hseen
    | some reported =>
        have hle := h peerId seen reported hremote hseen hreported
        exact congrArg some (Nat.max_eq_right hle).symm

def syncStep (s : NodeDiscovery) (msg : GossipMessage) : Option NodeDiscovery :=
  some (s.handleStateSync msg)

/-- In the end a peer was last seen at the latest of all times that were known
or reported, in whatever order the reports came. -/
theorem lastSeenOf_foldl_handleStateSync {s : NodeDiscovery} {msgs : List GossipMessage}
    (h : EveryStep syncStep NotOlder s msgs) {peerId : Bytes} {seen : Nat}
    (hremote : peerId ≠ s.localNodeId) (hseen : s.lastSeenOf peerId = some seen) :
    (msgs.foldl handleStateSync s).lastSeenOf peerId =
      some ((msgs.map fun msg => msg.reportedLastSeen peerId).foldl latest seen) := by
  induction msgs generalizing s seen with
  | nil => exact hseen
  | cons msg msgs ih =>
      have hmerged := (mergesForward_iff s msg).mpr h.1 peerId seen hremote hseen
      rw [List.foldl_cons, List.map_cons, List.foldl_cons]
      apply ih h.2 _ hmerged
      rwa [localNodeId_handleStateSync]

theorem le_foldl_latest (seen : Nat) (reports : List (Option Nat)) :
    seen ≤ reports.foldl latest seen := by
  induction reports generalizing seen with
  | nil => exact Nat.le_refl seen
  | cons report reports ih => exact (le_latest seen report).trans (ih _)

/-- A later time stamp that is not ahead of the clock does not make a peer look
dead. -/
theorem isActive_of_le {t : NodeDiscovery} {peer peer' : PeerNode}
    (hle : peer.lastSeen.toNat ≤ peer'.lastSeen.toNat)
    (hnow : peer'.lastSeen.toNat ≤ t.currentSeconds.1.toNat)
    (hactive : (t.isActive peer).1 = true) : (t.isActive peer').1 = true := by
  have hsub : ∀ seen : UInt64, seen.toNat ≤ t.currentSeconds.1.toNat →
      (t.currentSeconds.1 - seen).toNat = t.currentSeconds.1.toNat - seen.toNat :=
    fun seen h => UInt64.toNat_sub_of_le _ _ (UInt64.le_iff_toNat_le.mpr h)
  have hold : t.currentSeconds.1 - peer.lastSeen < 300 := of_decide_eq_true hactive
  apply decide_eq_true
  change t.currentSeconds.1 - peer'.lastSeen < 300
  rw [UInt64.lt_iff_toNat_lt] at hold ⊢
  rw [hsub _ hnow]
  rw [hsub _ (hle.trans hnow)] at hold
  omega

/-- Every merge of a run goes forward exactly when no report is older than what
is known; then the order of the reports does not matter, and no peer that looked
alive looks dead because of them. -/
theorem everyStep_mergesForward_iff (s : NodeDiscovery) (msgs : List GossipMessage) :
    (EveryStep syncStep MergesForward s msgs ↔ EveryStep syncStep NotOlder s msgs) ∧
      (EveryStep syncStep NotOlder s msgs → ∀ peerId peer, peerId ≠ s.localNodeId →
        s.peers.lookup peerId = some peer →
        ∃ peer', (msgs.foldl handleStateSync s).peers.lookup peerId = some peer' ∧
          peer'.lastSeen.toNat = (msgs.map fun msg => msg.reportedLastSeen peerId).foldl latest
            peer.lastSeen.toNat ∧
          ∀ t : NodeDiscovery, peer'.lastSeen.toNat ≤ t.currentSeconds.1.toNat →
            (t.isActive peer).1 = true → (t.isActive peer').1 = true) := by
  constructor
  · exact everyStep_congr (J := fun _ => True) (fun _ _ _ _ _ => trivial)
      (fun s msg _ => mergesForward_iff s msg) trivial
  · intro h peerId peer hremote hpeer
    have hseen : s.lastSeenOf peerId = some peer.lastSeen.toNat := by
      rw [lastSeenOf, hpeer]
      rfl
    have hend := lastSeenOf_foldl_handleStateSync h hremote hseen
    obtain ⟨peer', hpeer', hlast⟩ := Option.map_eq_some_iff.mp hend
    refine ⟨peer', hpeer', hlast, fun t hnow hactive => ?_⟩
    apply isActive_of_le _ hnow hactive
    rw [hlast]
    exact le_foldl_latest _ _

/-- A node that heard from `p` at second 1000, and a neighbour that last saw it
at second 500. -/
theorem mergesForward_counterexample :
    ¬ MergesForward
      ((new 50 (fun _ => 1000000) (fun _ => 0) fun _ => Shuffle.id).addPeer
        { nodeId := ascii "p", lastSeen := 1000 })
      { type := .stateSync
        sourceNodeId := ascii "q"
        timestamp := 1000000
        peerUpdates := AList.singleton (ascii "p") { nodeId := ascii "p", lastSeen := 500 } } := by
  intro h
  have hmerged := h (ascii "p") 1000 (by decide) (by decide)
  exact absurd hmerged (by decide)

end NodeDiscovery

end ElioP2P.P2P
