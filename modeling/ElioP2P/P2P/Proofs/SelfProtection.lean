import ElioP2P.Library.Runs
import ElioP2P.P2P.Proofs.GossipCodec
import ElioP2P.P2P.Proofs.PeerTable

/-!
# What gossip can do to the local node

The handlers leave out the local node wherever they go by a key of the message.
Two of them go by the source field instead, which the sender of a message
chooses: a leave removes the node it names, and a state sync replaces the chunks
of the node it names.
-/

namespace ElioP2P.P2P

open ElioP2P.Library

namespace PeerNode.Equiv

theorem refl (a : PeerNode) : Equiv a a := ⟨rfl, fun _ => Iff.rfl⟩

theorem symm {a b : PeerNode} (h : Equiv a b) : Equiv b a :=
  ⟨h.1.symm, fun chunk => (h.2 chunk).symm⟩

theorem trans {a b c : PeerNode} (hab : Equiv a b) (hbc : Equiv b c) : Equiv a c :=
  ⟨hab.1.trans hbc.1, fun chunk => (hab.2 chunk).trans (hbc.2 chunk)⟩

end PeerNode.Equiv

namespace NodeDiscovery

structure OwnUnchanged (s s' : NodeDiscovery) : Prop where
  record : Option.Rel PeerNode.Equiv (s.peers.lookup s.localNodeId)
    (s'.peers.lookup s.localNodeId)
  locations : ∀ chunk, s'.Locates chunk s.localNodeId ↔ s.Locates chunk s.localNodeId

theorem rel_equiv_refl (record : Option PeerNode) : Option.Rel PeerNode.Equiv record record := by
  cases record with
  | none => exact .none
  | some peer => exact .some (.refl peer)

theorem rel_equiv_symm {a b : Option PeerNode} (h : Option.Rel PeerNode.Equiv a b) :
    Option.Rel PeerNode.Equiv b a := by
  cases h with
  | none => exact .none
  | some hab => exact .some hab.symm

theorem rel_equiv_trans {a b c : Option PeerNode} (hab : Option.Rel PeerNode.Equiv a b)
    (hbc : Option.Rel PeerNode.Equiv b c) : Option.Rel PeerNode.Equiv a c := by
  cases hab with
  | none => exact hbc
  | some h =>
      cases hbc with
      | some h' => exact .some (h.trans h')

namespace OwnUnchanged

theorem of_lookup {s s' : NodeDiscovery}
    (hrecord : s'.peers.lookup s.localNodeId = s.peers.lookup s.localNodeId)
    (hlocations : ∀ chunk, s'.Locates chunk s.localNodeId ↔ s.Locates chunk s.localNodeId) :
    OwnUnchanged s s' := by
  refine ⟨?_, hlocations⟩
  rw [hrecord]
  exact rel_equiv_refl _

theorem refl (s : NodeDiscovery) : OwnUnchanged s s := of_lookup rfl fun _ => Iff.rfl

theorem trans {s t u : NodeDiscovery} (hlocal : t.localNodeId = s.localNodeId)
    (hst : OwnUnchanged s t) (htu : OwnUnchanged t u) : OwnUnchanged s u := by
  have hrecord := htu.record
  have hlocations := htu.locations
  rw [hlocal] at hrecord hlocations
  exact ⟨rel_equiv_trans hst.record hrecord,
    fun chunk => (hlocations chunk).trans (hst.locations chunk)⟩

theorem symm {s t : NodeDiscovery} (hlocal : t.localNodeId = s.localNodeId)
    (hst : OwnUnchanged s t) : OwnUnchanged t s := by
  refine ⟨?_, fun chunk => ?_⟩
  · rw [hlocal]
    exact rel_equiv_symm hst.record
  · rw [hlocal]
    exact (hst.locations chunk).symm

end OwnUnchanged

/-! ## One message -/

def Spares (s : NodeDiscovery) (msg : GossipMessage) : Prop :=
  s.isMessageSeen msg = true ∨
    match msg.type with
    | .nodeLeave => msg.sourceNodeId = s.localNodeId → s.peers.lookup s.localNodeId = none
    | .stateSync => msg.sourceNodeId = s.localNodeId →
        ∀ peer chunks, s.peers.lookup s.localNodeId = some peer →
          msg.chunkMap.lookup s.localNodeId = some chunks →
            ∀ chunk, chunk ∈ peer.availableChunks ↔ chunk ∈ chunks
    | .nodeJoin | .chunkAnnounce | .chunkRemove | .unknown _ _ => True

theorem ownUnchanged_removePeer_iff (s : NodeDiscovery) (nodeId : Bytes) :
    OwnUnchanged s (s.removePeer nodeId) ↔
      (nodeId = s.localNodeId → s.peers.lookup s.localNodeId = none) := by
  have hgone := forgets_removePeer s nodeId
  constructor
  · rintro h rfl
    have hrecord := h.record
    rw [hgone.peers] at hrecord
    cases hpeer : s.peers.lookup s.localNodeId with
    | none => rfl
    | some peer =>
        rw [hpeer] at hrecord
        simp at hrecord
  · intro hspares
    have hkept : s.localNodeId ∉ (if (s.peers.lookup nodeId).isSome then [nodeId] else []) := by
      split
      · rename_i hknown
        rw [List.mem_singleton]
        intro hlocal
        rw [← hlocal, hspares hlocal.symm] at hknown
        cases hknown
      · exact List.not_mem_nil
    refine OwnUnchanged.of_lookup ?_ fun chunk => ?_
    · rw [hgone.peers, if_neg hkept]
    · rw [hgone.locates, and_iff_left hkept]

theorem ownUnchanged_handleStateSync_iff (s : NodeDiscovery) (msg : GossipMessage) :
    OwnUnchanged s (s.handleStateSync msg) ↔
      (msg.sourceNodeId = s.localNodeId →
        ∀ peer chunks, s.peers.lookup s.localNodeId = some peer →
          msg.chunkMap.lookup s.localNodeId = some chunks →
            ∀ chunk, chunk ∈ peer.availableChunks ↔ chunk ∈ chunks) := by
  obtain ⟨seen, hseen⟩ := lookup_handleStateSync s msg s.localNodeId
  rw [if_pos rfl] at hseen
  constructor
  · intro h hsource peer chunks hpeer hchunks chunk
    have hrecord := h.record
    rw [hseen, hpeer, hchunks, Option.map_some, if_pos hsource.symm, Option.getD_some] at hrecord
    cases hrecord with
    | some hsame => exact hsame.2 chunk
  · intro hspares
    refine ⟨?_, fun chunk => ?_⟩
    · rw [hseen]
      cases hpeer : s.peers.lookup s.localNodeId with
      | none => exact .none
      | some peer =>
          rw [Option.map_some]
          split
          · rename_i hsource
            refine .some ⟨rfl, fun chunk => ?_⟩
            cases hchunks : msg.chunkMap.lookup s.localNodeId with
            | none => rfl
            | some chunks => exact hspares hsource.symm peer chunks hpeer hchunks chunk
          · exact .some (.refl peer)
    · rw [locates_handleStateSync]
      simp

/-- A message leaves the local node alone exactly if it spares it. -/
theorem ownUnchanged_handleGossipMessage_iff (s : NodeDiscovery) (msg : GossipMessage) :
    OwnUnchanged s (s.handleGossipMessage msg) ↔ s.Spares msg := by
  unfold handleGossipMessage Spares
  by_cases hseen : s.isMessageSeen msg = true
  · rw [if_pos hseen]
    exact iff_of_true (.refl s) (Or.inl hseen)
  · rw [if_neg hseen, or_iff_right hseen]
    have hmarked := sameTables_markMessageSeen s msg
    have hown : ∀ u, OwnUnchanged s u ↔ OwnUnchanged (s.markMessageSeen msg) u := by
      have hstart : OwnUnchanged s (s.markMessageSeen msg) :=
        .of_lookup (by rw [hmarked.peers]) fun chunk => hmarked.locates chunk _
      intro u
      constructor
      · exact (hstart.symm hmarked.localNodeId).trans hmarked.localNodeId.symm
      · exact hstart.trans hmarked.localNodeId
    rw [hown, ← hmarked.localNodeId, ← hmarked.peers]
    generalize s.markMessageSeen msg = marked
    cases msg.type with
    | nodeJoin =>
        obtain ⟨seen, hjoin⟩ := lookup_handleNodeJoin marked msg marked.localNodeId
        rw [if_pos rfl] at hjoin
        exact iff_of_true (.of_lookup hjoin fun chunk => locates_handleNodeJoin _ _ _ _) trivial
    | nodeLeave => exact ownUnchanged_removePeer_iff marked msg.sourceNodeId
    | chunkAnnounce =>
        refine iff_of_true (.of_lookup ?_ fun chunk => ?_) trivial
        · rw [lookup_handleChunkAnnounce, if_pos rfl]
        · rw [locates_handleChunkAnnounce]
          simp
    | chunkRemove =>
        refine iff_of_true (.of_lookup ?_ fun chunk => ?_) trivial
        · rw [lookup_handleChunkRemove, if_pos rfl]
        · rw [locates_handleChunkRemove]
          simp
    | stateSync => exact ownUnchanged_handleStateSync_iff marked msg
    | unknown raw hraw => exact iff_of_true (.refl marked) trivial

/-! ## Sequences of messages -/

def receive (s : NodeDiscovery) (msg : GossipMessage) : Option NodeDiscovery :=
  some (s.handleGossipMessage msg)

/-- All along a sequence of messages the local node's record and locations stay
as they are exactly if every message spares them. -/
theorem ownUnchanged_receive_iff (s : NodeDiscovery) (msgs : List GossipMessage) :
    (∀ front t, front <+: msgs → runSteps receive s front = some t → OwnUnchanged s t) ↔
      EveryStep receive Spares s msgs := by
  refine (everyStep_iff_forall_reached (J := fun t => t.localNodeId = s.localNodeId)
    ?_ ?_ rfl (.refl s)).symm
  · intro t msg t' ht hstep
    cases hstep
    rw [localNodeId_handleGossipMessage, ht]
  · intro t msg ht hst
    rw [← ownUnchanged_handleGossipMessage_iff]
    constructor
    · intro hkept t' hstep
      cases hstep
      exact hst.trans ht hkept
    · intro hnext
      have hst' := hnext _ rfl
      exact (hst.symm ht).trans ht.symm hst'

/-- A leave message that gives the receiver's own id as its source. -/
def forgedLeave : GossipMessage :=
  { type := .nodeLeave, sourceNodeId := ascii "A", timestamp := 1700000000001 }

/-- Node `A` holds chunk `c`; one message makes it forget itself. -/
theorem not_ownUnchanged_forgedLeave :
    ((registered (ascii "A")).announceChunk (ascii "c")).Locates (ascii "c") (ascii "A") ∧
    ∃ t, runSteps receive ((registered (ascii "A")).announceChunk (ascii "c")) [forgedLeave] =
        some t ∧
      ¬ t.Locates (ascii "c") (ascii "A") ∧ t.peers.lookup (ascii "A") = none ∧
      ¬ OwnUnchanged ((registered (ascii "A")).announceChunk (ascii "c")) t := by
  refine ⟨by decide +kernel, _, rfl, by decide +kernel, by decide +kernel, fun h => ?_⟩
  have hlocated := (h.locations (ascii "c")).mpr (by decide +kernel)
  revert hlocated
  decide +kernel

end NodeDiscovery

end ElioP2P.P2P
