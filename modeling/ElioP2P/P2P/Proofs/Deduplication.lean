import ElioP2P.P2P.Proofs.Availability
import ElioP2P.P2P.Proofs.SelfProtection
import Mathlib.Data.List.Induction

/-!
# Duplicate messages

The id of a message is its source, its time stamp and a 64-bit hash of its
contents.  What is hashed are the bytes of the message one after the other
without anything in between, and of the peer records only the keys.  Two
messages can therefore share an id in two ways: their contents run together to
the same bytes, or the hash collides.
-/

namespace ElioP2P.P2P

open ElioP2P.Library

namespace GossipMessage.Equiv

theorem refl (m : GossipMessage) : Equiv m m := by
  refine ⟨rfl, rfl, rfl, fun nodeId => ?_, fun nodeId => NodeDiscovery.rel_equiv_refl _⟩
  cases m.chunkMap.lookup nodeId with
  | none => exact .none
  | some chunks => exact .some fun _ => Iff.rfl

theorem memAt_iff {m m' : GossipMessage} (h : Equiv m m') (nodeId chunk : Bytes) :
    MemAt m.chunkMap nodeId chunk ↔ MemAt m'.chunkMap nodeId chunk := by
  have hrel := h.chunkMap nodeId
  unfold MemAt
  generalize m.chunkMap.lookup nodeId = chunks at hrel
  generalize m'.chunkMap.lookup nodeId = chunks' at hrel
  cases hrel with
  | none => rfl
  | some hchunks => exact hchunks chunk

end GossipMessage.Equiv

namespace NodeDiscovery

/-! ## Ids -/

def fnvOffset : UInt64 := 1469598103934665603

/-- Everything that goes into the hash, in order. -/
def mixedBytes (msg : GossipMessage) : Bytes :=
  hostBytes32 msg.type.toUInt32 ++ (msg.sourceNodeId ++
    (msg.chunkMap.entries.flatMap (fun entry => entry.1 ++ entry.2.toList.flatten) ++
      msg.peerUpdates.entries.flatMap Sigma.fst))

theorem fnv1a_append (hash : UInt64) (front back : Bytes) :
    fnv1a hash (front ++ back) = fnv1a (fnv1a hash front) back :=
  List.foldl_append

theorem foldl_fnv1a {ι : Type} (f : ι → Bytes) (items : List ι) (hash : UInt64) :
    items.foldl (fun hash item => fnv1a hash (f item)) hash = fnv1a hash (items.flatMap f) := by
  induction items generalizing hash with
  | nil => rfl
  | cons item items ih => rw [List.foldl_cons, ih, List.flatMap_cons, fnv1a_append]

theorem generateMessageId_eq (msg : GossipMessage) :
    generateMessageId msg = msg.sourceNodeId ++ ascii ":" ++ decimal msg.timestamp.toNat ++
      ascii ":" ++ hexadecimal (fnv1a fnvOffset (mixedBytes msg)).toNat := by
  have hchunks : ∀ (hash : UInt64) (chunks : HashSet Bytes),
      chunks.toList.foldl fnv1a hash = fnv1a hash chunks.toList.flatten := by
    intro hash chunks
    have hflat := foldl_fnv1a id chunks.toList hash
    rwa [List.flatMap_id] at hflat
  have hentries : (fun (hash : UInt64) (entry : Sigma fun _ : Bytes => HashSet Bytes) =>
      entry.2.toList.foldl fnv1a (fnv1a hash entry.1)) =
        fun hash entry => fnv1a hash (entry.1 ++ entry.2.toList.flatten) := by
    funext hash entry
    rw [hchunks, ← fnv1a_append]
  unfold generateMessageId mixedBytes
  simp only [hentries, foldl_fnv1a]
  rw [fnv1a_append, fnv1a_append, fnv1a_append]
  rfl

/-- An id gives away the source, the time stamp and the hash. -/
theorem generateMessageId_inj {m m' : GossipMessage} :
    generateMessageId m = generateMessageId m' ↔
      m.sourceNodeId = m'.sourceNodeId ∧ m.timestamp = m'.timestamp ∧
        fnv1a fnvOffset (mixedBytes m) = fnv1a fnvOffset (mixedBytes m') := by
  have hcolon : ascii ":" = [58] := by decide +kernel
  have hdecimal : ∀ n, (58 : UInt8) ∉ decimal n := notMem_decimal rfl
  have hparts : ∀ msg, generateMessageId msg =
      (msg.sourceNodeId ++ 58 :: decimal msg.timestamp.toNat) ++
        58 :: hexadecimal (fnv1a fnvOffset (mixedBytes msg)).toNat := by
    intro msg
    rw [generateMessageId_eq, hcolon]
    simp
  constructor
  · intro h
    rw [hparts, hparts] at h
    obtain ⟨hfront, hhash⟩ := append_separator_inj (colon_notMem_hexadecimal _)
      (colon_notMem_hexadecimal _) h
    obtain ⟨hsource, htime⟩ := append_separator_inj (hdecimal _) (hdecimal _) hfront
    exact ⟨hsource, UInt64.toNat_inj.mp (decimal_injective htime),
      UInt64.toNat_inj.mp (hexadecimal_injective hhash)⟩
  · rintro ⟨hsource, htime, hhash⟩
    rw [generateMessageId_eq, generateMessageId_eq, hsource, htime, hhash]

/-! ## What touches the set of seen ids -/

theorem received_filterActive (wanted : Bool) (entries : List (Sigma fun _ : Bytes => PeerNode))
    (s : NodeDiscovery) :
    (filterActive wanted entries s).2.receivedMessages = s.receivedMessages := by
  induction entries generalizing s with
  | nil => rfl
  | cons entry entries ih => exact ih (s.isActive entry.2).2

theorem received_cleanupStalePeers (s : NodeDiscovery) :
    s.cleanupStalePeers.receivedMessages = s.receivedMessages := by
  have hforget : ∀ (s : NodeDiscovery) (entry : Sigma fun _ : Bytes => PeerNode),
      (s.forgetPeer entry.1).receivedMessages = s.receivedMessages := fun _ _ => rfl
  exact (foldl_frame receivedMessages hforget _ _).trans
    (received_filterActive false s.peers.entries s)

theorem received_sendToSubset (s : NodeDiscovery) (share : UInt32) (wanted : PeerNode → Bool)
    (msg : GossipMessage) :
    (s.sendToSubset share wanted msg).receivedMessages = s.receivedMessages := by
  have hall : s.getAllPeers.2.receivedMessages = s.receivedMessages :=
    (received_filterActive true _ _).trans (received_cleanupStalePeers s)
  unfold sendToSubset
  simp only
  split <;> exact hall

theorem received_updatePeer (s : NodeDiscovery) (nodeId : Bytes) (f : PeerNode → PeerNode) :
    (s.updatePeer nodeId f).receivedMessages = s.receivedMessages := by
  unfold updatePeer
  split <;> rfl

theorem received_notifyDiscovered (s : NodeDiscovery) (isNew : Bool) (peer : PeerNode) :
    (s.notifyDiscovered isNew peer).receivedMessages = s.receivedMessages := by
  unfold notifyDiscovered
  split <;> rfl

theorem received_removePeer (s : NodeDiscovery) (nodeId : Bytes) :
    (s.removePeer nodeId).receivedMessages = s.receivedMessages := by
  unfold removePeer notifyLost
  split
  · split <;> rfl
  · rfl

theorem received_mergePeer (stamp : Bool) (s : NodeDiscovery) (peerId : Bytes)
    (peer : PeerNode) : (s.mergePeer stamp peerId peer).receivedMessages = s.receivedMessages := by
  unfold mergePeer
  split
  · rfl
  · cases stamp with
    | true => exact received_notifyDiscovered _ _ _
    | false => exact received_notifyDiscovered _ _ _

theorem received_chunkPass {index : (Sigma fun _ : Bytes => HashSet Bytes) → NodeDiscovery →
      AList fun _ : Bytes => HashSet Bytes} {record : HashSet Bytes → PeerNode → PeerNode}
    (entries : List (Sigma fun _ : Bytes => HashSet Bytes)) (s : NodeDiscovery) :
    (chunkPass index record entries s).receivedMessages = s.receivedMessages := by
  unfold chunkPass
  apply foldl_frame receivedMessages
  intro s entry
  split
  · rfl
  · exact received_updatePeer _ _ _

theorem received_mergeLocations (s : NodeDiscovery)
    (chunkMap : AList fun _ : Bytes => HashSet Bytes) :
    (s.mergeLocations chunkMap).receivedMessages = s.receivedMessages := by
  unfold mergeLocations
  apply foldl_frame receivedMessages
  intro s entry
  split <;> rfl

theorem received_handleStateSync (s : NodeDiscovery) (msg : GossipMessage) :
    (s.handleStateSync msg).receivedMessages = s.receivedMessages := by
  have hmerged := foldl_frame receivedMessages
    (fun s (entry : Sigma fun _ : Bytes => PeerNode) => received_mergePeer false s entry.1 entry.2)
    s msg.peerUpdates.entries
  unfold handleStateSync
  simp only
  split
  · rw [received_updatePeer, received_mergeLocations, hmerged]
  · rw [received_mergeLocations, hmerged]

theorem received_handleGossipMessage {s : NodeDiscovery} {msg : GossipMessage}
    (hseen : s.isMessageSeen msg = false) :
    (s.handleGossipMessage msg).receivedMessages = (s.markMessageSeen msg).receivedMessages := by
  unfold handleGossipMessage
  rw [if_neg (by simp [hseen])]
  cases msg.type with
  | nodeJoin =>
      exact foldl_frame receivedMessages
        (fun s (entry : Sigma fun _ : Bytes => PeerNode) =>
          received_mergePeer true s entry.1 entry.2) _ _
  | nodeLeave => exact received_removePeer _ _
  | chunkAnnounce =>
      simp only [handleChunkAnnounce_eq]
      exact received_chunkPass _ _
  | chunkRemove =>
      simp only [handleChunkRemove_eq]
      exact received_chunkPass _ _
  | stateSync => exact received_handleStateSync _ msg
  | unknown raw hraw => rfl

theorem mem_markMessageSeen {s : NodeDiscovery} {msg : GossipMessage} {id : Bytes}
    (h : id ∈ (s.markMessageSeen msg).receivedMessages) :
    id = generateMessageId msg ∨ id ∈ s.receivedMessages := by
  unfold markMessageSeen at h
  simp only at h
  split at h
  · exact absurd h (HashSet.notMem_empty id)
  · exact HashSet.mem_insert.mp h

theorem received_apply {s : NodeDiscovery} {op : Op} (hop : ∀ msg, op ≠ .gossip msg) :
    (s.apply op).receivedMessages = s.receivedMessages := by
  cases op with
  | register garbage localNode =>
      simp only [apply, registerNode, broadcastNodeJoin]
      split
      · rfl
      · exact received_sendToSubset _ _ _ _
  | unregister =>
      simp only [apply, unregisterNode, broadcastNodeLeave]
      split
      · rfl
      · exact received_sendToSubset _ _ _ _
  | addPeer peer => exact received_notifyDiscovered _ _ _
  | removePeer nodeId => exact received_removePeer s nodeId
  | announce chunkId =>
      simp only [apply, announceChunk, broadcastChunkAnnounce]
      split
      · rfl
      · split
        · rfl
        · exact received_sendToSubset _ _ _ _
  | removeAnnouncement chunkId =>
      simp only [apply, removeChunkAnnouncement_eq, broadcastChunkRemove]
      split
      · exact received_updatePeer _ _ _
      · exact (received_sendToSubset _ _ _ _).trans (received_updatePeer _ _ _)
  | cleanup => exact received_cleanupStalePeers s
  | gossip msg => exact absurd rfl (hop msg)

/-! ## Runs -/

def Handles (s : NodeDiscovery) (ops : List Op) (msg : GossipMessage) : Prop :=
  ∃ front back, ops = front ++ .gossip msg :: back ∧
    (front.foldl apply s).isMessageSeen msg = false

theorem Handles.append {s : NodeDiscovery} {ops : List Op} {msg : GossipMessage}
    (h : Handles s ops msg) (more : List Op) : Handles s (ops ++ more) msg := by
  obtain ⟨front, back, rfl, hseen⟩ := h
  exact ⟨front, back ++ more, by simp, hseen⟩

theorem Handles.mem {s : NodeDiscovery} {ops : List Op} {msg : GossipMessage}
    (h : Handles s ops msg) : .gossip msg ∈ ops := by
  obtain ⟨front, back, rfl, -⟩ := h
  simp

/-- A message is ignored only if one with the same content was handled before. -/
def NeverLoses (s : NodeDiscovery) (ops : List Op) : Prop :=
  ∀ front msg back, ops = front ++ .gossip msg :: back →
    (front.foldl apply s).isMessageSeen msg = true →
      ∃ m, Handles s front m ∧ m.Equiv msg

/-- Different contents that run together to the same bytes. -/
def Ambiguous (m m' : GossipMessage) : Prop :=
  m.sourceNodeId = m'.sourceNodeId ∧ m.timestamp = m'.timestamp ∧ ¬ m.Equiv m' ∧
    mixedBytes m = mixedBytes m'

/-- Different contents with different bytes and the same hash. -/
def Collides (m m' : GossipMessage) : Prop :=
  m.sourceNodeId = m'.sourceNodeId ∧ m.timestamp = m'.timestamp ∧ ¬ m.Equiv m' ∧
    mixedBytes m ≠ mixedBytes m' ∧
      fnv1a fnvOffset (mixedBytes m) = fnv1a fnvOffset (mixedBytes m')

/-- Two messages share an id wrongly in exactly these two ways. -/
theorem equiv_of_id_iff (m m' : GossipMessage) :
    (generateMessageId m = generateMessageId m' → m.Equiv m') ↔
      ¬ Ambiguous m m' ∧ ¬ Collides m m' := by
  rw [generateMessageId_inj]
  unfold Ambiguous Collides
  constructor
  · intro h
    refine ⟨?_, ?_⟩
    · rintro ⟨hsource, htime, hdiffer, hbytes⟩
      exact hdiffer (h ⟨hsource, htime, by rw [hbytes]⟩)
    · rintro ⟨hsource, htime, hdiffer, -, hhash⟩
      exact hdiffer (h ⟨hsource, htime, hhash⟩)
  · rintro ⟨hambiguous, hcollides⟩ ⟨hsource, htime, hhash⟩
    by_contra hdiffer
    by_cases hbytes : mixedBytes m = mixedBytes m'
    · exact hambiguous ⟨hsource, htime, hdiffer, hbytes⟩
    · exact hcollides ⟨hsource, htime, hdiffer, hbytes, hhash⟩

theorem handles_of_received {s : NodeDiscovery} (hs : s.receivedMessages = ∅) (ops : List Op)
    {id : Bytes} (hid : id ∈ (ops.foldl apply s).receivedMessages) :
    ∃ m, Handles s ops m ∧ id = generateMessageId m := by
  induction ops using List.reverseRecOn generalizing id with
  | nil =>
      rw [List.foldl_nil, hs] at hid
      exact absurd hid (HashSet.notMem_empty id)
  | append_singleton ops op ih =>
      rw [List.foldl_append, List.foldl_cons, List.foldl_nil] at hid
      by_cases hop : ∃ msg, op = .gossip msg
      · obtain ⟨msg, rfl⟩ := hop
        cases hseen : (ops.foldl apply s).isMessageSeen msg with
        | true =>
            have hsame : (ops.foldl apply s).apply (.gossip msg) = ops.foldl apply s :=
              if_pos hseen
            rw [hsame] at hid
            obtain ⟨m, hm, hm'⟩ := ih hid
            exact ⟨m, hm.append _, hm'⟩
        | false =>
            rw [apply, received_handleGossipMessage hseen] at hid
            rcases mem_markMessageSeen hid with rfl | hbefore
            · exact ⟨msg, ⟨ops, [], rfl, hseen⟩, rfl⟩
            · obtain ⟨m, hm, hm'⟩ := ih hbefore
              exact ⟨m, hm.append _, hm'⟩
      · rw [received_apply fun msg h => hop ⟨msg, h⟩] at hid
        obtain ⟨m, hm, hm'⟩ := ih hid
        exact ⟨m, hm.append _, hm'⟩

/-- Messages with different contents have different ids exactly if no two of them
run together or collide; and then no run loses an update. -/
theorem neverLoses_of_distinct {s : NodeDiscovery} (hs : s.receivedMessages = ∅) (ops : List Op) :
    ((∀ m m', .gossip m ∈ ops → .gossip m' ∈ ops →
        generateMessageId m = generateMessageId m' → m.Equiv m') ↔
      ∀ m m', .gossip m ∈ ops → .gossip m' ∈ ops → ¬ Ambiguous m m' ∧ ¬ Collides m m') ∧
    ((∀ m m', .gossip m ∈ ops → .gossip m' ∈ ops → ¬ Ambiguous m m' ∧ ¬ Collides m m') →
      NeverLoses s ops) := by
  refine ⟨?_, fun hdistinct front msg back hops hseen => ?_⟩
  · simp only [← equiv_of_id_iff]
  · obtain ⟨m, hm, hid⟩ := handles_of_received hs front (of_decide_eq_true hseen)
    refine ⟨m, hm, (equiv_of_id_iff m msg).mpr (hdistinct m msg ?_ ?_) hid.symm⟩
    · rw [hops]
      exact List.mem_append_left _ hm.mem
    · rw [hops]
      simp

def announcement (chunks : List Bytes) : GossipMessage :=
  { type := .chunkAnnounce
    sourceNodeId := ascii "B"
    timestamp := 1700000000000
    chunkMap := chunks.foldl (fun m chunk => insertAt m (ascii "B") chunk) ∅ }

theorem neverLoses_sample :
    NeverLoses fresh [.gossip (announcement [ascii "c"]), .gossip (announcement [ascii "d"]),
      .gossip (announcement [ascii "c"])] := by
  refine (neverLoses_of_distinct rfl _).2 fun m m' hm hm' => ?_
  rw [← equiv_of_id_iff]
  intro hid
  simp only [List.mem_cons, Op.gossip.injEq, List.not_mem_nil, or_false] at hm hm'
  rcases hm with rfl | rfl | rfl <;> rcases hm' with rfl | rfl | rfl <;>
    first
      | exact .refl _
      | exact absurd hid (by decide +kernel)

/-- The chunks `a` and `b` are announced, and then the chunk `ba`: the second
announcement is taken for the first. -/
theorem not_neverLoses_ambiguous :
    ¬ NeverLoses fresh [.gossip (announcement [ascii "a", ascii "b"]),
      .gossip (announcement [ascii "ba"])] := by
  intro h
  obtain ⟨m, hm, hsame⟩ := h [.gossip (announcement [ascii "a", ascii "b"])]
    (announcement [ascii "ba"]) [] rfl (by decide +kernel)
  have hfirst : m = announcement [ascii "a", ascii "b"] := by simpa using hm.mem
  subst hfirst
  have hchunk := (hsame.memAt_iff (ascii "B") (ascii "ba")).mpr (by decide +kernel)
  revert hchunk
  decide +kernel

end NodeDiscovery

end ElioP2P.P2P
