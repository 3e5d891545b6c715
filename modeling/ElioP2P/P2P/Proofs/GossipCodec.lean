import ElioP2P.P2P.GossipCodec

/-!
# The gossip codec

Two results about the decoder.  It reads back what the encoder writes, up to
the order of maps and sets.  And it stays inside its input exactly when the
message, laid out field by field, does not break off in a fixed-width field:
those are read without a bounds check.
-/

namespace ElioP2P.P2P

open ElioP2P.Library
open ElioP2P.Library.Decoder

/-! ## Round trip -/

def ChunksFit (chunks : HashSet Bytes) : Prop :=
  chunks.toList.length < 2 ^ 32 ∧ ∀ chunk ∈ chunks.toList, chunk.length < 2 ^ 32

instance (chunks : HashSet Bytes) : Decidable (ChunksFit chunks) :=
  inferInstanceAs (Decidable (_ ∧ _))

/-- A message the encoder can represent: everything that is counted fits 32
bits, and a peer record carries the id it is filed under. -/
structure GossipMessage.Encodable (msg : GossipMessage) : Prop where
  source : msg.sourceNodeId.length < 2 ^ 32
  chunkMapSize : msg.chunkMap.entries.length < 2 ^ 32
  chunkMap : ∀ e ∈ msg.chunkMap.entries, e.1.length < 2 ^ 32 ∧ ChunksFit e.2
  peerUpdatesSize : msg.peerUpdates.entries.length < 2 ^ 32
  peerUpdates : ∀ e ∈ msg.peerUpdates.entries,
    e.1.length < 2 ^ 32 ∧ e.2.address.length < 2 ^ 32 ∧ ChunksFit e.2.availableChunks
  peerIds : ∀ e ∈ msg.peerUpdates.entries, e.2.nodeId = e.1

/-- Two peer records that differ at most in the order of their chunk sets. -/
def PeerNode.Equiv (p q : PeerNode) : Prop :=
  { p with availableChunks := ∅ } = { q with availableChunks := ∅ } ∧
    p.availableChunks.Equiv q.availableChunks

structure GossipMessage.Equiv (m m' : GossipMessage) : Prop where
  type : m.type = m'.type
  sourceNodeId : m.sourceNodeId = m'.sourceNodeId
  timestamp : m.timestamp = m'.timestamp
  chunkMap : ∀ k, Option.Rel HashSet.Equiv (m.chunkMap.lookup k) (m'.chunkMap.lookup k)
  peerUpdates : ∀ k,
    Option.Rel PeerNode.Equiv (m.peerUpdates.lookup k) (m'.peerUpdates.lookup k)

def reread (chunks : HashSet Bytes) : HashSet Bytes := HashSet.insertAll ∅ chunks.toList

theorem equiv_reread (chunks : HashSet Bytes) : chunks.Equiv (reread chunks) := by
  intro chunk
  rw [reread, HashSet.mem_insertAll]
  simp only [HashSet.notMem_empty, or_false]
  exact Iff.rfl

theorem consumes_double (d : Double) : Consumes readDouble (writeDouble d) d := by
  have h : Consumes readDouble (writeDouble d) _ :=
    consumes_fixed _ (length_littleEndian 8 d.bits.toNat)
  rwa [writeDouble, littleEndianValue_littleEndian d.bits.toNat_lt, UInt64.ofNat_toNat] at h

theorem consumes_chunks {chunks : HashSet Bytes} (h : ChunksFit chunks) :
    Consumes readChunks (serializeChunks chunks) (reread chunks) :=
  consumes_counted h.1
    (fun chunk hchunk acc => consumes_map (consumes_string (h.2 chunk hchunk)) acc.insert) ∅

theorem consumes_chunkEntry {e : Sigma fun _ : Bytes => HashSet Bytes}
    (h : e.1.length < 2 ^ 32 ∧ ChunksFit e.2) (acc : AList fun _ : Bytes => HashSet Bytes) :
    Consumes (readChunkEntry acc) (serializeChunkEntry e) (acc.insert e.1 (reread e.2)) :=
  consumes_bind (consumes_string h.1) (consumes_map (consumes_chunks h.2) _)

def rereadPeer (nodeId : Bytes) (peer : PeerNode) : PeerNode :=
  { peer with nodeId := nodeId, availableChunks := reread peer.availableChunks }

theorem consumes_peerEntry {e : Sigma fun _ : Bytes => PeerNode}
    (h : e.1.length < 2 ^ 32 ∧ e.2.address.length < 2 ^ 32 ∧ ChunksFit e.2.availableChunks)
    (acc : AList fun _ : Bytes => PeerNode) :
    Consumes (readPeerEntry acc) (serializePeerEntry e)
      (acc.insert e.1 (rereadPeer e.1 e.2)) := by
  refine consumes_bind (consumes_string h.1) ?_
  refine consumes_bind (consumes_string h.2.1) ?_
  refine consumes_bind (consumes_uint16 _) ?_
  refine consumes_bind (consumes_uint16 _) ?_
  refine consumes_bind (consumes_uint64 _) ?_
  refine consumes_bind (consumes_uint64 _) ?_
  refine consumes_bind (consumes_uint64 _) ?_
  refine consumes_bind (consumes_double _) ?_
  refine consumes_bind (consumes_double _) ?_
  exact consumes_map (consumes_chunks h.2.2) _

def rereadMessage (msg : GossipMessage) : GossipMessage :=
  { msg with
    chunkMap := msg.chunkMap.entries.foldl (fun m e => m.insert e.1 (reread e.2)) ∅
    peerUpdates := msg.peerUpdates.entries.foldl
      (fun m e => m.insert e.1 (rereadPeer e.1 e.2)) ∅ }

theorem consumes_body {msg : GossipMessage} (h : msg.Encodable) :
    Consumes deserializeBody (serializeBody msg) (rereadMessage msg) := by
  refine consumes_bind (consumes_uint32 _) ?_
  refine consumes_bind (consumes_string h.source) ?_
  refine consumes_bind (consumes_uint64 _) ?_
  refine consumes_bind
    (consumes_counted h.chunkMapSize (fun e he => consumes_chunkEntry (h.chunkMap e he)) ∅) ?_
  simp only [GossipMessageType.ofUInt32_toUInt32]
  exact consumes_map
    (consumes_counted h.peerUpdatesSize (fun e he => consumes_peerEntry (h.peerUpdates e he)) ∅) _

theorem consumes_checked {msg : GossipMessage} (h : msg.Encodable) :
    Consumes deserializeChecked (serializeGossipMessage msg) (rereadMessage msg) := by
  refine consumes_bind (consumes_uint32 _) ?_
  rw [if_neg (by simp)]
  refine consumes_bind (consumes_uint32 _) ?_
  rw [if_neg (by simp)]
  exact consumes_body h

theorem equiv_rereadMessage {msg : GossipMessage} (h : msg.Encodable) :
    msg.Equiv (rereadMessage msg) := by
  refine ⟨rfl, rfl, rfl, fun k => ?_, fun k => ?_⟩
  · simp only [rereadMessage]
    rw [lookup_foldl_insert_entries fun _ chunks => reread chunks]
    cases msg.chunkMap.lookup k with
    | none => exact Option.Rel.none
    | some chunks => exact Option.Rel.some (equiv_reread chunks)
  · simp only [rereadMessage]
    rw [lookup_foldl_insert_entries rereadPeer]
    cases hlookup : msg.peerUpdates.lookup k with
    | none => exact Option.Rel.none
    | some peer =>
        have hid : peer.nodeId = k := h.peerIds ⟨k, peer⟩ (AList.mem_lookup_iff.mp hlookup)
        refine Option.Rel.some ⟨?_, equiv_reread peer.availableChunks⟩
        simp [rereadPeer, hid]

theorem twelve_le_length_serialize (msg : GossipMessage) :
    12 ≤ (serializeGossipMessage msg).length := by
  simp only [serializeGossipMessage, serializeBody, writeUInt32, List.length_append,
    length_bigEndian]
  omega

/-- Decoding an encoded message gives back the message. -/
theorem deserialize_serialize {msg : GossipMessage} (h : msg.Encodable) :
    ∃ msg', deserializeGossipMessage (serializeGossipMessage msg) = .ok msg' ∧
      msg.Equiv msg' := by
  have hread := consumes_checked h [] []
  simp only [List.nil_append, List.append_nil, List.length_nil] at hread
  refine ⟨rereadMessage msg, ?_, equiv_rereadMessage h⟩
  unfold deserializeGossipMessage
  rw [if_neg (by have := twelve_le_length_serialize msg; omega), hread]

def sampleMessage : GossipMessage where
  type := .chunkAnnounce
  sourceNodeId := ascii "A"
  timestamp := 1700000000000
  chunkMap := insertAt ∅ (ascii "A") (ascii "c_0")
  peerUpdates := AList.singleton (ascii "A")
    { nodeId := ascii "A", address := ascii "10.0.0.1", port := 9000, lastSeen := 1700000000
      latencyMs := ⟨0x3ff0000000000000⟩, availableChunks := HashSet.insert ∅ (ascii "c_0") }

theorem sampleMessage_encodable : sampleMessage.Encodable :=
  ⟨by decide, by decide, by decide, by decide, by decide, by decide⟩

theorem deserialize_serialize_sampleMessage :
    ∃ msg', deserializeGossipMessage (serializeGossipMessage sampleMessage) = .ok msg' ∧
      sampleMessage.Equiv msg' :=
  deserialize_serialize sampleMessage_encodable

/-! ## Reads inside the input -/

/-- The fields behind the version, in the order of the protocol description. -/
def gossipLayout : Layout :=
  let chunks : Layout := .counted (.text .done) .done
  let chunkEntry : Layout := .text chunks
  let peerEntry : Layout :=
    .text (.text
      (.fixed 2 (.fixed 2 (.fixed 8 (.fixed 8 (.fixed 8 (.fixed 8 (.fixed 8 chunks))))))))
  .fixed 4 (.text (.fixed 8 (.counted chunkEntry (.counted peerEntry .done))))

theorem follows_chunks {α : Type} (f : HashSet Bytes → α) :
    Follows (readChunks >>= fun chunks => pure (f chunks))
      (.counted (.text .done) .done) :=
  follows_counted (fun _ => follows_string fun _ => follows_pure _) fun _ => follows_pure _

theorem follows_chunkEntry (acc : AList fun _ : Bytes => HashSet Bytes) :
    Follows (readChunkEntry acc) (.text (.counted (.text .done) .done)) :=
  follows_string fun _ => follows_chunks _

theorem follows_peerEntry (acc : AList fun _ : Bytes => PeerNode) :
    Follows (readPeerEntry acc)
      (.text (.text (.fixed 2 (.fixed 2 (.fixed 8 (.fixed 8 (.fixed 8 (.fixed 8 (.fixed 8
        (.counted (.text .done) .done)))))))))) := by
  refine follows_string fun _ => follows_string fun _ => ?_
  refine follows_fixed fun _ => follows_fixed fun _ => ?_
  refine follows_fixed fun _ => follows_fixed fun _ => follows_fixed fun _ => ?_
  refine follows_fixed fun _ => follows_fixed fun _ => ?_
  exact follows_chunks _

theorem follows_body : Follows deserializeBody gossipLayout := by
  refine follows_fixed fun _ => follows_string fun _ => follows_fixed fun _ => ?_
  refine follows_counted follows_chunkEntry fun _ => ?_
  exact follows_counted follows_peerEntry fun _ => follows_pure _

def HasGossipHeader (data : Bytes) : Prop :=
  bigEndianValue (data.take 4) = gossipMagic.toNat ∧
    bigEndianValue ((data.drop 4).take 4) = gossipProtocolVersion.toNat

instance (data : Bytes) : Decidable (HasGossipHeader data) :=
  inferInstanceAs (Decidable (_ ∧ _))

theorem ofNat_bigEndianValue_take_eq_iff (bytes : Bytes) (n : UInt32) :
    UInt32.ofNat (bigEndianValue (bytes.take 4)) = n ↔
      bigEndianValue (bytes.take 4) = n.toNat := by
  rw [← UInt32.toNat_inj, toNat_ofNat_bigEndianValue_take]

/-- Behind a good header the decoder is the body decoder at offset 8, and
anything else is rejected. -/
theorem deserializeChecked_eq {data : Bytes} (h : 12 ≤ data.length) :
    deserializeChecked data 0 =
      if HasGossipHeader data then deserializeBody data 8 else .rejected := by
  have hmagic : readUInt32 data 0 = .ok (UInt32.ofNat (bigEndianValue (data.take 4)), 4) :=
    readUInt32_of_le (by omega)
  have hversion : readUInt32 data 4 =
      .ok (UInt32.ofNat (bigEndianValue ((data.drop 4).take 4)), 8) :=
    readUInt32_of_le (by omega)
  unfold deserializeChecked
  rw [bind_apply, hmagic]
  simp only [ne_eq, ofNat_bigEndianValue_take_eq_iff]
  by_cases hm : bigEndianValue (data.take 4) = gossipMagic.toNat
  · rw [if_neg (not_not.mpr hm), bind_apply, hversion]
    simp only [ofNat_bigEndianValue_take_eq_iff]
    by_cases hv : bigEndianValue ((data.drop 4).take 4) = gossipProtocolVersion.toNat
    · rw [if_neg (not_not.mpr hv)]
      exact (if_pos ⟨hm, hv⟩).symm
    · rw [if_pos hv]
      exact (if_neg fun h => hv h.2).symm
  · rw [if_pos hm]
    exact (if_neg fun h => hm h.1).symm

/-- Some read of the decoder goes past the end exactly when the header is good
and the bytes run out in a fixed-width field. -/
theorem deserialize_outOfBounds_iff (data : Bytes) :
    deserializeGossipMessage data = .outOfBounds ↔
      12 ≤ data.length ∧ HasGossipHeader data ∧
        gossipLayout.walk (data.drop 8) = .endsInFixed := by
  unfold deserializeGossipMessage
  by_cases hlength : data.length < 12
  · rw [if_pos hlength]
    simp
    omega
  · rw [if_neg hlength, deserializeChecked_eq (by omega)]
    by_cases hheader : HasGossipHeader data
    · have hfollows := follows_body data 8 (by omega)
      rw [if_pos hheader]
      cases hwalk : gossipLayout.walk (data.drop 8) with
      | complete rest =>
          rw [hwalk] at hfollows
          obtain ⟨msg, offset, hread, -, -⟩ := hfollows
          simp [hread]
      | endsInFixed =>
          rw [hwalk] at hfollows
          simp only [hfollows]
          simp [hheader]
          omega
      | endsInText =>
          rw [hwalk] at hfollows
          simp [hfollows]
    · rw [if_neg hheader]
      simp [hheader]

/-! ## Truncated messages -/

theorem take_serialize (msg : GossipMessage) :
    (serializeGossipMessage msg).take 4 = writeUInt32 gossipMagic ∧
      ((serializeGossipMessage msg).drop 4).take 4 = writeUInt32 gossipProtocolVersion ∧
        (serializeGossipMessage msg).drop 8 = serializeBody msg := by
  have hmagic : (writeUInt32 gossipMagic).length = 4 := length_bigEndian 4 _
  have hversion : (writeUInt32 gossipProtocolVersion).length = 4 := length_bigEndian 4 _
  have hdrop : (serializeGossipMessage msg).drop 4 =
      writeUInt32 gossipProtocolVersion ++ serializeBody msg :=
    List.drop_left' hmagic
  refine ⟨List.take_left' hmagic, ?_, ?_⟩
  · rw [hdrop]
    exact List.take_left' hversion
  · rw [show 8 = 4 + 4 from rfl, ← List.drop_drop, hdrop]
    exact List.drop_left' hversion

theorem of_serialize_prefix {msg : GossipMessage} {data rest : Bytes}
    (hfront : data ++ rest = serializeGossipMessage msg) (hlength : 12 ≤ data.length) :
    HasGossipHeader data ∧ data.drop 8 ++ rest = serializeBody msg := by
  obtain ⟨hmagic, hversion, hbody⟩ := take_serialize msg
  rw [← hfront] at hmagic hversion hbody
  rw [List.take_append_of_le_length (by omega)] at hmagic
  rw [List.drop_append_of_le_length (by omega),
    List.take_append_of_le_length (by simp; omega)] at hversion
  rw [List.drop_append_of_le_length (by omega)] at hbody
  refine ⟨⟨?_, ?_⟩, hbody⟩
  · rw [hmagic]
    exact bigEndianValue_bigEndian gossipMagic.toNat_lt
  · rw [hversion]
    exact bigEndianValue_bigEndian gossipProtocolVersion.toNat_lt

theorem walk_serialize {msg : GossipMessage} (h : msg.Encodable) :
    gossipLayout.walk (serializeBody msg) = .complete [] := by
  have hread := consumes_body h [] []
  have hfollows := follows_body (serializeBody msg) 0 (by omega)
  simp only [List.nil_append, List.append_nil, List.length_nil, Nat.zero_add] at hread
  rw [List.drop_zero] at hfollows
  cases hwalk : gossipLayout.walk (serializeBody msg) with
  | complete rest =>
      rw [hwalk] at hfollows
      obtain ⟨msg', offset, hread', -, rfl⟩ := hfollows
      rw [hread] at hread'
      cases hread'
      rw [List.drop_length]
  | endsInFixed =>
      rw [hwalk, hread] at hfollows
      cases hfollows
  | endsInText =>
      rw [hwalk, hread] at hfollows
      cases hfollows

def ReadsInside (data : Bytes) : Prop := deserializeGossipMessage data ≠ .outOfBounds

/-- If the input is an encoded message cut short, it is rejected. -/
def TruncationRejected (data : Bytes) : Prop :=
  ∀ msg : GossipMessage, msg.Encodable → data <+: serializeGossipMessage msg →
    data ≠ serializeGossipMessage msg → deserializeGossipMessage data = .rejected

theorem rejected_of_endsInText {data : Bytes} (hlength : 12 ≤ data.length)
    (hheader : HasGossipHeader data) (hwalk : gossipLayout.walk (data.drop 8) = .endsInText) :
    deserializeGossipMessage data = .rejected := by
  have hfollows := follows_body data 8 (by omega)
  rw [hwalk] at hfollows
  unfold deserializeGossipMessage
  rw [if_neg (by omega), deserializeChecked_eq hlength, if_pos hheader]
  simp only [hfollows]

/-- The decoder is safe on an input, and rejects it if it is a truncated
message, exactly when the input is too short, has a foreign header, or does not
break off in a fixed-width field. -/
theorem readsInside_and_truncationRejected_iff (data : Bytes) :
    ReadsInside data ∧ TruncationRejected data ↔
      data.length < 12 ∨ ¬ HasGossipHeader data ∨
        gossipLayout.walk (data.drop 8) ≠ .endsInFixed := by
  have hsafe : ReadsInside data ↔ data.length < 12 ∨ ¬ HasGossipHeader data ∨
      gossipLayout.walk (data.drop 8) ≠ .endsInFixed := by
    rw [ReadsInside, ne_eq, deserialize_outOfBounds_iff, ← Nat.not_lt]
    tauto
  rw [← hsafe]
  refine ⟨And.left, fun hinside => ⟨hinside, fun msg hmsg hfront hne => ?_⟩⟩
  obtain ⟨rest, hrest⟩ := hfront
  by_cases hlength : data.length < 12
  · exact if_pos hlength
  · obtain ⟨hheader, hbody⟩ := of_serialize_prefix hrest (by omega)
    cases hwalk : gossipLayout.walk (data.drop 8) with
    | complete left =>
        -- A walk that ends early would end in the same place on the full message.
        have hfull := Layout.walk_append rest hwalk
        rw [hbody, walk_serialize hmsg] at hfull
        have hnil := (Walk.complete.inj hfull).symm
        rw [(List.append_eq_nil_iff.mp hnil).2, List.append_nil] at hrest
        exact absurd hrest hne
    | endsInFixed =>
        exact absurd ((deserialize_outOfBounds_iff data).mpr ⟨by omega, hheader, hwalk⟩) hinside
    | endsInText => exact rejected_of_endsInText (by omega) hheader hwalk

/-- Twelve bytes with a good header pass the only size check, and the length of
the source node id is read behind them. -/
theorem outOfBounds_of_twelve_bytes :
    (serializeGossipMessage sampleMessage).take 12 <+: serializeGossipMessage sampleMessage ∧
    ¬ (ReadsInside ((serializeGossipMessage sampleMessage).take 12) ∧
      TruncationRejected ((serializeGossipMessage sampleMessage).take 12)) := by
  refine ⟨List.take_prefix _ _, fun h => h.1 ?_⟩
  rw [deserialize_outOfBounds_iff]
  decide

end ElioP2P.P2P
