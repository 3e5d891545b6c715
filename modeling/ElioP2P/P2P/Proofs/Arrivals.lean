import ElioP2P.P2P.GossipNetwork
import ElioP2P.P2P.Proofs.GossipFraming
import ElioP2P.P2P.Proofs.MessageSize

/-!
# What arrives of a gossip message

TCP may cut a frame anywhere and break off anywhere, and with a short first read
the length is partly taken from memory that was never written.  None of this
makes a receiver hand on anything but the message that was sent.
-/

namespace ElioP2P.P2P

open ElioP2P.Library

/-! ## The bytes -/

theorem take_eq_of_front {bytes whole : Bytes} {n : Nat} (h : bytes <+: whole)
    (hn : n ≤ bytes.length) : bytes.take n = whole.take n := by
  obtain ⟨tail, rfl⟩ := h
  rw [List.take_append_of_le_length hn]

theorem runAlone_receive_front {msg : GossipMessage} {pieces : List Bytes} (buffer : Bytes)
    (s : Node) (hpieces : ∀ piece ∈ pieces, piece ≠ [])
    (hframe : pieces.flatten <+: gossipFrame msg) :
    ∃ outcome rest, (receiveGossipMessage buffer).runAlone brings s pieces =
        some (outcome, s, rest) ∧
      (outcome = .rejected ∨ outcome = arrival msg ∧
        4 + (UInt32.ofNat (serializeGossipMessage msg).length).toNat ≤ pieces.flatten.length) := by
  have hsplit := readPiece_flatten 4 pieces
  have hshort := (readPiece 4 pieces).1.property
  generalize hheader : (readPiece 4 pieces).1.val = header at hsplit hshort
  generalize hbehind : (readPiece 4 pieces).2.flatten = behind at hsplit
  rw [← hsplit] at hframe
  obtain ⟨tail, htail⟩ := hframe
  rw [List.append_assoc] at htail
  have hbehind' : behind <+: (gossipFrame msg).drop header.length := by
    rw [← htail, List.drop_left]
    exact List.prefix_append _ _
  rw [receiveGossipMessage, Coroutine.runAlone_bind_of_eq (runAlone_streamRead 4 s pieces)]
  simp only [hheader]
  split
  · exact ⟨_, _, rfl, Or.inl rfl⟩
  · rename_i hsome
    generalize hsize : bigEndianValue ((header ++ buffer.drop header.length).take 4) = msgSize
    split
    · exact ⟨_, _, rfl, Or.inl rfl⟩
    · rename_i hbounds
      obtain ⟨rest, hread⟩ := runAlone_readExact (n := msgSize) (s := s)
        (readPiece_nonempty (n := 4) hpieces)
      rw [hbehind] at hread
      rw [Coroutine.runAlone_bind_of_eq hread]
      split
      · exact ⟨_, _, rfl, Or.inl rfl⟩
      · rename_i hlong
        refine ⟨_, _, rfl, ?_⟩
        have henough : msgSize ≤ behind.length := by
          rw [List.length_take] at hlong
          omega
        rw [take_eq_of_front hbehind' henough]
        by_cases hwhole : header.length = 4
        · -- The length is that of the frame.
          right
          have hvalue : msgSize =
              (UInt32.ofNat (serializeGossipMessage msg).length).toNat := by
            have hsame : header = sizeHeader (serializeGossipMessage msg) :=
              (List.append_inj htail (by rw [hwhole, length_sizeHeader])).1
            rw [← hsize, List.take_left' hwhole, hsame, sizeHeader, writeUInt32]
            exact bigEndianValue_bigEndian (UInt32.toNat_lt _)
          rw [hwhole, gossipFrame, List.drop_left' (length_sizeHeader _), arrival, ← hvalue,
            if_neg hbounds, ← hsplit, List.length_append, hwhole]
          exact ⟨rfl, by omega⟩
        · -- The rest of the length stands where the magic number should be.
          left
          have hpos : 0 < header.length := by
            rw [List.length_pos_iff_ne_nil]
            simpa using hsome
          by_cases hfour : msgSize < 4
          · unfold deserializeGossipMessage
            rw [if_pos]
            have htake := List.length_take_le msgSize ((gossipFrame msg).drop header.length)
            omega
          · apply deserialize_of_wrong_magic
            rw [List.take_take, Nat.min_eq_left (by omega)]
            exact not_magic_of_short (length_sizeHeader _) hpos (by omega)

/-! ## The message -/

/-- The record with the id that it is filed under; on the wire it has no other. -/
def PeerNode.named (nodeId : Bytes) (peer : PeerNode) : PeerNode := { peer with nodeId := nodeId }

def GossipMessage.named (msg : GossipMessage) : GossipMessage :=
  { msg with peerUpdates := mapValues PeerNode.named msg.peerUpdates }

theorem serialize_named (msg : GossipMessage) :
    serializeGossipMessage msg.named = serializeGossipMessage msg := by
  have hpeers : writeCounted serializePeerEntry msg.named.peerUpdates.entries =
      writeCounted serializePeerEntry msg.peerUpdates.entries := by
    simp only [GossipMessage.named, mapValues, writeCounted, List.length_map, List.flatMap_map]
    rfl
  rw [serializeGossipMessage, serializeBody, hpeers]
  rfl

theorem chunksFit_of_size {chunks : HashSet Bytes} (h : chunksSize chunks < 2 ^ 32) :
    ChunksFit chunks := by
  unfold chunksSize at h
  constructor
  · have hcount := List.length_le_sum_of_one_le (chunks.toList.map fun chunk => 4 + chunk.length)
      (by simp; omega)
    rw [List.length_map] at hcount
    omega
  · intro chunk hchunk
    have hle := List.single_le_sum (fun n _ => Nat.zero_le n) _
      (List.mem_map_of_mem (f := fun chunk : Bytes => 4 + chunk.length) hchunk)
    omega

theorem encodable_named {msg : GossipMessage}
    (h : (serializeGossipMessage msg).length < 2 ^ 32) : msg.named.Encodable := by
  rw [← serialize_named, length_serializeGossipMessage] at h
  have hchunks : ∀ e ∈ msg.named.chunkMap.entries, chunkEntrySize e < 2 ^ 32 := by
    intro e he
    have hle := List.single_le_sum (fun n _ => Nat.zero_le n) _
      (List.mem_map_of_mem (f := chunkEntrySize) he)
    omega
  have hpeers : ∀ e ∈ msg.named.peerUpdates.entries, peerEntrySize e < 2 ^ 32 := by
    intro e he
    have hle := List.single_le_sum (fun n _ => Nat.zero_le n) _
      (List.mem_map_of_mem (f := peerEntrySize) he)
    omega
  have hchunkCount := List.length_le_sum_of_one_le (msg.named.chunkMap.entries.map chunkEntrySize)
    (by simp [chunkEntrySize]; omega)
  have hpeerCount := List.length_le_sum_of_one_le (msg.named.peerUpdates.entries.map peerEntrySize)
    (by simp [peerEntrySize]; omega)
  rw [List.length_map] at hchunkCount hpeerCount
  refine ⟨by omega, by omega, fun e he => ?_, by omega, fun e he => ?_, fun e he => ?_⟩
  · have hsize := hchunks e he
    unfold chunkEntrySize at hsize
    exact ⟨by omega, chunksFit_of_size (by omega)⟩
  · have hsize := hpeers e he
    unfold peerEntrySize at hsize
    exact ⟨by omega, by omega, chunksFit_of_size (by omega)⟩
  · simp only [GossipMessage.named, mapValues, List.mem_map] at he
    obtain ⟨old, -, rfl⟩ := he
    rfl

/-- A message of less than 4 GiB is refused, or arrives as it is. -/
theorem arrival_cases {msg : GossipMessage}
    (h : (serializeGossipMessage msg).length < 2 ^ 32) :
    arrival msg = .rejected ∨ ∃ msg', arrival msg = .ok msg' ∧ msg.named.Equiv msg' := by
  obtain ⟨msg', hread, hequiv⟩ := deserialize_serialize (encodable_named h)
  rw [serialize_named] at hread
  unfold arrival
  simp only [UInt32.toNat_ofNat_of_lt' h, List.take_length]
  split
  · exact Or.inl rfl
  · exact Or.inr ⟨msg', hread, hequiv⟩

/-- Nothing has been passed on, or the message, once, and all of its frame has
arrived. -/
def HandsOn (msg : GossipMessage) (pieces : List Bytes) (s : Node)
    (outcome : Outcome GossipMessage) (s' : Node) : Prop :=
  (outcome = .rejected ∧ s' = s) ∨
    ∃ msg', outcome = .ok msg' ∧ msg.named.Equiv msg' ∧ pieces.flatten = gossipFrame msg ∧
      s' = { s with discovery := s.discovery.handleGossipMessage msg' }

/-- However the frame of a message is cut and wherever it breaks off, whatever is
in the buffer. -/
theorem handleTcpConnection_handsOn {msg : GossipMessage} {pieces : List Bytes} (buffer : Bytes)
    (s : Node) (hsize : (serializeGossipMessage msg).length < 2 ^ 32)
    (hpieces : ∀ piece ∈ pieces, piece ≠ []) (hframe : pieces.flatten <+: gossipFrame msg) :
    ∃ outcome s' rest, (handleTcpConnection buffer).runAlone brings s pieces =
        some (outcome, s', rest) ∧ HandsOn msg pieces s outcome s' := by
  obtain ⟨outcome, rest, hreceive, houtcome⟩ :=
    runAlone_receive_front buffer s hpieces hframe
  rw [handleTcpConnection, Coroutine.runAlone_bind_of_eq hreceive]
  rcases houtcome with rfl | ⟨rfl, hlength⟩
  · exact ⟨_, _, _, rfl, Or.inl ⟨rfl, rfl⟩⟩
  · rcases arrival_cases hsize with hrefused | ⟨msg', harrived, hequiv⟩
    · rw [hrefused]
      exact ⟨_, _, _, rfl, Or.inl ⟨rfl, rfl⟩⟩
    · rw [harrived]
      refine ⟨_, _, _, rfl, Or.inr ⟨msg', rfl, hequiv, ?_, rfl⟩⟩
      apply hframe.eq_of_length_le
      rw [UInt32.toNat_ofNat_of_lt' hsize] at hlength
      rw [gossipFrame, List.length_append, length_sizeHeader]
      exact hlength

/-- The frame of a message that breaks off in the middle, in two pieces. -/
theorem handleTcpConnection_handsOn_broken :
    ∃ outcome s' rest, (handleTcpConnection [7, 7, 7, 7]).runAlone brings sampleNode
        [(gossipFrame sampleMessage).take 2, ((gossipFrame sampleMessage).take 40).drop 2] =
          some (outcome, s', rest) ∧
      HandsOn sampleMessage
        [(gossipFrame sampleMessage).take 2, ((gossipFrame sampleMessage).take 40).drop 2]
        sampleNode outcome s' := by
  have hflatten : [(gossipFrame sampleMessage).take 2,
      ((gossipFrame sampleMessage).take 40).drop 2].flatten =
        (gossipFrame sampleMessage).take 40 := by decide +kernel
  refine handleTcpConnection_handsOn _ _ (by decide +kernel) (by decide +kernel) ?_
  rw [hflatten]
  exact List.take_prefix 40 _

end ElioP2P.P2P
