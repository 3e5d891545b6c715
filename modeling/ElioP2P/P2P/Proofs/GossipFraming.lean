import ElioP2P.Library.Pieces
import ElioP2P.P2P.GossipServer
import ElioP2P.P2P.Proofs.Delivery
import ElioP2P.P2P.Proofs.GossipCodec

/-!
# Framing of gossip messages

The payload is read in a loop, the length in front of it with a single read.
If that read brings fewer than four bytes, the rest of the length is taken from
memory that was never written, and what was meant as the rest of the length is
read as the beginning of the message, where it cannot pass for the magic number.
-/

namespace ElioP2P.P2P

open ElioP2P.Library

def gossipFrame (msg : GossipMessage) : Bytes :=
  sizeHeader (serializeGossipMessage msg) ++ serializeGossipMessage msg

def brings : (e : External) → List Bytes → Option (e.Answer × List Bytes)
  | .streamRead n, pieces => some (readPiece n pieces)
  | _, _ => none

/-! ## Reads -/

theorem runAlone_streamRead (n : Nat) (s : Node) (pieces : List Bytes) :
    (streamRead n).runAlone brings s pieces =
      some ((readPiece n pieces).1, s, (readPiece n pieces).2) :=
  rfl

theorem runAlone_readLoop {n rounds : Nat} {got : Bytes} {s : Node} {pieces : List Bytes}
    (hpieces : ∀ piece ∈ pieces, piece ≠ []) (hrounds : n ≤ got.length + rounds)
    (hgot : got.length ≤ n) :
    ∃ rest, (readLoop n rounds got).runAlone brings s pieces =
      some ((got ++ pieces.flatten).take n, s, rest) := by
  induction rounds generalizing got pieces with
  | zero =>
      have hfull : got.length = n := by omega
      refine ⟨pieces, ?_⟩
      rw [readLoop, ← hfull, List.take_left]
      rfl
  | succ rounds ih =>
      rw [readLoop]
      split
      · rename_i hmissing
        rw [Coroutine.runAlone_bind_of_eq (runAlone_streamRead _ s pieces)]
        have hflatten := readPiece_flatten (n - got.length) pieces
        split
        · rename_i hempty
          have hnil := readPiece_eq_nil (by omega) hpieces (List.isEmpty_iff.mp hempty)
          refine ⟨(readPiece (n - got.length) pieces).2, ?_⟩
          rw [hnil, List.flatten_nil, List.append_nil, List.take_of_length_le hgot]
          rfl
        · rename_i hsome
          have hlength := (readPiece (n - got.length) pieces).1.property
          have hpos : 0 < (readPiece (n - got.length) pieces).1.val.length := by
            rw [List.length_pos_iff_ne_nil]
            simpa using hsome
          have hmore : (got ++ (readPiece (n - got.length) pieces).1.val).length =
              got.length + (readPiece (n - got.length) pieces).1.val.length := List.length_append
          rw [← hflatten, ← List.append_assoc]
          refine ih (readPiece_nonempty hpieces) ?_ ?_
          · rw [hmore]
            omega
          · rw [hmore]
            omega
      · refine ⟨pieces, ?_⟩
        have hfull : got.length = n := by omega
        rw [← hfull, List.take_left]
        rfl

theorem runAlone_readExact {n : Nat} {s : Node} {pieces : List Bytes}
    (hpieces : ∀ piece ∈ pieces, piece ≠ []) :
    ∃ rest, (readExact n).runAlone brings s pieces = some (pieces.flatten.take n, s, rest) := by
  have hrounds : n ≤ ([] : Bytes).length + n := by simp
  exact runAlone_readLoop hpieces hrounds (Nat.zero_le n)

/-! ## The first read -/

/-- The first read brings its part of the length and leaves the rest of the
frame. -/
theorem readPiece_frame {msg : GossipMessage} {pieces : List Bytes}
    (hframe : pieces.flatten = gossipFrame msg) :
    (readPiece 4 pieces).2.flatten =
      (gossipFrame msg).drop (readPiece 4 pieces).1.val.length := by
  have hsplit := readPiece_flatten 4 pieces
  rw [hframe] at hsplit
  rw [← hsplit, List.drop_left]

theorem length_sizeHeader (data : Bytes) : (sizeHeader data).length = 4 := length_bigEndian 4 _

theorem gossipFrame_ne_nil (msg : GossipMessage) : gossipFrame msg ≠ [] := by
  intro h
  have hlength := congrArg List.length h
  rw [gossipFrame, List.length_append, length_sizeHeader, List.length_nil] at hlength
  omega

theorem readPiece_ne_nil {msg : GossipMessage} {pieces : List Bytes}
    (hpieces : ∀ piece ∈ pieces, piece ≠ []) (hframe : pieces.flatten = gossipFrame msg) :
    (readPiece 4 pieces).1.val ≠ [] := by
  intro hempty
  have hnil := readPiece_eq_nil (by decide) hpieces hempty
  rw [hnil] at hframe
  exact gossipFrame_ne_nil msg hframe.symm

theorem length_readPiece_iff {pieces : List Bytes} :
    (readPiece 4 pieces).1.val.length = 4 ↔ ∃ piece ∈ pieces.head?, 4 ≤ piece.length := by
  cases pieces with
  | nil => simp [readPiece]
  | cons piece pieces =>
      simp only [readPiece, List.length_take, List.head?_cons, Option.mem_def, Option.some.injEq,
        exists_eq_left']
      omega

theorem runAlone_receive_whole {msg : GossipMessage} {pieces : List Bytes} (buffer : Bytes)
    (s : Node) (hpieces : ∀ piece ∈ pieces, piece ≠ []) (hframe : pieces.flatten = gossipFrame msg)
    (hsize : (serializeGossipMessage msg).length ≤ maxMessageSize)
    (hwhole : (readPiece 4 pieces).1.val.length = 4) :
    ∃ rest, (receiveGossipMessage buffer).runAlone brings s pieces =
      some (deserializeGossipMessage (serializeGossipMessage msg), s, rest) := by
  have hrest := readPiece_frame hframe
  rw [hwhole, gossipFrame, List.drop_left' (length_sizeHeader _)] at hrest
  have hheader : (readPiece 4 pieces).1.val = sizeHeader (serializeGossipMessage msg) := by
    have hsplit := readPiece_flatten 4 pieces
    rw [hframe, gossipFrame] at hsplit
    exact (List.append_inj hsplit (by rw [hwhole, length_sizeHeader])).1
  have hvalue : bigEndianValue (((readPiece 4 pieces).1.val ++
      buffer.drop (readPiece 4 pieces).1.val.length).take 4) =
        (serializeGossipMessage msg).length := by
    have hlt : (serializeGossipMessage msg).length < 2 ^ 32 :=
      Nat.lt_of_le_of_lt hsize (by decide)
    rw [List.take_left' hwhole, hheader, sizeHeader, writeUInt32, UInt32.toNat_ofNat_of_lt' hlt]
    exact bigEndianValue_bigEndian (by rw [show (256 : Nat) ^ 4 = 2 ^ 32 by decide]; exact hlt)
  have hlong := twelve_le_length_serialize msg
  obtain ⟨rest, hread⟩ := runAlone_readExact (n := (serializeGossipMessage msg).length) (s := s)
    (readPiece_nonempty (n := 4) hpieces)
  rw [hrest, List.take_length] at hread
  refine ⟨rest, ?_⟩
  rw [receiveGossipMessage, Coroutine.runAlone_bind_of_eq (runAlone_streamRead 4 s pieces),
    if_neg (by simpa using readPiece_ne_nil hpieces hframe)]
  simp only [hvalue]
  rw [if_neg (by omega), Coroutine.runAlone_bind_of_eq hread, if_neg (by omega)]
  rfl

/-! ## An incomplete length -/

theorem deserialize_of_wrong_magic {data : Bytes} (h : data.take 4 ≠ writeUInt32 gossipMagic) :
    deserializeGossipMessage data = .rejected := by
  unfold deserializeGossipMessage
  split
  · rfl
  · rename_i hlength
    have hread : Decoder.readUInt32 data 0 = _ := Decoder.readUInt32_of_le (by omega)
    have hmagic : UInt32.ofNat (bigEndianValue (data.take 4)) ≠ gossipMagic := by
      intro hvalue
      have hfour : (data.take 4).length = 4 := by
        rw [List.length_take]
        omega
      have hbytes := bigEndian_bigEndianValue (data.take 4)
      rw [hfour, ← Decoder.toNat_ofNat_bigEndianValue_take, hvalue] at hbytes
      exact h hbytes.symm
    rw [List.drop_zero] at hread
    simp only [deserializeChecked, Decoder.bind_apply, hread]
    rw [if_pos hmagic]
    rfl

/-- Behind one, two or three bytes of the length the frame does not go on like
a message. -/
theorem not_magic_of_short {header tail : Bytes} {k : Nat} (hheader : header.length = 4)
    (hk : 0 < k) (hk' : k < 4) :
    ((header ++ (writeUInt32 gossipMagic ++ tail)).drop k).take 4 ≠ writeUInt32 gossipMagic := by
  obtain ⟨a, b, c, d, rfl⟩ := List.length_eq_four.mp hheader
  have hmagic : writeUInt32 gossipMagic = [0x47, 0x50, 0x53, 0x50] := by decide
  rw [hmagic]
  have hcases : k = 1 ∨ k = 2 ∨ k = 3 := by omega
  rcases hcases with rfl | rfl | rfl <;> simp

theorem runAlone_receive_short {msg : GossipMessage} {pieces : List Bytes} (buffer : Bytes)
    (s : Node) (hpieces : ∀ piece ∈ pieces, piece ≠ []) (hframe : pieces.flatten = gossipFrame msg)
    (hshort : (readPiece 4 pieces).1.val.length ≠ 4) :
    ∃ rest, (receiveGossipMessage buffer).runAlone brings s pieces =
      some (.rejected, s, rest) := by
  have hlength := (readPiece 4 pieces).1.property
  have hpos := List.length_pos_of_ne_nil (readPiece_ne_nil hpieces hframe)
  have hrest := readPiece_frame hframe
  rw [receiveGossipMessage, Coroutine.runAlone_bind_of_eq (runAlone_streamRead 4 s pieces),
    if_neg (by simpa using readPiece_ne_nil hpieces hframe)]
  simp only
  generalize bigEndianValue (((readPiece 4 pieces).1.val ++
    buffer.drop (readPiece 4 pieces).1.val.length).take 4) = msgSize
  split
  · exact ⟨_, rfl⟩
  · obtain ⟨rest, hread⟩ := runAlone_readExact (n := msgSize) (s := s)
      (readPiece_nonempty (n := 4) hpieces)
    rw [hrest] at hread
    refine ⟨rest, ?_⟩
    rw [Coroutine.runAlone_bind_of_eq hread]
    split
    · rfl
    · rename_i hlong
      have hreject : deserializeGossipMessage
          (((gossipFrame msg).drop (readPiece 4 pieces).1.val.length).take msgSize) =
            .rejected := by
        by_cases hfour : msgSize < 4
        · unfold deserializeGossipMessage
          rw [if_pos]
          have htake := List.length_take_le msgSize
            ((gossipFrame msg).drop (readPiece 4 pieces).1.val.length)
          omega
        · apply deserialize_of_wrong_magic
          rw [List.take_take, Nat.min_eq_left (by omega)]
          exact not_magic_of_short (length_sizeHeader _) hpos (by omega)
      rw [hreject]
      rfl

/-! ## Whole messages -/

def Passes (buffer : Bytes) (s : Node) (pieces : List Bytes) (msg : GossipMessage) : Prop :=
  ∃ msg' rest, msg.Equiv msg' ∧
    (handleTcpConnection buffer).runAlone brings s pieces =
      some (.ok msg', { s with discovery := s.discovery.handleGossipMessage msg' }, rest)

/-- Cut the frame of a message as you like: it is passed on exactly if the first
read brings the whole length. -/
theorem handleTcpConnection_passes_iff {msg : GossipMessage} {pieces : List Bytes}
    (buffer : Bytes) (s : Node) (hsize : (serializeGossipMessage msg).length ≤ maxMessageSize)
    (hcodec : ∃ msg', deserializeGossipMessage (serializeGossipMessage msg) = .ok msg' ∧
      msg.Equiv msg')
    (hpieces : ∀ piece ∈ pieces, piece ≠ []) (hframe : pieces.flatten = gossipFrame msg) :
    Passes buffer s pieces msg ↔ ∃ piece ∈ pieces.head?, 4 ≤ piece.length := by
  rw [← length_readPiece_iff]
  constructor
  · rintro ⟨msg', rest, -, hrun⟩
    by_contra hshort
    obtain ⟨rest', hreceive⟩ := runAlone_receive_short buffer s hpieces hframe hshort
    rw [handleTcpConnection, Coroutine.runAlone_bind_of_eq hreceive] at hrun
    cases hrun
  · intro hwhole
    obtain ⟨msg', hmsg', hequiv⟩ := hcodec
    obtain ⟨rest, hreceive⟩ := runAlone_receive_whole buffer s hpieces hframe hsize hwhole
    rw [hmsg'] at hreceive
    refine ⟨msg', rest, hequiv, ?_⟩
    rw [handleTcpConnection, Coroutine.runAlone_bind_of_eq hreceive]
    rfl

def sampleSplit : List Bytes :=
  sizeHeader (serializeGossipMessage sampleMessage) ::
    (serializeGossipMessage sampleMessage).map fun byte => [byte]

theorem handleTcpConnection_passes_sampleSplit :
    (serializeGossipMessage sampleMessage).length ≤ maxMessageSize ∧
      sampleSplit.flatten = gossipFrame sampleMessage ∧
      Passes [] sampleNode sampleSplit sampleMessage := by
  have hsize : (serializeGossipMessage sampleMessage).length ≤ maxMessageSize := by
    decide +kernel
  have hframe : sampleSplit.flatten = gossipFrame sampleMessage := by decide +kernel
  have hpieces : ∀ piece ∈ sampleSplit, piece ≠ [] := by decide +kernel
  have hcodec := deserialize_serialize sampleMessage_encodable
  refine ⟨hsize, hframe, ?_⟩
  rw [handleTcpConnection_passes_iff [] sampleNode hsize hcodec hpieces hframe]
  exact ⟨sizeHeader (serializeGossipMessage sampleMessage), rfl, (length_sizeHeader _).ge⟩

/-- The network splits the length in the middle, and the message is dropped. -/
def splitLength : List Bytes :=
  [(gossipFrame sampleMessage).take 2, (gossipFrame sampleMessage).drop 2]

theorem not_passes_splitLength :
    (serializeGossipMessage sampleMessage).length ≤ maxMessageSize ∧
      (∃ msg', deserializeGossipMessage (serializeGossipMessage sampleMessage) = .ok msg' ∧
        sampleMessage.Equiv msg') ∧
      (∀ piece ∈ splitLength, piece ≠ []) ∧ splitLength.flatten = gossipFrame sampleMessage ∧
      ¬ Passes [0, 0, 0, 0] sampleNode splitLength sampleMessage := by
  have hframe : splitLength.flatten = gossipFrame sampleMessage := by decide +kernel
  have hpieces : ∀ piece ∈ splitLength, piece ≠ [] := by decide +kernel
  refine ⟨by decide +kernel, deserialize_serialize sampleMessage_encodable, hpieces, hframe, ?_⟩
  rintro ⟨msg', rest, -, hrun⟩
  have hshort : (readPiece 4 splitLength).1.val.length ≠ 4 := by decide +kernel
  obtain ⟨rest', hreceive⟩ :=
    runAlone_receive_short [0, 0, 0, 0] sampleNode hpieces hframe hshort
  rw [handleTcpConnection, Coroutine.runAlone_bind_of_eq hreceive] at hrun
  cases hrun

end ElioP2P.P2P
