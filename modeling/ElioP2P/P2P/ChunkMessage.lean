import ElioP2P.Library.Sha256
import ElioP2P.Library.WireFormat

/-!
# The header of a chunk transfer message

`ChunkMessageHeader` of `include/eliop2p/p2p/transfer.h` and its two
conversions in `src/p2p/transfer.cpp`.  The struct is packed and goes onto the
wire as it is, with its integers in network order: 57 bytes.
-/

namespace ElioP2P.P2P

open ElioP2P.Library

def chunkTransferMagic : UInt32 := 0x43484B50

def chunkTransferVersion : UInt32 := 1

inductive ChunkMessageType where
  | request
  | response
  | error
  | ack
  | upload
  deriving DecidableEq

def ChunkMessageType.toUInt32 : ChunkMessageType → UInt32
  | .request => 1
  | .response => 2
  | .error => 3
  | .ack => 4
  | .upload => 5

structure ChunkMessageHeader where
  magic : UInt32 := chunkTransferMagic
  version : UInt32 := chunkTransferVersion
  messageType : UInt32
  chunkIdLength : UInt32
  dataLength : UInt32 := 0
  hash : Bytes := List.replicate 32 0
  hash_length : hash.length = 32 := by simp
  sequenceNumber : UInt32 := 0
  flags : UInt8 := 0

namespace ChunkMessageHeader

def flagResume : UInt8 := 0x01

def flagLastPart : UInt8 := 0x04

/-- `sizeof(ChunkMessageHeader)` -/
def size : Nat := 57

end ChunkMessageHeader

abbrev WireHeader := { bytes : Bytes // bytes.length = ChunkMessageHeader.size }

def headerBytes (h : ChunkMessageHeader) : Bytes :=
  writeUInt32 h.magic ++ (writeUInt32 h.version ++ (writeUInt32 h.messageType ++
    (writeUInt32 h.chunkIdLength ++ (writeUInt32 h.dataLength ++ (h.hash ++
      (writeUInt32 h.sequenceNumber ++ [h.flags]))))))

def headerToWire (h : ChunkMessageHeader) : WireHeader :=
  ⟨headerBytes h, by
    simp [headerBytes, writeUInt32, h.hash_length, ChunkMessageHeader.size]⟩

def fieldAt (wire : WireHeader) (offset : Nat) : UInt32 :=
  UInt32.ofNat (bigEndianValue ((wire.val.drop offset).take 4))

def headerFromWire (wire : WireHeader) : ChunkMessageHeader where
  magic := fieldAt wire 0
  version := fieldAt wire 4
  messageType := fieldAt wire 8
  chunkIdLength := fieldAt wire 12
  dataLength := fieldAt wire 16
  hash := (wire.val.drop 20).take 32
  hash_length := by
    have hlength := wire.property
    simp [ChunkMessageHeader.size] at hlength
    simp [hlength]
  sequenceNumber := fieldAt wire 52
  flags := (wire.val.drop 56).headD 0

theorem length_headerBytes (h : ChunkMessageHeader) :
    (headerBytes h).length = ChunkMessageHeader.size := (headerToWire h).property

theorem writeUInt32_fieldAt {wire : WireHeader} {offset : Nat}
    (h : offset + 4 ≤ ChunkMessageHeader.size) :
    writeUInt32 (fieldAt wire offset) = (wire.val.drop offset).take 4 := by
  have hlength : ((wire.val.drop offset).take 4).length = 4 := by
    rw [List.length_take, List.length_drop, wire.property]
    omega
  have hlt := bigEndianValue_lt ((wire.val.drop offset).take 4)
  rw [hlength] at hlt
  have hvalue : (fieldAt wire offset).toNat = bigEndianValue ((wire.val.drop offset).take 4) := by
    rw [fieldAt, UInt32.toNat_ofNat']
    exact Nat.mod_eq_of_lt hlt
  have hbytes := bigEndian_bigEndianValue ((wire.val.drop offset).take 4)
  rw [hlength] at hbytes
  rw [writeUInt32, hvalue, hbytes]

theorem headerBytes_headerFromWire (wire : WireHeader) :
    headerBytes (headerFromWire wire) = wire.val := by
  have hlength : wire.val.length = 57 := wire.property
  have hcut : ∀ (offset n : Nat), (wire.val.drop offset).take n ++ wire.val.drop (offset + n)
      = wire.val.drop offset := by
    intro offset n
    rw [← List.drop_drop, List.take_append_drop]
  have hflags : [(wire.val.drop 56).headD 0] = wire.val.drop 56 := by
    have hone : (wire.val.drop 56).length = 1 := by rw [List.length_drop, hlength]
    obtain ⟨b, hb⟩ := List.length_eq_one_iff.mp hone
    rw [hb]
    rfl
  simp only [headerBytes, headerFromWire]
  rw [hflags]
  repeat rw [writeUInt32_fieldAt (by decide)]
  rw [hcut 52 4, hcut 20 32, hcut 16 4, hcut 12 4, hcut 8 4, hcut 4 4, hcut 0 4]
  rfl

theorem writeUInt32_injective {m n : UInt32} (h : writeUInt32 m = writeUInt32 n) : m = n := by
  have hvalue : ∀ k : UInt32, bigEndianValue (writeUInt32 k) = k.toNat := fun k =>
    bigEndianValue_bigEndian k.toNat_lt
  apply UInt32.toNat_inj.mp
  rw [← hvalue m, h, hvalue n]

theorem length_writeUInt32 (n : UInt32) : (writeUInt32 n).length = 4 := length_bigEndian 4 n.toNat

/-- Fields of fixed width can be told apart on the wire. -/
theorem headerBytes_injective {h h' : ChunkMessageHeader} (heq : headerBytes h = headerBytes h') :
    h = h' := by
  have hword : ∀ {m n : UInt32} {a b : Bytes}, writeUInt32 m ++ a = writeUInt32 n ++ b →
      m = n ∧ a = b := by
    intro m n a b hab
    have hlength : (writeUInt32 m).length = (writeUInt32 n).length := by
      rw [length_writeUInt32, length_writeUInt32]
    obtain ⟨hmn, hrest⟩ := List.append_inj hab hlength
    exact ⟨writeUInt32_injective hmn, hrest⟩
  unfold headerBytes at heq
  obtain ⟨hmagic, heq⟩ := hword heq
  obtain ⟨hversion, heq⟩ := hword heq
  obtain ⟨htype, heq⟩ := hword heq
  obtain ⟨hid, heq⟩ := hword heq
  obtain ⟨hdata, heq⟩ := hword heq
  obtain ⟨hhash, heq⟩ := List.append_inj heq (by rw [h.hash_length, h'.hash_length])
  obtain ⟨hsequence, hflags⟩ := hword heq
  have hflag := List.head_eq_of_cons_eq hflags
  cases h
  cases h'
  simp only at hmagic hversion htype hid hdata hhash hsequence hflag
  subst hmagic hversion htype hid hdata hhash hsequence hflag
  rfl

theorem headerFromWire_headerToWire (h : ChunkMessageHeader) :
    headerFromWire (headerToWire h) = h :=
  headerBytes_injective (headerBytes_headerFromWire (headerToWire h))

end ElioP2P.P2P
