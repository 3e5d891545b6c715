import ElioP2P.Proxy.Proofs.RangeGrammar
import ElioP2P.Storage.S3Client

/-!
# The Range header of `get_object`

`get_object` writes the header that `parse_range_header` of the proxy reads.  The
two agree on a range with an end.  For a range to the end of the object there is
no dash behind the offset, and the parser does not take it.
-/

namespace ElioP2P.Storage

open ElioP2P.Library
open ElioP2P.Proxy (parseRangeHeader parseRangeSpec ByteRange FirstSpec)

namespace S3Client

/-- The bytes that `get_object` is called for; a length of zero means up to the
end. -/
def wantedRange (offset length size : UInt64) : ByteRange :=
  { start := offset.toNat
    stop := if 0 < length then min (offset.toNat + length.toNat) size.toNat - 1
      else size.toNat - 1
    valid := true }

theorem toNat_lastByte {offset length : UInt64} (hlength : 0 < length)
    (hsum : offset.toNat + length.toNat < 2 ^ 64) :
    (offset + length - 1).toNat = offset.toNat + length.toNat - 1 := by
  have hpos : 0 < length.toNat := UInt64.lt_iff_toNat_lt.mp hlength
  have hadd : (offset + length).toNat = offset.toNat + length.toNat := by
    rw [UInt64.toNat_add, Nat.mod_eq_of_lt hsum]
  have hle : (1 : UInt64) ≤ offset + length := by
    rw [UInt64.le_iff_toNat_le, hadd]
    change 1 ≤ _
    omega
  rw [UInt64.toNat_sub_of_le _ _ hle, hadd]
  rfl

theorem parseRangeHeader_closed {start stop size : Nat} (hstop : stop < 2 ^ 64)
    (hle : start ≤ stop) (hsize : start < size) :
    parseRangeHeader (ascii "bytes=" ++ decimal start ++ (ascii "-" ++ decimal stop)) size =
      ⟨start, min stop (size - 1), true⟩ := by
  have hspec : FirstSpec (ascii "bytes=" ++ decimal start ++ (ascii "-" ++ decimal stop))
      (decimal start ++ 45 :: decimal stop) := by
    refine ⟨[], ?_, ?_, .inl rfl⟩
    · rw [List.append_nil, List.append_assoc]
      rfl
    · simp only [List.mem_append, List.mem_cons, not_or]
      exact ⟨notMem_decimal rfl start, by decide, notMem_decimal rfl stop⟩
  have hreadStart : stoull (decimal start) = some start := stoull_decimal (by omega)
  have hreadStop : stoull (decimal stop) = some stop := stoull_decimal hstop
  rw [Proxy.parseRangeHeader_of_firstSpec (by omega) hspec (notMem_decimal rfl start),
    parseRangeSpec, List.isEmpty_eq_false_iff.mpr (decimal_ne_nil start),
    List.isEmpty_eq_false_iff.mpr (decimal_ne_nil stop), hreadStart, hreadStop]
  have hsatisfiable : start < size ∧ start ≤ min stop (size - 1) := by omega
  simpa using hsatisfiable

theorem parseRangeHeader_open (start size : Nat) :
    (parseRangeHeader (ascii "bytes=" ++ decimal start) size).valid = false := by
  rw [← Bool.not_eq_true]
  intro hvalid
  obtain ⟨front, back, ⟨rest, heq, -⟩, -⟩ := Proxy.exists_firstSpec hvalid
  rw [List.append_cancel_left_eq] at heq
  have hdash : 45 ∈ decimal start := by
    rw [heq]
    simp
  exact notMem_decimal rfl start hdash

/-- The proxy reads from the header what `get_object` is called for exactly if
that range has a length. -/
theorem parseRangeHeader_getObjectRequest_iff (crypto : Crypto) (client : S3Client)
    (first second : Instant) (bucket key : Bytes) {offset length size : UInt64}
    (hset : 0 < offset ∨ 0 < length) (hsum : offset.toNat + length.toNat < 2 ^ 64)
    (hsize : offset < size) :
    (∃ header, (getObjectRequest crypto client first second bucket key offset length).extraHeaders =
        [(ascii "Range", header)] ∧
      parseRangeHeader header size.toNat = wantedRange offset length size) ↔ 0 < length := by
  have hlt : offset.toNat < size.toNat := UInt64.lt_iff_toNat_lt.mp hsize
  have hheaders :
      (getObjectRequest crypto client first second bucket key offset length).extraHeaders =
      (rangeHeader offset length).toList.map fun range => (ascii "Range", range) := rfl
  by_cases hlength : 0 < length
  · have hpos : 0 < length.toNat := UInt64.lt_iff_toNat_lt.mp hlength
    have hread := parseRangeHeader_closed
      (show offset.toNat + length.toNat - 1 < 2 ^ 64 by omega)
      (show offset.toNat ≤ offset.toNat + length.toNat - 1 by omega) hlt
    refine ⟨fun _ => hlength, fun _ => ⟨_, ?_, hread.trans ?_⟩⟩
    · rw [hheaders, rangeHeader, if_pos (by simp [hlength]), if_pos hlength,
        toNat_lastByte hlength hsum]
      rfl
    · rw [wantedRange, if_pos hlength]
      congr 1
      omega
  · refine ⟨?_, fun h => absurd h hlength⟩
    rintro ⟨header, hheader, hparse⟩
    have hoffset : 0 < offset := hset.resolve_right hlength
    rw [hheaders, rangeHeader, if_pos (by simp [hoffset]), if_neg hlength,
      List.append_nil] at hheader
    have hsent : ascii "bytes=" ++ decimal offset.toNat = header :=
      (Prod.ext_iff.mp (List.singleton_inj.mp hheader)).2
    have hvalid := parseRangeHeader_open offset.toNat size.toNat
    rw [hsent, hparse] at hvalid
    cases hvalid

/-- Bytes 5 to 14 of an object of 12 bytes. -/
theorem parseRangeHeader_getObjectRequest_inner :
    ∃ header, (getObjectRequest sampleCrypto sample ⟨0, by decide, by decide⟩
        ⟨0, by decide, by decide⟩ (ascii "bucket") (ascii "key") 5 10).extraHeaders =
        [(ascii "Range", header)] ∧
      parseRangeHeader header (12 : UInt64).toNat = wantedRange 5 10 12 :=
  (parseRangeHeader_getObjectRequest_iff _ _ _ _ _ _ (by decide) (by decide) (by decide)).mpr
    (by decide)

/-- Everything from the sixth byte on of an object of 12 bytes. -/
theorem parseRangeHeader_getObjectRequest_rest :
    ¬ ∃ header, (getObjectRequest sampleCrypto sample ⟨0, by decide, by decide⟩
        ⟨0, by decide, by decide⟩ (ascii "bucket") (ascii "key") 5 0).extraHeaders =
        [(ascii "Range", header)] ∧
      parseRangeHeader header (12 : UInt64).toNat = wantedRange 5 0 12 := by
  rintro ⟨header, hheader, hparse⟩
  have hsent : ascii "bytes=5" = header :=
    (Prod.ext_iff.mp (List.singleton_inj.mp hheader)).2
  have hvalid : (parseRangeHeader (ascii "bytes=5") (12 : UInt64).toNat).valid = false := by decide
  rw [hsent, hparse] at hvalid
  cases hvalid

end S3Client

end ElioP2P.Storage
