import ElioP2P.Library.Bytes

/-!
# A hash function and its printed form

SHA-256 is used through two functions: the raw 32-byte digest and its text of
64 lower-case hexadecimal digits.  Nothing else about it is assumed; in
particular it may have collisions.
-/

namespace ElioP2P.Library

def hexDigit (nibble : UInt8) : UInt8 :=
  if nibble < 10 then 48 + nibble else 87 + nibble

def hexEncode (bytes : Bytes) : Bytes :=
  bytes.flatMap fun b => [hexDigit (b / 16), hexDigit (b % 16)]

structure Sha256 where
  digest : Bytes → Bytes
  digest_length : ∀ data, (digest data).length = 32

namespace Sha256

variable (H : Sha256)

def hex (data : Bytes) : Bytes := hexEncode (H.digest data)

theorem isSpace_hexDigit {nibble : UInt8} (h : nibble < 16) :
    isSpace (hexDigit nibble) = false := by
  have hlt : nibble.toNat < 16 := by simpa [UInt8.lt_iff_toNat_lt] using h
  have hcases : ∀ n < 16, isSpace (hexDigit (UInt8.ofNat n)) = false := by decide
  simpa using hcases nibble.toNat hlt

theorem length_hexEncode (bytes : Bytes) : (hexEncode bytes).length = 2 * bytes.length := by
  induction bytes with
  | nil => rfl
  | cons b bytes ih =>
      simp only [hexEncode, List.flatMap_cons, List.length_append, List.length_cons,
        List.length_nil] at ih ⊢
      omega

theorem length_hex (data : Bytes) : (H.hex data).length = 64 := by
  rw [hex, length_hexEncode, H.digest_length]

theorem hex_ne_nil (data : Bytes) : H.hex data ≠ [] :=
  List.ne_nil_of_length_pos (by rw [H.length_hex]; decide)

theorem hex_no_space (data : Bytes) : ∀ b ∈ H.hex data, isSpace b = false := by
  intro b hb
  simp only [hex, hexEncode, List.mem_flatMap, List.mem_cons, List.not_mem_nil,
    or_false] at hb
  obtain ⟨d, -, rfl | rfl⟩ := hb
  · apply isSpace_hexDigit
    rw [UInt8.lt_iff_toNat_lt]
    have := d.toNat_lt
    simp
    omega
  · apply isSpace_hexDigit
    rw [UInt8.lt_iff_toNat_lt]
    simp
    omega

/-- The hash with the given values on finitely many inputs and a zero digest
elsewhere. -/
def table (values : List (Bytes × Bytes)) : Sha256 where
  digest data := (((values.lookup data).getD []) ++ List.replicate 32 0).take 32
  digest_length data := by simp

end Sha256

end ElioP2P.Library
