import ElioP2P.Library.Numerals
import Mathlib.Data.List.Infix

/-!
# Percent-encoding

Bytes outside of a set are written as `%` and two upper-case hexadecimal digits.
As long as `%` itself is not in the set, the text can be decoded again, so no two
texts have the same encoding.  Decoding takes the digits in either case, so it
changes every text that has a `%` in front of two of them.
-/

namespace ElioP2P.Library

/-- RFC 3986 unreserved: letters, digits and `-`, `_`, `.`, `~`. -/
def isUnreserved (b : UInt8) : Bool :=
  isAlnum b || b == 45 || b == 95 || b == 46 || b == 126

def upperHexDigit (d : Nat) : UInt8 := UInt8.ofNat (if d < 10 then 48 + d else 55 + d)

/-- `%XX` -/
def percentEscape (b : UInt8) : Bytes :=
  [37, upperHexDigit (b.toNat / 16), upperHexDigit (b.toNat % 16)]

def percentEncode (kept : UInt8 → Bool) (text : Bytes) : Bytes :=
  text.flatMap fun b => if kept b then [b] else percentEscape b

def isUpperHexDigit (b : UInt8) : Bool := isDigit b || (65 ≤ b && b ≤ 70)

def percentDecode : Bytes → Bytes
  | b :: high :: low :: rest =>
      if b == 37 && isHexadecimalDigit high && isHexadecimalDigit low then
        UInt8.ofNat (hexValue [high, low]) :: percentDecode rest
      else b :: percentDecode (high :: low :: rest)
  | text => text

/-- Somewhere a `%` stands in front of two hexadecimal digits. -/
def HasEscape (text : Bytes) : Prop :=
  ∃ high low, isHexadecimalDigit high = true ∧ isHexadecimalDigit low = true ∧
    [37, high, low] <:+: text

inductive PercentEncoded (kept : UInt8 → Bool) : Bytes → Prop
  | nil : PercentEncoded kept []
  | byte {b : UInt8} {rest : Bytes} (hb : kept b = true) (hrest : PercentEncoded kept rest) :
      PercentEncoded kept (b :: rest)
  | escape {high low : UInt8} {rest : Bytes} (hhigh : isUpperHexDigit high = true)
      (hlow : isUpperHexDigit low = true) (hrest : PercentEncoded kept rest) :
      PercentEncoded kept (37 :: high :: low :: rest)

namespace PercentEncoded

variable {kept : UInt8 → Bool}

theorem append {a b : Bytes} (ha : PercentEncoded kept a) (hb : PercentEncoded kept b) :
    PercentEncoded kept (a ++ b) := by
  induction ha with
  | nil => exact hb
  | byte hbyte _ ih => exact .byte hbyte ih
  | escape hhigh hlow _ ih => exact .escape hhigh hlow ih

theorem mono {kept' : UInt8 → Bool} (h : ∀ b, kept b = true → kept' b = true) {text : Bytes}
    (htext : PercentEncoded kept text) : PercentEncoded kept' text := by
  induction htext with
  | nil => exact .nil
  | byte hbyte _ ih => exact .byte (h _ hbyte) ih
  | escape hhigh hlow _ ih => exact .escape hhigh hlow ih

theorem mem {text : Bytes} (htext : PercentEncoded kept text) {b : UInt8} (hb : b ∈ text) :
    kept b = true ∨ b = 37 ∨ isUpperHexDigit b = true := by
  induction htext with
  | nil => cases hb
  | byte hbyte _ ih =>
      rcases List.mem_cons.mp hb with rfl | hrest
      · exact .inl hbyte
      · exact ih hrest
  | escape hhigh hlow _ ih =>
      simp only [List.mem_cons] at hb
      rcases hb with rfl | rfl | rfl | hrest
      · exact .inr (.inl rfl)
      · exact .inr (.inr hhigh)
      · exact .inr (.inr hlow)
      · exact ih hrest

end PercentEncoded

/-! ## Round trip -/

theorem upperHexDigit_spec {d : Nat} (hd : d < 16) :
    isUpperHexDigit (upperHexDigit d) = true ∧ hexDigitValue (upperHexDigit d) = some d := by
  have hall : ∀ d : Fin 16, isUpperHexDigit (upperHexDigit d) = true ∧
      hexDigitValue (upperHexDigit d) = some d.val := by decide
  exact hall ⟨d, hd⟩

theorem percentDecode_escape (b : UInt8) (rest : Bytes) :
    percentDecode (percentEscape b ++ rest) = b :: percentDecode rest := by
  have hb := b.toNat_lt
  obtain ⟨-, hhigh⟩ := upperHexDigit_spec (show b.toNat / 16 < 16 by omega)
  obtain ⟨-, hlow⟩ := upperHexDigit_spec (show b.toNat % 16 < 16 by omega)
  have hvalue : hexValue [upperHexDigit (b.toNat / 16), upperHexDigit (b.toNat % 16)] =
      b.toNat := by
    simp only [hexValue, List.foldl_cons, List.foldl_nil, hhigh, hlow, Option.getD_some]
    omega
  simp only [percentEscape, List.cons_append, List.nil_append]
  rw [percentDecode, hvalue]
  simp only [beq_self_eq_true, isHexadecimalDigit, hhigh, hlow, Option.isSome_some, Bool.and_self,
    if_true, UInt8.ofNat_toNat]

theorem percentDecode_cons {b : UInt8} (hb : b ≠ 37) (rest : Bytes) :
    percentDecode (b :: rest) = b :: percentDecode rest := by
  rcases rest with _ | ⟨high, _ | ⟨low, rest⟩⟩
  · rfl
  · rfl
  · rw [percentDecode, beq_eq_false_iff_ne.mpr hb]
    rfl

/-! ## Decoding -/

theorem percentDecode_short {text : Bytes} (h : text.length < 3) : percentDecode text = text := by
  rcases text with _ | ⟨a, _ | ⟨b, _ | ⟨c, rest⟩⟩⟩
  · rfl
  · rfl
  · rfl
  · simp only [List.length_cons] at h
    omega

theorem percentDecode_induction {motive : Bytes → Prop}
    (escape : ∀ b high low rest,
      (b == 37 && isHexadecimalDigit high && isHexadecimalDigit low) = true →
      motive rest → motive (b :: high :: low :: rest))
    (plain : ∀ b high low rest,
      ¬ (b == 37 && isHexadecimalDigit high && isHexadecimalDigit low) = true →
      motive (high :: low :: rest) → motive (b :: high :: low :: rest))
    (short : ∀ text, text.length < 3 → motive text) (text : Bytes) : motive text := by
  induction h : text.length using Nat.strongRecOn generalizing text with
  | ind n ih =>
      rcases text with _ | ⟨b, _ | ⟨high, _ | ⟨low, rest⟩⟩⟩
      · exact short [] (by simp)
      · exact short [b] (by simp)
      · exact short [b, high] (by simp)
      · simp only [List.length_cons] at h
        by_cases hescape : (b == 37 && isHexadecimalDigit high && isHexadecimalDigit low) = true
        · exact escape b high low rest hescape (ih _ (by omega) rest rfl)
        · exact plain b high low rest hescape
            (ih _ (by simp only [List.length_cons]; omega) (high :: low :: rest) rfl)

theorem length_percentDecode_le (text : Bytes) : (percentDecode text).length ≤ text.length := by
  induction text using percentDecode_induction with
  | escape b high low rest hescape ih =>
      rw [percentDecode, if_pos hescape]
      simp only [List.length_cons]
      omega
  | plain b high low rest hplain ih =>
      rw [percentDecode, if_neg hplain]
      exact Nat.succ_le_succ ih
  | short text hshort => rw [percentDecode_short hshort]

theorem percentDecode_eq_self_iff {text : Bytes} :
    percentDecode text = text ↔ ¬ HasEscape text := by
  induction text using percentDecode_induction with
  | escape b high low rest hescape _ =>
      rw [percentDecode, if_pos hescape]
      simp only [Bool.and_eq_true, beq_iff_eq] at hescape
      obtain ⟨⟨rfl, hhigh⟩, hlow⟩ := hescape
      have hlength := length_percentDecode_le rest
      constructor
      · intro heq
        have h := congrArg List.length heq
        simp only [List.length_cons] at h
        omega
      · intro h
        have hprefix : [37, high, low] <+: 37 :: high :: low :: rest := List.prefix_append _ rest
        exact absurd ⟨high, low, hhigh, hlow, hprefix.isInfix⟩ h
  | plain b high low rest hplain ih =>
      rw [percentDecode, if_neg hplain]
      refine ((List.cons_inj_right b).trans ih).trans (not_iff_not.mpr ?_)
      constructor
      · rintro ⟨high', low', hhigh, hlow, hinfix⟩
        exact ⟨high', low', hhigh, hlow, hinfix.trans (List.suffix_cons b _).isInfix⟩
      · rintro ⟨high', low', hhigh, hlow, hinfix⟩
        rcases List.infix_cons_iff.mp hinfix with hprefix | hinfix
        · -- The escape would begin here.
          simp only [List.cons_prefix_cons, List.nil_prefix, and_true] at hprefix
          obtain ⟨rfl, rfl, rfl⟩ := hprefix
          simp [hhigh, hlow] at hplain
        · exact ⟨high', low', hhigh, hlow, hinfix⟩
  | short text hshort =>
      refine iff_of_true (percentDecode_short hshort) ?_
      rintro ⟨high, low, -, -, hinfix⟩
      exact Nat.not_le.mpr hshort hinfix.length_le

section Separator

variable {c : UInt8} (hpercent : c ≠ 37) (hdigit : isHexadecimalDigit c = false)

include hpercent hdigit

/-- No escape reaches across a byte that is not part of one. -/
theorem percentDecode_append_cons (front back : Bytes) :
    percentDecode (front ++ c :: back) = percentDecode front ++ c :: percentDecode back := by
  induction front using percentDecode_induction with
  | escape b high low rest hescape ih =>
      simp only [List.cons_append] at ih ⊢
      rw [percentDecode, if_pos hescape, percentDecode, if_pos hescape, ih]
      rfl
  | plain b high low rest hplain ih =>
      simp only [List.cons_append] at ih ⊢
      rw [percentDecode, if_neg hplain, percentDecode, if_neg hplain, ih]
      rfl
  | short text hshort =>
      have hstop := percentDecode_cons hpercent back
      rw [percentDecode_short hshort]
      rcases text with _ | ⟨a, _ | ⟨b, _ | ⟨d, rest⟩⟩⟩
      · exact hstop
      · rcases back with _ | ⟨e, back⟩
        · rfl
        · simp only [List.cons_append, List.nil_append] at hstop ⊢
          rw [percentDecode, hdigit, Bool.and_false, Bool.false_and, if_neg Bool.false_ne_true,
            hstop]
      · have hsecond : percentDecode (b :: c :: back) = b :: c :: percentDecode back := by
          rcases back with _ | ⟨e, back⟩
          · rfl
          · rw [percentDecode, hdigit, Bool.and_false, Bool.false_and, if_neg Bool.false_ne_true,
              hstop]
        simp only [List.cons_append, List.nil_append]
        rw [percentDecode, hdigit, Bool.and_false, if_neg Bool.false_ne_true, hsecond]
      · simp only [List.length_cons] at hshort
        omega

theorem mem_percentDecode {text : Bytes} (hmem : c ∈ text) : c ∈ percentDecode text := by
  obtain ⟨front, back, rfl⟩ := List.append_of_mem hmem
  rw [percentDecode_append_cons hpercent hdigit]
  exact List.mem_append_right _ List.mem_cons_self

theorem append_percentDecode_ne (front text : Bytes) : front ++ c :: percentDecode text ≠ text := by
  induction h : text.length using Nat.strongRecOn generalizing front text with
  | ind n ih =>
      intro heq
      have hdecode := percentDecode_append_cons hpercent hdigit front (percentDecode text)
      rw [heq] at hdecode
      have hlength := congrArg List.length heq
      rw [List.length_append, List.length_cons] at hlength
      exact ih _ (by omega) (percentDecode front) (percentDecode text) rfl hdecode.symm

end Separator

section Encode

variable {kept : UInt8 → Bool}

theorem percentEncoded_percentEncode (text : Bytes) :
    PercentEncoded kept (percentEncode kept text) := by
  induction text with
  | nil => exact .nil
  | cons b text ih =>
      rw [percentEncode, List.flatMap_cons]
      refine PercentEncoded.append ?_ ih
      split
      · rename_i hb
        exact .byte hb .nil
      · have hb := b.toNat_lt
        exact .escape (upperHexDigit_spec (by omega)).1 (upperHexDigit_spec (by omega)).1 .nil

theorem percentDecode_percentEncode_append (hpercent : kept 37 = false) (text rest : Bytes) :
    percentDecode (percentEncode kept text ++ rest) = text ++ percentDecode rest := by
  induction text with
  | nil => rfl
  | cons b text ih =>
      rw [percentEncode, List.flatMap_cons, List.append_assoc, List.cons_append, ← ih]
      split
      · rename_i hb
        refine percentDecode_cons ?_ _
        rintro rfl
        rw [hpercent] at hb
        cases hb
      · exact percentDecode_escape b _

theorem percentDecode_percentEncode (hpercent : kept 37 = false) (text : Bytes) :
    percentDecode (percentEncode kept text) = text := by
  have h := percentDecode_percentEncode_append hpercent text []
  have hnil : percentDecode [] = [] := rfl
  rwa [List.append_nil, hnil, List.append_nil] at h

theorem percentEncode_injective (hpercent : kept 37 = false) :
    Function.Injective (percentEncode kept) :=
  Function.LeftInverse.injective (percentDecode_percentEncode hpercent)

theorem notMem_percentEncode {b : UInt8} (hkept : kept b = false) (hpercent : b ≠ 37)
    (hdigit : isUpperHexDigit b = false) (text : Bytes) : b ∉ percentEncode kept text := by
  intro hb
  rcases (percentEncoded_percentEncode text).mem hb with h | h | h
  · rw [hkept] at h
    cases h
  · exact hpercent h
  · rw [hdigit] at h
    cases h

theorem percentEncode_of_kept {text : Bytes} (h : ∀ b ∈ text, kept b = true) :
    percentEncode kept text = text := by
  induction text with
  | nil => rfl
  | cons b text ih =>
      have hrest := ih fun c hc => h c (List.mem_cons_of_mem b hc)
      rw [percentEncode] at hrest ⊢
      rw [List.flatMap_cons, if_pos (h b List.mem_cons_self), hrest]
      rfl

end Encode

end ElioP2P.Library
