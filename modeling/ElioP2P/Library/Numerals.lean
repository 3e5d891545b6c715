import ElioP2P.Library.Decimals
import Mathlib.Algebra.Group.Int.Defs

/-!
# Signed numbers and base sixteen

`std::stoi`, and `std::stoul` in base sixteen, with what they read from a text
that is written as one expects.
-/

namespace ElioP2P.Library

def splitSign (text : Bytes) : Bool × Bytes :=
  if text.head? = some 45 then (true, text.tail)
  else if text.head? = some 43 then (false, text.tail)
  else (false, text)

/-- `std::stoi`; `none` is an exception. -/
def stoi (text : Bytes) : Option Int :=
  let (negative, body) := splitSign (text.dropWhile isSpace)
  let digits := body.takeWhile isDigit
  let value : Int := if negative then -decimalValue digits else decimalValue digits
  if digits.isEmpty || value < -2 ^ 31 || 2 ^ 31 ≤ value then none else some value

def hexDigitValue (b : UInt8) : Option Nat :=
  if isDigit b then some (b.toNat - 48)
  else if 65 ≤ b && b ≤ 70 then some (b.toNat - 55)
  else if 97 ≤ b && b ≤ 102 then some (b.toNat - 87)
  else none

def isHexadecimalDigit (b : UInt8) : Bool := (hexDigitValue b).isSome

def hexValue (ds : Bytes) : Nat := ds.foldl (fun acc d => 16 * acc + (hexDigitValue d).getD 0) 0

/-- `0x` in front of a digit is skipped. -/
def skipHexMark (text : Bytes) : Bytes :=
  match text with
  | zero :: x :: d :: rest =>
      if zero == 48 && (x == 88 || x == 120) && isHexadecimalDigit d then d :: rest else text
  | _ => text

/-- `std::stoul` in base sixteen; `none` is an exception.  A minus sign negates
modulo `2^64`. -/
def stoulHex (text : Bytes) : Option Nat :=
  let (negative, body) := splitSign (text.dropWhile isSpace)
  let digits := (skipHexMark body).takeWhile isHexadecimalDigit
  let value := hexValue digits
  if digits.isEmpty || 2 ^ 64 ≤ value then none
  else some (if negative then (2 ^ 64 - value) % 2 ^ 64 else value)

def IsHexadecimal (text : Bytes) : Prop := text ≠ [] ∧ ∀ b ∈ text, isHexadecimalDigit b = true

/-! ## What is read -/

theorem splitSign_of_head {text : Bytes} (hminus : text.head? ≠ some 45)
    (hplus : text.head? ≠ some 43) : splitSign text = (false, text) := by
  rw [splitSign, if_neg hminus, if_neg hplus]

theorem stoi_decimal {n : Nat} (hn : n < 2 ^ 31) {rest : Bytes}
    (hrest : ∀ b ∈ rest.head?, isDigit b = false) : stoi (decimal n ++ rest) = some (n : Int) := by
  obtain ⟨d, ds, hd⟩ := List.exists_cons_of_ne_nil (decimal_ne_nil n)
  have hdigit : isDigit d = true := isDigit_of_mem_decimal (n := n) (by simp [hd])
  have hhead : (decimal n ++ rest).head? = some d := by simp [hd]
  have hdrop := dropWhile_isSpace_decimal n rest
  have hsign : splitSign (decimal n ++ rest) = (false, decimal n ++ rest) := by
    refine splitSign_of_head ?_ ?_ <;> rw [hhead] <;> rintro ⟨⟩ <;> cases hdigit
  obtain ⟨htake, -⟩ := takeWhile_append_stop (fun b => isDigit_of_mem_decimal (n := n)) hrest
  have hguard : ((decimal n).isEmpty || decide ((n : Int) < -2 ^ 31) ||
      decide (2 ^ 31 ≤ (n : Int))) = false := by
    rw [hd]
    simp only [List.isEmpty_cons, Bool.false_or, Bool.or_eq_false_iff, decide_eq_false_iff_not]
    omega
  simp only [stoi, hdrop, hsign, htake, decimalValue_decimal, Bool.false_eq_true, if_false, hguard]

theorem isHexadecimalDigit_ranges {b : UInt8} (h : isHexadecimalDigit b = true) :
    48 ≤ b.toNat ∧ b.toNat ≤ 57 ∨ 65 ≤ b.toNat ∧ b.toNat ≤ 70 ∨ 97 ≤ b.toNat ∧ b.toNat ≤ 102 := by
  unfold isHexadecimalDigit hexDigitValue at h
  split_ifs at h with hdecimal hupper hlower
  · simp only [isDigit, Bool.and_eq_true, decide_eq_true_eq, UInt8.le_iff_toNat_le] at hdecimal
    exact .inl hdecimal
  · simp only [Bool.and_eq_true, decide_eq_true_eq, UInt8.le_iff_toNat_le] at hupper
    exact .inr (.inl hupper)
  · simp only [Bool.and_eq_true, decide_eq_true_eq, UInt8.le_iff_toNat_le] at hlower
    exact .inr (.inr hlower)
  · cases h

theorem ne_of_isHexadecimalDigit {b c : UInt8} (hb : isHexadecimalDigit b = true)
    (hc : isHexadecimalDigit c = false) : b ≠ c := by
  rintro rfl
  cases hb.symm.trans hc

theorem isSpace_of_isHexadecimalDigit {b : UInt8} (h : isHexadecimalDigit b = true) :
    isSpace b = false := by
  have hranges := isHexadecimalDigit_ranges h
  simp only [isSpace, Bool.or_eq_false_iff, beq_eq_false_iff_ne, Bool.and_eq_false_iff,
    decide_eq_false_iff_not, UInt8.le_iff_toNat_le, ← UInt8.toNat_inj, ne_eq]
  change ¬ b.toNat = 32 ∧ (¬ 9 ≤ b.toNat ∨ ¬ b.toNat ≤ 13)
  omega

theorem skipHexMark_of_digits {text : Bytes} (h : ∀ b ∈ text, isHexadecimalDigit b = true) :
    skipHexMark text = text := by
  match text with
  | [] | [_] | [_, _] => rfl
  | zero :: x :: d :: rest =>
      have hx : isHexadecimalDigit x = true := h x (by simp)
      have hupper : (x == 88) = false := beq_eq_false_iff_ne.mpr (ne_of_isHexadecimalDigit hx rfl)
      have hlower : (x == 120) = false := beq_eq_false_iff_ne.mpr (ne_of_isHexadecimalDigit hx rfl)
      simp [skipHexMark, hupper, hlower]

theorem stoulHex_hexadecimal {text : Bytes} (htext : IsHexadecimal text)
    (hlt : hexValue text < 2 ^ 64) : stoulHex text = some (hexValue text) := by
  obtain ⟨hne, hdigits⟩ := htext
  obtain ⟨d, ds, hd⟩ := List.exists_cons_of_ne_nil hne
  have hdigit : isHexadecimalDigit d = true := hdigits d (by simp [hd])
  have hhead : text.head? = some d := by simp [hd]
  have hdrop : text.dropWhile isSpace = text := by
    rw [hd, List.dropWhile_cons, isSpace_of_isHexadecimalDigit hdigit]
    rfl
  have hsign : splitSign text = (false, text) := by
    refine splitSign_of_head ?_ ?_ <;> rw [hhead] <;> rintro ⟨⟩ <;> cases hdigit
  have htake : text.takeWhile isHexadecimalDigit = text := List.takeWhile_eq_self_iff.mpr hdigits
  have hguard : (text.isEmpty || decide (2 ^ 64 ≤ hexValue text)) = false := by
    rw [Bool.or_eq_false_iff, List.isEmpty_eq_false_iff, decide_eq_false_iff_not]
    exact ⟨hne, Nat.not_le.mpr hlt⟩
  simp only [stoulHex, hdrop, hsign, skipHexMark_of_digits hdigits, htake, hguard,
    Bool.false_eq_true, if_false]

end ElioP2P.Library
