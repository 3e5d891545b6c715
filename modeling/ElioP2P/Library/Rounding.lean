import Mathlib.Data.Int.Log
import Mathlib.Data.Rat.Floor
import Mathlib.Tactic.Linarith

/-!
# Binary floating point as rounded rationals

A finite float is a rational number, and every float operation is the exact
rational operation followed by one rounding.  `FloatArith` keeps the two
roundings abstract, so that a result about a program holds for every rounding
behaviour; `FloatArith.ieee` is round-to-nearest-even with the 24 and 53
significant bits of the IEEE formats.  Exponent range plays no role for the
magnitudes these programs compute with and is left out.
-/

namespace ElioP2P.Library

/-- Single and double rounding of an exact result. -/
structure FloatArith where
  f32 : ℚ → ℚ
  f64 : ℚ → ℚ

/-- Nearest integer, ties to even. -/
def roundHalfEven (q : ℚ) : ℤ :=
  let below := ⌊q⌋
  let fraction := q - below
  if fraction < 1 / 2 then below
  else if 1 / 2 < fraction then below + 1
  else if below % 2 = 0 then below else below + 1

/-- The exponent `e` with `2^e ≤ |q| < 2^(e+1)`, for `q ≠ 0`. -/
def binaryExponent (q : ℚ) : ℤ :=
  let estimate : ℤ := (Nat.log2 q.num.natAbs : ℤ) - (Nat.log2 q.den : ℤ)
  if (2 : ℚ) ^ estimate ≤ |q| then estimate else estimate - 1

/-- Nearest rational with `bits` significant binary digits. -/
def roundToBits (bits : ℕ) (q : ℚ) : ℚ :=
  if q = 0 then 0
  else
    let ulp := (2 : ℚ) ^ (binaryExponent q - (bits - 1 : ℤ))
    roundHalfEven (q / ulp) * ulp

def FloatArith.exact : FloatArith where
  f32 := id
  f64 := id

def FloatArith.ieee : FloatArith where
  f32 := roundToBits 24
  f64 := roundToBits 53

/-! ## Rounding keeps the order -/

theorem floor_le_roundHalfEven (q : ℚ) : ⌊q⌋ ≤ roundHalfEven q := by
  unfold roundHalfEven
  simp only
  split_ifs <;> omega

theorem roundHalfEven_le_succ_floor (q : ℚ) : roundHalfEven q ≤ ⌊q⌋ + 1 := by
  unfold roundHalfEven
  simp only
  split_ifs <;> omega

theorem roundHalfEven_mono {a b : ℚ} (hab : a ≤ b) : roundHalfEven a ≤ roundHalfEven b := by
  rcases (Int.floor_mono hab).lt_or_eq with hlt | heq
  · have ha := roundHalfEven_le_succ_floor a
    have hb := floor_le_roundHalfEven b
    omega
  · -- Above one integer the rounding depends on the fraction only.
    have hfraction : a - ⌊a⌋ ≤ b - ⌊b⌋ := by
      rw [heq]
      linarith
    unfold roundHalfEven
    simp only
    rw [heq] at hfraction ⊢
    split_ifs <;> first | omega | (exfalso; linarith)

theorem roundHalfEven_intCast (n : ℤ) : roundHalfEven n = n := by
  simp [roundHalfEven]

theorem zpow_log2_le {n : ℕ} (hn : n ≠ 0) : (2 : ℚ) ^ (n.log2 : ℤ) ≤ n := by
  rw [zpow_natCast]
  exact_mod_cast Nat.log2_self_le hn

theorem lt_zpow_succ_log2 (n : ℕ) : (n : ℚ) < 2 ^ ((n.log2 : ℤ) + 1) := by
  rw [← Nat.cast_succ, zpow_natCast]
  exact_mod_cast Nat.lt_log2_self

/-- The binary lengths of numerator and denominator leave two powers of two
between which the quotient is. -/
theorem zpow_log2_sub_bounds {n d : ℕ} {q : ℚ} (hn : n ≠ 0) (hd : d ≠ 0) (hq : 0 < q)
    (hqd : q * d = n) :
    (2 : ℚ) ^ ((n.log2 : ℤ) - d.log2 - 1) ≤ q ∧ q < (2 : ℚ) ^ ((n.log2 : ℤ) - d.log2 + 1) := by
  constructor
  · have hpow : (2 : ℚ) ^ ((n.log2 : ℤ) - d.log2 - 1) * 2 ^ ((d.log2 : ℤ) + 1) =
        2 ^ (n.log2 : ℤ) := by
      rw [← zpow_add₀ two_ne_zero]
      congr 1
      ring
    have hlow := zpow_log2_le hn
    by_contra hlt
    push Not at hlt
    have hprod := mul_lt_mul'' hlt (lt_zpow_succ_log2 d) hq.le (Nat.cast_nonneg d)
    rw [hqd, hpow] at hprod
    linarith
  · have hpow : (2 : ℚ) ^ ((n.log2 : ℤ) - d.log2 + 1) * 2 ^ (d.log2 : ℤ) =
        2 ^ ((n.log2 : ℤ) + 1) := by
      rw [← zpow_add₀ two_ne_zero]
      congr 1
      ring
    have hhigh := lt_zpow_succ_log2 n
    by_contra hle
    push Not at hle
    have hprod := mul_le_mul hle (zpow_log2_le hd) (zpow_pos two_pos _).le hq.le
    rw [hqd, hpow] at hprod
    linarith

/-- The estimate from the binary lengths is off by at most one. -/
theorem binaryExponent_eq_log {q : ℚ} (hq : 0 < q) : binaryExponent q = Int.log 2 q := by
  have hnum : 0 < q.num := Rat.num_pos.mpr hq
  obtain ⟨n, hn⟩ : ∃ n : ℕ, q.num = n := ⟨q.num.natAbs, by omega⟩
  have hn0 : n ≠ 0 := by omega
  have hqd : q * q.den = n := by
    have hmul := Rat.mul_den_eq_num q
    rw [hn] at hmul
    exact_mod_cast hmul
  obtain ⟨hbelow, habove⟩ := zpow_log2_sub_bounds hn0 q.den_nz hq hqd
  have hnatAbs : q.num.natAbs = n := by omega
  have hestimate := (Int.zpow_le_iff_le_log (b := 2) Nat.one_lt_two
    (x := (n.log2 : ℤ) - q.den.log2) hq)
  have hlog : (n.log2 : ℤ) - q.den.log2 - 1 ≤ Int.log 2 q :=
    (Int.zpow_le_iff_le_log Nat.one_lt_two hq).mp hbelow
  have hlog' : Int.log 2 q < (n.log2 : ℤ) - q.den.log2 + 1 :=
    (Int.lt_zpow_iff_log_lt Nat.one_lt_two hq).mp habove
  unfold binaryExponent
  simp only [hnatAbs, abs_of_pos hq]
  push_cast at hestimate
  split_ifs with hle
  · have hge := hestimate.mp hle
    omega
  · have hlt : ¬ (n.log2 : ℤ) - q.den.log2 ≤ Int.log 2 q := fun h => hle (hestimate.mpr h)
    omega

/-- Between powers of two the rounding moves by whole steps and does not cross
a power. -/
theorem roundToBits_bounds {bits : ℕ} (hbits : 0 < bits) {q : ℚ} (hq : 0 < q) :
    (2 : ℚ) ^ Int.log 2 q ≤ roundToBits bits q ∧
      roundToBits bits q ≤ (2 : ℚ) ^ (Int.log 2 q + 1) := by
  have hlow : (2 : ℚ) ^ Int.log 2 q ≤ q := by
    exact_mod_cast Int.zpow_log_le_self Nat.one_lt_two hq
  have hhigh : q < (2 : ℚ) ^ (Int.log 2 q + 1) := by
    exact_mod_cast Int.lt_zpow_succ_log_self Nat.one_lt_two q
  unfold roundToBits
  simp only [if_neg hq.ne', binaryExponent_eq_log hq]
  generalize Int.log 2 q = e at hlow hhigh ⊢
  have hulp : (0 : ℚ) < 2 ^ (e - (bits - 1 : ℤ)) := zpow_pos two_pos _
  have hstart : ((2 ^ (bits - 1) : ℤ) : ℚ) * 2 ^ (e - (bits - 1 : ℤ)) = 2 ^ e := by
    push_cast
    rw [← zpow_natCast, ← zpow_add₀ two_ne_zero]
    congr 1
    omega
  have hend : ((2 ^ bits : ℤ) : ℚ) * 2 ^ (e - (bits - 1 : ℤ)) = 2 ^ (e + 1) := by
    push_cast
    rw [← zpow_natCast, ← zpow_add₀ two_ne_zero]
    congr 1
    omega
  constructor
  · rw [← hstart]
    refine mul_le_mul_of_nonneg_right ?_ hulp.le
    have hmono := roundHalfEven_mono ((le_div_iff₀ hulp).mpr (hstart.le.trans hlow))
    rw [roundHalfEven_intCast] at hmono
    exact_mod_cast hmono
  · rw [← hend]
    refine mul_le_mul_of_nonneg_right ?_ hulp.le
    have hmono := roundHalfEven_mono ((div_le_iff₀ hulp).mpr (hhigh.le.trans hend.ge))
    rw [roundHalfEven_intCast] at hmono
    exact_mod_cast hmono

theorem roundToBits_monotoneOn {bits : ℕ} (hbits : 0 < bits) :
    MonotoneOn (roundToBits bits) (Set.Ici 0) := by
  intro a ha b hb hab
  rcases (Set.mem_Ici.mp ha).lt_or_eq with ha | rfl
  · have hb : 0 < b := lt_of_lt_of_le ha hab
    rcases (Int.log_mono_right (b := 2) ha hab).lt_or_eq with hlt | heq
    · have hpow : (2 : ℚ) ^ (Int.log 2 a + 1) ≤ 2 ^ Int.log 2 b :=
        zpow_le_zpow_right₀ one_le_two (by omega)
      exact ((roundToBits_bounds hbits ha).2.trans hpow).trans (roundToBits_bounds hbits hb).1
    · unfold roundToBits
      simp only [if_neg ha.ne', if_neg hb.ne', binaryExponent_eq_log ha, binaryExponent_eq_log hb,
        heq]
      have hulp : (0 : ℚ) < 2 ^ (Int.log 2 b - (bits - 1 : ℤ)) := zpow_pos two_pos _
      refine mul_le_mul_of_nonneg_right ?_ hulp.le
      exact_mod_cast roundHalfEven_mono (div_le_div_of_nonneg_right hab hulp.le)
  · rcases (Set.mem_Ici.mp hb).lt_or_eq with hb | rfl
    · rw [roundToBits, if_pos rfl]
      exact (zpow_pos two_pos _).le.trans (roundToBits_bounds hbits hb).1
    · exact le_refl _

/-- A rounding that keeps zero and the order of what is not negative. -/
structure Rounds (round : ℚ → ℚ) : Prop where
  zero : round 0 = 0
  mono : MonotoneOn round (Set.Ici 0)

theorem Rounds.nonneg {round : ℚ → ℚ} (h : Rounds round) {q : ℚ} (hq : 0 ≤ q) : 0 ≤ round q := by
  have hle := h.mono (Set.mem_Ici.mpr le_rfl) (Set.mem_Ici.mpr hq) hq
  rwa [h.zero] at hle

theorem rounds_ieee : Rounds FloatArith.ieee.f32 :=
  ⟨by simp [FloatArith.ieee, roundToBits], roundToBits_monotoneOn (by decide)⟩

end ElioP2P.Library
