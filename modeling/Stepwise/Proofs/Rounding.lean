import Mathlib
import Stepwise.Number.Basic

/-!
# Integers as doubles

An integer is rounded to the nearest double by writing down the bits of that double. Below `2 ^ 53` nothing is lost: the
double is an integer again. From `2 ^ 1024 - 2 ^ 970` on there is no double to round to (`Double.ofInt?_eq_none_iff`),
and what is in range is neither infinite nor NaN.
-/

namespace Stepwise.Double

open Float.Model (Format UnpackedFloat)
open Float.Model.UnpackedFloat (unpackExponent pack_unpack isNaNBits)

/-! ### Bits -/

section Bits

variable {b : UInt64}

/-- The exponent field is that of a finite double. -/
def FiniteBits (b : UInt64) : Prop := b.toNat / pow2 52 % 2048 ≠ 2047

theorem unpackExponent_ne (h : FiniteBits b) : @unpackExponent .binary64 b.toBitVec ≠ -1#_ := by
  intro hall
  have hfield : (@unpackExponent .binary64 b.toBitVec).toNat = b.toNat / 2 ^ 52 % 2048 := by
    simp [unpackExponent, BitVec.extractLsb_toNat, Nat.shiftRight_eq_div_pow]
  exact h (hfield.symm.trans (congrArg BitVec.toNat hall))

theorem toBits_ofBits (h : FiniteBits b) : (Float.ofBits b).toBits = b := by
  have hnan : @isNaNBits .binary64 b.toBitVec = false := decide_eq_false fun hbits => unpackExponent_ne h hbits.1
  change UInt64.ofBitVec (UnpackedFloat.pack .binary64 (UnpackedFloat.unpack .binary64 b.toBitVec)) = b
  rw [pack_unpack, hnan]
  rfl

theorem isFinite_ofBits (h : FiniteBits b) : (Float.ofBits b).toModel.unpack.isFinite = true := by
  change (UnpackedFloat.unpack .binary64 (Float.ofBits b).toBits.toBitVec).isFinite = true
  rw [toBits_ofBits h, UnpackedFloat.unpack]
  dsimp only
  rw [if_neg (unpackExponent_ne h)]
  split
  · split <;> rfl
  · rfl

theorem isNaN_ofBits (h : FiniteBits b) : (Float.ofBits b).isNaN = false := by
  have hfinite := isFinite_ofBits h
  change (Float.ofBits b).toModel.unpack.isNaN = false
  generalize (Float.ofBits b).toModel.unpack = u at hfinite
  cases u with
  | notANumber => cases hfinite
  | _ => rfl

theorem isInf_ofBits (h : FiniteBits b) : (Float.ofBits b).isInf = false := by
  have hfinite := isFinite_ofBits h
  change (Float.ofBits b).toModel.unpack.isInf = false
  generalize (Float.ofBits b).toModel.unpack = u at hfinite
  cases u with
  | infinity s => cases hfinite
  | _ => rfl

end Bits

variable {bits n : Nat} {negative : Bool}

theorem pow2_52 : pow2 52 = 4503599627370496 := rfl

theorem pow2_63 : pow2 63 = 9223372036854775808 := rfl

theorem toNat_signed (h : bits < 2047 * pow2 52) (negative : Bool) :
    (UInt64.ofNat (if negative then bits + pow2 63 else bits)).toNat = if negative then bits + pow2 63 else bits := by
  rw [UInt64.toNat_ofNat', Nat.mod_eq_of_lt]
  rw [pow2_52] at h
  rw [pow2_63]
  split <;> omega

theorem finiteBits_signed (h : bits < 2047 * pow2 52) (negative : Bool) :
    FiniteBits (UInt64.ofNat (if negative then bits + pow2 63 else bits)) := by
  rw [FiniteBits, toNat_signed h]
  rw [pow2_52] at h ⊢
  rw [pow2_63]
  split <;> omega

theorem parts?_ofSignedBits (h : bits < 2047 * pow2 52) (negative : Bool) :
    parts? (ofSignedBits negative bits) = some ⟨negative,
      if bits / pow2 52 = 0 then bits % pow2 52 else bits % pow2 52 + pow2 52, (max (bits / pow2 52) 1 : Nat) - 1075⟩ := by
  have hbits : (ofSignedBits negative bits).toBits.toNat = if negative then bits + pow2 63 else bits := by
    rw [ofSignedBits, toBits_ofBits (finiteBits_signed h negative), toNat_signed h]
  have hsign : decide (pow2 63 ≤ if negative then bits + pow2 63 else bits) = negative := by
    rw [pow2_52] at h
    rw [pow2_63]
    cases negative
    · simp; omega
    · simp
  have hfield : (if negative then bits + pow2 63 else bits) / pow2 52 % 2048 = bits / pow2 52 := by
    rw [pow2_52] at h ⊢
    rw [pow2_63]
    split <;> omega
  have hfraction : (if negative then bits + pow2 63 else bits) % pow2 52 = bits % pow2 52 := by
    rw [pow2_52, pow2_63]
    split <;> omega
  have hne : bits / pow2 52 ≠ 2047 := by
    rw [pow2_52] at h ⊢
    omega
  rw [parts?, hbits, hsign, hfield, hfraction, if_neg hne]

/-! ### The nearest double -/

theorem div_le_roundDiv (num den : Nat) : num / den ≤ roundDiv num den := by
  unfold roundDiv
  dsimp only
  split
  · exact Nat.le_refl _
  · split <;> omega

theorem roundDiv_le (num den : Nat) : roundDiv num den ≤ num / den + 1 := by
  unfold roundDiv
  dsimp only
  split
  · omega
  · split <;> omega

/-- A quotient is rounded up from an odd number as soon as it is half-way to the next one. -/
theorem lt_roundDiv_iff (num : Nat) {half q : Nat} (hhalf : 0 < half) (hodd : q % 2 = 1) :
    q < roundDiv num (2 * half) ↔ q * (2 * half) + half ≤ num := by
  have hnum := Nat.div_add_mod num (2 * half)
  have hrest := Nat.mod_lt num (show 0 < 2 * half by omega)
  have hlow := div_le_roundDiv num (2 * half)
  have hhigh := roundDiv_le num (2 * half)
  rcases Nat.lt_trichotomy (num / (2 * half)) q with hlt | heq | hgt
  · have hle := Nat.mul_le_mul_left (2 * half) (show num / (2 * half) + 1 ≤ q from hlt)
    rw [Nat.mul_comm q, Nat.mul_add] at *
    omega
  · unfold roundDiv
    dsimp only
    rw [heq] at hnum ⊢
    rw [Nat.mul_comm q]
    split
    · omega
    · split <;> omega
  · have hle := Nat.mul_le_mul_left (2 * half) (show q + 1 ≤ num / (2 * half) from hgt)
    rw [Nat.mul_comm q, Nat.mul_add] at *
    omega

theorem nearestBits?_natural (hn : n ≠ 0) : nearestBits? n 1 =
    let e : Int := (n.log2 : Int) - 52
    let m := if 0 ≤ e then roundDiv n (pow2 e.toNat) else n * pow2 (-e).toNat
    let bits := (e + 1074).toNat * pow2 52 + m
    if bits < 2047 * pow2 52 then some bits else none := by
  have htop : atLeastPower n 1 n.log2 = true := by
    simpa [atLeastPower, pow2] using Nat.log2_self_le hn
  have hone : (Nat.log2 1 : Int) = 0 := by decide
  have hlow : max ((n.log2 : Int) - 52) (-1074) = n.log2 - 52 := by omega
  have hexact (k : Nat) : roundDiv k 1 = k := by simp [roundDiv, Nat.mod_one]
  simp only [nearestBits?, if_neg hn, hone, Int.sub_zero, htop, if_true, hlow, Nat.one_mul, hexact]

theorem pow2_add (j k : Nat) : pow2 (j + k) = pow2 j * pow2 k := Nat.pow_add 2 j k

theorem pow2_succ (k : Nat) : pow2 (k + 1) = 2 * pow2 k := Nat.pow_succ'

theorem pow2_mono {j k : Nat} (h : j ≤ k) : pow2 j ≤ pow2 k := Nat.pow_le_pow_right (by decide) h

theorem pow2_pos (k : Nat) : 0 < pow2 k := Nat.two_pow_pos k

theorem nearestBits?_of_lt (hn : n ≠ 0) (hlt : n < Num.safeLimit) :
    nearestBits? n 1 = some ((n.log2 + 1022) * pow2 52 + n * pow2 (52 - n.log2)) ∧
      pow2 52 ≤ n * pow2 (52 - n.log2) ∧ n * pow2 (52 - n.log2) < 2 * pow2 52 := by
  have hlog : n.log2 ≤ 52 := Nat.le_of_lt_succ ((Nat.log2_lt hn).mpr hlt)
  have hlow : pow2 52 ≤ n * pow2 (52 - n.log2) := by
    have hle := Nat.mul_le_mul_right (pow2 (52 - n.log2)) (show pow2 n.log2 ≤ n from Nat.log2_self_le hn)
    rwa [← pow2_add, Nat.add_sub_cancel' hlog] at hle
  have hhigh : n * pow2 (52 - n.log2) < 2 * pow2 52 := by
    have hless := Nat.mul_lt_mul_of_pos_right (show n < pow2 (n.log2 + 1) from Nat.lt_log2_self) (pow2_pos (52 - n.log2))
    rw [← pow2_add, show n.log2 + 1 + (52 - n.log2) = 1 + 52 by omega, pow2_add] at hless
    exact hless
  refine ⟨?_, hlow, hhigh⟩
  have hmantissa : (if 0 ≤ (n.log2 : Int) - 52 then roundDiv n (pow2 ((n.log2 : Int) - 52).toNat)
      else n * pow2 (-((n.log2 : Int) - 52)).toNat) = n * pow2 (52 - n.log2) := by
    split
    case isTrue hexact =>
      obtain heq : n.log2 = 52 := by omega
      simp [heq, roundDiv, pow2, Nat.mod_one]
    case isFalse =>
      congr 2
      omega
  have hfield : ((n.log2 : Int) - 52 + 1074).toNat = n.log2 + 1022 := by omega
  rw [nearestBits?_natural hn]
  dsimp only
  rw [hmantissa, hfield, if_pos]
  have hle := Nat.mul_le_mul_right (pow2 52) (show n.log2 + 1022 ≤ 1074 by omega)
  omega

theorem mantissa_bounds (hn : n ≠ 0) {e : Nat} (hlog : n.log2 = 52 + e) :
    pow2 52 ≤ roundDiv n (pow2 e) ∧ roundDiv n (pow2 e) ≤ pow2 53 := by
  have hlow : pow2 52 * pow2 e ≤ n := by
    rw [← pow2_add, ← hlog]
    exact Nat.log2_self_le hn
  have hhigh : n < pow2 53 * pow2 e := by
    rw [← pow2_add, show 53 + e = n.log2 + 1 by omega]
    exact Nat.lt_log2_self
  have hquotient := (Nat.le_div_iff_mul_le (pow2_pos e)).mpr hlow
  have hquotient' := (Nat.div_lt_iff_lt_mul (pow2_pos e)).mpr hhigh
  exact ⟨hquotient.trans (div_le_roundDiv _ _), (roundDiv_le _ _).trans hquotient'⟩

theorem nearestBits?_of_le (hn : n ≠ 0) {e : Nat} (hlog : n.log2 = 52 + e) :
    nearestBits? n 1 = none ↔ 2047 * pow2 52 ≤ (e + 1074) * pow2 52 + roundDiv n (pow2 e) := by
  have hexponent : (n.log2 : Int) - 52 = e := by omega
  have hfield : ((e : Int) + 1074).toNat = e + 1074 := by omega
  rw [nearestBits?_natural hn]
  dsimp only
  rw [hexponent, if_pos (Int.natCast_nonneg e), Int.toNat_natCast, hfield]
  split
  case isTrue hlt => exact iff_of_false (Option.some_ne_none _) (Nat.not_le.mpr hlt)
  case isFalse hle => exact iff_of_true rfl (Nat.not_lt.mp hle)

/-- An integer is out of range when the nearest double would be `2 ^ 1024`, for a tie as well. -/
theorem nearestBits?_eq_none_iff : nearestBits? n 1 = none ↔ pow2 1024 - pow2 970 ≤ n := by
  have hhalf : pow2 971 = 2 * pow2 970 := pow2_succ 970
  have htop : pow2 1024 = pow2 53 * pow2 971 := pow2_add 53 971
  have htop' : pow2 1024 = 2 * pow2 1023 := pow2_succ 1023
  have hpos := pow2_pos 970
  have hdouble : pow2 53 = 2 * pow2 52 := pow2_succ 52
  have hmono : pow2 970 ≤ pow2 1023 := pow2_mono (by decide)
  by_cases hsmall : n < Num.safeLimit
  · have hsome : nearestBits? n 1 ≠ none := by
      by_cases hn : n = 0
      · rw [hn]
        exact Option.some_ne_none 0
      · rw [(nearestBits?_of_lt hn hsmall).1]
        exact Option.some_ne_none _
    have hless : Num.safeLimit ≤ pow2 1023 := pow2_mono (by decide)
    exact iff_of_false hsome (by omega)
  · have hn : n ≠ 0 := by
      rintro rfl
      exact hsmall (by decide)
    obtain ⟨e, he⟩ := Nat.exists_eq_add_of_le
      (Nat.le_of_succ_le ((Nat.le_log2 hn).mpr (Nat.not_lt.mp hsmall) : 53 ≤ n.log2))
    obtain ⟨hlow, hhigh⟩ := mantissa_bounds hn he
    rw [nearestBits?_of_le hn he]
    rcases Nat.lt_trichotomy e 971 with hlt | rfl | hgt
    · have hfield := Nat.mul_le_mul_right (pow2 52) (show e + 1074 ≤ 2044 by omega)
      have hless : n < pow2 (n.log2 + 1) := Nat.lt_log2_self
      have hbound : pow2 (n.log2 + 1) ≤ pow2 1023 := pow2_mono (by omega)
      have hunit := pow2_pos 52
      exact iff_of_false (by omega) (by omega)
    · -- the mantissa is odd before it is rounded up to `2 ^ 53`
      have hround := lt_roundDiv_iff n hpos (show (pow2 53 - 1) % 2 = 1 by decide)
      rw [← hhalf] at hround
      have hsplit : (pow2 53 - 1) * pow2 971 = pow2 1024 - pow2 971 := by rw [htop, Nat.sub_mul, Nat.one_mul]
      have hfit : pow2 971 ≤ pow2 1024 := pow2_mono (by decide)
      have hnumber : pow2 1024 - pow2 971 + pow2 970 = pow2 1024 - pow2 970 := by omega
      have hcarry : 2047 * pow2 52 = (971 + 1074) * pow2 52 + pow2 53 := by rw [hdouble]; ring
      rw [hsplit, hnumber, Nat.lt_iff_add_one_le, Nat.sub_add_cancel (pow2_pos 53)] at hround
      rw [← hround, hcarry, Nat.add_le_add_iff_left]
    · have hfield := Nat.mul_le_mul_right (pow2 52) (show 2046 ≤ e + 1074 by omega)
      have hmost : pow2 n.log2 ≤ n := Nat.log2_self_le hn
      have hbound : pow2 1024 ≤ pow2 n.log2 := pow2_mono (by omega)
      exact iff_of_true (by omega) (by omega)

/-! ### Integers -/

variable {k : Int} {x : Float}

theorem ofInt?_eq_none_iff : ofInt? k = none ↔ pow2 1024 - pow2 970 ≤ k.natAbs := by
  rw [ofInt?, ofRatio?, Option.map_eq_none_iff, nearestBits?_eq_none_iff]

theorem nearestBits?_lt (h : nearestBits? n 1 = some bits) : bits < 2047 * pow2 52 := by
  by_cases hn : n = 0
  · rw [hn] at h
    cases h
    decide
  · rw [nearestBits?_natural hn] at h
    obtain ⟨hlt, heq⟩ := Option.ite_none_right_eq_some.mp h
    exact Option.some.inj heq ▸ hlt

theorem finite_of_ofInt? (h : ofInt? k = some x) : x.isNaN = false ∧ x.isInf = false := by
  obtain ⟨bits, hbits, rfl⟩ := Option.map_eq_some_iff.mp h
  have hfinite := finiteBits_signed (nearestBits?_lt hbits) (k < 0)
  exact ⟨isNaN_ofBits hfinite, isInf_ofBits hfinite⟩

theorem exists_ofInt?_of_lt (h : k.natAbs < Num.safeLimit) : ∃ x, ofInt? k = some x ∧ isIntegral x = true := by
  by_cases hk : k.natAbs = 0
  · obtain rfl := Int.natAbs_eq_zero.mp hk
    refine ⟨ofSignedBits false 0, rfl, ?_⟩
    rw [isIntegral, parts?_ofSignedBits (by decide)]
    simp [Parts.isIntegral]
  · obtain ⟨hbits, hlow, hhigh⟩ := nearestBits?_of_lt hk h
    have hlog : k.natAbs.log2 ≤ 52 := Nat.le_of_lt_succ ((Nat.log2_lt hk).mpr h)
    refine ⟨_, congrArg (Option.map _) hbits, ?_⟩
    rw [isIntegral, parts?_ofSignedBits (nearestBits?_lt hbits)]
    generalize hmantissa : k.natAbs * pow2 (52 - k.natAbs.log2) = m at hlow hhigh
    rw [pow2_52] at hlow hhigh ⊢
    have hfield : ((k.natAbs.log2 + 1022) * 4503599627370496 + m) / 4503599627370496 = k.natAbs.log2 + 1023 := by omega
    have hfraction : ((k.natAbs.log2 + 1022) * 4503599627370496 + m) % 4503599627370496 + 4503599627370496 = m := by omega
    have hexponent : (-(((max (k.natAbs.log2 + 1023) 1 : Nat) : Int) - 1075)).toNat = 52 - k.natAbs.log2 := by omega
    rw [hfield, if_neg (by omega), hfraction, Option.any_some, Parts.isIntegral, hexponent, ← hmantissa, Nat.mul_mod_left]
    simp

end Stepwise.Double
