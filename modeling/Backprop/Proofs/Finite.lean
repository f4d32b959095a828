import Mathlib
import Backprop.Number.Binary
/-!
# Whole numbers as finite doubles

* `isFinite_ofBits`: a double is finite unless its exponent field is the greatest one.
* `round_whole`: a whole number is rounded to as many units as a significand holds.
* `isFinite_doubleOfInt`: no whole number of up to 64 bits is out of the range of doubles.
-/

namespace Backprop

open Float.Model

section
variable {spec : Format}

/-- A number whose exponent field is not the greatest one is finite. -/
theorem isFinite_unpack {b : BitVec spec.numBits}
    (field : UnpackedFloat.unpackExponent b ≠ -BitVec.ofNat spec.exponentBits 1) :
    (UnpackedFloat.unpack spec b).isFinite = true := by
  unfold UnpackedFloat.unpack
  simp only [field, if_false]
  split
  · split <;> rfl
  · rfl

end

/-- A finite number with an exponent within the range is packed as one. -/
theorem unpackExponent_pack {s : UnpackedFloat.Sign} {m : Nat} {e : Int} (pos : 0 < m)
    (range : e + 1075 < 2047) :
    @UnpackedFloat.unpackExponent .binary64 (UnpackedFloat.pack .binary64 (.finite s m e pos)) ≠
      -1#11 := by
  have biased : (e + Format.binary64.exponentBias +
      Format.binary64.mantissaBitsWithoutImplicit).toNat < 2047 := by
    change (e + 1023 + 52).toNat < 2047
    omega
  rw [UnpackedFloat.pack]
  dsimp only
  rw [if_neg (Nat.not_le.mpr (Nat.succ_lt_succ biased))]
  split
  · rw [UnpackedFloat.unpackExponent_packComponents]
    intro full
    have field := congrArg BitVec.toNat full
    rw [BitVec.toNat_ofNat, Nat.mod_eq_of_lt (Nat.lt_succ_of_lt biased)] at field
    exact Nat.ne_of_lt biased field
  · rw [UnpackedFloat.unpackExponent_packComponents]
    decide

theorem isFinite_ofBits {w : UInt64} (field : w.toNat / 2 ^ 52 % 2 ^ 11 ≠ 2047) :
    (Float.ofBits w).isFinite = true := by
  have low : @UnpackedFloat.unpackExponent .binary64 w.toBitVec ≠ -1#11 := by
    intro full
    apply field
    simpa [UnpackedFloat.unpackExponent, Nat.shiftRight_eq_div_pow] using congrArg BitVec.toNat full
  have small : (@UnpackedFloat.unpackExponent .binary64 w.toBitVec).toNat ≠ 2047 :=
    fun full => low (BitVec.eq_of_toNat_eq full)
  have bound : (@UnpackedFloat.unpackExponent .binary64 w.toBitVec).toNat < 2 ^ 11 :=
    (@UnpackedFloat.unpackExponent .binary64 w.toBitVec).isLt
  -- a double is what its bits pack to once they are unpacked
  refine @isFinite_unpack .binary64 _ ?_
  change @UnpackedFloat.unpackExponent .binary64
    (UnpackedFloat.pack .binary64 (UnpackedFloat.unpack .binary64 w.toBitVec)) ≠ -1#11
  unfold UnpackedFloat.unpack
  simp only [low, if_false]
  split
  next subnormal =>
    split
    · rw [UnpackedFloat.pack, UnpackedFloat.packedZero, UnpackedFloat.unpackExponent_packComponents]
      decide
    · refine unpackExponent_pack _ ?_
      rw [subnormal]
      decide
  next =>
    refine unpackExponent_pack _ ?_
    change ((@UnpackedFloat.unpackExponent .binary64 w.toBitVec).toNat : Int) -
      (1023 + 52) + 1075 < 2047
    omega

theorem isFinite_signedDouble {negative : Bool} {magnitude : Nat}
    (low : magnitude < 2047 * 2 ^ 52) : (signedDouble negative magnitude).isFinite = true := by
  have sign : (1 <<< 63 : Nat) = 2 ^ 11 * 2 ^ 52 := rfl
  have whole : (UInt64.ofNat (magnitude + if negative = true then 1 <<< 63 else 0)).toNat =
      magnitude + if negative = true then 1 <<< 63 else 0 := by
    rw [UInt64.toNat_ofNat', Nat.mod_eq_of_lt]
    split <;> omega
  refine isFinite_ofBits ?_
  rw [whole]
  split <;> omega

theorem roundDiv_le (num den : Nat) : roundDiv num den ≤ num / den + 1 := by
  unfold roundDiv
  dsimp only
  split
  · omega
  · split <;> omega

/-- The unit of a whole number is known from its leading bit, and its units fit into a significand. -/
theorem round_whole {n : Nat} (pos : n ≠ 0) :
    ∃ m, BinaryFormat.double.round n 1 = (m, (n.log2 : Int) - 52) ∧ m ≤ 2 ^ 53 := by
  have upper : n < 2 ^ (n.log2 + 1) := Nat.lt_log2_self
  have exponent : BinaryFormat.double.unitExponent n 1 = (n.log2 : Int) - 52 := by
    have one : Nat.log2 1 = 0 := rfl
    have digits : ((BinaryFormat.double.digits - 1 : Nat) : Int) = 52 := rfl
    have least : BinaryFormat.double.least = -1074 := rfl
    have lower : ¬ n < 2 ^ n.log2 := Nat.not_lt.mpr (Nat.log2_self_le pos)
    unfold BinaryFormat.unitExponent
    simp only [one, Nat.shiftLeft_eq, one_mul, digits, least, Int.ofNat_zero, Int.sub_zero,
      Int.toNat_natCast, Int.natCast_nonneg, if_true, lower, if_false]
    omega
  unfold BinaryFormat.round
  rw [if_neg pos, exponent]
  dsimp only
  split
  next high =>
    refine ⟨_, rfl, (roundDiv_le ..).trans ?_⟩
    rw [Nat.shiftLeft_eq, one_mul]
    refine Nat.succ_le_of_lt (Nat.div_lt_of_lt_mul ?_)
    rw [← pow_add]
    exact upper.trans_eq (congrArg _ (by omega))
  next low =>
    refine ⟨_, rfl, (roundDiv_le ..).trans ?_⟩
    rw [Nat.shiftLeft_eq, Nat.div_one]
    refine Nat.succ_le_of_lt ?_
    calc n * 2 ^ (-((n.log2 : Int) - 52)).toNat
        < 2 ^ (n.log2 + 1) * 2 ^ (-((n.log2 : Int) - 52)).toNat :=
          Nat.mul_lt_mul_of_pos_right upper (by positivity)
      _ = 2 ^ 53 := by rw [← pow_add]; exact congrArg _ (by omega)

/-- Whole numbers of up to 64 bits are finite as doubles. -/
theorem isFinite_doubleOfInt {n : Int} (small : n.natAbs < 2 ^ 64) :
    (doubleOfInt n).isFinite = true := by
  unfold doubleOfInt doubleOfQuotient
  by_cases zero : n.natAbs = 0
  · rw [zero]
    exact isFinite_signedDouble (by decide)
  · obtain ⟨m, round, units⟩ := round_whole zero
    have exponent : n.natAbs.log2 < 64 := (Nat.log2_lt zero).mpr small
    rw [round]
    refine isFinite_signedDouble (Nat.lt_of_le_of_lt (Nat.min_le_left _ _) ?_)
    rw [Nat.shiftLeft_eq]
    omega

end Backprop
