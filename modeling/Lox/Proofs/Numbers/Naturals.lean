import Lox.Number.Text
import Lox.Proofs.Numbers.Doubles

/-!
# Natural numbers as doubles

A natural number of at most 53 bits is the double that it is converted to, and is written with its own digits.
The conversion shifts the number until all 53 bits are used, multiplies it by one and shifts it back, so all
that has to be followed are shifts that lose nothing.
-/
namespace Lox

open Float.Model (Format UnpackedFloat)
open Float.Model.UnpackedFloat (Sign ExtendedMantissa packComponents unpack pack roundWithAccuracy
  shiftToTargetExponent)

/-- A significand that uses all its bits, and an exponent that fits. -/
structure Normal (m : ℕ) (e : ℤ) : Prop where
  le : 2 ^ 52 ≤ m
  lt : m < 2 ^ 53
  least_le : -1074 ≤ e
  le_greatest : e ≤ 971

namespace Normal

variable {m : ℕ} {e : ℤ}

theorem pos (h : Normal m e) : 0 < m := lt_of_lt_of_le (by norm_num) h.le

theorem log2_eq (h : Normal m e) : m.log2 = 52 := (Nat.log2_eq_iff h.pos.ne').2 ⟨h.le, h.lt⟩

/-! ## Packing -/

theorem toNat_packComponents (s : Sign) (exponent : BitVec 11) (fraction : BitVec 52) :
    (packComponents Format.binary64 s exponent fraction).toNat =
      s.toBitVec.toNat * 2 ^ 63 + exponent.toNat * 2 ^ 52 + fraction.toNat := by
  unfold packComponents
  rw [BitVec.toNat_append, ← Nat.shiftLeft_add_eq_or_of_lt fraction.isLt, BitVec.toNat_append,
    ← Nat.shiftLeft_add_eq_or_of_lt exponent.isLt]
  simp only [Nat.shiftLeft_eq]
  omega

theorem pack_eq (h : Normal m e) (s : Sign) (hm : 0 < m) :
    pack Format.binary64 (.finite s m e hm) =
      packComponents Format.binary64 s (BitVec.ofNat _ (e + 1075).toNat) (BitVec.ofNat _ m) := by
  have := h.least_le
  have := h.le_greatest
  have hlog := h.log2_eq
  unfold pack
  simp only [Format.exponentBias, Format.mantissaBits, hlog, if_true]
  rw [if_neg]
  · norm_num [add_assoc]
  · norm_num
    omega

/-- The exponent that is stored neither stands for infinity nor for a subnormal number. -/
theorem stored_exponent (h : Normal m e) :
    (BitVec.ofNat 11 (e + 1075).toNat).toNat = (e + 1075).toNat ∧
      BitVec.ofNat 11 (e + 1075).toNat ≠ -1#11 ∧ BitVec.ofNat 11 (e + 1075).toNat ≠ 0#11 := by
  have := h.least_le
  have := h.le_greatest
  have hstored : (BitVec.ofNat 11 (e + 1075).toNat).toNat = (e + 1075).toNat := by
    rw [BitVec.toNat_ofNat]
    omega
  refine ⟨hstored, ?_, ?_⟩ <;>
  · rw [ne_eq, ← BitVec.toNat_inj, hstored]
    norm_num
    omega

/-- The leading bit is not stored, and is put back. -/
theorem restored_significand (h : Normal m e) : (1#1 ++ BitVec.ofNat 52 m).toNat = m := by
  have := h.le
  have := h.lt
  rw [BitVec.toNat_append, ← Nat.shiftLeft_add_eq_or_of_lt (BitVec.isLt _), Nat.shiftLeft_eq,
    BitVec.toNat_ofNat]
  norm_num
  omega

theorem unpack_pack (h : Normal m e) (s : Sign) (hm : 0 < m) :
    unpack Format.binary64 (pack Format.binary64 (.finite s m e hm)) = .finite s m e hm := by
  obtain ⟨hstored, hfinite, hnormal⟩ := h.stored_exponent
  have := h.least_le
  rw [h.pack_eq]
  unfold unpack
  simp only [UnpackedFloat.unpackExponent_packComponents, UnpackedFloat.unpackMantissa_packComponents,
    UnpackedFloat.unpackSign_packComponents, Sign.ofBitVec_toBitVec]
  rw [if_neg hfinite, if_neg hnormal]
  simp only [h.restored_significand, hstored, UnpackedFloat.finite.injEq, Format.exponentBias]
  norm_num
  omega

/-- The bits that are stored spell the number. -/
theorem ofBits?_pack (h : Normal m e) (hm : 0 < m) :
    Exact.ofBits? (pack Format.binary64 (.finite .positive m e hm)).toNat = some ⟨false, m, e⟩ := by
  have := h.le
  have := h.lt
  have := h.least_le
  have := h.le_greatest
  rw [h.pack_eq, toNat_packComponents, h.stored_exponent.1, BitVec.toNat_ofNat]
  change Exact.ofBits? (0 * 2 ^ 63 + _ + _) = _
  simp only [Exact.ofBits?, Nat.pow_eq]
  rw [if_neg (by omega), if_neg (by omega)]
  simp only [Option.some.injEq, Exact.mk.injEq, decide_eq_false_iff_not, Exact.leastExponent]
  omega

/-! ## Rounding -/

theorem shiftRight_exact (m k : ℕ) :
    (⟨m * 2 ^ k, false, false⟩ : ExtendedMantissa) >>> k = ⟨m, false, false⟩ := by
  change k.repeat ExtendedMantissa.shiftRightOne _ = _
  induction k generalizing m with
  | zero => simp [Nat.repeat]
  | succ k ih =>
    rw [Nat.repeat, pow_succ', ← mul_assoc, ih (m * 2)]
    simp [ExtendedMantissa.shiftRightOne]

/-- The exponent to which the number is moved is the one that it has. -/
theorem targetExponent_eq (h : Normal m e) (k : ℕ) :
    Format.binary64.targetExponent (Float.Model.totalExponent (m * 2 ^ k) (e - k)) = e := by
  have hpos := Nat.mul_pos h.pos (Nat.two_pow_pos k)
  have hlog : (m * 2 ^ k).log2 = 52 + k := by
    rw [Nat.log2_eq_iff hpos.ne', add_right_comm, pow_add, pow_add]
    exact ⟨Nat.mul_le_mul_right _ h.le, Nat.mul_lt_mul_of_pos_right h.lt (Nat.two_pow_pos k)⟩
  have := h.least_le
  unfold Float.Model.totalExponent
  rw [hlog]
  norm_num [Format.targetExponent, Format.minExponent, Format.mantissaBits]
  omega

theorem shiftToTargetExponent_eq (h : Normal m e) (k : ℕ) :
    shiftToTargetExponent Format.binary64 (m * 2 ^ k) (e - k) .exact = (⟨m, false, false⟩, e) := by
  have hk : (e - (e - k)).toNat = k := by omega
  unfold shiftToTargetExponent UnpackedFloat.shiftToExponent
  rw [h.targetExponent_eq]
  dsimp only [ExtendedMantissa.ofMantissaAndAccuracy]
  rw [hk, shiftRight_exact, sub_add_cancel]

/-- Zeros behind the significand are dropped. -/
theorem round_exact (h : Normal m e) (s : Sign) (hm : 0 < m) (k : ℕ) :
    roundWithAccuracy Format.binary64 s (m * 2 ^ k) (e - k) .exact = .finite s m e hm := by
  have hagain := h.shiftToTargetExponent_eq 0
  rw [pow_zero, mul_one, Nat.cast_zero, sub_zero] at hagain
  unfold roundWithAccuracy
  rw [h.shiftToTargetExponent_eq k]
  dsimp only
  rw [show ExtendedMantissa.roundedMantissa ⟨m, false, false⟩ = m from rfl, hagain]
  exact dif_neg hm.ne'

end Normal

/-! ## Conversion -/

variable {n : ℕ}

/-- The significand that a number below `2 ^ 53` has as a double. -/
theorem normal_natural (hpos : 0 < n) (hlt : n < 2 ^ 53) :
    Normal (n * 2 ^ (52 - n.log2)) (-(52 - n.log2 : ℕ)) := by
  have hlog : n.log2 < 53 := (Nat.log2_lt hpos.ne').2 hlt
  have hsplit : ∀ k, 2 ^ (52 - n.log2 + k) = 2 ^ k * 2 ^ (52 - n.log2) := fun k => by rw [pow_add, mul_comm]
  have hle := Nat.mul_le_mul_right (2 ^ (52 - n.log2)) (Nat.log2_self_le hpos.ne')
  have hlt := Nat.mul_lt_mul_of_pos_right (n.lt_log2_self) (Nat.two_pow_pos (52 - n.log2))
  rw [← hsplit] at hle hlt
  rw [show 52 - n.log2 + n.log2 = 52 by omega] at hle
  rw [show 52 - n.log2 + (n.log2 + 1) = 53 by omega] at hlt
  exact ⟨hle, hlt, by omega, by omega⟩

theorem round_natural (hpos : 0 < n) (hlt : n < 2 ^ 53) :
    UnpackedFloat.round Format.binary64 .positive n 0 =
      .finite .positive (n * 2 ^ (52 - n.log2)) (-(52 - n.log2 : ℕ)) (normal_natural hpos hlt).pos := by
  have hnormal := normal_natural hpos hlt
  have hlog : n.log2 < 53 := (Nat.log2_lt hpos.ne').2 hlt
  have htarget : Format.binary64.targetExponent (Float.Model.totalExponent n 0) = -(52 - n.log2 : ℕ) := by
    norm_num [Float.Model.totalExponent, Format.targetExponent, Format.minExponent, Format.mantissaBits]
    omega
  have hshift : ((0 : ℤ) - -(52 - n.log2 : ℕ)).toNat = 52 - n.log2 := by omega
  have hround := hnormal.round_exact .positive hnormal.pos 0
  unfold UnpackedFloat.round UnpackedFloat.decreaseExponent
  rw [htarget]
  dsimp only
  rw [hshift, Nat.shiftLeft_eq]
  simpa using hround

theorem toFloat_natural (hpos : 0 < n) (hlt : n < 2 ^ 53) :
    n.toUInt64.toFloat = .ofModel (.pack (.finite .positive (n * 2 ^ (52 - n.log2))
      (-(52 - n.log2 : ℕ)) (normal_natural hpos hlt).pos)) := by
  have hn : n.toUInt64.toNat = n := by
    rw [Nat.toUInt64_eq, UInt64.toNat_ofNat']
    omega
  have hcompare : compare (n : ℤ) 0 = .gt := by
    rw [compare_gt_iff_gt]
    omega
  unfold UInt64.toFloat Float.Model.ofUInt64 UnpackedFloat.ofUInt64 UnpackedFloat.ofNat
    UnpackedFloat.ofInt UnpackedFloat.normalize
  rw [hn, hcompare]
  dsimp only
  rw [Int.toNat_natCast, round_natural hpos hlt]

/-- The power of ten that a whole number is multiplied by. -/
theorem power_zero : Float.exactlyRepresentablePowersOfTen[0] =
    .ofModel (.pack (.finite .positive (2 ^ 52) (-52) (by decide))) := by decide

theorem ofNat_natural (hpos : 0 < n) (hlt : n < 2 ^ 53) :
    Float.ofNat n = .ofModel (.pack (.finite .positive (n * 2 ^ (52 - n.log2))
      (-(52 - n.log2 : ℕ)) (normal_natural hpos hlt).pos)) := by
  have hnormal := normal_natural hpos hlt
  have hunit : Normal (2 ^ 52) (-52) := ⟨by norm_num, by norm_num, by norm_num, by norm_num⟩
  have hround := hnormal.round_exact .positive hnormal.pos 52
  change Float.ofScientific n false 0 = _
  unfold Float.ofScientific
  rw [dif_pos ⟨hlt, by decide⟩]
  simp only [Bool.false_eq_true, if_false]
  rw [toFloat_natural hpos hlt, power_zero]
  change Float.ofModel (.pack (UnpackedFloat.mul _ (unpack _ (pack _ _)) (unpack _ (pack _ _)))) = _
  rw [hnormal.unpack_pack, hunit.unpack_pack]
  change Float.ofModel (.pack (roundWithAccuracy _ .positive _ (_ - (52 : ℕ)) .exact)) = _
  rw [hround]

/-- A number of at most 53 bits is exactly the double that it is converted to. -/
theorem Exact.ofFloat?_ofNat (h : n ≤ 2 ^ 53) :
    ∃ e, Exact.ofFloat? (Float.ofNat n) = some e ∧ e.negative = false ∧ e.magnitude = n := by
  obtain rfl | hpos := n.eq_zero_or_pos
  · exact ⟨⟨false, 0, Exact.leastExponent⟩, by decide, rfl, by simp [Exact.magnitude]⟩
  obtain rfl | hlt := h.eq_or_lt
  · exact ⟨⟨false, 2 ^ 52, 1⟩, by decide, rfl, by norm_num [Exact.magnitude]⟩
  refine ⟨⟨false, n * 2 ^ (52 - n.log2), -(52 - n.log2 : ℕ)⟩, ?_, rfl, ?_⟩
  · rw [ofNat_natural hpos hlt]
    exact (normal_natural hpos hlt).ofBits?_pack (normal_natural hpos hlt).pos
  · rw [Exact.magnitude_eq_natCast_iff]
    simp

theorem Exact.ofFloat?_zeros : Exact.ofFloat? 0 = some ⟨false, 0, Exact.leastExponent⟩ ∧
    Exact.ofFloat? (-0) = some ⟨true, 0, Exact.leastExponent⟩ ∧ Exact.ofFloat? .nan = none := by decide

theorem Exact.ne_nan {x : Float} {e : Exact} (h : Exact.ofFloat? x = some e) : x ≠ .nan := by
  rintro rfl
  rw [Exact.ofFloat?_zeros.2.2] at h
  cases h

/-- A double that is a natural number is equal to the one that the number is converted to. -/
theorem Number.toNat?_eq_some_iff {x : Float} (h : n ≤ 2 ^ 53) :
    Number.toNat? x = some n ↔ (x == Float.ofNat n) = true := by
  obtain ⟨e, he, hpositive, hn⟩ := Exact.ofFloat?_ofNat h
  obtain ⟨hzero, hminus, -⟩ := Exact.ofFloat?_zeros
  unfold Number.toNat?
  rw [Float.beq_iff_ne_nan_and_eq, Option.bind_eq_some_iff]
  constructor
  · rintro ⟨e', he', htoNat⟩
    refine ⟨Exact.ne_nan he', Exact.ne_nan he, ?_⟩
    obtain ⟨hn', hsign⟩ := Exact.value_eq_natCast_iff.1 (Exact.toNat?_eq_some_iff.1 htoNat)
    obtain ⟨hsignificand, hexponent⟩ := (Exact.canonical_of_ofFloat? he').eq_of_magnitude_eq
      (Exact.canonical_of_ofFloat? he) (hn'.trans hn.symm)
    cases hnegative : e'.negative with
    | false =>
      have heq : e' = e := Exact.ext (hnegative.trans hpositive.symm) hsignificand hexponent
      exact .inl (Exact.ofFloat?_inj (heq ▸ he') he)
    | true =>
      have hnone := hsign.resolve_left (by rw [hnegative]; nofun)
      have hleast := ((Exact.canonical_of_ofFloat? he').normal).resolve_left (by rw [hnone]; norm_num)
      have hminus' : x = -0 := Exact.ofFloat?_inj he' (by rw [hminus, ← hnegative, ← hnone, ← hleast])
      rw [hnone] at hsignificand
      rw [hleast] at hexponent
      have hzero' : Float.ofNat n = 0 :=
        Exact.ofFloat?_inj he (by rw [hzero, ← hpositive, hsignificand, hexponent])
      exact .inr (.inr ⟨hminus', hzero'⟩)
  · rintro ⟨-, -, rfl | ⟨rfl, hn'⟩ | ⟨rfl, hn'⟩⟩
    · exact ⟨e, he, Exact.toNat?_eq_some_iff.2 (Exact.value_eq_natCast_iff.2 ⟨hn, .inl hpositive⟩)⟩
    · rw [hn', hminus] at he
      cases he
      cases hpositive
    · rw [hn', hzero] at he
      cases he
      rw [Exact.magnitude, Nat.cast_zero, zero_mul] at hn
      refine ⟨_, hminus, Exact.toNat?_eq_some_iff.2 (Exact.value_eq_natCast_iff.2 ⟨?_, .inr rfl⟩)⟩
      rw [← hn]
      exact Exact.significand_eq_zero_iff.1 rfl

/-! ## Display -/

/-- A whole number is written with its digits and nothing else. -/
theorem NumberFormat.display_of_magnitude {x : Float} {e : Exact} (h : Exact.ofFloat? x = some e)
    (hpositive : e.negative = false) (hn : e.magnitude = n) (hlt : n < 10 ^ 21) :
    NumberFormat.display.write x = n.repr := by
  have hfloor := Exact.floor_of_magnitude hn
  have hwhole : e.IsWhole := Exact.isWhole_iff.2 (by rw [hfloor, hn])
  unfold write
  rw [h]
  dsimp only
  rw [hpositive]
  simp only [Bool.false_eq_true, if_false]
  have hall : (display.allDigits && decide e.IsWhole &&
      display.bound.all (e.floor < Nat.pow 10 ·.toNat)) = true := by
    rw [hfloor, decide_eq_true hwhole]
    exact decide_eq_true hlt
  unfold magnitude
  dsimp only
  by_cases hzero : e.significand = 0
  · rw [if_pos hzero]
    rw [Exact.significand_eq_zero_iff, hn, Nat.cast_eq_zero] at hzero
    rw [hzero]
    rfl
  · rw [if_neg hzero, if_pos hall, hfloor]
    exact String.append_empty

theorem NumberFormat.display_ofNat (h : n ≤ 2 ^ 53) :
    NumberFormat.display.write (Float.ofNat n) = n.repr := by
  obtain ⟨e, he, hpositive, hn⟩ := Exact.ofFloat?_ofNat h
  exact display_of_magnitude he hpositive hn (lt_of_le_of_lt h (by norm_num))

end Lox
