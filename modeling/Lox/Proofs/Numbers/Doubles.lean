import Mathlib
import Lox.Number.Exact

/-!
# The numbers that doubles are

A finite double is the rational number that its bits spell, with as large a significand as fits. Finite doubles
of the same sign and magnitude are the same, and the test for whole numbers gives the number that a double is.
-/
namespace Lox

open Float.Model.UnpackedFloat (unpack unpackExponent)

/-- A power of either sign as a fraction of natural powers. -/
theorem zpow_eq_div (b : ℚ) (k : ℤ) : b ^ k = b ^ k.toNat / b ^ (-k).toNat := by
  obtain ⟨n, rfl | rfl⟩ := k.eq_nat_or_neg
  · simp
  · simp

attribute [ext] Exact

namespace Exact

/-- The number without its sign. -/
def magnitude (e : Exact) : ℚ := e.significand * 2 ^ e.exponent

def value (e : Exact) : ℚ := if e.negative then -e.magnitude else e.magnitude

/-- The form that finite doubles have: all 53 bits of the significand are used, unless the exponent is the
least one. -/
structure Canonical (e : Exact) : Prop where
  significand_lt : e.significand < 2 ^ 53
  least_le : leastExponent ≤ e.exponent
  normal : 2 ^ 52 ≤ e.significand ∨ e.exponent = leastExponent

variable {a b e : Exact} {n : ℕ}

theorem magnitude_nonneg (e : Exact) : 0 ≤ e.magnitude := by
  unfold magnitude
  positivity

theorem magnitude_eq_div (e : Exact) :
    e.magnitude = (e.significand * 2 ^ e.exponent.toNat : ℕ) / (2 ^ (-e.exponent).toNat : ℕ) := by
  rw [magnitude, zpow_eq_div]
  push_cast
  ring

/-! ## Whole numbers -/

theorem magnitude_eq_natCast_iff :
    e.magnitude = n ↔ e.significand * 2 ^ e.exponent.toNat = n * 2 ^ (-e.exponent).toNat := by
  rw [magnitude_eq_div, div_eq_iff (by positivity)]
  exact_mod_cast Iff.rfl

theorem floor_of_magnitude (h : e.magnitude = n) : e.floor = n := by
  unfold floor
  simp only [Nat.pow_eq]
  rw [magnitude_eq_natCast_iff.1 h, Nat.mul_div_cancel _ (by positivity)]

theorem isWhole_iff : e.IsWhole ↔ e.magnitude = e.floor := by
  unfold IsWhole
  rw [magnitude_eq_natCast_iff, floor, ← Nat.dvd_iff_mod_eq_zero]
  simp only [Nat.pow_eq]
  rw [eq_comm (b := _ * _), ← Nat.dvd_iff_div_mul_eq]
  -- Of the two powers one is 1.
  obtain h | h := le_total 0 e.exponent
  · simp [Int.toNat_of_nonpos (Int.neg_nonpos_of_nonneg h)]
  · simp [Int.toNat_of_nonpos h]

theorem significand_eq_zero_iff : e.significand = 0 ↔ e.magnitude = 0 := by
  unfold magnitude
  rw [mul_eq_zero, Nat.cast_eq_zero]
  exact (or_iff_left (by positivity)).symm

theorem value_eq_natCast_iff :
    e.value = n ↔ e.magnitude = n ∧ (e.negative = false ∨ e.significand = 0) := by
  have hnonneg := e.magnitude_nonneg
  rw [significand_eq_zero_iff]
  unfold value
  cases e.negative with
  | false => simp
  | true =>
    simp only [if_true, Bool.true_eq_false, false_or]
    constructor
    · intro h
      have hn : (0 : ℚ) ≤ n := n.cast_nonneg
      constructor <;> linarith
    · rintro ⟨h, hzero⟩
      rw [← h, hzero, neg_zero]

/-- The natural number that is found is the one that the double is equal to. -/
theorem toNat?_eq_some_iff : e.toNat? = some n ↔ e.value = n := by
  rw [value_eq_natCast_iff]
  unfold toNat?
  constructor
  · intro h
    split at h
    next hwhole =>
      cases h
      exact ⟨isWhole_iff.1 hwhole.1, hwhole.2⟩
    next => cases h
  · rintro ⟨h, hsign⟩
    have hfloor := floor_of_magnitude h
    rw [if_pos ⟨isWhole_iff.2 (hfloor ▸ h), hsign⟩, hfloor]

/-! ## The form that is read -/

theorem canonical_of_ofBits? {bits : ℕ} (h : ofBits? bits = some e) : e.Canonical := by
  have hfraction := Nat.mod_lt bits (Nat.two_pow_pos 52)
  simp only [ofBits?, Nat.pow_eq] at h
  split at h
  · cases h
  · split at h
    · cases h
      exact ⟨by dsimp only; omega, le_rfl, .inr rfl⟩
    · next hbiased =>
      cases h
      refine ⟨by dsimp only; omega, ?_, .inl (by dsimp only; omega)⟩
      unfold leastExponent
      dsimp only
      omega

/-- The number with the greater exponent is the greater one. -/
theorem Canonical.magnitude_lt (ha : a.Canonical) (hb : b.Canonical) (h : a.exponent < b.exponent) :
    a.magnitude < b.magnitude := by
  have hsmall : (a.significand : ℚ) < 2 ^ 53 := by exact_mod_cast ha.significand_lt
  have hnormal : 2 ^ 52 ≤ b.significand := hb.normal.resolve_right fun hleast => by
    have := ha.least_le
    omega
  have hlarge : (2 ^ 52 : ℚ) ≤ b.significand := by exact_mod_cast hnormal
  calc a.magnitude < 2 ^ 53 * 2 ^ a.exponent := by unfold magnitude; gcongr
    _ = 2 ^ 52 * 2 ^ (a.exponent + 1) := by rw [zpow_add_one₀ (by norm_num)]; ring
    _ ≤ b.significand * 2 ^ b.exponent := by gcongr; norm_num; omega

theorem Canonical.eq_of_magnitude_eq (ha : a.Canonical) (hb : b.Canonical)
    (h : a.magnitude = b.magnitude) : a.significand = b.significand ∧ a.exponent = b.exponent := by
  have hexponent : a.exponent = b.exponent := by
    obtain hlt | heq | hgt := lt_trichotomy a.exponent b.exponent
    · exact absurd h (ha.magnitude_lt hb hlt).ne
    · exact heq
    · exact absurd h (hb.magnitude_lt ha hgt).ne'
  refine ⟨?_, hexponent⟩
  unfold magnitude at h
  rw [hexponent] at h
  exact_mod_cast mul_right_cancel₀ (by positivity) h

/-- A significand in this form is not moved up any further. -/
theorem Canonical.toBits_eq (h : e.Canonical) :
    e.toBits = (if e.negative then 2 ^ 63 else 0) +
      (if e.significand < 2 ^ 52 then e.significand
        else (e.exponent - leastExponent).toNat * 2 ^ 52 + e.significand) := by
  have hshift : min (52 - e.significand.log2) (e.exponent - leastExponent).toNat = 0 := by
    obtain hnormal | hleast := h.normal
    · have hlog : 52 ≤ e.significand.log2 := (Nat.le_log2 (by omega)).2 hnormal
      omega
    · omega
  unfold toBits
  simp only [hshift, Nat.pow_eq, pow_zero, mul_one, Nat.cast_zero, sub_zero]
  split <;> simp

/-- Bits that spell a number are those of the double that is equal to it. -/
theorem toBits_of_ofBits? {bits : ℕ} (hbits : bits < 2 ^ 64) (h : ofBits? bits = some e) :
    e.toBits = bits := by
  rw [(canonical_of_ofBits? h).toBits_eq]
  simp only [ofBits?, Nat.pow_eq] at h
  have hsign : (if decide (2 ^ 63 ≤ bits) = true then 2 ^ 63 else 0) = bits / 2 ^ 63 * 2 ^ 63 := by
    simp only [decide_eq_true_eq]
    split <;> omega
  split at h
  · cases h
  split at h
  · cases h
    rw [hsign]
    dsimp only
    rw [if_pos (by omega)]
    omega
  · cases h
    rw [hsign]
    dsimp only [leastExponent]
    rw [if_neg (by omega)]
    omega

theorem toBits_of_ofFloat? {x : Float} (h : ofFloat? x = some e) : e.toBits = x.toBits.toNat :=
  toBits_of_ofBits? x.toBits.toNat_lt h

theorem canonical_of_ofFloat? {x : Float} (h : ofFloat? x = some e) : e.Canonical :=
  canonical_of_ofBits? h

theorem ofFloat?_inj {x y : Float} (hx : ofFloat? x = some e) (hy : ofFloat? y = some e) : x = y :=
  Float.toBits_inj.1 (UInt64.toNat_inj.1 ((toBits_of_ofFloat? hx).symm.trans (toBits_of_ofFloat? hy)))

/-- The doubles that are finite are the ones that are numbers. -/
theorem exists_ofFloat?_iff {x : Float} : (∃ e, ofFloat? x = some e) ↔ x.isFinite = true := by
  let exponent : BitVec 11 := @unpackExponent .binary64 x.toModel.toBits.toBitVec
  have hexponent : exponent.toNat = x.toBits.toNat / 2 ^ 52 % 2 ^ 11 := by
    refine (BitVec.toNat_cast _ _).trans ((BitVec.extractLsb_toNat _ _ _).trans ?_)
    rw [Nat.shiftRight_eq_div_pow]
    rfl
  have hfinite : x.isFinite = true ↔ exponent ≠ -1#11 := by
    change (unpack .binary64 x.toModel.toBits.toBitVec).isFinite = true ↔ _
    unfold unpack
    dsimp only
    split
    · next h =>
      refine iff_of_false ?_ (absurd h)
      split <;> nofun
    · next h =>
      refine iff_of_true ?_ h
      split
      · split <;> rfl
      · rfl
  rw [hfinite, ne_eq, ← BitVec.toNat_inj, hexponent]
  unfold ofFloat? ofBits?
  simp only [Nat.pow_eq]
  split
  · next h => exact iff_of_false nofun (by rw [h]; norm_num)
  · next h =>
    refine iff_of_true ?_ (by norm_num at h ⊢; exact h)
    split <;> exact ⟨_, rfl⟩

end Exact
end Lox
