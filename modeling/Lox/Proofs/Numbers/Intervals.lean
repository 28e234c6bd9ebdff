import Lox.Number.Shortest
import Lox.Proofs.Numbers.Doubles

/-!
# The decimals that round to a double

Seventeen digits are enough to come as close to a double as it takes for a decimal to round to it. So there always
is a shortest decimal that does, and it does not round to any other double.
-/
namespace Lox.Decimal

variable {i : Interval} {a b e : Exact} {x : ℚ} {c n : ℕ} {step : ℤ} {tie : Tie}

/-- The number that a decimal is. -/
def value (d : Decimal) : ℚ := d.coefficient * 10 ^ d.exponent

theorem value_strip (d : Decimal) : d.strip.value = d.value := by
  fun_induction strip d with
  | case1 d h ih =>
    obtain ⟨k, hk⟩ := Nat.dvd_of_mod_eq_zero h.2
    rw [ih]
    simp [value, hk, zpow_add_one₀]
    ring
  | case2 d h => rfl

theorem lt_pow_digitCount (n : ℕ) : n < 10 ^ digitCount n :=
  (Nat.length_toDigits_le_iff (by decide) Nat.length_toDigits_pos).1 le_rfl

theorem pow_digitCount_le (hn : n ≠ 0) : 10 ^ (digitCount n - 1) ≤ n := by
  by_cases hone : digitCount n - 1 = 0
  · rw [hone]
    omega
  · by_contra hlt
    have hle : digitCount n ≤ digitCount n - 1 :=
      (Nat.length_toDigits_le_iff (by decide) (Nat.pos_of_ne_zero hone)).2 (Nat.lt_of_not_le hlt)
    omega

namespace Interval

/-- The number lies in the interval. -/
def Contains (i : Interval) (x : ℚ) : Prop :=
  if i.closed then i.low * 2 ^ i.exponent ≤ x ∧ x ≤ i.high * 2 ^ i.exponent
  else i.low * 2 ^ i.exponent < x ∧ x < i.high * 2 ^ i.exponent

theorem Contains.bounds (h : i.Contains x) : i.low * 2 ^ i.exponent ≤ x ∧ x ≤ i.high * 2 ^ i.exponent := by
  unfold Contains at h
  split at h
  · exact h
  · exact ⟨h.1.le, h.2.le⟩

theorem contains_of_lt (hlow : i.low * 2 ^ i.exponent < x) (hhigh : x < i.high * 2 ^ i.exponent) : i.Contains x := by
  unfold Contains
  split
  · exact ⟨hlow.le, hhigh.le⟩
  · exact ⟨hlow, hhigh⟩

/-- The power of ten that leads the middle is not greater than it. -/
theorem pow_leading_le (h : 0 < i.middle) : (10 : ℚ) ^ i.leading ≤ i.middle * 2 ^ i.exponent := by
  have hpow : (2 : ℚ) ^ i.exponent = 2 ^ i.exponent.toNat / 2 ^ (-i.exponent).toNat := zpow_eq_div 2 _
  rw [hpow, ← mul_div_assoc, le_div_iff₀ (by positivity)]
  simp only [leading, Nat.pow_eq]
  generalize hnumerator : i.middle * 2 ^ i.exponent.toNat = numerator
  generalize hdenominator : 2 ^ (-i.exponent).toNat = denominator
  have hnumerator' : (i.middle * 2 ^ i.exponent.toNat : ℚ) = numerator := by exact_mod_cast hnumerator
  have hdenominator' : (2 ^ (-i.exponent).toNat : ℚ) = denominator := by exact_mod_cast hdenominator
  have hpos : 0 < numerator := hnumerator ▸ by positivity
  have hpos' : 0 < denominator := hdenominator ▸ by positivity
  rw [hnumerator', hdenominator']
  split
  · next hle =>
    have hone : 1 ≤ numerator / denominator := (Nat.le_div_iff_mul_le hpos').2 (by omega)
    have hcount : 1 ≤ digitCount (numerator / denominator) := Nat.length_toDigits_pos
    have hdigits := pow_digitCount_le (Nat.ne_of_gt hone)
    have hmul : 10 ^ (digitCount (numerator / denominator) - 1) * denominator ≤ numerator :=
      (Nat.mul_le_mul_right _ hdigits).trans (Nat.div_mul_le_self _ _)
    have hcast : (digitCount (numerator / denominator) : ℤ) - 1 =
        (digitCount (numerator / denominator) - 1 : ℕ) := by omega
    rw [hcast, zpow_natCast]
    exact_mod_cast hmul
  · have hdigits := lt_pow_digitCount ((denominator - 1) / numerator)
    have hmul : denominator ≤ numerator * 10 ^ digitCount ((denominator - 1) / numerator) := by
      rw [Nat.div_lt_iff_lt_mul hpos] at hdigits
      rw [Nat.mul_comm]
      omega
    rw [zpow_neg, zpow_natCast, inv_mul_le_iff₀ (by positivity), mul_comm]
    exact_mod_cast hmul

/-! ## The nearest point of a grid -/

/-- The grid and the bounds are compared in natural numbers. -/
def unit (i : Interval) (step : ℤ) : ℕ := 2 ^ i.exponent.toNat * 10 ^ (-step).toNat

def scale (i : Interval) (step : ℤ) : ℕ := 10 ^ step.toNat * 2 ^ (-i.exponent).toNat

theorem scale_pos (i : Interval) (step : ℤ) : 0 < i.scale step := by
  unfold scale
  positivity

theorem unit_le_iff : n * i.unit step ≤ c * i.scale step ↔ (n : ℚ) * 2 ^ i.exponent ≤ c * 10 ^ step := by
  rw [zpow_eq_div 2, zpow_eq_div 10, ← mul_div_assoc, ← mul_div_assoc, div_le_div_iff₀ (by positivity)
    (by positivity), unit, scale, ← mul_assoc, ← mul_assoc]
  exact_mod_cast Iff.rfl

theorem scale_le_iff : c * i.scale step ≤ n * i.unit step ↔ (c : ℚ) * 10 ^ step ≤ n * 2 ^ i.exponent := by
  rw [zpow_eq_div 2, zpow_eq_div 10, ← mul_div_assoc, ← mul_div_assoc, div_le_div_iff₀ (by positivity)
    (by positivity), unit, scale, ← mul_assoc, ← mul_assoc]
  exact_mod_cast Iff.rfl

/-- A point of the grid that is found lies in the interval. If none is found then neither of the two that are
next to the middle does. -/
theorem nearest?_cases (i : Interval) (tie : Tie) (step : ℤ) :
    (∃ c, i.nearest? tie step = some c ∧ i.Contains (c * 10 ^ step)) ∨
      ∃ c : ℕ, i.nearest? tie step = none ∧
        c * i.scale step ≤ i.middle * i.unit step ∧ i.middle * i.unit step < (c + 1) * i.scale step ∧
        ¬ i.Contains (c * 10 ^ step) ∧ ¬ i.Contains ((c + 1 : ℕ) * 10 ^ step) := by
  have hinside : ∀ c : ℕ, (if i.closed = true
      then decide (i.low * i.unit step ≤ c * i.scale step ∧ c * i.scale step ≤ i.high * i.unit step)
      else decide (i.low * i.unit step < c * i.scale step ∧ c * i.scale step < i.high * i.unit step)) = true ↔
      i.Contains (c * 10 ^ step) := by
    intro c
    unfold Contains
    split
    · rw [decide_eq_true_iff, unit_le_iff, scale_le_iff]
    · rw [decide_eq_true_iff, ← not_le, ← not_le, unit_le_iff, scale_le_iff, not_le, not_le]
  unfold nearest?
  extract_lets unit scale inside below above
  change ∀ c, inside c = true ↔ i.Contains (c * 10 ^ step) at hinside
  have hbelow : below * i.scale step ≤ i.middle * i.unit step := Nat.div_mul_le_self _ _
  have habove : i.middle * i.unit step < (below + 1) * i.scale step :=
    Nat.lt_mul_of_div_lt (Nat.lt_succ_self _) (i.scale_pos step)
  -- Where both points lie in the interval it does not matter which of them is taken.
  cases hlow : inside below <;> cases hhigh : inside above
  · refine .inr ⟨below, rfl, hbelow, habove, fun h => ?_, fun h => ?_⟩
    · rw [(hinside below).2 h] at hlow
      cases hlow
    · rw [(hinside above).2 h] at hhigh
      cases hhigh
  · exact .inl ⟨above, rfl, (hinside above).1 hhigh⟩
  · exact .inl ⟨below, rfl, (hinside below).1 hlow⟩
  · left
    have hlow := (hinside below).1 hlow
    have hhigh := (hinside above).1 hhigh
    dsimp only
    split
    · exact ⟨_, rfl, hlow⟩
    · split
      · exact ⟨_, rfl, hhigh⟩
      · cases tie with
        | up => exact ⟨_, rfl, hhigh⟩
        | even =>
          refine ⟨_, rfl, ?_⟩
          split
          · exact hlow
          · exact hhigh

theorem contains_of_nearest? (h : i.nearest? tie step = some c) : i.Contains (c * 10 ^ step) := by
  obtain ⟨c', hc, hcontains⟩ | ⟨_, hnone, -⟩ := i.nearest?_cases tie step
  · cases hc.symm.trans h
    exact hcontains
  · cases hnone.symm.trans h

/-- A grid that has no point in the interval is as wide as the interval. -/
theorem width_le_of_nearest? (hlow : i.low < i.middle) (hhigh : i.middle < i.high) (h : i.nearest? tie step = none) :
    ((i.high : ℚ) - i.low) * 2 ^ i.exponent ≤ 10 ^ step := by
  obtain ⟨c, hsome, -⟩ | ⟨c, -, hbelow, habove, hout, hout'⟩ := i.nearest?_cases tie step
  · cases h.symm.trans hsome
  · have hpos : (0 : ℚ) < 2 ^ i.exponent := by positivity
    have hlow' : (i.low : ℚ) * 2 ^ i.exponent < i.middle * 2 ^ i.exponent := by gcongr
    have hhigh' : (i.middle : ℚ) * 2 ^ i.exponent < i.high * 2 ^ i.exponent := by gcongr
    rw [scale_le_iff] at hbelow
    rw [← not_le, scale_le_iff, not_le] at habove
    push_cast at habove hout'
    have hleft : (c : ℚ) * 10 ^ step ≤ i.low * 2 ^ i.exponent := by
      by_contra hlt
      rw [not_le] at hlt
      exact hout (contains_of_lt hlt (by linarith))
    have hright : (i.high : ℚ) * 2 ^ i.exponent ≤ (c + 1) * 10 ^ step := by
      by_contra hlt
      rw [not_le] at hlt
      exact hout' (contains_of_lt (by linarith) hlt)
    linarith

/-- So one of seventeen digits is found, if the interval is not too narrow. -/
theorem nearest?_isSome (hlow : i.low < i.middle) (hhigh : i.middle < i.high)
    (hwidth : i.middle + i.low * 10 ^ 16 < i.high * 10 ^ 16) :
    (i.nearest? tie (i.leading - 16)).isSome = true := by
  by_contra hnone
  rw [Bool.not_eq_true, Option.isSome_eq_false_iff, Option.isNone_iff_eq_none] at hnone
  have hle := width_le_of_nearest? hlow hhigh hnone
  have hlead := pow_leading_le (i := i) (by omega)
  have hpos : (0 : ℚ) < 2 ^ i.exponent := by positivity
  rw [zpow_sub₀ (by norm_num), le_div_iff₀ (by positivity)] at hle
  have hwidth' : (i.middle + i.low * 10 ^ 16 : ℚ) < i.high * 10 ^ 16 := by exact_mod_cast hwidth
  have hmul : ((i.high : ℚ) - i.low) * 10 ^ 16 ≤ i.middle := by
    refine le_of_mul_le_mul_right ?_ hpos
    rw [mul_right_comm]
    exact hle.trans hlead
  linarith

end Interval

/-! ## The interval of a double -/

theorem middle_lt_high (e : Exact) : (Interval.around e).middle < (Interval.around e).high :=
  Nat.lt_add_of_pos_right (by norm_num)

theorem low_lt_middle (hpos : 0 < e.significand) : (Interval.around e).low < (Interval.around e).middle := by
  simp only [Interval.around]
  split <;> omega

/-- The shortest decimal rounds to the double. -/
theorem contains_shortest (he : e.Canonical) (hpos : 0 < e.significand) (tie : Tie) :
    (Interval.around e).Contains (shortest tie e).value := by
  have hlt := he.significand_lt
  have hwidth : (Interval.around e).middle + (Interval.around e).low * 10 ^ 16 <
      (Interval.around e).high * 10 ^ 16 := by
    simp only [Interval.around, Nat.pow_eq]
    split <;> omega
  have hsome : ((Interval.around e).nearest? tie ((Interval.around e).leading - 16)).isSome = true :=
    Interval.nearest?_isSome (low_lt_middle hpos) (middle_lt_high e) hwidth
  unfold shortest
  extract_lets interval lead found
  -- The search ends with the sixteenth digit behind the leading one at the latest.
  obtain ⟨d, hd⟩ : ∃ d, found = some d := by
    refine Option.isSome_iff_exists.1 (List.findSome?_isSome_iff.2 ⟨16, by simp, ?_⟩)
    rw [Option.isSome_map]
    exact hsome
  obtain ⟨more, -, hmore⟩ := List.exists_of_findSome?_eq_some hd
  obtain ⟨c, hc, rfl⟩ := Option.map_eq_some_iff.1 hmore
  rw [value_strip, hd]
  exact Interval.contains_of_nearest? hc

theorem closed_around : (Interval.around e).closed = false ↔ e.significand % 2 = 1 := by
  simp [Interval.around]

/-- Two intervals that have no more than a bound in common, which does not belong to both. -/
theorem Interval.not_contains {j : Interval} {k : ℕ} (hexponent : j.exponent = i.exponent + k)
    (hle : i.high ≤ j.low * 2 ^ k) (hopen : i.high = j.low * 2 ^ k → i.closed = false ∨ j.closed = false)
    (hx : i.Contains x) : ¬ j.Contains x := by
  intro hx'
  have hpos : (0 : ℚ) < 2 ^ i.exponent := by positivity
  have hunit : (j.low : ℚ) * 2 ^ j.exponent = (j.low * 2 ^ k : ℕ) * 2 ^ i.exponent := by
    rw [hexponent, zpow_add₀ (by norm_num), zpow_natCast]
    push_cast
    ring
  have hhigh := hx.bounds.2
  have hlow := hx'.bounds.1
  have hbound : (j.low * 2 ^ k : ℕ) ≤ (i.high : ℚ) := by
    rw [hunit] at hlow
    exact le_of_mul_le_mul_right (hlow.trans hhigh) hpos
  have heq : i.high = j.low * 2 ^ k := hle.antisymm (by exact_mod_cast hbound)
  rw [hunit, ← heq] at hlow
  unfold Interval.Contains at hx hx'
  rcases hopen heq with hclosed | hclosed
  · simp only [hclosed, Bool.false_eq_true, if_false] at hx
    linarith
  · simp only [hclosed, Bool.false_eq_true, if_false, hunit, ← heq] at hx'
    linarith

theorem not_contains_of_significand (ha : a.Canonical) (hexponent : a.exponent = b.exponent)
    (hlt : a.significand < b.significand) (hx : (Interval.around a).Contains x) :
    ¬ (Interval.around b).Contains x := by
  have hbounds : (Interval.around a).high ≤ (Interval.around b).low ∧
      ((Interval.around a).high = (Interval.around b).low → a.significand % 2 = 1 ∨ b.significand % 2 = 1) := by
    have hnormal := ha.normal
    simp only [Interval.around, Nat.pow_eq]
    split <;> omega
  have hunit : (Interval.around b).exponent = (Interval.around a).exponent + (0 : ℕ) := by
    simp [Interval.around, hexponent]
  refine Interval.not_contains hunit (by simpa using hbounds.1) (fun heq => ?_) hx
  rw [closed_around, closed_around]
  exact hbounds.2 (by simpa using heq)

/-- Of two doubles with different exponents the one with the greater exponent has all 53 bits. So its interval does
not begin before that of the other one ends. -/
theorem not_contains_of_exponent (ha : a.Canonical) (hb : b.Canonical) (hlt : a.exponent < b.exponent)
    (hx : (Interval.around a).Contains x) : ¬ (Interval.around b).Contains x := by
  obtain ⟨k, hk⟩ := Int.le.dest hlt
  have hunit : (Interval.around b).exponent = (Interval.around a).exponent + (k + 1 : ℕ) := by
    simp only [Interval.around]
    omega
  have hsmall := ha.significand_lt
  have hhigh : (Interval.around a).high = 4 * a.significand + 2 := rfl
  have hlow : 2 ^ 54 - 1 ≤ (Interval.around b).low := by
    have hnormal := hb.normal
    have hleast := ha.least_le
    simp only [Interval.around, Nat.pow_eq]
    split <;> omega
  have hdouble : 2 * (Interval.around b).low ≤ (Interval.around b).low * 2 ^ (k + 1) := by
    rw [Nat.pow_succ', Nat.mul_left_comm]
    exact Nat.mul_le_mul_left 2 (Nat.le_mul_of_pos_right _ (Nat.two_pow_pos k))
  refine Interval.not_contains hunit (by omega) (fun heq => .inl ?_) hx
  rw [closed_around]
  omega

/-- No number rounds to two doubles. -/
theorem around_disjoint (ha : a.Canonical) (hb : b.Canonical) (hx : (Interval.around a).Contains x)
    (hx' : (Interval.around b).Contains x) : a.significand = b.significand ∧ a.exponent = b.exponent := by
  obtain hlt | hexponent | hlt := lt_trichotomy a.exponent b.exponent
  · exact absurd hx' (not_contains_of_exponent ha hb hlt hx)
  · obtain hlt | hsignificand | hlt := lt_trichotomy a.significand b.significand
    · exact absurd hx' (not_contains_of_significand ha hexponent hlt hx)
    · exact ⟨hsignificand, hexponent⟩
    · exact absurd hx (not_contains_of_significand hb hexponent.symm hlt hx')
  · exact absurd hx (not_contains_of_exponent hb ha hlt hx')

end Lox.Decimal
