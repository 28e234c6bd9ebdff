import Lox.Number.Text
import Lox.Proofs.Numbers.Intervals

/-!
# What the text of a number says

Read as a decimal, the text of a double in a printed tree is a number that rounds to it. So different doubles have
different texts.
-/
namespace Lox

namespace Decimal

variable {whole places : List Char} {d : Decimal}

/-- The number that digits with at most one point between them denote. -/
def ofText (text : List Char) : ℚ :=
  Nat.ofDigitChars 10 (text.filter (· ≠ '.')) 0 / 10 ^ (text.dropWhile (· ≠ '.')).tail.length

theorem ofText_digits (h : '.' ∉ whole) : ofText whole = Nat.ofDigitChars 10 whole 0 := by
  have hne : ∀ c ∈ whole, (decide (c ≠ '.')) = true := fun c hc => decide_eq_true fun heq => h (heq ▸ hc)
  rw [ofText, List.filter_eq_self.2 hne, List.dropWhile_eq_nil_iff.2 hne]
  simp

theorem ofText_point (h : '.' ∉ whole) (h' : '.' ∉ places) :
    ofText (whole ++ '.' :: places) = Nat.ofDigitChars 10 (whole ++ places) 0 / 10 ^ places.length := by
  have hne : ∀ c ∈ whole, (decide (c ≠ '.')) = true := fun c hc => decide_eq_true fun heq => h (heq ▸ hc)
  have hne' : ∀ c ∈ places, (decide (c ≠ '.')) = true := fun c hc => decide_eq_true fun heq => h' (heq ▸ hc)
  rw [ofText, List.filter_append, List.filter_cons_of_neg (by simp), List.filter_eq_self.2 hne,
    List.filter_eq_self.2 hne', List.dropWhile_append_of_pos hne, List.dropWhile_cons_of_neg (by simp),
    List.tail_cons]

theorem point_not_mem_toDigits (n : ℕ) : '.' ∉ Nat.toDigits 10 n := fun h =>
  absurd (Nat.isDigit_of_mem_toDigits (by decide) (by decide) h) (by decide)

/-- As many places as the exponent is below zero. -/
theorem div_eq_value {k : ℕ} (hk : (k : ℤ) = -d.exponent) :
    (d.coefficient : ℚ) / 10 ^ k = d.value := by
  rw [value, ← neg_eq_iff_eq_neg.2 hk, zpow_neg, zpow_natCast, div_eq_mul_inv]

/-- The digits of a decimal and its point say what it is. -/
theorem ofText_positional (d : Decimal) : ofText d.positional.toList = d.value := by
  have hdigits := Nat.ofDigitChars_toDigits (b := 10) (n := d.coefficient) (by decide) (by decide)
  have hpoint := point_not_mem_toDigits d.coefficient
  have hleading : d.leading = d.exponent + (Nat.toDigits 10 d.coefficient).length - 1 := rfl
  unfold positional
  dsimp only
  generalize Nat.toDigits 10 d.coefficient = digits at hdigits hpoint hleading
  split
  · next hle =>
    obtain ⟨k, hk⟩ := Int.eq_ofNat_of_zero_le hle
    rw [String.toList_ofList, ofText_digits (by simp [hpoint]), Nat.ofDigitChars_append, hdigits,
      Nat.ofDigitChars_replicate_zero]
    simp [value, hk, mul_comm]
  · split
    · next hlead =>
      have hwhole : '.' ∉ digits.take (d.leading.toNat + 1) := fun h => hpoint (List.mem_of_mem_take h)
      have hplaces : '.' ∉ digits.drop (d.leading.toNat + 1) := fun h => hpoint (List.mem_of_mem_drop h)
      rw [String.toList_ofList, ofText_point hwhole hplaces, List.take_append_drop, hdigits]
      refine div_eq_value ?_
      rw [List.length_drop]
      omega
    · have hplaces : '.' ∉ List.replicate (-d.leading - 1).toNat '0' ++ digits := by simp [hpoint]
      have hzeros : Nat.ofDigitChars 10 (['0'] ++ (List.replicate (-d.leading - 1).toNat '0' ++ digits)) 0 =
          d.coefficient := by
        rw [← hdigits, ← List.append_assoc, Nat.ofDigitChars_append, Nat.ofDigitChars_append,
          Nat.ofDigitChars_replicate_zero]
        rfl
      rw [String.toList_ofList]
      change ofText (['0'] ++ '.' :: _) = _
      rw [ofText_point (by decide) hplaces, hzeros]
      refine div_eq_value ?_
      rw [List.length_append, List.length_replicate]
      omega

end Decimal

namespace NumberFormat

open Decimal (ofText Interval)

variable {a b e : Exact} {x y : Float}

/-! ## Whole numbers and others -/

theorem magnitude_of_whole (h : e.IsWhole) : tree.magnitude e = e.floor.repr ++ ".0" := by
  unfold magnitude
  by_cases hzero : e.significand = 0
  · have hfloor : e.floor = 0 := by simp [Exact.floor, hzero]
    simp only [tree, h, hzero, hfloor]
    rfl
  · simp [tree, h, hzero]

theorem magnitude_of_fraction (h : ¬ e.IsWhole) :
    tree.magnitude e = (Decimal.shortest .up e).positional := by
  have hzero : e.significand ≠ 0 := fun hzero => h (by simp [Exact.IsWhole, hzero])
  unfold magnitude
  simp [tree, h, hzero, positional]

/-- A double rounds to itself. -/
theorem contains_magnitude (e : Exact) : (Interval.around e).Contains e.magnitude := by
  have hpos : (0 : ℚ) < 2 ^ (Interval.around e).exponent := by positivity
  have hmiddle : e.magnitude = (Interval.around e).middle * 2 ^ (Interval.around e).exponent := by
    simp only [Interval.around, Exact.magnitude]
    rw [zpow_sub₀ (by norm_num)]
    push_cast
    ring
  have hhigh := Decimal.middle_lt_high e
  rw [hmiddle]
  obtain hzero | hpos := e.significand.eq_zero_or_pos
  · -- At zero the interval begins with the number itself.
    have hlow : (Interval.around e).low ≤ (Interval.around e).middle := by simp [Interval.around, hzero]
    have hclosed : (Interval.around e).closed = true := by simp [Interval.around, hzero]
    unfold Interval.Contains
    rw [if_pos hclosed]
    exact ⟨by gcongr, by gcongr⟩
  · have hlow := Decimal.low_lt_middle hpos
    exact Decimal.Interval.contains_of_lt (by gcongr) (by gcongr)

/-- The text of a double in a tree is a number that rounds to it. -/
theorem contains_ofText (he : e.Canonical) : (Interval.around e).Contains (ofText (tree.magnitude e).toList) := by
  by_cases hwhole : e.IsWhole
  · have hpoint := Decimal.point_not_mem_toDigits e.floor
    have htext : (tree.magnitude e).toList = Nat.toDigits 10 e.floor ++ '.' :: ['0'] := by
      rw [magnitude_of_whole hwhole, String.toList_append, Nat.toList_repr]
      rfl
    have hvalue : ofText (tree.magnitude e).toList = e.magnitude := by
      rw [htext, Decimal.ofText_point hpoint (by decide), Nat.ofDigitChars_append,
        Nat.ofDigitChars_toDigits (by decide) (by decide), Exact.isWhole_iff.1 hwhole, Nat.ofDigitChars_cons]
      simp
    rw [hvalue]
    exact contains_magnitude e
  · have hpos : 0 < e.significand := Nat.pos_of_ne_zero fun hzero => hwhole (by simp [Exact.IsWhole, hzero])
    rw [magnitude_of_fraction hwhole, Decimal.ofText_positional]
    exact Decimal.contains_shortest he hpos .up

/-! ## Characters -/

/-- A digit, and then digits and points. -/
def IsMagnitude (text : List Char) : Prop :=
  ∃ c rest, text = c :: rest ∧ c.isDigit = true ∧ ∀ d ∈ rest, d.isDigit = true ∨ d = '.'

theorem isMagnitude_append {digits rest : List Char} (hne : digits ≠ [])
    (hdigits : ∀ d ∈ digits, d.isDigit = true) (hrest : ∀ d ∈ rest, d.isDigit = true ∨ d = '.') : IsMagnitude (digits ++ rest) := by
  obtain ⟨c, digits, rfl⟩ := List.exists_cons_of_ne_nil hne
  obtain ⟨hc, hdigits⟩ := List.forall_mem_cons.1 hdigits
  refine ⟨c, digits ++ rest, rfl, hc, List.forall_mem_append.2 ⟨fun d hd => .inl (hdigits d hd), hrest⟩⟩

theorem isMagnitude_positional (d : Decimal) : IsMagnitude d.positional.toList := by
  have hne : Nat.toDigits 10 d.coefficient ≠ [] := Nat.toDigits_ne_nil
  have hdigits : ∀ c ∈ Nat.toDigits 10 d.coefficient, c.isDigit = true :=
    fun c => Nat.isDigit_of_mem_toDigits (by decide) (by decide)
  have hzero : '0'.isDigit = true := by decide
  have hzeros : ∀ n, ∀ c ∈ List.replicate n '0', c.isDigit = true := by
    intro n c hc
    rw [List.eq_of_mem_replicate hc, hzero]
  unfold Decimal.positional
  dsimp only
  generalize Nat.toDigits 10 d.coefficient = digits at hne hdigits
  split
  · rw [String.toList_ofList]
    exact isMagnitude_append hne hdigits fun c hc => .inl (hzeros _ c hc)
  · split
    · rw [String.toList_ofList]
      refine isMagnitude_append (by simpa using hne) (fun c hc => hdigits c (List.mem_of_mem_take hc)) ?_
      exact List.forall_mem_cons.2 ⟨.inr rfl, fun c hc => .inl (hdigits c (List.mem_of_mem_drop hc))⟩
    · rw [String.toList_ofList]
      refine ⟨'0', _, rfl, hzero, List.forall_mem_cons.2 ⟨.inr rfl, ?_⟩⟩
      exact List.forall_mem_append.2 ⟨fun c hc => .inl (hzeros _ c hc), fun c hc => .inl (hdigits c hc)⟩

theorem isMagnitude_tree (e : Exact) : IsMagnitude (tree.magnitude e).toList := by
  by_cases hwhole : e.IsWhole
  · rw [magnitude_of_whole hwhole, String.toList_append, Nat.toList_repr]
    have hplaces : ".0".toList = ['.', '0'] := rfl
    rw [hplaces]
    exact isMagnitude_append Nat.toDigits_ne_nil (fun c => Nat.isDigit_of_mem_toDigits (by decide) (by decide))
      (List.forall_mem_cons.2 ⟨.inr rfl, List.forall_mem_singleton.2 (.inl (by decide))⟩)
  · rw [magnitude_of_fraction hwhole]
    exact isMagnitude_positional _

theorem toList_write (h : Exact.ofFloat? x = some e) :
    (tree.write x).toList = (if e.negative then ['-'] else []) ++ (tree.magnitude e).toList := by
  unfold write
  rw [h]
  dsimp only
  split
  · rw [String.toList_append]
    rfl
  · rfl

/-- Different finite doubles have different texts. -/
theorem tree_injective (hx : x.isFinite = true) (hy : y.isFinite = true) (h : tree.write x = tree.write y) :
    x = y := by
  obtain ⟨a, hx⟩ := Exact.exists_ofFloat?_iff.2 hx
  obtain ⟨b, hy⟩ := Exact.exists_ofFloat?_iff.2 hy
  have htext := congrArg String.toList h
  rw [toList_write hx, toList_write hy] at htext
  -- No magnitude begins with a minus.
  have hsame : a.negative = b.negative ∧ (tree.magnitude a).toList = (tree.magnitude b).toList := by
    obtain ⟨c, rest, ha, hc, -⟩ := isMagnitude_tree a
    obtain ⟨c', rest', hb, hc', -⟩ := isMagnitude_tree b
    rw [ha, hb] at htext ⊢
    cases hnegative : a.negative <;> cases hnegative' : b.negative <;> simp [hnegative, hnegative'] at htext ⊢
    · exact htext
    · rw [htext.1] at hc
      cases hc
    · rw [← htext.1] at hc'
      cases hc'
    · exact htext
  have hcontains := contains_ofText (Exact.canonical_of_ofFloat? hx)
  rw [hsame.2] at hcontains
  obtain ⟨hsignificand, hexponent⟩ := Decimal.around_disjoint (Exact.canonical_of_ofFloat? hx)
    (Exact.canonical_of_ofFloat? hy) hcontains (contains_ofText (Exact.canonical_of_ofFloat? hy))
  have heq : a = b := Exact.ext hsame.1 hsignificand hexponent
  exact Exact.ofFloat?_inj hx (heq ▸ hy)

end NumberFormat
end Lox
