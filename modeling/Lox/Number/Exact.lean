/-!
# Doubles as exact numbers

A finite double is a dyadic rational. Tests and conversions that must not round
(is it whole, which index does it name, what is the remainder) are made on that rational.
-/
namespace Lox

/-- The rational `significand * 2 ^ exponent`, negated if `negative` is set. -/
structure Exact where
  negative : Bool
  significand : Nat
  exponent : Int
  deriving DecidableEq, Repr

namespace Exact

/-- Exponent of the least significant bit of a subnormal double. -/
def leastExponent : Int := -1074

/-- The value of the finite double with these 64 bits. -/
def ofBits? (bits : Nat) : Option Exact :=
  let fraction : Nat := bits % Nat.pow 2 52
  let biased : Nat := bits / Nat.pow 2 52 % Nat.pow 2 11
  let negative := decide (Nat.pow 2 63 ≤ bits)
  if biased = Nat.pow 2 11 - 1 then none
  else if biased = 0 then some ⟨negative, fraction, leastExponent⟩
  else some ⟨negative, Nat.pow 2 52 + fraction, biased + leastExponent - 1⟩

/-- The value of a finite double, none of an infinity or NaN. -/
def ofFloat? (x : Float) : Option Exact := ofBits? x.toBits.toNat

/-- The bits of the double that is equal to `e`. The significand has at most 53 bits and the
exponent is not below `leastExponent`; a significand is moved up as far as both allow. -/
def toBits (e : Exact) : Nat :=
  let shift := min (52 - e.significand.log2) (e.exponent - leastExponent).toNat
  let significand := e.significand * Nat.pow 2 shift
  let magnitude :=
    if significand < Nat.pow 2 52 then significand
    else (e.exponent - shift - leastExponent).toNat * Nat.pow 2 52 + significand
  if e.negative then Nat.pow 2 63 + magnitude else magnitude

def toFloat (e : Exact) : Float := Float.ofBits e.toBits.toUInt64

def IsWhole (e : Exact) : Prop := e.significand % Nat.pow 2 (-e.exponent).toNat = 0

instance (e : Exact) : Decidable e.IsWhole := inferInstanceAs (Decidable (_ = 0))

/-- The magnitude without its fractional part. -/
def floor (e : Exact) : Nat :=
  e.significand * Nat.pow 2 e.exponent.toNat / Nat.pow 2 (-e.exponent).toNat

/-- The natural number that is equal to `e`. Both zeros are `0`. -/
def toNat? (e : Exact) : Option Nat :=
  if e.IsWhole ∧ (e.negative = false ∨ e.significand = 0) then some e.floor else none

/-- What is left of `a` after taking away whole multiples of `b`, with the sign of `a`. -/
def remainder (a b : Exact) : Exact :=
  let least := min a.exponent b.exponent
  let left := a.significand * Nat.pow 2 (a.exponent - least).toNat
  let right := b.significand * Nat.pow 2 (b.exponent - least).toNat
  ⟨a.negative, left % right, least⟩

end Exact

namespace Number

def IsWhole (x : Float) : Prop := ∃ e, Exact.ofFloat? x = some e ∧ e.IsWhole

instance (x : Float) : Decidable (IsWhole x) :=
  match h : Exact.ofFloat? x with
  | none => .isFalse fun ⟨_, he, _⟩ => by simp [h] at he
  | some e =>
    if hw : e.IsWhole then .isTrue ⟨e, h, hw⟩
    else .isFalse fun ⟨_, he, hw'⟩ => by
      rw [h] at he
      exact hw (Option.some.inj he ▸ hw')

/-- The natural number that is equal to `x`, if there is one. -/
def toNat? (x : Float) : Option Nat := (Exact.ofFloat? x).bind Exact.toNat?

/-- The remainder of a division that truncates. It is exact and has the sign of the dividend;
a finite dividend is its own remainder by an infinity. -/
def remainder (x y : Float) : Float :=
  match Exact.ofFloat? x, Exact.ofFloat? y with
  | some a, some b => if b.significand = 0 then 0 / 0 else (a.remainder b).toFloat
  | some _, none => if y.isNaN then y else x
  | none, _ => 0 / 0

end Number
end Lox
