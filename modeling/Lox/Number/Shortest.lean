import Lox.Number.Exact

/-!
# Shortest decimals

Every double stands for an interval of reals that round to it. Of the decimals in that
interval this file picks one with the fewest digits, and of those the nearest to the double.
-/
namespace Lox

/-- The number `coefficient * 10 ^ exponent`. -/
structure Decimal where
  coefficient : Nat
  exponent : Int
  deriving DecidableEq, Repr

namespace Decimal

/-- Which of two decimals at the same distance is taken. -/
inductive Tie where
  | up | even
  deriving DecidableEq, Repr

def digitCount (n : Nat) : Nat := (Nat.toDigits 10 n).length

/-- Exponent of the leading digit. -/
def leading (d : Decimal) : Int := d.exponent + digitCount d.coefficient - 1

/-- The reals that round to a double, with bounds and middle in units of `2 ^ exponent`. -/
structure Interval where
  low : Nat
  middle : Nat
  high : Nat
  exponent : Int
  closed : Bool

/-- The neighbours of a double are half a unit away, but a quarter of one below a power of two.
A bound belongs to the interval if the double is even, as a half-way case rounds to even. -/
def Interval.around (e : Exact) : Interval where
  low := if e.significand = Nat.pow 2 52 ∧ e.exponent ≠ Exact.leastExponent
    then 4 * e.significand - 1 else 4 * e.significand - 2
  middle := 4 * e.significand
  high := 4 * e.significand + 2
  exponent := e.exponent - 2
  closed := e.significand % 2 = 0

/-- Exponent of the leading digit of `middle * 2 ^ exponent`. -/
def Interval.leading (i : Interval) : Int :=
  let numerator := i.middle * Nat.pow 2 i.exponent.toNat
  let denominator := Nat.pow 2 (-i.exponent).toNat
  if denominator ≤ numerator then digitCount (numerator / denominator) - 1
  else -(digitCount ((denominator - 1) / numerator))

/-- The point of the grid of multiples of `10 ^ step` that lies in the interval and is nearest
to its middle. -/
def Interval.nearest? (i : Interval) (tie : Tie) (step : Int) : Option Nat :=
  let unit := Nat.pow 2 i.exponent.toNat * Nat.pow 10 (-step).toNat
  let scale := Nat.pow 10 step.toNat * Nat.pow 2 (-i.exponent).toNat
  let inside (c : Nat) : Bool :=
    if i.closed then i.low * unit ≤ c * scale ∧ c * scale ≤ i.high * unit
    else i.low * unit < c * scale ∧ c * scale < i.high * unit
  let below := i.middle * unit / scale
  let above := below + 1
  match inside below, inside above with
  | false, false => none
  | true, false => some below
  | false, true => some above
  | true, true =>
    let down := i.middle * unit - below * scale
    let up := above * scale - i.middle * unit
    if down < up then some below
    else if up < down then some above
    else match tie with
      | .up => some above
      | .even => some (if below % 2 = 0 then below else above)

/-- Moves trailing zeros of the coefficient into the exponent. -/
def strip (d : Decimal) : Decimal :=
  if h : d.coefficient ≠ 0 ∧ d.coefficient % 10 = 0 then
    strip ⟨d.coefficient / 10, d.exponent + 1⟩
  else d
termination_by d.coefficient
decreasing_by exact Nat.div_lt_self (Nat.pos_of_ne_zero h.1) (by decide)

/-- Grids that give the value one digit, two digits and so on are tried in turn; seventeen
digits tell any two doubles apart. -/
def shortest (tie : Tie) (e : Exact) : Decimal :=
  let interval := Interval.around e
  let lead := interval.leading
  let found := (List.range 17).findSome? fun (more : Nat) =>
    (interval.nearest? tie (lead - more)).map fun c => (⟨c, lead - more⟩ : Decimal)
  (found.getD ⟨0, 0⟩).strip

/-- The digits with a point where one is needed and zeros up to it. -/
def positional (d : Decimal) : String :=
  let digits := Nat.toDigits 10 d.coefficient
  let lead := d.leading
  if 0 ≤ d.exponent then String.ofList (digits ++ List.replicate d.exponent.toNat '0')
  else if 0 ≤ lead then
    let whole := lead.toNat + 1
    String.ofList (digits.take whole ++ '.' :: digits.drop whole)
  else String.ofList ('0' :: '.' :: (List.replicate (-lead - 1).toNat '0' ++ digits))

/-- One digit before the point, and the power of ten after `e`. -/
def scientific (plus : Bool) (d : Decimal) : String :=
  let mantissa := match Nat.toDigits 10 d.coefficient with
    | [] => []
    | [digit] => [digit]
    | digit :: more => digit :: '.' :: more
  let lead := d.leading
  let sign := if lead < 0 then "-" else if plus then "+" else ""
  String.ofList mantissa ++ "e" ++ sign ++ lead.natAbs.repr

end Decimal
end Lox
