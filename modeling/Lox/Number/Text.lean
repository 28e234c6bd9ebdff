import Lox.Number.Shortest

/-!
# The text of numbers

A `NumberFormat` lists the decisions that one written form of doubles makes.
-/
namespace Lox

structure NumberFormat where
  /-- Numbers with a leading digit below `10 ^ least` have an exponent. -/
  least : Option Int
  /-- Numbers from `10 ^ bound` on have an exponent. -/
  bound : Option Int
  /-- Whole numbers show all their digits, not only the shortest that tell them apart. -/
  allDigits : Bool
  /-- Whole numbers without an exponent end in `.0`. -/
  point : Bool
  /-- Positive exponents have a sign. -/
  plus : Bool
  tie : Decimal.Tie
  deriving Repr

namespace NumberFormat

def positional (f : NumberFormat) (lead : Int) : Bool :=
  f.least.all (· ≤ lead) && f.bound.all (lead < ·)

/-- The text of a magnitude, without sign. -/
def magnitude (f : NumberFormat) (e : Exact) : String :=
  let mark := if f.point && e.IsWhole then ".0" else ""
  if e.significand = 0 then "0" ++ mark
  else if f.allDigits && e.IsWhole && f.bound.all (e.floor < Nat.pow 10 ·.toNat) then
    e.floor.repr ++ mark
  else
    let d := Decimal.shortest f.tie e
    if f.positional d.leading then d.positional ++ mark else d.scientific f.plus

def write (f : NumberFormat) (x : Float) : String :=
  match Exact.ofFloat? x with
  | some e => if e.negative then "-" ++ f.magnitude e else f.magnitude e
  | none => if x.isNaN then "NaN" else if x < 0 then "-inf" else "inf"

/-- What scripts print: whole numbers without a point, an exponent from `10 ^ 21` on. -/
def display : NumberFormat := ⟨none, some 21, true, false, false, .up⟩

/-- Literals in a list of tokens: always a point or an exponent. -/
def literal : NumberFormat := ⟨some (-4), some 16, false, true, false, .up⟩

/-- Numbers in a printed tree: always a point and never an exponent. -/
def tree : NumberFormat := ⟨none, none, true, true, false, .up⟩

/-- Fractions in a JSON document. -/
def json : NumberFormat := ⟨some (-5), some 16, false, true, true, .even⟩

end NumberFormat
end Lox
