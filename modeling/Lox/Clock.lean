import Lox.Number.Exact

/-!
# Time

Programs can read the time and wait. What the clock shows is up to the world, so the
readings are given in advance; waiting moves all later ones.
-/
namespace Lox

/-- Times are in microseconds since the epoch. -/
structure Clock where
  reading : Nat → Nat
  taken : Nat := 0
  waited : Nat := 0

namespace Clock

/-- The time in seconds. -/
def read (c : Clock) : Float × Clock :=
  (Float.ofNat (c.reading c.taken + c.waited) / 1000000, { c with taken := c.taken + 1 })

/-- The longest wait is shorter than this many seconds. -/
def waitLimit : Float := Float.ofNat (Nat.pow 2 64)

/-- Waits for a number of milliseconds; none if that is longer than any wait can be. -/
def wait? (c : Clock) (milliseconds : Float) : Option Clock :=
  if waitLimit ≤ milliseconds / 1000 then none
  else
    match Exact.ofFloat? (milliseconds * 1000) with
    | some e => some { c with waited := c.waited + e.floor }
    | none => some c

end Clock
end Lox
