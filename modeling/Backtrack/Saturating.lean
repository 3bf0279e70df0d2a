/-!
# Saturating arithmetic on signed 64-bit numbers

A result too large or too small for the range stops at the end of the range.
-/

namespace Backtrack.Saturating

/-- The greatest signed 64-bit number. -/
def greatest : Int := 9223372036854775807

/-- The least signed 64-bit number. -/
def least : Int := -9223372036854775808

/-- The number of the range that is nearest. -/
def clamp (x : Int) : Int :=
  max least (min greatest x)

/-- The sum, clamped. -/
def add (x y : Int) : Int := clamp (x + y)

/-- The difference, clamped. -/
def sub (x y : Int) : Int := clamp (x - y)

/-- The product, clamped. -/
def mul (x y : Int) : Int := clamp (x * y)

/-- The number with one more decimal digit at its end. -/
def snoc (x digit : Int) : Int := add (mul x 10) digit

end Backtrack.Saturating
