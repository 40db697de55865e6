import PauliAlgebra.Coefficient.Cartesian
import PauliAlgebra.Decimal.Positional

/-!
# The text of a complex number

A complex number is written as its real part, a sign, and its imaginary part with
the letter i. Both parts are always written. The sign between the parts is minus
only if the imaginary part is less than zero, so a negative zero is written with a
sign of its own after the plus.
-/

namespace PauliAlgebra.Cartesian

/-- The text of a complex number. -/
def text (number : Cartesian Float) : String :=
  let sign := if number.im < 0 then "-" else "+"
  let imaginary := if number.im < 0 then -number.im else number.im
  Binary64.text number.re ++ sign ++ Binary64.text imaginary ++ "i"

end PauliAlgebra.Cartesian
