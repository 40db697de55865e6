import PauliAlgebra.Binary64.Basic

/-!
# The shortest decimal of a float

A float stands for the interval of real numbers that round to it. Among the
decimals in that interval the one with the fewest digits is selected, and of two
the nearer; if both are equally near, the larger.

The decimals with a given last place form a grid, and only the two neighbours of
the number on that grid have to be tried. Grids are tried from coarse to fine, and
all comparisons are between natural numbers. The search ends at a grid that holds
the number itself.
-/

namespace PauliAlgebra

/-- A natural number times a power of ten. -/
structure Decimal where
  digits : Nat
  exponent : Int
deriving DecidableEq, Repr

/-- The real numbers that round to a positive float, in units of a power of two. -/
structure RoundingInterval where
  lower : Nat
  value : Nat
  upper : Nat
  /-- The exponent of two in the unit. -/
  unit : Int
  /-- Whether the two ends belong to the interval. -/
  closed : Bool
deriving Repr

namespace RoundingInterval

/-- The interval of `significand * 2 ^ exponent`. It reaches half a unit of the last
place up, and as far down, except that below a power of two floats are twice as
dense; only the smallest exponent has no denser floats below. Halves are rounded to
even significands. -/
def ofFinite (significand : Nat) (exponent : Int) : RoundingInterval where
  lower := 4 * significand - if significand = 1 <<< 52 ∧ -1074 < exponent then 1 else 2
  value := 4 * significand
  upper := 4 * significand + 2
  unit := exponent - 2
  closed := significand % 2 = 0

/-- A power with an exponent below zero read as zero. -/
def power (base : Nat) (exponent : Int) : Nat :=
  base.pow exponent.toNat

/-- What the points of the grid with last place `10 ^ exponent` count as, when both
sides of a comparison are made natural numbers. -/
def gridScale (interval : RoundingInterval) (exponent : Int) : Nat :=
  power 10 exponent * power 2 (-interval.unit)

/-- What the ends of the interval count as beside such a grid. -/
def endScale (interval : RoundingInterval) (exponent : Int) : Nat :=
  power 2 interval.unit * power 10 (-exponent)

/-- Whether a point of a grid lies in the interval. -/
def contains (interval : RoundingInterval) (exponent : Int) (point : Nat) : Bool :=
  let position := point * interval.gridScale exponent
  let lower := interval.lower * interval.endScale exponent
  let upper := interval.upper * interval.endScale exponent
  if interval.closed then lower ≤ position && position ≤ upper
  else lower < position && position < upper

/-- The point of a grid in the interval that is nearest to the number. -/
def nearest? (interval : RoundingInterval) (exponent : Int) : Option Nat :=
  let number := interval.value * interval.endScale exponent
  let spacing := interval.gridScale exponent
  let below := number / spacing
  match interval.contains exponent below, interval.contains exponent (below + 1) with
  | true, true => if 2 * number < (2 * below + 1) * spacing then some below else some (below + 1)
  | true, false => some below
  | false, true => some (below + 1)
  | false, false => none

/-- The first grid with a point in the interval, from the given last place on and
for at most so many finer ones. -/
def search (interval : RoundingInterval) (exponent : Int) : Nat → Decimal
  | 0 => ⟨(interval.nearest? exponent).getD 0, exponent⟩
  | finer + 1 =>
      match interval.nearest? exponent with
      | some point => ⟨point, exponent⟩
      | none => interval.search (exponent - 1) finer

/-- The decimal with the fewest digits in the interval. The first grid is too coarse
to have a point before the upper end, and the last one has the unit of the interval
or one as its last place. -/
def shortest (interval : RoundingInterval) : Decimal :=
  let whole := interval.upper * power 2 interval.unit / power 2 (-interval.unit)
  let coarsest : Int := (Nat.toDigits 10 whole).length
  let finest := min interval.unit 0
  interval.search coarsest (coarsest - finest).toNat

end RoundingInterval

namespace Binary64

/-- The shortest decimal of the size of a finite float. -/
def shortest (number : Float) : Decimal :=
  match number.toModel.unpack with
  | .finite _ significand exponent _ => (RoundingInterval.ofFinite significand exponent).shortest
  | _ => ⟨0, 0⟩

end Binary64

end PauliAlgebra
