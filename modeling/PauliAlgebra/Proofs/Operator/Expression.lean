import PauliAlgebra.Operator.Compare
import PauliAlgebra.Proofs.Operator.Width

/-!
# Widths of expressions

An expression is a tree of operations on operators with float coefficients. The width of its value
is the greatest of the widths that the tree mentions: those of the operators it starts from, those
it widens to, and the reach of the strings it adds. What the coefficients do on the way plays no
part, so a sum that cancels or a multiple of zero stays as wide as it was.

Each operation sets the width in its own way, and `numQubits_value` joins these by an induction over
the tree.
-/

namespace PauliAlgebra

/-- Operations on operators, put together to a tree. A number is added and multiplied from either
side with the same result, and subtracted in the two orders. -/
inductive Expression where
  | leaf (operator : Operator (Cartesian Float))
  | add (left right : Expression)
  | sub (left right : Expression)
  | mul (left right : Expression)
  | sum (operands : List Expression)
  | neg (operand : Expression)
  | adjoint (operand : Expression)
  | simplify (tolerance : Float) (operand : Expression)
  | addScalar (operand : Expression) (scalar : Cartesian Float)
  | subScalar (operand : Expression) (scalar : Cartesian Float)
  | scalarSub (scalar : Cartesian Float) (operand : Expression)
  | scale (operand : Expression) (scalar : Cartesian Float)
  | widen (operand : Expression) (numQubits : Nat)
  | addTerm (operand : Expression) (term : Term (Cartesian Float))

@[simp] theorem Operator.numQubits_simplify (tolerance : Float)
    (operator : Operator (Cartesian Float)) :
    (operator.simplify tolerance).numQubits = operator.numQubits := rfl

namespace Expression

/-- The operator that an expression stands for. -/
def value : Expression → Operator (Cartesian Float)
  | leaf operator => operator
  | add left right => left.value + right.value
  | sub left right => left.value - right.value
  | mul left right => left.value * right.value
  | sum operands => .sum (operands.map value)
  | neg operand => -operand.value
  | adjoint operand => operand.value.adjoint
  | simplify tolerance operand => operand.value.simplify tolerance
  | addScalar operand scalar => operand.value.addScalar scalar
  | subScalar operand scalar => operand.value.subScalar scalar
  | scalarSub scalar operand => .scalarSub scalar operand.value
  | scale operand scalar => operand.value.scale scalar
  | widen operand numQubits => operand.value.widen numQubits
  | addTerm operand term => operand.value.addTerm term

/-- The widths that an expression mentions, from its leaves up. -/
def widths : Expression → List Nat
  | leaf operator => [operator.numQubits]
  | add left right | sub left right | mul left right => left.widths ++ right.widths
  | sum operands => operands.flatMap widths
  | neg operand | adjoint operand | simplify _ operand => operand.widths
  | addScalar operand _ | subScalar operand _ | scalarSub _ operand | scale operand _ =>
      operand.widths
  | widen operand numQubits => operand.widths ++ [numQubits]
  | addTerm operand term => operand.widths ++ [term.string.minQubits]

/-- The value of an expression is as wide as the widest of what the expression mentions. -/
theorem numQubits_value : (expression : Expression) →
    expression.value.numQubits = greatest expression.widths
  | leaf operator => by simp [value, widths]
  | add left right => by simp [value, widths, numQubits_value left, numQubits_value right]
  | sub left right => by simp [value, widths, numQubits_value left, numQubits_value right]
  | mul left right => by simp [value, widths, numQubits_value left, numQubits_value right]
  | sum operands => by
      have each (operand : Expression) (member : operand ∈ operands) :
          operand.value.numQubits = greatest operand.widths := numQubits_value operand
      rw [value, widths, greatest_flatMap, Operator.numQubits_sum, List.map_map]
      exact congrArg greatest (List.map_congr_left each)
  | neg operand => by simp [value, widths, numQubits_value operand]
  | adjoint operand => by simp [value, widths, numQubits_value operand]
  | simplify _ operand => by simp [value, widths, numQubits_value operand]
  | addScalar operand _ => by simp [value, widths, numQubits_value operand]
  | subScalar operand _ => by simp [value, widths, numQubits_value operand]
  | scalarSub _ operand => by simp [value, widths, numQubits_value operand]
  | scale operand _ => by simp [value, widths, numQubits_value operand]
  | widen operand _ => by simp [value, widths, numQubits_value operand]
  | addTerm operand _ => by simp [value, widths, numQubits_value operand]

/-- The width of an operator does not depend on what cancels: the value of an expression is exactly
as wide as the widest of its leaves, of the numbers of qubits it widens to and of the strings it
adds, and a sum of terms exactly as wide as asked for or as the furthest of its strings. -/
theorem numQubits_eq_greatest_width :
    (∀ expression : Expression, expression.value.numQubits = greatest expression.widths) ∧
    ∀ (numQubits : Nat) (terms : List (Term (Cartesian Float))),
      (Operator.ofTerms numQubits terms).numQubits
        = max numQubits (greatest (terms.map fun term => term.string.minQubits)) :=
  ⟨numQubits_value, Operator.numQubits_ofTerms⟩

end Expression

end PauliAlgebra
