import PauliAlgebra.Access
import PauliAlgebra.Binary64.Packing
import PauliAlgebra.Binary64.Basic
import PauliAlgebra.Bits.Count
import PauliAlgebra.Bits.Word
import PauliAlgebra.Coefficient.Basic
import PauliAlgebra.Coefficient.Cartesian
import PauliAlgebra.Coefficient.Closeness
import PauliAlgebra.Coefficient.Text
import PauliAlgebra.Decimal.Positional
import PauliAlgebra.Decimal.Shortest
import PauliAlgebra.Matrix.Cells
import PauliAlgebra.Matrix.Coordinates
import PauliAlgebra.Matrix.Dense
import PauliAlgebra.Matrix.RowBuilder
import PauliAlgebra.Matrix.Sparse
import PauliAlgebra.Matrix.Square
import PauliAlgebra.Operator.Algebra
import PauliAlgebra.Operator.Basic
import PauliAlgebra.Operator.BitTable
import PauliAlgebra.Operator.Compare
import PauliAlgebra.Operator.Encoding
import PauliAlgebra.Operator.Partition
import PauliAlgebra.Operator.Registers
import PauliAlgebra.Operator.Single
import PauliAlgebra.Operator.Text
import PauliAlgebra.Operator.Word
import PauliAlgebra.Outcome
import PauliAlgebra.Pauli
import PauliAlgebra.PauliString.Basic
import PauliAlgebra.PauliString.Block
import PauliAlgebra.PauliString.Limits
import PauliAlgebra.PauliString.Order
import PauliAlgebra.PauliString.Product
import PauliAlgebra.Pieces
import PauliAlgebra.Sampling.Capacity
import PauliAlgebra.Sampling.Generator
import PauliAlgebra.Sampling.Random
import PauliAlgebra.Sampling.Shuffle
import PauliAlgebra.Term
import PauliAlgebra.Term.Alter
import PauliAlgebra.Term.Merge
import PauliAlgebra.Term.Table
import PauliAlgebra.Text.CharacterClass
import PauliAlgebra.Text.Quoted
import PauliAlgebra.Threading
import PauliAlgebra.Proofs.Binary64.Equality
import PauliAlgebra.Proofs.Binary64.Value
import PauliAlgebra.Proofs.Coefficient.Closeness
import PauliAlgebra.Proofs.Coefficient.Conjugation
import PauliAlgebra.Proofs.Coefficient.Exact
import PauliAlgebra.Proofs.Matrix.Adjoint
import PauliAlgebra.Proofs.Matrix.Algebra
import PauliAlgebra.Proofs.Matrix.Blocks
import PauliAlgebra.Proofs.Matrix.Dense
import PauliAlgebra.Proofs.Matrix.Faithful
import PauliAlgebra.Proofs.Matrix.Letters
import PauliAlgebra.Proofs.Matrix.Limits
import PauliAlgebra.Proofs.Matrix.Masks
import PauliAlgebra.Proofs.Matrix.Row
import PauliAlgebra.Proofs.Matrix.Sparse
import PauliAlgebra.Proofs.Matrix.Square
import PauliAlgebra.Proofs.Matrix.Trace
import PauliAlgebra.Proofs.Matrix.Widening
import PauliAlgebra.Proofs.Operator.Adjoint
import PauliAlgebra.Proofs.Operator.Agreement
import PauliAlgebra.Proofs.Operator.Decoding
import PauliAlgebra.Proofs.Operator.Expression
import PauliAlgebra.Proofs.Operator.Factors
import PauliAlgebra.Proofs.Operator.Format
import PauliAlgebra.Proofs.Operator.Insertion
import PauliAlgebra.Proofs.Operator.Labels
import PauliAlgebra.Proofs.Operator.Laws
import PauliAlgebra.Proofs.Operator.Partition
import PauliAlgebra.Proofs.Operator.Product
import PauliAlgebra.Proofs.Operator.Reachable
import PauliAlgebra.Proofs.Operator.Reencoding
import PauliAlgebra.Proofs.Operator.RoundTrip
import PauliAlgebra.Proofs.Operator.Scalar
import PauliAlgebra.Proofs.Operator.Sum
import PauliAlgebra.Proofs.Operator.Summation
import PauliAlgebra.Proofs.Operator.Support
import PauliAlgebra.Proofs.Operator.Tabulation
import PauliAlgebra.Proofs.PauliString.Canonical
import PauliAlgebra.Proofs.PauliString.Cocycle
import PauliAlgebra.Proofs.PauliString.Group
import PauliAlgebra.Proofs.PauliString.LetterSums
import PauliAlgebra.Proofs.PauliString.Packing
import PauliAlgebra.Proofs.PauliString.Phase
import PauliAlgebra.Proofs.PauliString.Reversal
import PauliAlgebra.Proofs.PauliString.Width
import PauliAlgebra.Proofs.Sampling.Counting
import PauliAlgebra.Proofs.Term.Alteration
import PauliAlgebra.Proofs.Term.Evaluate
