import Mathlib.Data.List.GetD
import PauliAlgebra.Proofs.PauliString.Cocycle
import PauliAlgebra.Proofs.PauliString.Extent

/-!
# Strings as names of their letters

`Built` holds of the strings that come out of the constructors and of products, in any
combination. Such a string is a name of its letters: two of them store the same words exactly if
they have the same letters (`canonical_name`). So it does not matter whether a string was padded
with identities, or put together letter by letter and in which order, or whether the last blocks of
a product cancelled.

A built string reaches no further than a 32-bit width (`minQubits_of_built`), hence letters need
only be compared on the qubits of 32-bit indices.
-/

namespace PauliAlgebra.PauliString

/-- The strings that are built from single letters, bits, lists of letters and products. What comes
from outside is for at most `maxNumQubits` qubits. -/
inductive Built : PauliString → Prop where
  | identity : Built identity
  | single {qubit : Nat} {letter : Pauli} {string : PauliString}
      (built : single? qubit letter = .ok string) : Built string
  | ofBits {xs zs : List Bool} {string : PauliString} (short : xs.length ≤ maxNumQubits)
      (built : ofBits? xs zs = .ok string) : Built string
  | ofPaulis {letters : List Pauli} (short : letters.length ≤ maxNumQubits) :
      Built (ofPaulis letters)
  | mul {left right : PauliString} (builtLeft : Built left) (builtRight : Built right) :
      Built (left.mul right).string

/-- No way of building strings leads past the largest width. -/
theorem minQubits_of_built {string : PauliString} (built : Built string) :
    string.minQubits ≤ maxNumQubits := by
  induction built with
  | identity => exact Nat.zero_le _
  | @single qubit letter string built =>
      unfold single? checkQubitIndex at built
      split at built
      · next within =>
          cases built
          exact Nat.le_trans (minQubits_single_le qubit letter) (Nat.succ_le_succ within)
      · cases built
  | @ofBits xs zs string short built =>
      unfold ofBits? at built
      split at built
      · next sameLength =>
          cases built
          exact minQubits_ofBits_le short (sameLength ▸ short)
      · cases built
  | @ofPaulis letters short => exact Nat.le_trans (minQubits_ofPaulis_le letters) short
  | @mul left right _ _ leftNarrow rightNarrow =>
      exact Nat.le_trans (minQubits_mul_le left right) (Nat.max_le.mpr ⟨leftNarrow, rightNarrow⟩)

/-- Strings are equal if they agree on the qubits that they both fit into. -/
theorem ext_letters_below {left right : PauliString} {bound : Nat}
    (leftFits : left.minQubits ≤ bound) (rightFits : right.minQubits ≤ bound)
    (agree : ∀ qubit < bound, left.letter qubit = right.letter qubit) : left = right := by
  ext qubit
  by_cases below : qubit < bound
  · exact agree qubit below
  · have above := Nat.le_of_not_lt below
    exact (letter_eq_I leftFits above).trans (letter_eq_I rightFits above).symm

/-- Built strings are equal if they agree on the qubits of 32-bit indices. -/
theorem eq_iff_of_built {left right : PauliString} (builtLeft : Built left)
    (builtRight : Built right) :
    left = right ↔ ∀ qubit < 2 ^ 32, left.letter qubit = right.letter qubit := by
  constructor
  · rintro rfl _ _
    rfl
  · intro agree
    apply ext_letters_below (minQubits_of_built builtLeft) (minQubits_of_built builtRight)
    intro qubit below
    exact agree qubit (Nat.lt_trans below (by decide))

theorem words_eq_iff {left right : PauliString} : left.words = right.words ↔ left = right :=
  ⟨words_injective, congrArg words⟩

theorem isIdentity_iff (string : PauliString) : string.isIdentity = true ↔ string = identity := by
  constructor
  · intro empty
    obtain ⟨blocks, _⟩ := string
    cases List.isEmpty_iff.mp empty
    rfl
  · rintro rfl
    rfl

/-! ### Lists of bits and letters -/

/-- A list that is padded with the default reads the same. -/
theorem getD_append_replicate {α : Type*} (list : List α) (padding : Nat) (default : α)
    (index : Nat) :
    (list ++ List.replicate padding default).getD index default = list.getD index default := by
  rcases Nat.lt_or_ge index list.length with inside | past
  · exact List.getD_append _ _ _ _ inside
  · rw [List.getD_append_right _ _ _ _ past, List.getD_eq_default _ _ past]
    exact List.getElem?_getD_replicate_default_eq default _ _

/-- Missing factors at the end of a list of bits leave no trace. -/
theorem ofBits_append_replicate_false (xs zs : List Bool) (padding : Nat) :
    ofBits (xs ++ List.replicate padding false) (zs ++ List.replicate padding false)
      = ofBits xs zs := by
  ext qubit
  simp only [letter_ofBits, getD_append_replicate]

/-- Identities at the end of a list of letters leave no trace. -/
theorem ofPaulis_append_replicate_I (letters : List Pauli) (padding : Nat) :
    ofPaulis (letters ++ List.replicate padding .I) = ofPaulis letters := by
  simp only [ofPaulis, List.map_append, List.map_replicate]
  exact ofBits_append_replicate_false _ _ padding

@[simp] theorem letter_ofPaulis (letters : List Pauli) (qubit : Nat) :
    (ofPaulis letters).letter qubit = letters.getD qubit .I := by
  have x := List.getD_map letters .I Pauli.xBit (n := qubit)
  have z := List.getD_map letters .I Pauli.zBit (n := qubit)
  rw [ofPaulis, letter_ofBits, ← Pauli.ofBits_bits (letters.getD qubit .I), ← x, ← z]
  rfl

/-! ### Products of many strings -/

/-- The product of a list of strings from the left, powers of the imaginary unit left out. -/
def product (strings : List PauliString) : PauliString :=
  strings.foldl mulString identity

@[simp] theorem product_append_singleton (strings : List PauliString) (string : PauliString) :
    product (strings ++ [string]) = (product strings).mulString string := by
  simp [product]

/-- The order of the strings does not matter. -/
theorem product_perm {first second : List PauliString} (perm : first.Perm second) :
    product first = product second := by
  apply perm.foldl_eq'
  intro left _ right _ start
  ext qubit
  simp only [letter_mul]
  cases start.letter qubit <;> cases left.letter qubit <;> cases right.letter qubit <;> rfl

/-- Letters that are multiplied one after the other, each on its own qubit, make up the string of
these letters. -/
theorem product_singles (letters : List Pauli) :
    product (letters.zipIdx.map fun factor => single factor.2 factor.1) = ofPaulis letters := by
  induction letters using List.reverseRecOn with
  | nil => rfl
  | append_singleton letters last inductionHypothesis =>
      rw [List.zipIdx_append, List.map_append, List.zipIdx_singleton, List.map_singleton,
        product_append_singleton, inductionHypothesis]
      ext qubit
      rw [letter_mul, letter_single]
      rcases Nat.lt_trichotomy qubit letters.length with before | rfl | after
      · have other : qubit ≠ letters.length := Nat.ne_of_lt before
        simp [List.getElem?_append_left before, other]
      · simp
      · have other : qubit ≠ letters.length := Nat.ne_of_gt after
        simp [other, Nat.le_of_lt after, List.getElem?_append_right, Nat.sub_ne_zero_of_lt after]

/-- A string is a canonical name of its letters. Two built strings store the same words, and are
equal as keys, exactly if they have the same letters, and `isIdentity` recognizes the one without
letters other than the identity. Padding does not change a string, nor does it matter whether and
in which order it is multiplied together from single letters. -/
theorem canonical_name {left right : PauliString} (builtLeft : Built left)
    (builtRight : Built right) :
    (left.words = right.words ↔ ∀ qubit < 2 ^ 32, left.letter qubit = right.letter qubit) ∧
    (left = right ↔ ∀ qubit < 2 ^ 32, left.letter qubit = right.letter qubit) ∧
    (left.isIdentity = true ↔ ∀ qubit < 2 ^ 32, left.letter qubit = .I) ∧
    (∀ (xs zs : List Bool) (padding : Nat),
      ofBits (xs ++ List.replicate padding false) (zs ++ List.replicate padding false)
        = ofBits xs zs) ∧
    (∀ (letters : List Pauli) (padding : Nat),
      ofPaulis (letters ++ List.replicate padding .I) = ofPaulis letters) ∧
    ∀ (letters : List Pauli) (factors : List (Pauli × Nat)), factors.Perm letters.zipIdx →
      product (factors.map fun factor => single factor.2 factor.1) = ofPaulis letters := by
  have sameString := eq_iff_of_built builtLeft builtRight
  have noLetters := eq_iff_of_built builtLeft .identity
  simp only [letter_identity] at noLetters
  refine ⟨words_eq_iff.trans sameString, sameString, left.isIdentity_iff.trans noLetters,
    ofBits_append_replicate_false, ofPaulis_append_replicate_I, fun letters factors perm => ?_⟩
  exact (product_perm (perm.map _)).trans (product_singles letters)

/-- A letter past the second block that cancels leaves the string of the first two. -/
def cancelledTail : PauliString :=
  ((single 64 .Z).mul ((single 130 .Y).mul (single 130 .Y)).string).string

/-- The letters of `cancelledTail`, with three identities too many. -/
def paddedLetters : List Pauli :=
  List.replicate 64 .I ++ [.Z, .I, .I, .I]

theorem canonical_name_cancelledTail :
    Built cancelledTail ∧ Built (ofPaulis paddedLetters) ∧
    (∀ qubit < 2 ^ 32, cancelledTail.letter qubit = (ofPaulis paddedLetters).letter qubit) ∧
    ¬ ∀ qubit < 2 ^ 32, cancelledTail.letter qubit = .I := by
  have builtTail : Built cancelledTail :=
    .mul (@Built.single 64 .Z _ rfl) (.mul (@Built.single 130 .Y _ rfl) (@Built.single 130 .Y _ rfl))
  have builtPadded : Built (ofPaulis paddedLetters) := .ofPaulis (by decide)
  obtain ⟨sameWords, -, noLetters, -⟩ := canonical_name builtTail builtPadded
  refine ⟨builtTail, builtPadded, sameWords.mp (by decide +kernel), fun vanishes => ?_⟩
  have stored : cancelledTail.isIdentity = false := by decide +kernel
  exact Bool.false_ne_true (stored.symm.trans (noLetters.mpr vanishes))

end PauliAlgebra.PauliString
