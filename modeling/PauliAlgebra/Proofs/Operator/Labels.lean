import Mathlib.Data.Set.List
import PauliAlgebra.Proofs.Operator.RoundTrip
import PauliAlgebra.Proofs.PauliString.Canonical

/-!
# Words and labels

A word over the alphabet `IXYZ` is read as an operator with one term, of which the word is the
label. The label of any term is such a word, and read again it gives the string of the term, at the
width of the operator that the term belongs to: identities at the end are not stored in the string,
but they are part of the label. A word with other characters is refused at the first of them.

Characters and letters are compared first (`Pauli.mem_alphabet_iff`), then lists of them by an
induction that carries the position along (`ofSymbols?_eq_ok_iff`, `ofSymbols?_eq_error_iff`).
-/

namespace PauliAlgebra

universe u

namespace Pauli

/-! ### Characters -/

/-- The characters that write letters. -/
def alphabet : List Char := ['I', 'X', 'Y', 'Z']

theorem mem_alphabet_iff {symbol : Char} :
    symbol ∈ alphabet ↔ ∃ letter : Pauli, symbol = letter.symbol := by
  constructor
  · intro member
    simp only [alphabet, List.mem_cons, List.not_mem_nil, or_false] at member
    rcases member with rfl | rfl | rfl | rfl
    · exact ⟨.I, rfl⟩
    · exact ⟨.X, rfl⟩
    · exact ⟨.Y, rfl⟩
    · exact ⟨.Z, rfl⟩
  · rintro ⟨letter, rfl⟩
    cases letter <;> decide

theorem ofSymbol?_symbol (letter : Pauli) : ofSymbol? letter.symbol = some letter :=
  (ofSymbol?_eq_some_iff _ _).mpr rfl

/-- The characters outside the alphabet write no letter. -/
theorem ofSymbol?_eq_none_iff {symbol : Char} : ofSymbol? symbol = none ↔ symbol ∉ alphabet := by
  simp [mem_alphabet_iff, Option.eq_none_iff_forall_ne_some, ofSymbol?_eq_some_iff]

/-! ### Lists of characters -/

theorem forall_mem_alphabet_iff {symbols : List Char} :
    (∀ character ∈ symbols, character ∈ alphabet) ↔
      ∃ letters : List Pauli, letters.map symbol = symbols := by
  have spelled := Set.ext_iff.mp (Set.range_list_map symbol) symbols
  simpa [mem_alphabet_iff, eq_comm] using spelled.symm

/-- A word has as many characters as the letters that it writes. -/
theorem length_eq_of_written {word : String} {letters : List Pauli}
    (written : letters.map symbol = word.toList) : letters.length = word.length := by
  simpa [← String.length_toList] using congrArg List.length written

/-- Characters that write letters are read as these letters. -/
theorem ofSymbols?_map_symbol (position : Nat) (letters : List Pauli) :
    ofSymbols? position (letters.map symbol) = .ok letters := by
  induction letters generalizing position with
  | nil => rfl
  | cons letter rest inductionHypothesis =>
      simp only [List.map_cons, ofSymbols?, ofSymbol?_symbol, inductionHypothesis]
      rfl

/-- Reading ends at a character that writes no letter. -/
theorem ofSymbols?_append_unknown (position : Nat) (letters : List Pauli) {unknown : Char}
    (outside : unknown ∉ alphabet) (rest : List Char) :
    ofSymbols? position (letters.map symbol ++ unknown :: rest)
      = .error ⟨unknown, position + letters.length⟩ := by
  induction letters generalizing position with
  | nil => simp [ofSymbols?, ofSymbol?_eq_none_iff.mpr outside]
  | cons letter others inductionHypothesis =>
      simp only [List.map_cons, List.cons_append, ofSymbols?, ofSymbol?_symbol,
        inductionHypothesis, List.length_cons, Nat.add_assoc, Nat.add_comm 1]
      rfl

/-- Characters write letters up to the end, or up to the first one that writes none. -/
theorem spelled_or_unknown (symbols : List Char) :
    (∃ letters : List Pauli, letters.map symbol = symbols) ∨
      ∃ (letters : List Pauli) (unknown : Char) (rest : List Char),
        letters.map symbol ++ unknown :: rest = symbols ∧ unknown ∉ alphabet := by
  induction symbols with
  | nil => exact .inl ⟨[], rfl⟩
  | cons head rest inductionHypothesis =>
      by_cases known : head ∈ alphabet
      · obtain ⟨letter, rfl⟩ := mem_alphabet_iff.mp known
        rcases inductionHypothesis with ⟨letters, rfl⟩ | ⟨letters, unknown, after, rfl, outside⟩
        · exact .inl ⟨letter :: letters, rfl⟩
        · exact .inr ⟨letter :: letters, unknown, after, rfl, outside⟩
      · exact .inr ⟨[], head, rest, rfl, known⟩

theorem ofSymbols?_eq_ok_iff {position : Nat} {symbols : List Char} {letters : List Pauli} :
    ofSymbols? position symbols = .ok letters ↔ letters.map symbol = symbols := by
  constructor
  · intro read
    rcases spelled_or_unknown symbols with ⟨others, rfl⟩ | ⟨others, unknown, rest, rfl, outside⟩
    · rw [ofSymbols?_map_symbol] at read
      cases read
      rfl
    · rw [ofSymbols?_append_unknown _ _ outside] at read
      cases read
  · rintro rfl
    exact ofSymbols?_map_symbol position letters

/-- The first character outside the alphabet is reported with its position. -/
theorem ofSymbols?_eq_error_iff {position : Nat} {symbols : List Char} {error : WordError} :
    ofSymbols? position symbols = .error error ↔
      ∃ before after, before ++ error.symbol :: after = symbols ∧
        position + before.length = error.position ∧
        (∀ character ∈ before, character ∈ alphabet) ∧ error.symbol ∉ alphabet := by
  constructor
  · intro read
    rcases spelled_or_unknown symbols with ⟨letters, rfl⟩ | ⟨letters, unknown, rest, rfl, outside⟩
    · rw [ofSymbols?_map_symbol] at read
      cases read
    · rw [ofSymbols?_append_unknown _ _ outside] at read
      cases read
      exact ⟨letters.map symbol, rest, rfl, by simp, forall_mem_alphabet_iff.mpr ⟨letters, rfl⟩,
        outside⟩
  · rintro ⟨before, after, rfl, atPosition, spelled, outside⟩
    obtain ⟨letters, rfl⟩ := forall_mem_alphabet_iff.mp spelled
    rw [ofSymbols?_append_unknown _ _ outside, ← List.length_map symbol, atPosition]

end Pauli

/-! ### Labels -/

namespace PauliString

/-- The letters of a string that was put together from letters are these. -/
theorem paulis_ofPaulis (letters : List Pauli) :
    (ofPaulis letters).paulis letters.length = letters := by
  refine List.ext_getElem (by simp) fun qubit _ inside => ?_
  simp [paulis, inside]

/-- A string is put together from its letters, if they are all among those asked for. -/
theorem ofPaulis_paulis {string : PauliString} {numQubits : Nat}
    (fits : string.minQubits ≤ numQubits) : ofPaulis (string.paulis numQubits) = string := by
  simpa [ofPaulis, paulis, letter, Function.comp_def] using ofBits_bits fits

@[simp] theorem toList_label (string : PauliString) (numQubits : Nat) :
    (string.label numQubits).toList = (string.paulis numQubits).map Pauli.symbol :=
  String.toList_ofList

/-- The label of the string of the letters that a word writes is that word. -/
theorem label_ofPaulis {word : String} {letters : List Pauli}
    (written : letters.map Pauli.symbol = word.toList) :
    (ofPaulis letters).label word.length = word := by
  simp [label, ← Pauli.length_eq_of_written written, paulis_ofPaulis, written]

end PauliString

namespace Operator

variable {K : Type u} [Add K] [One K] [Neg K] [Coefficient K]

/-- The operator of a list of letters has one term. -/
theorem terms_ofPaulis (isNonzero : Coefficient.isZero (1 : K) = false) (letters : List Pauli) :
    (ofPaulis letters : Operator K).terms = [⟨.ofPaulis letters, 1⟩] := by
  apply terms_ofTerms
  · exact List.nodup_singleton _
  · simpa using isNonzero

/-- The words that are read are those that letters write. -/
theorem ofWord?_eq_ok_iff {word : String} {operator : Operator K} :
    ofWord? word = .ok operator ↔
      ∃ letters : List Pauli, letters.map Pauli.symbol = word.toList ∧
        operator = ofPaulis letters := by
  simp only [← @Pauli.ofSymbols?_eq_ok_iff 0]
  unfold ofWord?
  cases Pauli.ofSymbols? 0 word.toList with
  | ok letters => simp [eq_comm]
  | error error => simp

/-- A word that is not read is refused at its first character outside the alphabet. -/
theorem ofWord?_eq_error_iff {word : String} {error : WordError} :
    (ofWord? word : Except WordError (Operator K)) = .error error ↔
      ∃ before after, before ++ error.symbol :: after = word.toList ∧
        before.length = error.position ∧
        (∀ character ∈ before, character ∈ Pauli.alphabet) ∧ error.symbol ∉ Pauli.alphabet := by
  have refused := @Pauli.ofSymbols?_eq_error_iff 0 word.toList error
  simp only [Nat.zero_add] at refused
  rw [← refused]
  unfold ofWord?
  cases Pauli.ofSymbols? 0 word.toList with
  | ok letters => simp
  | error found => simp

/-- The label of a string within the width is read as that string. -/
theorem ofWord?_label {string : PauliString} {numQubits : Nat}
    (fits : string.minQubits ≤ numQubits) (isNonzero : Coefficient.isZero (1 : K) = false) :
    ∃ read : Operator K, ofWord? (string.label numQubits) = .ok read ∧
      read.numQubits = numQubits ∧ read.terms = [⟨string, 1⟩] := by
  refine ⟨ofPaulis (string.paulis numQubits), ?_, ?_, ?_⟩
  · exact ofWord?_eq_ok_iff.mpr ⟨_, (string.toList_label numQubits).symm, rfl⟩
  · simp [numQubits_ofPaulis]
  · simp [terms_ofPaulis isNonzero, PauliString.ofPaulis_paulis fits]

/-- Reading words and writing labels are inverse to each other.

A word over the alphabet is read as an operator with a qubit for each character and one term, which
has coefficient one and that word as its label. Any other word is refused, and the error holds the
first character outside the alphabet and how many characters come before it. The label of a term
of any operator is read as an operator on as many qubits, with the string of that term. -/
theorem word_label_inverse {word : String} (short : word.length ≤ maxNumQubits)
    (operator : Operator (Cartesian Float)) :
    ((∀ character ∈ word.toList, character ∈ Pauli.alphabet) →
      ∃ (read : Operator (Cartesian Float)) (term : Term (Cartesian Float)),
        ofWord? word = .ok read ∧ Reachable read ∧ read.numQubits = word.length ∧
          read.terms = [term] ∧ term.coeff = 1 ∧ term.string.label read.numQubits = word) ∧
    ((∃ read : Operator (Cartesian Float), ofWord? word = .ok read) ↔
      ∀ character ∈ word.toList, character ∈ Pauli.alphabet) ∧
    (∀ error, (ofWord? word : Except WordError (Operator (Cartesian Float))) = .error error ↔
      ∃ before after, before ++ error.symbol :: after = word.toList ∧
        before.length = error.position ∧
        (∀ character ∈ before, character ∈ Pauli.alphabet) ∧ error.symbol ∉ Pauli.alphabet) ∧
    ∀ term ∈ operator.terms, ∃ read : Operator (Cartesian Float),
      ofWord? (term.string.label operator.numQubits) = .ok read ∧
        read.numQubits = operator.numQubits ∧ read.terms = [⟨term.string, 1⟩] := by
  have isNonzero : Coefficient.isZero (1 : Cartesian Float) = false := by decide
  refine ⟨fun spelled => ?_, ?_, fun error => ofWord?_eq_error_iff, fun term member => ?_⟩
  · obtain ⟨letters, written⟩ := Pauli.forall_mem_alphabet_iff.mp spelled
    have read := ofWord?_eq_ok_iff.mpr ⟨letters, written, @rfl (Operator (Cartesian Float)) _⟩
    have width := numQubits_ofWord? read
    refine ⟨_, _, read, .ofWord short read, width, terms_ofPaulis isNonzero letters, rfl, ?_⟩
    rw [width, PauliString.label_ofPaulis written]
  · simp [ofWord?_eq_ok_iff, Pauli.forall_mem_alphabet_iff]
  · exact ofWord?_label (operator.fits term member) isNonzero

/-- Letters past the second block, with identities at the end. -/
def paddedPaulis : List Pauli := List.replicate 129 .Z ++ [.X, .I, .I]

/-- The word that writes these letters. -/
def paddedWord : String := .ofList (paddedPaulis.map Pauli.symbol)

/-- The letters of one block. -/
def blockOfYs : List Pauli := List.replicate 64 .Y

/-- These letters and then a character of which the last byte is that of the letter X. -/
def disguisedWord : String := .ofList (blockOfYs.map Pauli.symbol ++ [Char.ofNat 0x158, 'Q'])

/-- The first word is read, the character in the second one is found, and the label of a term on
more qubits than it needs is read. -/
theorem word_label_inverse_padded :
    (∃ (read : Operator (Cartesian Float)) (term : Term (Cartesian Float)),
      ofWord? paddedWord = .ok read ∧ Reachable read ∧ read.numQubits = paddedWord.length ∧
        read.terms = [term] ∧ term.coeff = 1 ∧ term.string.label read.numQubits = paddedWord) ∧
    (ofWord? disguisedWord : Except WordError (Operator (Cartesian Float)))
      = .error ⟨Char.ofNat 0x158, 64⟩ ∧
    ∃ read : Operator (Cartesian Float),
      ofWord? ((PauliString.single 64 .Y).label padded.numQubits) = .ok read ∧
        read.numQubits = padded.numQubits ∧ read.terms = [⟨.single 64 .Y, 1⟩] := by
  have shortPadded : paddedWord.length ≤ maxNumQubits :=
    Nat.le_trans (Nat.le_of_eq String.length_ofList) (by decide +kernel)
  have shortDisguised : disguisedWord.length ≤ maxNumQubits :=
    Nat.le_trans (Nat.le_of_eq String.length_ofList) (by decide)
  obtain ⟨reads, -, -, labels⟩ := word_label_inverse shortPadded padded
  obtain ⟨-, -, refuses, -⟩ := word_label_inverse shortDisguised padded
  refine ⟨reads ?_, (refuses _).mpr ⟨blockOfYs.map Pauli.symbol, ['Q'], ?_, rfl, ?_, ?_⟩, ?_⟩
  · exact Pauli.forall_mem_alphabet_iff.mpr ⟨paddedPaulis, String.toList_ofList.symm⟩
  · exact String.toList_ofList.symm
  · exact Pauli.forall_mem_alphabet_iff.mpr ⟨blockOfYs, rfl⟩
  · decide
  · exact labels ⟨.single 64 .Y, ⟨1, -2⟩⟩ (by decide +kernel)

end Operator

end PauliAlgebra
