import PauliAlgebra.Operator.Registers
import PauliAlgebra.Proofs.Operator.Support
import PauliAlgebra.Proofs.Operator.Width
import PauliAlgebra.Proofs.Term.Alteration

/-!
# Sums and differences term by term

The terms of a sum are those of the left operand in their order, each with the coefficient that the
right operand has for its string added to it, and after them the terms of the right operand with
other strings, in theirs. A difference adds the opposite coefficients. Nothing is asked of the
addition, so this holds of rounded coefficients as well as of exact ones.

The right operand is merged term by term, and one step of that is one step of the description
(`joined_merge`): the strings of an operator are distinct, so that no term is met twice, and one
that was removed does not come back.

The same sums are formed in registers: `putSum` leaves the registers of both operands as they were,
and `addInPlace` that of the right one.
-/

namespace PauliAlgebra

universe u v

variable {K : Type u} [Neg K] [Coefficient K] [Add K]

/-! ### Joining lists of terms -/

/-- What becomes of a term when a coefficient is added to its string, if one is: the term with the
sum of both, or no term if that is zero. -/
def Term.plus? (term : Term K) : Option K → Option (Term K)
  | none => some term
  | some added => (Terms.nonzero? (term.coeff + added)).map (Term.mk term.string)

namespace Terms

/-- The terms of one list, each with what the other list adds to it, and then the terms of the other
list that bring in new strings. -/
def joined (left right : List (Term K)) : List (Term K) :=
  left.filterMap (fun term => term.plus? (coeff? right term.string)) ++
    right.filter fun term => !(coeff? left term.string).isSome

theorem joined_nil (left : List (Term K)) : joined left [] = left := by
  rw [joined, List.filter_nil, List.append_nil]
  exact List.filterMap_some

variable {left rest : List (Term K)} {term : Term K}

/-- A term that is merged into one with its string adds to that one, whatever comes after it. -/
theorem filterMap_plus?_merge_of_mem (distinct : (strings left).Nodup)
    (known : term.string ∈ strings left) (fresh : term.string ∉ strings rest) :
    (merge left term).filterMap (fun other => other.plus? (coeff? rest other.string))
      = left.filterMap fun other => other.plus? (coeff? (term :: rest) other.string) := by
  rw [merge, alter_of_mem _ distinct known, List.filterMap_filterMap]
  refine List.filterMap_congr fun other _ => ?_
  by_cases same : other.string = term.string
  · rw [if_pos same, same, coeff?_cons_self, Term.plus?, mergedCoeff?, same]
    cases nonzero? (other.coeff + term.coeff) with
    | none => rfl
    | some sum => exact congrArg (Term.plus? ⟨term.string, sum⟩) (coeff?_eq_none fresh)
  · rw [if_neg same, coeff?_cons_of_ne (Ne.symm same)]
    rfl

/-- A term with a new string comes in last, and nothing is added to it. -/
theorem filterMap_plus?_merge_of_notMem (nonzero : Coefficient.isZero term.coeff = false)
    (new : term.string ∉ strings left) (fresh : term.string ∉ strings rest) :
    (merge left term).filterMap (fun other => other.plus? (coeff? rest other.string))
      = left.filterMap (fun other => other.plus? (coeff? (term :: rest) other.string))
        ++ [term] := by
  have kept : mergedCoeff? term.coeff none = some term.coeff := nonzero?_eq_some nonzero
  have others : left.filterMap (fun other => other.plus? (coeff? (term :: rest) other.string))
      = left.filterMap fun other => other.plus? (coeff? rest other.string) :=
    List.filterMap_congr fun other member => by
      rw [coeff?_cons_of_ne (string_ne_of_mem new member).symm]
  rw [merge, alter_of_notMem _ new, kept, List.filterMap_append, others]
  simp [coeff?_eq_none fresh, Term.plus?]

/-- Merging the first term of a list is the first step of joining the list. -/
theorem joined_merge (distinct : (strings left).Nodup)
    (nonzero : Coefficient.isZero term.coeff = false) (fresh : term.string ∉ strings rest) :
    joined (merge left term) rest = joined left (term :: rest) := by
  -- The later terms have other strings, so which of them are new is not changed by the merge.
  have laterTerms : (rest.filter fun other => !(coeff? (merge left term) other.string).isSome)
      = rest.filter fun other => !(coeff? left other.string).isSome :=
    List.filter_congr fun other member => by
      rw [merge, coeff?_alter _ _ distinct, if_neg (string_ne_of_mem fresh member)]
  rw [joined, joined, laterTerms]
  by_cases known : term.string ∈ strings left
  · rw [filterMap_plus?_merge_of_mem distinct known fresh, List.filter_cons_of_neg]
    rw [isSome_coeff?_iff.mpr known]
    exact Bool.false_ne_true
  · rw [filterMap_plus?_merge_of_notMem nonzero known fresh, List.filter_cons_of_pos,
      List.append_assoc, List.singleton_append]
    rw [coeff?_eq_none known]
    rfl

/-- Merging nonzero terms with distinct strings joins them to the terms that are there. -/
theorem foldl_merge_eq_joined {left right : List (Term K)} (leftDistinct : (strings left).Nodup)
    (rightDistinct : (strings right).Nodup)
    (nonzero : ∀ term ∈ right, Coefficient.isZero term.coeff = false) :
    right.foldl merge left = joined left right := by
  induction right generalizing left with
  | nil => exact (joined_nil left).symm
  | cons term rest inductionHypothesis =>
      have ⟨fresh, restDistinct⟩ := List.nodup_cons.mp rightDistinct
      have ⟨termNonzero, restNonzero⟩ := List.forall_mem_cons.mp nonzero
      rw [List.foldl_cons, ← joined_merge leftDistinct termNonzero fresh]
      exact inductionHypothesis (nodup_alter _ _ leftDistinct) restDistinct restNonzero

end Terms

/-! ### Operators -/

namespace Operator

/-- The terms of a sum. -/
theorem terms_add (left right : Operator K) :
    (left + right).terms
      = left.terms.filterMap (fun term => term.plus? (Terms.coeff? right.terms term.string)) ++
        right.terms.filter fun term => !left.contains term.string :=
  (Terms.mergeAll_eq_foldl left.distinct right.terms).trans
    (Terms.foldl_merge_eq_joined left.distinct right.distinct right.nonzero)

protected theorem sub_eq_add_neg (left right : Operator K) : left - right = left + -right := rfl

omit [Add K] in
theorem coeff?_terms_neg (operator : Operator K) (string : PauliString) :
    Terms.coeff? (-operator).terms string
      = (Terms.coeff? operator.terms string).map fun coeff => -coeff :=
  Terms.coeff?_map_mapCoeff _ _ _

/-- The terms of a difference. -/
theorem terms_sub (left right : Operator K) :
    (left - right).terms
      = left.terms.filterMap (fun term =>
          term.plus? ((Terms.coeff? right.terms term.string).map fun coeff => -coeff)) ++
        (right.terms.filter fun term => !left.contains term.string).map
          (Term.mapCoeff fun coeff => -coeff) := by
  have newTerms : ((-right).terms.filter fun term => !left.contains term.string)
      = (right.terms.filter fun term => !left.contains term.string).map
        (Term.mapCoeff fun coeff => -coeff) := List.filter_map
  simp only [Operator.sub_eq_add_neg, terms_add, newTerms, coeff?_terms_neg]

end Operator

/-! ### Registers -/

namespace Registers

variable {Name : Type v} [DecidableEq Name] (registers : Registers Name K)

omit [Add K]

@[simp] theorem put_same (target : Name) (operator : Operator K) :
    registers.put target operator target = operator :=
  if_pos rfl

theorem put_other {target name : Name} (other : name ≠ target) (operator : Operator K) :
    registers.put target operator name = registers name :=
  if_neg other

@[simp] theorem put_put (target : Name) (first second : Operator K) :
    (registers.put target first).put target second = registers.put target second := by
  funext name
  unfold put
  split
  · rfl
  · rfl

variable [Add K]

/-- Terms are taken in by one register, and no other register changes on the way. -/
theorem takeIn_eq_put (target : Name) (numQubits : Nat) (terms : List (Term K)) :
    registers.takeIn target numQubits terms
      = registers.put target (((registers target).widen numQubits).addTerms terms) := by
  -- Between two terms the register holds what the earlier terms have made of `start`.
  have run (start : Operator K) :
      terms.foldl (fun registers term =>
        registers.put target ((registers target).addTerm term)) (registers.put target start)
        = registers.put target (terms.foldl Operator.addTerm start) := by
    induction terms generalizing start with
    | nil => rfl
    | cons term rest inductionHypothesis =>
        rw [List.foldl_cons, put_put, put_same, inductionHypothesis, List.foldl_cons]
  rw [takeIn, run, Operator.addTerms_eq_foldl]

theorem addInPlace_eq_put (target right : Name) :
    registers.addInPlace target right
      = registers.put target (registers target + registers right) :=
  registers.takeIn_eq_put ..

theorem subInPlace_eq_put (target right : Name) :
    registers.subInPlace target right
      = registers.put target (registers target - registers right) :=
  registers.takeIn_eq_put ..

variable {registers}

/-- A sum is put into its register, if that is not the register of the right operand. -/
theorem putSum_eq_put {target left right : Name} (apart : right ≠ target) :
    registers.putSum target left right
      = registers.put target (registers left + registers right) := by
  rw [putSum, addInPlace_eq_put, put_put, put_same, put_other _ apart]

theorem putDifference_eq_put {target left right : Name} (apart : right ≠ target) :
    registers.putDifference target left right
      = registers.put target (registers left - registers right) := by
  rw [putDifference, subInPlace_eq_put, put_put, put_same, put_other _ apart]

end Registers

namespace Operator

/-- What sums and differences are, term by term. The terms of the left operand come first: those with
a string of the right operand get the sum of both coefficients and are left out if that is zero, the
others stay as they are. The terms of the right operand with other strings follow as they are. Both
keep the order of their operand, and the result is as wide as the wider operand. A difference is the
same with the opposite coefficients on the right, and it is the sum with the negated right operand.
Neither changes an operand: formed in registers, only the register of the result is another one
afterwards, and that is also where sums and differences in place put the same operators. -/
theorem add_sub_termwise (a b : Operator K) :
    (a + b).numQubits = max a.numQubits b.numQubits ∧
    (a + b).terms
      = a.terms.filterMap (fun term => term.plus? (Terms.coeff? b.terms term.string)) ++
        b.terms.filter (fun term => !a.contains term.string) ∧
    (a - b).numQubits = max a.numQubits b.numQubits ∧
    (a - b).terms
      = a.terms.filterMap (fun term =>
          term.plus? ((Terms.coeff? b.terms term.string).map fun coeff => -coeff)) ++
        (b.terms.filter fun term => !a.contains term.string).map
          (Term.mapCoeff fun coeff => -coeff) ∧
    a - b = a + -b ∧
    ∀ (Name : Type) [DecidableEq Name] (registers : Registers Name K) (target left right : Name),
      registers left = a → registers right = b → right ≠ target → ∀ name,
        registers.putSum target left right name
          = (if name = target then a + b else registers name) ∧
        registers.putDifference target left right name
          = (if name = target then a - b else registers name) ∧
        registers.addInPlace left right name
          = (if name = left then a + b else registers name) ∧
        registers.subInPlace left right name
          = (if name = left then a - b else registers name) := by
  refine ⟨numQubits_add a b, terms_add a b, numQubits_sub a b, terms_sub a b,
    Operator.sub_eq_add_neg a b, ?_⟩
  rintro Name _ registers target left right rfl rfl apart name
  rw [Registers.putSum_eq_put apart, Registers.putDifference_eq_put apart,
    Registers.addInPlace_eq_put, Registers.subInPlace_eq_put]
  exact ⟨rfl, rfl, rfl, rfl⟩

/-- Two operators with rounded coefficients in three registers. Their sum cancels at one string,
meets an infinite coefficient at another one, and has a string from each of them besides. -/
def meeting : Registers (Fin 3) (Cartesian Float) :=
  fun name => match name with
    | 0 => ofTerms 2 [⟨.single 0 .X, ⟨1, 0⟩⟩, ⟨.single 1 .Z, ⟨2, 0⟩⟩, ⟨.identity, ⟨1, 1⟩⟩]
    | 1 => ofTerms 70 [⟨.single 64 .Y, ⟨3, 0⟩⟩, ⟨.identity, ⟨1 / 0, 0⟩⟩, ⟨.single 0 .X, ⟨-1, 0⟩⟩]
    | 2 => empty

theorem add_sub_termwise_meeting :
    (meeting 0 + meeting 1).numQubits = 70 ∧
    meeting 0 - meeting 1 = meeting 0 + -meeting 1 ∧
    (1 : Fin 3) ≠ 2 ∧
    meeting.putSum 2 0 1 2 = meeting 0 + meeting 1 ∧
    meeting.putSum 2 0 1 0 = meeting 0 ∧
    meeting.putSum 2 0 1 1 = meeting 1 := by
  obtain ⟨width, -, -, -, negated, inRegisters⟩ := add_sub_termwise (meeting 0) (meeting 1)
  have apart : (1 : Fin 3) ≠ 2 := by decide
  have formed := inRegisters (Fin 3) meeting 2 0 1 rfl rfl apart
  exact ⟨width, negated, apart, (formed 2).1, (formed 0).1, (formed 1).1⟩

end Operator

end PauliAlgebra
