import Mathlib.Data.List.Basic
import PauliAlgebra.Term.Merge

/-!
# Changes of a list of terms

A change of one string leaves the other terms as they are and where they are: a string that is there
is changed in its place (`alter_of_mem`), and only a string that is new comes in last
(`strings_alter`). A run of changes that brings in new strings only appends its terms
(`foldl_alter_eq_append`).
-/

namespace PauliAlgebra.Terms

universe u

variable {K : Type u}

/-! ### The coefficient of a string -/

theorem coeff?_cons_self (term : Term K) (rest : List (Term K)) :
    coeff? (term :: rest) term.string = some term.coeff := by
  simp [coeff?]

theorem coeff?_cons_of_ne {term : Term K} {string : PauliString} (other : term.string ≠ string)
    (rest : List (Term K)) : coeff? (term :: rest) string = coeff? rest string := by
  simp [coeff?, other]

theorem isSome_coeff?_iff {terms : List (Term K)} {string : PauliString} :
    (coeff? terms string).isSome = true ↔ string ∈ strings terms := by
  simp [coeff?, strings]

theorem coeff?_map_mapCoeff (change : K → K) (terms : List (Term K)) (string : PauliString) :
    coeff? (terms.map (Term.mapCoeff change)) string = (coeff? terms string).map change := by
  induction terms with
  | nil => rfl
  | cons head rest inductionHypothesis =>
      rw [List.map_cons]
      by_cases atHead : head.string = string
      · subst atHead
        rw [coeff?_cons_self]
        exact coeff?_cons_self (head.mapCoeff change) _
      · have notHead : (head.mapCoeff change).string ≠ string := atHead
        rw [coeff?_cons_of_ne atHead, coeff?_cons_of_ne notHead, inductionHypothesis]

/-! ### Zeros -/

theorem nonzero?_eq_some [Neg K] [Coefficient K] {coeff : K}
    (nonzero : Coefficient.isZero coeff = false) : nonzero? coeff = some coeff := by
  rw [nonzero?, nonzero]
  rfl

/-! ### One change -/

theorem string_ne_of_mem {terms : List (Term K)} {string : PauliString}
    (absent : string ∉ strings terms) {term : Term K} (member : term ∈ terms) :
    term.string ≠ string :=
  fun same => absent (same ▸ List.mem_map_of_mem member)

/-- A string that is there is changed in its place. -/
theorem alter_of_mem {string : PauliString} (change : Option K → Option K)
    {terms : List (Term K)} (distinct : (strings terms).Nodup) (known : string ∈ strings terms) :
    alter string change terms = terms.filterMap fun term =>
      if term.string = string then (change (some term.coeff)).map (Term.mk string)
      else some term := by
  induction terms with
  | nil => cases known
  | cons head rest inductionHypothesis =>
      have ⟨fresh, restDistinct⟩ := List.nodup_cons.mp distinct
      by_cases atHead : head.string = string
      · have others : rest.filterMap (fun term =>
            if term.string = string then (change (some term.coeff)).map (Term.mk string)
            else some term) = rest := by
          refine Eq.trans (List.filterMap_congr fun term member => ?_) List.filterMap_some
          rw [if_neg (string_ne_of_mem (atHead ▸ fresh) member)]
        rw [alter, if_pos atHead, List.filterMap_cons, if_pos atHead, others]
        cases change (some head.coeff) with
        | none => rfl
        | some coeff => rfl
      · have inRest := (List.mem_cons.mp known).resolve_left (Ne.symm atHead)
        rw [alter, if_neg atHead, List.filterMap_cons, if_neg atHead,
          inductionHypothesis restDistinct inRest]

/-- A change that leaves something of every string leaves a known string in its place. -/
theorem strings_alter_of_mem {change : Option K → Option K}
    (keeps : ∀ before, (change before).isSome = true) {terms : List (Term K)} {string : PauliString}
    (known : string ∈ strings terms) : strings (alter string change terms) = strings terms := by
  induction terms with
  | nil => cases known
  | cons head rest inductionHypothesis =>
      by_cases atHead : head.string = string
      · obtain ⟨coeff, kept⟩ := Option.isSome_iff_exists.mp (keeps (some head.coeff))
        simp [alter, strings, atHead, kept]
      · have inRest : string ∈ strings rest :=
          (List.mem_cons.mp known).resolve_left (Ne.symm atHead)
        simpa [alter, strings, atHead] using inductionHypothesis inRest

/-- A change brings its string in last, or it brings in no string and moves none. -/
theorem strings_alter (string : PauliString) (change : Option K → Option K)
    (terms : List (Term K)) :
    (strings (alter string change terms)).Sublist (strings terms) ∨
      string ∉ strings terms ∧
        strings (alter string change terms) = strings terms ++ [string] := by
  induction terms with
  | nil =>
      unfold alter
      split
      · exact .inl (List.Sublist.refl _)
      · exact .inr ⟨List.not_mem_nil, rfl⟩
  | cons head rest inductionHypothesis =>
      unfold alter
      split
      · next atHead =>
          split
          · exact .inl (List.sublist_cons_self _ _)
          · subst atHead
            exact .inl (List.Sublist.refl _)
      · next other =>
          rcases inductionHypothesis with moved | ⟨absent, last⟩
          · exact .inl (moved.cons_cons head.string)
          · refine .inr ⟨?_, congrArg (head.string :: ·) last⟩
            exact List.not_mem_cons_of_ne_of_not_mem (Ne.symm other) absent

/-! ### Runs of changes -/

/-- A run of changes that brings in new strings only, each with the coefficient of its term,
appends the terms. -/
theorem foldl_alter_eq_append {change : K → Option K → Option K} {terms added : List (Term K)}
    (distinct : (strings (terms ++ added)).Nodup)
    (keeps : ∀ term ∈ added, change term.coeff none = some term.coeff) :
    added.foldl (fun terms term => alter term.string (change term.coeff) terms) terms
      = terms ++ added := by
  -- What is there only grows, by terms that the later ones do not meet either.
  induction added generalizing terms with
  | nil => exact (List.append_nil terms).symm
  | cons term rest inductionHypothesis =>
      have fresh : term.string ∉ strings terms := by
        rw [strings, List.map_append, List.nodup_append] at distinct
        intro member
        exact distinct.2.2 _ member _ List.mem_cons_self rfl
      have appended : alter term.string (change term.coeff) terms = terms ++ [term] := by
        rw [alter_of_notMem _ fresh, keeps term List.mem_cons_self]
        rfl
      rw [List.foldl_cons, appended, inductionHypothesis, List.append_assoc]
      · rfl
      · rwa [List.append_assoc]
      · exact fun other member => keeps other (List.mem_cons_of_mem _ member)

/-- New nonzero terms with other strings are appended as they are when they are merged. -/
theorem foldl_merge_eq_append [Neg K] [Coefficient K] [Add K] {terms added : List (Term K)}
    (distinct : (strings (terms ++ added)).Nodup)
    (nonzero : ∀ term ∈ added, Coefficient.isZero term.coeff = false) :
    added.foldl merge terms = terms ++ added :=
  foldl_alter_eq_append distinct fun term member => nonzero?_eq_some (nonzero term member)

end PauliAlgebra.Terms
