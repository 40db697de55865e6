import PauliAlgebra.Term

/-!
# Lists of terms

A list of terms is read as a table from Pauli strings to coefficients that keeps
the order in which strings came in. `Terms.alter` changes the entry of one string
in place, appends it if it is new and removes it if nothing is left of it.

`coeff?_alter` describes the table after a change, and `nodup_alter` says that no
string comes in twice.
-/

namespace PauliAlgebra.Terms

universe u

variable {K : Type u}

/-- The strings of the terms, in order. -/
def strings (terms : List (Term K)) : List PauliString :=
  terms.map Term.string

/-- Changing coefficients leaves the strings as they are. -/
theorem strings_mapCoeff (change : K → K) (terms : List (Term K)) :
    strings (terms.map (Term.mapCoeff change)) = strings terms := by
  simp [strings, Function.comp_def, Term.mapCoeff]

/-- The coefficient of a string, if it is in the list. -/
def coeff? (terms : List (Term K)) (string : PauliString) : Option K :=
  (terms.find? fun term => term.string = string).map Term.coeff

/-- Change the coefficient of one string. A new string goes to the end of the
list, and `none` removes the string. -/
def alter (string : PauliString) (change : Option K → Option K) : List (Term K) → List (Term K)
  | [] =>
      match change none with
      | none => []
      | some coeff => [⟨string, coeff⟩]
  | term :: rest =>
      if term.string = string then
        match change (some term.coeff) with
        | none => rest
        | some coeff => ⟨string, coeff⟩ :: rest
      else
        term :: alter string change rest

/-- A string that is not in the list comes in at its end. -/
theorem alter_of_notMem {string : PauliString} (change : Option K → Option K)
    {terms : List (Term K)} (absent : string ∉ strings terms) :
    alter string change terms = terms ++ ((change none).map (Term.mk string)).toList := by
  induction terms with
  | nil =>
      unfold alter
      split <;> simp [*]
  | cons head rest inductionHypothesis =>
      have ⟨notHead, notRest⟩ := List.ne_and_not_mem_of_not_mem_cons absent
      rw [alter, if_neg (Ne.symm notHead), inductionHypothesis notRest, List.cons_append]

/-- The terms before the altered one and after it stay as they are. -/
theorem alter_append_cons (term : Term K) (change : Option K → Option K)
    {before : List (Term K)} (after : List (Term K)) (first : term.string ∉ strings before) :
    alter term.string change (before ++ term :: after)
      = before ++ ((change (some term.coeff)).map (Term.mk term.string)).toList ++ after := by
  induction before with
  | nil =>
      rw [List.nil_append, alter, if_pos rfl]
      split <;> simp [*]
  | cons head rest inductionHypothesis =>
      have ⟨notHead, notRest⟩ := List.ne_and_not_mem_of_not_mem_cons first
      rw [List.cons_append, alter, if_neg (Ne.symm notHead), inductionHypothesis notRest]
      rfl

theorem mem_alter {string : PauliString} {change : Option K → Option K}
    {terms : List (Term K)} {term : Term K} (member : term ∈ alter string change terms) :
    term ∈ terms ∨ term.string = string ∧ ∃ before, change before = some term.coeff := by
  induction terms with
  | nil =>
      unfold alter at member
      split at member
      · simp at member
      · next changed =>
          simp only [List.mem_singleton] at member
          subst member
          exact .inr ⟨rfl, _, changed⟩
  | cons head rest inductionHypothesis =>
      unfold alter at member
      split at member
      · split at member
        · exact .inl (List.mem_cons_of_mem _ member)
        · next changed =>
            rcases List.mem_cons.mp member with isHead | inRest
            · subst isHead
              exact .inr ⟨rfl, _, changed⟩
            · exact .inl (List.mem_cons_of_mem _ inRest)
      · rcases List.mem_cons.mp member with isHead | inRest
        · subst isHead
          exact .inl List.mem_cons_self
        · exact (inductionHypothesis inRest).imp_left (List.mem_cons_of_mem _)

/-- No string comes in twice. -/
theorem nodup_alter (string : PauliString) (change : Option K → Option K)
    {terms : List (Term K)} (distinct : (strings terms).Nodup) :
    (strings (alter string change terms)).Nodup := by
  induction terms with
  | nil =>
      unfold alter
      split <;> simp [strings]
  | cons head rest inductionHypothesis =>
      have ⟨fresh, restDistinct⟩ := List.nodup_cons.mp distinct
      unfold alter
      split
      · next same =>
          split
          · exact restDistinct
          · exact List.nodup_cons.mpr ⟨same ▸ fresh, restDistinct⟩
      · next other =>
          refine List.nodup_cons.mpr ⟨fun member => ?_, inductionHypothesis restDistinct⟩
          obtain ⟨term, inAlter, sameString⟩ := List.mem_map.mp member
          rcases mem_alter inAlter with inRest | ⟨isString, _⟩
          · exact fresh (sameString ▸ List.mem_map_of_mem inRest)
          · exact other (sameString ▸ isString)

theorem coeff?_eq_none {terms : List (Term K)} {string : PauliString}
    (absent : string ∉ strings terms) : coeff? terms string = none := by
  rw [coeff?, Option.map_eq_none_iff, List.find?_eq_none]
  intro term member same
  exact absent (of_decide_eq_true same ▸ List.mem_map_of_mem member)

/-- Only the altered string is affected. -/
theorem coeff?_alter (string : PauliString) (change : Option K → Option K)
    {terms : List (Term K)} (distinct : (strings terms).Nodup) (key : PauliString) :
    coeff? (alter string change terms) key
      = if key = string then change (coeff? terms string) else coeff? terms key := by
  induction terms with
  | nil =>
      unfold alter
      split
      · next changed => simp [coeff?, changed]
      · next changed =>
          by_cases same : key = string
          · simp [coeff?, changed, same]
          · simp [coeff?, same, Ne.symm same]
  | cons head rest inductionHypothesis =>
      have ⟨fresh, restDistinct⟩ := List.nodup_cons.mp distinct
      unfold alter
      split
      · next isString =>
          split
          · next changed =>
              by_cases same : key = string
              · subst same
                rw [if_pos rfl, coeff?_eq_none (isString ▸ fresh)]
                simp [coeff?, isString, changed]
              · have : head.string ≠ key := fun equal => same (equal ▸ isString)
                simp [coeff?, same, this]
          · next changed =>
              by_cases same : key = string
              · subst same
                simp [coeff?, isString, changed]
              · have : head.string ≠ key := fun equal => same (equal ▸ isString)
                simp [coeff?, same, this, Ne.symm same]
      · next notString =>
          have rest := inductionHypothesis restDistinct
          by_cases atHead : head.string = key
          · have : key ≠ string := fun equal => notString (atHead.trans equal)
            simp [coeff?, atHead, this]
          · by_cases same : key = string
            · subst same
              simpa [coeff?, atHead] using rest
            · simpa [coeff?, atHead, same] using rest

end PauliAlgebra.Terms
