import FormulaEngine.Proofs.Grammar.Acceptance

/-! The variables of a formula, told from its tokens alone. A name stands for a variable unless
the library has a function for it. No rule of the grammar takes such a name for anything else
or leaves it out, so a derivation uses exactly these, one after the other. -/

namespace FormulaEngine

open Token

variable {φ : Type} [Callable φ] {library : Library φ}

/-- The tokens that stand for variables, in their order. -/
def freeNames (library : Library φ) (tokens : List String) : List String :=
  tokens.filter fun token => kind token = .name ∧ (library.get? token).isNone

theorem mem_freeNames {tokens : List String} {name : String} :
    name ∈ freeNames library tokens ↔
      name ∈ tokens ∧ kind name = .name ∧ library.get? name = none := by
  simp [freeNames]

theorem freeNames_append (library : Library φ) (xs ys : List String) :
    freeNames library (xs ++ ys) = freeNames library xs ++ freeNames library ys :=
  List.filter_append ..

theorem freeNames_free {name : String} (h : kind name = .name) (hfree : library.get? name = none)
    (rest : List String) :
    freeNames library (name :: rest) = name :: freeNames library rest :=
  List.filter_cons_of_pos (by simp [h, hfree])

/-- What is no name, or the name of a function, is passed over. -/
theorem freeNames_other {token : String} (h : kind token ≠ .name ∨ library.get? token ≠ none)
    (rest : List String) : freeNames library (token :: rest) = freeNames library rest := by
  refine List.filter_cons_of_neg ?_
  obtain h | h := h
  · simp [h]
  · simp [h]

/-- The variables of a derivation are the free names of its tokens. -/
theorem Derivation.uses_eq_freeNames {part : Part} {sign : Bool}
    (d : Derivation library part sign) : d.uses = freeNames library d.tokens := by
  have hop (op : Operator) (rest : List String) :
      freeNames library (op.token :: rest) = freeNames library rest :=
    freeNames_other (.inl (by simp)) rest
  have hopening (rest : List String) : freeNames library ("(" :: rest) = freeNames library rest :=
    freeNames_other (.inl (by simp)) rest
  have hclosing (rest : List String) : freeNames library (")" :: rest) = freeNames library rest :=
    freeNames_other (.inl (by simp)) rest
  have hcomma (rest : List String) : freeNames library ("," :: rest) = freeNames library rest :=
    freeNames_other (.inl (by simp)) rest
  have hnil : freeNames library [] = [] := rfl
  induction d with
  | last operand ih => exact ih
  | join operand op isOfTier rest iho ihr =>
    rw [uses, tokens, freeNames_append, hop, iho, ihr]
  | numeral text isNumeral =>
    rw [uses, tokens, freeNames_other (.inl (by simp [isNumeral])), hnil]
  | var text isName isFree => rw [uses, tokens, freeNames_free isName isFree, hnil]
  | zero | noArguments => rfl
  | group inner ih =>
    rw [uses, tokens, hopening, freeNames_append, hclosing, hnil, List.append_nil, ih]
  | call text f isName isRegistered args ih =>
    rw [uses, tokens, freeNames_other (.inr (by simp [isRegistered])), hopening, freeNames_append,
      hclosing, hnil, List.append_nil, ih]
  | someArguments list ih => exact ih
  | one argument ih => exact ih
  | more argument rest iha ihr => rw [uses, tokens, freeNames_append, hcomma, iha, ihr]

/-- What is accepted leaves the free names behind in the table. -/
theorem Accepts.later_eq {tokens : List String} {table later : Bindings} {tree : Expr φ}
    (h : Accepts library tokens table tree later) :
    later = table.internAll (freeNames library tokens) := by
  obtain ⟨d, rfl, -, -, rfl⟩ := h.sentence
  rw [d.uses_eq_freeNames]

end FormulaEngine
