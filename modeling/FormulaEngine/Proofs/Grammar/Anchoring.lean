import FormulaEngine.Library.Elementary
import FormulaEngine.Proofs.Grammar.Acceptance
import FormulaEngine.Proofs.Grammar.Locality
import FormulaEngine.Proofs.Grammar.Viability

/-! Errors are found at the earliest token at which they can be. The tokens before the
one that an error is at begin some list that is accepted, and with that token no list
that is accepted begins. So a list that is only incomplete is found wrong at its end,
and no other list is. -/

namespace FormulaEngine

open Token

/-- A cause that is not about the end is about tokens that are there. -/
theorem Cause.Fits.ahead_le {cause : Cause} {rest : List String} (h : cause.Fits rest)
    (hr : rest ≠ []) : cause.ahead ≤ rest.length := by
  cases cause with
  | unsupportedFunction name =>
    obtain ⟨after, rfl⟩ := h
    exact Nat.le_add_left ..
  | _ => exact List.length_pos_iff.mpr hr

/-- A cause at the end of the tokens is a missing operand or a missing symbol. -/
theorem Cause.Fits.eq_nil_iff {cause : Cause} {rest : List String} (h : cause.Fits rest) :
    rest = [] ↔ cause = .unexpectedEnd ∨ (∃ symbol, cause = .expected symbol) ∧ rest = [] := by
  cases cause with
  | unexpectedEnd => exact iff_of_true h (.inl rfl)
  | expected symbol => simp
  | unexpectedSymbol symbol phrase =>
    have hr : rest ≠ [] := by
      rintro rfl
      cases h
    simp [hr]
  | unsupportedFunction name =>
    obtain ⟨after, rfl⟩ := h
    simp
  | tooDeep limit =>
    have hr : rest ≠ [] := h
    simp [hr]
  | trailingSymbols | unknownOperator | argumentCount | notANumber | danglingVariable => cases h

variable {φ : Type} [Callable φ] {library : Library φ} {tokens : List String}
  {table : Bindings}

namespace Cursor

/-- Other tokens behind some do not change these. -/
theorem agree_append (table : Bindings) (more : List String) {bound : Nat}
    (h : bound ≤ tokens.length) :
    Agree bound ⟨0, tokens, table⟩ ⟨0, tokens.take bound ++ more, table⟩ := by
  refine ⟨rfl, rfl, ?_⟩
  intro i hi
  have hlt : i < bound := by simpa using hi
  have hlen : i < (tokens.take bound).length := by
    rw [List.length_take]
    omega
  rw [List.getElem?_append_left hlen, List.getElem?_take_of_lt hlt]

end Cursor

namespace Reading

variable {stop : Stop}

/-- The tokens before a stop begin a list that is accepted. -/
theorem accepts_before (h : expression library nestingLimit ⟨0, tokens, table⟩ = .error stop) :
    ∃ more, ∀ table', ∃ tree later,
      Accepts library (tokens.take stop.cursor.index ++ more) table' tree later := by
  obtain ⟨hreach, -⟩ := (localAt_ofLevel library nestingLimit (.series .additive) _).stops h
  obtain ⟨taken, more, d, htaken, hd, hdepth⟩ :=
    (stops_ofLevel library nestingLimit (.series .additive) h).viable
  have htake : tokens.take stop.cursor.index = taken :=
    List.append_cancel_right (hreach.take_drop.1.trans htaken)
  refine ⟨more, fun table' => ?_⟩
  rw [htake, ← hd]
  exact ⟨_, _, d.accepts hdepth table'⟩

/-- No list is accepted that goes on from a stop with the tokens that its cause is about. -/
theorem not_accepts_through
    (h : expression library nestingLimit ⟨0, tokens, table⟩ = .error stop)
    (hrest : stop.cursor.rest ≠ []) (more : List String) (table' : Bindings) (tree : Expr φ)
    (later : Bindings) : ¬ Accepts library
      (tokens.take (stop.cursor.index + stop.cause.ahead) ++ more) table' tree later := by
  intro haccepts
  have hlocal := localAt_ofLevel library nestingLimit (.series .additive) ⟨0, tokens, table⟩
  obtain ⟨hreach, hfits⟩ := hlocal.stops h
  have hbound : stop.cursor.index + stop.cause.ahead ≤ tokens.length := by
    have hsum := hreach.length_eq
    have hahead := hfits.ahead_le hrest
    omega
  obtain ⟨stop', hstop⟩ :=
    hlocal.stopsAgain h (Cursor.agree_append table more hbound) (Nat.le_refl _)
  obtain ⟨tree', later', haccepts'⟩ := haccepts.withTable table
  obtain ⟨last, hread, -⟩ := accepts_iff.mp haccepts'
  exact absurd (hstop.symm.trans hread) nofun

/-- Tokens that begin an accepted list stop a reading at their end only. -/
theorem rest_eq_nil_of_accepts
    (h : expression library nestingLimit ⟨0, tokens, table⟩ = .error stop)
    {more : List String} {table' later : Bindings} {tree : Expr φ}
    (haccepts : Accepts library (tokens ++ more) table' tree later) : stop.cursor.rest = [] := by
  by_cases hrest : stop.cursor.rest = []
  · exact hrest
  · have hthrough := not_accepts_through h hrest
      (tokens.drop (stop.cursor.index + stop.cause.ahead) ++ more) table' tree later
    rw [← List.append_assoc, List.take_append_drop] at hthrough
    exact absurd haccepts hthrough

/-- What is left behind an expression stays left whatever follows. -/
theorem not_accepts_of_rest {tree : Expr φ} {last : Cursor}
    (h : expression library nestingLimit ⟨0, tokens, table⟩ = .ok (tree, last))
    (hrest : last.rest ≠ []) (more : List String) (table' : Bindings) (tree' : Expr φ)
    (later : Bindings) : ¬ Accepts library (tokens ++ more) table' tree' later := by
  intro haccepts
  have hlevel := localAt_ofLevel library nestingLimit (.series .additive)
  have hlocal := hlevel ⟨0, tokens, table⟩
  have hlt : last.index < tokens.length := by
    have hsum := (hlocal.reaches h).length_eq
    have hpos := List.length_pos_iff.mpr hrest
    omega
  have hagree := Cursor.agree_append table more (Nat.le_refl tokens.length)
  rw [List.take_length] at hagree
  obtain ⟨last', hread, hagree'⟩ := hlocal.again h hagree hlt
  obtain ⟨tree'', later', haccepts'⟩ := haccepts.withTable table
  obtain ⟨_, hread', hend, -⟩ := accepts_iff.mp haccepts'
  cases hread.symm.trans hread'
  have hsum := ((hlevel _).reaches hread).length_eq
  have hindex := hagree'.index
  rw [hend, List.length_append, List.length_nil] at hsum
  omega

end Reading

/-- Where a reader fails at an index, the tokens before it begin a list that is accepted.
If it is not the end, no list is accepted that begins with the tokens up to it, or up to
the parenthesis behind it if it is the name of an unknown function. The end is where
either an operand or a missing symbol is wanted. A list that begins an accepted one and
is not accepted itself fails at its end. -/
theorem read_error_earliest (library : Library φ) (tokens : List String) (table : Bindings) :
    (∀ failure reader,
      (Reader.start library tokens table).read .expression = (.error failure, reader) →
      ∃ cause i, failure = .atToken cause tokens (some i) ∧ i ≤ tokens.length ∧
        (∃ more, ∀ table', ∃ tree later,
          Accepts library (tokens.take i ++ more) table' tree later) ∧
        (i < tokens.length → ∀ more table' tree later,
          ¬ Accepts library (tokens.take (i + cause.ahead) ++ more) table' tree later) ∧
        (∀ name, cause = .unsupportedFunction name →
          tokens[i]? = some name ∧ tokens[i + 1]? = some "(") ∧
        (i = tokens.length ↔ cause = .unexpectedEnd ∨
          (∃ symbol, cause = .expected symbol) ∧ tokens[i]? = none)) ∧
    ∀ more table' tree later, Accepts library (tokens ++ more) table' tree later →
      (¬ ∃ tree later, Accepts library tokens table tree later) →
      ∃ failure reader,
        (Reader.start library tokens table).read .expression = (.error failure, reader) ∧
        failure.position? = some tokens.length := by
  constructor
  · intro failure reader hread
    obtain ⟨stop, hstop, rfl⟩ := read_eq_error_iff.mp ⟨reader, hread⟩
    obtain ⟨hreach, hfits⟩ :=
      (Reading.localAt_ofLevel library nestingLimit (.series .additive) _).stops hstop
    obtain ⟨-, hdrop⟩ := hreach.take_drop
    have hsum := hreach.length_eq
    have hend : stop.cursor.index = tokens.length ↔ stop.cursor.rest = [] := by
      rw [← List.length_eq_zero_iff]
      omega
    have hnone : tokens[stop.cursor.index]? = none ↔ stop.cursor.rest = [] := by
      rw [List.getElem?_eq_none_iff, hdrop, List.drop_eq_nil_iff]
    refine ⟨stop.cause, stop.cursor.index, rfl, by omega, Reading.accepts_before hstop, ?_, ?_, ?_⟩
    · intro hlt
      exact Reading.not_accepts_through hstop fun hrest => absurd (hend.mpr hrest) (by omega)
    · intro name hcause
      rw [hcause] at hfits
      obtain ⟨after, hrest⟩ := hfits
      rw [hrest] at hdrop
      have hat (k : Nat) : tokens[stop.cursor.index + k]? = (name :: "(" :: after)[k]? := by
        rw [hdrop, List.getElem?_drop]
      exact ⟨hat 0, hat 1⟩
    · rw [hend, hnone]
      exact hfits.eq_nil_iff
  · intro more table' tree later haccepts hrejected
    cases hread : Reading.expression library nestingLimit ⟨0, tokens, table⟩ with
    | ok read =>
      obtain ⟨tree', last⟩ := read
      by_cases hrest : last.rest = []
      · exact absurd ⟨tree', _, accepts_iff.mpr ⟨last, hread, hrest, rfl⟩⟩ hrejected
      · exact absurd haccepts (Reading.not_accepts_of_rest hread hrest more table' tree later)
    | error stop =>
      obtain ⟨reader, hfailed⟩ := read_eq_error_iff.mpr ⟨stop, hread, rfl⟩
      refine ⟨_, reader, hfailed, ?_⟩
      obtain ⟨hreach, -⟩ :=
        (Reading.localAt_ofLevel library nestingLimit (.series .additive) _).stops hread
      have hsum := hreach.length_eq
      rw [Reading.rest_eq_nil_of_accepts hread haccepts] at hsum
      exact congrArg some hsum

/-- A closing parenthesis is no operand, whatever comes behind it. -/
theorem read_error_earliest_max :
    ∃ failure reader,
      (Reader.start (.ofList [ElementaryFunction.max]) ["max", "(", "x", "*", ")"] .empty).read
        .expression = (.error failure, reader) ∧
      failure.position? = some 4 ∧
      (∃ more tree later, Accepts (.ofList [ElementaryFunction.max])
        (["max", "(", "x", "*"] ++ more) .empty tree later) ∧
      ∀ more tree later, ¬ Accepts (.ofList [ElementaryFunction.max])
        (["max", "(", "x", "*", ")"] ++ more) .empty tree later := by
  have hread : (Reader.start (.ofList [ElementaryFunction.max]) ["max", "(", "x", "*", ")"]
    .empty).read .expression =
      (.error (.atToken (.unexpectedSymbol ")" .factor) ["max", "(", "x", "*", ")"] (some 4)),
        _) := rfl
  obtain ⟨cause, i, hfailure, -, ⟨more, hbefore⟩, hthrough, -, -⟩ :=
    (read_error_earliest _ _ _).1 _ _ hread
  simp only [Failure.atToken, Failure.located.injEq, Location.ofIndex, Location.mk.injEq,
    Option.some.injEq] at hfailure
  obtain ⟨rfl, rfl, -⟩ := hfailure
  refine ⟨_, _, hread, rfl, ⟨more, hbefore .empty⟩, ?_⟩
  intro more tree later
  exact hthrough (by decide) more .empty tree later

end FormulaEngine
