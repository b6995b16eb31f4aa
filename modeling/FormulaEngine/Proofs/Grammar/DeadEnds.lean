import FormulaEngine.Proofs.Grammar.Driving

/-! What follows a phrase that succeeds, and where a phrase can fail. A term leaves off before a
sign, a comma, a closing parenthesis or the end, and a sum goes on at each sign. So nothing can
be wrong with the token behind a sum, and a parenthesis can only be missing where the tokens end
or, for a group, at a comma. This holds of a reader at any place, with any levels left and any
variables. -/

namespace FormulaEngine

open Token

variable {φ : Type} [Callable φ] {library : Library φ}

/-- What can be told of a failure from the place in the rules that raised it, its cause, and the
tokens from the one it is located at. -/
structure Explained (library : Library φ) (phrase : Phrase) (site : Site) (cause : Cause)
    (rest : List String) : Prop where
  notExpression : ∀ token, cause ≠ .unexpectedSymbol token .expression
  ofTerm : ∀ token, cause = .unexpectedSymbol token .term →
    token = "(" ∨ isSymbol token = false
  ofFactor : ∀ token, cause = .unexpectedSymbol token .factor → token ∈ [",", "*", "/", ")"]
  unsupported : phrase ≠ .call → ∀ name, cause = .unsupportedFunction name →
    kind name = .name ∧ library.get? name = none ∧ ∃ more, rest = name :: "(" :: more
  /-- A closing parenthesis is asked for in two places. -/
  closing : cause = .expected ')' ↔ site = .argument ∨ site = .group
  argument : site = .argument → rest = []
  group : site = .group → rest = [] ∨ rest.head? = some ","

theorem Raised.explained {phrase : Phrase} {site : Site} {cause : Cause} {rest : List String}
    (h : Raised library phrase site cause rest) : Explained library phrase site cause rest where
  notExpression := by
    rintro token rfl
    cases h
  ofTerm := by
    rintro token rfl
    cases h with
    | noProduct other => exact other
  ofFactor := by
    rintro token rfl
    cases h with
    | noOperand mem => exact mem
  unsupported := by
    rintro hphrase name rfl
    cases h with
    | unknownCall isName isFree => exact ⟨isName, isFree, _, rfl⟩
    | unknownCallee isCall => exact absurd isCall hphrase
  closing := by
    constructor
    · rintro rfl
      cases h with
      | openGroup => exact .inr rfl
      | openArguments => exact .inl rfl
    · rintro (rfl | rfl)
      · cases h
        rfl
      · cases h
        rfl
  argument := by
    rintro rfl
    cases h
    rfl
  group := by
    rintro rfl
    cases h with
    | openGroup atEnd => exact atEnd

namespace Descent

variable {tokens : List String} {s : State}

theorem head?_of_series (tier : Tier) {tree : Expr φ} {after : Reader φ} {allowed : List String}
    (hallowed : ∀ token, tier.mayPrecede (kind token) = true → token ∈ allowed)
    (h : (s.reader library tokens).read tier.phrase = (.ok tree, after)) :
    after.cursor.rest.head? ∈ none :: allowed.map some := by
  obtain ⟨last, hread, rfl⟩ := Reader.read_eq_ok_iff.mp h
  have hlevel : Reading.ofPhrase library s.room tier.phrase (s.cursor tokens) =
      Reading.ofLevel library s.room (.series tier) (s.cursor tokens) := by
    cases tier <;> rfl
  have hnext := Reading.mayPrecede_of_ofLevel (hlevel.symm.trans hread)
  change last.rest.head? ∈ _
  cases hhead : last.rest.head? with
  | none => exact List.mem_cons_self ..
  | some token =>
    have hmem := hallowed token (hnext token hhead)
    exact List.mem_cons_of_mem _ (List.mem_map_of_mem hmem)

end Descent

/-- Wherever a reader stands, what it finds behind a term and behind an expression is one of
these, and every failure can be explained. The place in the rules that raised it is told by the
descent from there. -/
theorem Reader.read_follow (library : Library φ) (tokens : List String) (s : Descent.State) :
    (∀ tree after, (s.reader library tokens).read .term = (.ok tree, after) →
      after.cursor.rest.head? ∈ [none, some ")", some ",", some "+", some "-"]) ∧
    (∀ tree after, (s.reader library tokens).read .expression = (.ok tree, after) →
      after.cursor.rest.head? ∈ [none, some ")", some ","]) ∧
    ∀ phrase failure after, (s.reader library tokens).read phrase = (.error failure, after) →
      ∃ site cause left, Descent.ofPhrase tokens library phrase s =
          .error (.failed site failure) left ∧
        after = left.reader library tokens ∧
        failure = .atToken cause tokens (some after.cursor.index) ∧
        Explained library phrase site cause after.cursor.rest := by
  refine ⟨?_, ?_, ?_⟩
  · intro tree after h
    exact Descent.head?_of_series .multiplicative (fun _ => mem_of_mayPrecede) h
  · intro tree after h
    have hallowed (token : String) (hk : Tier.additive.mayPrecede (kind token) = true) :
        token ∈ [")", ","] := by
      simpa using eq_of_mayPrecede hk
    exact Descent.head?_of_series .additive hallowed h
  · intro phrase failure after h
    cases Descent.goes library tokens phrase s with
    | ok tree left descends reads => cases h.symm.trans reads
    | error site cause left descends reads le advances raised =>
      cases h.symm.trans reads
      exact ⟨site, cause, left, descends, rfl, rfl, raised.explained⟩

/-- A group that a comma breaks off, in which a call is complete. -/
theorem Reader.read_follow_group :
    ∃ failure after,
      (Descent.State.reader (.ofList [ElementaryFunction.max])
        ["(", "max", "(", "a", ")", ",", "b", ")"] { bindings := .empty }).read .term =
          (.error failure, after) ∧
      failure.message = "ParseError: expected `)` at token 5 in `(max(a)>>,<<b)`" ∧
      (after.cursor.rest = [] ∨ after.cursor.rest.head? = some ",") := by
  have hread : (Descent.State.reader (.ofList [ElementaryFunction.max])
      ["(", "max", "(", "a", ")", ",", "b", ")"] { bindings := .empty }).read .term =
        (.error _, _) := rfl
  obtain ⟨site, cause, left, hdescends, -, -, hexplained⟩ :=
    (Reader.read_follow _ _ _).2.2 _ _ _ hread
  refine ⟨_, _, hread, by decide +kernel, hexplained.group ?_⟩
  have hsite : Descent.ofPhrase ["(", "max", "(", "a", ")", ",", "b", ")"]
      (.ofList [ElementaryFunction.max]) .term { bindings := .empty } =
        .error (.failed .group _) _ := rfl
  cases hsite.symm.trans hdescends
  rfl

end FormulaEngine
