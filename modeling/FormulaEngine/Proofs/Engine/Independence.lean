import FormulaEngine.Proofs.Engine.Parsing
import FormulaEngine.Proofs.Grammar.Consultation
import FormulaEngine.Proofs.Library.Registration

/-! What parsing depends on. The reading begins with an empty table, and it asks the library for
tokens of the text only. So two engines parse a text alike if their libraries have the same
function, or both none, under each of its tokens, whatever else they hold: other functions,
other formulas from before, or values bound to variables of the same names. -/

namespace FormulaEngine

variable {φ : Type} [Callable φ]

namespace Engine

/-- Building in terms of the reading of an expression. -/
theorem built_eq (library : Library φ) (tokens : List String) : built library tokens =
    match Reading.expression library nestingLimit ⟨0, tokens, .empty⟩ with
    | .error stop => .error (.atToken stop.cause tokens (some stop.cursor.index))
    | .ok (root, last) => root.check last.bindings tokens >>= fun _ =>
        if last.rest.isEmpty then .ok (root, last.bindings)
        else .error (.atToken .trailingSymbols tokens (some last.index)) := by
  cases hread : Reading.expression library nestingLimit ⟨0, tokens, .empty⟩ with
  | error stop => exact built_of_unread (Reader.read_eq_error_iff.mpr ⟨stop, hread, rfl, rfl⟩)
  | ok read => exact built_of_read (Reader.read_eq_ok_iff.mpr ⟨read.2, hread, rfl⟩)

theorem built_congr {library library' : Library φ} {tokens : List String}
    (h : ∀ token ∈ tokens, library.get? token = library'.get? token) :
    built library tokens = built library' tokens := by
  have hread : Reading.expression library nestingLimit ⟨0, tokens, .empty⟩ =
      Reading.expression library' nestingLimit ⟨0, tokens, .empty⟩ :=
    (Reading.alike_ofLevel h nestingLimit (.series .additive)).eq (List.Subset.refl tokens)
  rw [built_eq, built_eq, hread]

/-- What an engine holds from before makes no difference to what it holds of a text. -/
theorem parse_eq (engine : Engine φ) (text : String) :
    engine.parse text = ((built engine.library (tokenize text)).map fun _ => (),
      { library := engine.library
        tokens := tokenize text
        bindings := ((built engine.library (tokenize text)).toOption.map (·.2)).getD .empty
        root := (built engine.library (tokenize text)).toOption.map (·.1) }) := by
  cases hbuild : built engine.library (tokenize text) with
  | error failure => exact parse_of_built_error hbuild
  | ok read => exact parse_of_built_ok hbuild

/-- Two engines parse a text alike: the outcome is the same, with the same failure at the same
place, and afterwards they hold the same of it, and no values. -/
structure ParsesAlike (engine engine' : Engine φ) (text : String) : Prop where
  outcome : (engine.parse text).1 = (engine'.parse text).1
  tokens : (engine.parse text).2.tokens = (engine'.parse text).2.tokens
  bindings : (engine.parse text).2.bindings = (engine'.parse text).2.bindings
  unbound : ∀ v ∈ (engine.parse text).2.bindings.entries, v.value = none
  root : (engine.parse text).2.root = (engine'.parse text).2.root

theorem parsesAlike_of_built_eq {engine engine' : Engine φ} {text : String}
    (h : built engine.library (tokenize text) = built engine'.library (tokenize text)) :
    ParsesAlike engine engine' text where
  outcome := by rw [parse_eq, parse_eq, h]
  tokens := by rw [parse_eq, parse_eq]
  bindings := by rw [parse_eq, parse_eq, h]
  unbound := engine.value_eq_none_parse text
  root := by rw [parse_eq, parse_eq, h]

/-- A parse depends on its text and on the functions that the text mentions. A function that it
does not mention may as well be registered, and a formula from before leaves nothing behind. -/
theorem parse_independent (engine : Engine φ) (text : String) :
    (∀ engine' : Engine φ,
      (∀ token ∈ tokenize text, engine.library.get? token = engine'.library.get? token) →
      ParsesAlike engine engine' text) ∧
    (∀ f, Callable.name f ∉ tokenize text → ParsesAlike engine (engine.register f) text) ∧
    engine.parse text = ({ library := engine.library } : Engine φ).parse text := by
  refine ⟨fun engine' h => parsesAlike_of_built_eq (built_congr h), fun f hf => ?_, ?_⟩
  · refine parsesAlike_of_built_eq (built_congr fun token htoken => ?_)
    have hne : Callable.name f ≠ token := by
      rintro rfl
      exact hf htoken
    exact (Library.get?_register_of_ne hne engine.library).symm
  · rw [parse_eq, parse_eq]

/-- A value of another formula and a function of another name are not seen. -/
theorem parse_independent_max :
    let other : Engine ElementaryFunction :=
      { ofFunctions [.min, .max] with bindings := ⟨[⟨"x", some 2⟩]⟩ }
    (∀ token ∈ tokenize "max(x,1)",
      (Library.ofList [ElementaryFunction.max]).get? token = other.library.get? token) ∧
    ParsesAlike (ofFunctions [ElementaryFunction.max]) other "max(x,1)" ∧
    "min" ∉ tokenize "max(x,1)" ∧
    ParsesAlike (ofFunctions [ElementaryFunction.max])
      ((ofFunctions [ElementaryFunction.max]).register .min) "max(x,1)" := by
  intro other
  have htokens : tokenize "max(x,1)" = ["max", "(", "x", ",", "1", ")"] := by
    rw [tokenize, String.foldl_eq_foldl_toList]
    decide
  have hsame : ∀ token ∈ tokenize "max(x,1)",
      (Library.ofList [ElementaryFunction.max]).get? token = other.library.get? token := by
    rw [htokens]
    decide
  have hmin : "min" ∉ tokenize "max(x,1)" := by
    rw [htokens]
    decide
  have hindependent := parse_independent (ofFunctions [ElementaryFunction.max]) "max(x,1)"
  exact ⟨hsame, hindependent.1 other hsame, hmin, hindependent.2.1 .min hmin⟩

end Engine

end FormulaEngine
