import FormulaEngine.Proofs.Engine.Lifecycle
import FormulaEngine.Proofs.Expr.Invocation
import FormulaEngine.Proofs.Grammar.SourceOrder

/-! The functions that an engine calls, and what with. A tree calls the functions that the
library had when the text was read, whatever has been registered since, and it is only kept
if every call has as many arguments as its function takes. So a function is never called with
another number of arguments than it was registered for. -/

namespace FormulaEngine

variable {φ : Type}

section Engine

variable [Callable φ] {m : Type → Type} [Monad m]

/-- Evaluation of an engine if calling a function has effects. -/
def Engine.evaluateWith (invoke : φ → List Float → m Float) (engine : Engine φ) :
    m (Except Failure Float) :=
  match engine.root with
  | none => pure (.error .notParsed)
  | some root =>
    match engine.bindings.firstUnbound? with
    | some v => pure (.error (.unset v.name))
    | none => .ok <$> root.foldM (Expr.valuationWith invoke engine.bindings)

/-- The calls that evaluation of an engine makes. There are none if it fails. -/
def Engine.invocations (engine : Engine φ) : List (Invocation φ) :=
  match engine.root, engine.bindings.firstUnbound? with
  | some root, none => root.invocations engine.bindings
  | _, _ => []

/-- What the calls of an engine are like, if these functions were registered. -/
structure Engine.Calls (registered : φ → Prop) (engine : Engine φ) : Prop where
  /-- Evaluation makes these calls and no others. -/
  recorded : (engine.evaluateWith Expr.recordedCall).run [] = (engine.evaluate, engine.invocations)
  /-- Every call is of a registered function and has as many arguments as that takes. -/
  fit : ∀ call ∈ engine.invocations,
    call.args.length = Callable.arity call.function ∧ registered call.function
  /-- What a function does with another number of arguments makes no difference. -/
  total : ∀ {m : Type → Type} [Monad m] [LawfulMonad m] (invoke : φ → List Float → m Float),
    (∀ f args, args.length = Callable.arity f → invoke f args = pure (Callable.call f args)) →
    engine.evaluateWith invoke = pure engine.evaluate

theorem Engine.evaluateWith_recordedCall (engine : Engine φ) :
    (engine.evaluateWith Expr.recordedCall).run [] = (engine.evaluate, engine.invocations) := by
  unfold evaluateWith evaluate invocations
  cases engine.root with
  | none => rfl
  | some root =>
    cases engine.bindings.firstUnbound? with
    | some v => rfl
    | none =>
      simp only [StateT.run_map, Expr.foldM_recordedCall, List.nil_append]
      rfl

theorem Engine.evaluateWith_of_callsFit [LawfulMonad m] {engine : Engine φ}
    (h : ∀ root, engine.root = some root → root.CallsFit) {invoke : φ → List Float → m Float}
    (hinvoke : ∀ f args, args.length = Callable.arity f →
      invoke f args = pure (Callable.call f args)) :
    engine.evaluateWith invoke = pure engine.evaluate := by
  unfold evaluateWith evaluate
  cases hroot : engine.root with
  | none => rfl
  | some root =>
    cases engine.bindings.firstUnbound? with
    | some v => rfl
    | none =>
      simp only [(h root hroot).foldM_eq hinvoke, map_pure]

theorem Engine.mem_invocations {engine : Engine φ} {call : Invocation φ}
    (h : call ∈ engine.invocations) : ∃ root, engine.root = some root ∧
      Label.call call.function call.args.length ∈ root.labels := by
  unfold invocations at h
  split at h
  next root hroot _ => exact ⟨root, hroot, Expr.label_of_mem_invocations h⟩
  next => cases h

/-- A tree that was read calls its functions with as many arguments as they take. -/
theorem ReadFrom.callsFit {library : Library φ} {table : Bindings} {tokens : List String}
    {root : Expr φ} (h : ReadFrom library table tokens root) : root.CallsFit := by
  intro f argCount hcall
  have hfault := Expr.check_eq_ok_iff.mp h.check _ hcall
  simpa [Label.fault?] using hfault

end Engine

namespace Session

variable [Callable φ]

theorem calls_run (functions : List φ) (operations : List (Operation φ)) :
    ((start functions).run operations).engine.Calls
      fun f => f ∈ functions ∨ .register f ∈ operations := by
  have hvalid := (valid_start functions).run operations
  refine ⟨Engine.evaluateWith_recordedCall _, ?_, ?_⟩
  · intro call hcall
    obtain ⟨root, hroot, hlabel⟩ := Engine.mem_invocations hcall
    obtain ⟨attempt, hlast, hread⟩ := hvalid.present root hroot
    refine ⟨hread.callsFit _ _ hlabel, ?_⟩
    exact (traces_run functions operations).mem_of_get? hlast (hread.calls _ _ hlabel)
  · intro m _ _ invoke hinvoke
    refine Engine.evaluateWith_of_callsFit (fun root hroot => ?_) hinvoke
    obtain ⟨attempt, -, hread⟩ := hvalid.present root hroot
    exact hread.callsFit

end Session

namespace ElementaryFunction.Rule

/-- A standard function without the NaN that stands in for missing arguments. -/
def call? : Rule → List Float → Option Float
  | unary f, x :: _ => some (f x)
  | binary f, x :: y :: _ => some (f x y)
  | _, _ => none

theorem call_eq_getD (rule : Rule) (args : List Float) :
    rule.call args = (rule.call? args).getD nan := by
  cases rule with
  | unary f => cases args <;> rfl
  | binary f =>
    match args with
    | [] | [_] | _ :: _ :: _ => rfl

theorem call?_of_length {rule : Rule} {args : List Float} (h : args.length = rule.arity) :
    rule.call? args = some (rule.call args) := by
  cases rule with
  | unary f =>
    obtain ⟨x, rfl⟩ := List.length_eq_one_iff.mp h
    rfl
  | binary f =>
    obtain ⟨x, y, rfl⟩ := List.length_eq_two.mp h
    rfl

end ElementaryFunction.Rule

/-- Standard functions without their fallback, next to functions of the host. -/
def strictCall [PairFunctions] {ψ : Type} [Callable ψ] :
    ElementaryFunction ⊕ ψ → List Float → Option Float :=
  Sum.elim (·.rule.call?) fun f args => some (Callable.call f args)

/-- Whatever was done with an engine before it evaluates its formula, every function is called
with as many arguments as it was registered for. So functions need not be defined for any
other number of them, and the standard functions never fall back to a NaN. -/
theorem Session.invocations_fit :
    (∀ {φ : Type} [Callable φ] (functions : List φ) (operations : List (Operation φ)),
      ((start functions).run operations).engine.Calls
        fun f => f ∈ functions ∨ .register f ∈ operations) ∧
    (∀ (rule : ElementaryFunction.Rule) (args : List Float),
      rule.call args = (rule.call? args).getD nan) ∧
    ∀ [PairFunctions] {ψ : Type} [Callable ψ] (functions : List (ElementaryFunction ⊕ ψ))
      (operations : List (Operation (ElementaryFunction ⊕ ψ))),
      ((start functions).run operations).engine.evaluateWith strictCall =
        some ((start functions).run operations).engine.evaluate := by
  refine ⟨calls_run, fun rule => rule.call_eq_getD, ?_⟩
  intro _ ψ _ functions operations
  refine (calls_run functions operations).total strictCall ?_
  rintro (g | f) args h
  · exact ElementaryFunction.Rule.call?_of_length h
  · rfl

/-- A function of the host, by what is said of it when it is registered. -/
structure HostFunction where
  name : String
  arity : Nat
  call : List Float → Float

instance : Callable HostFunction where
  name := HostFunction.name
  arity := HostFunction.arity
  call := HostFunction.call

/-- A function that replaces another of its name is not called by a formula read before. -/
theorem Session.invocations_fit_replaced :
    let functions : List (ElementaryFunction ⊕ HostFunction) := [.inl .max]
    let operations : List (Operation (ElementaryFunction ⊕ HostFunction)) :=
      [.parse "max(x,y)", .register (.inr ⟨"max", 1, fun args => args.headD 0⟩),
        .assign [("x", 1), ("y", 2)]]
    let engine := ((start functions).run operations).engine
    engine.invocations = [⟨.inl .max, [1, 2]⟩] ∧
      (∀ call ∈ engine.invocations, call.args.length = Callable.arity call.function) ∧
      engine.evaluateWith strictCall = some engine.evaluate := by
  intro functions operations engine
  have htokens : tokenize "max(x,y)" = ["max", "(", "x", ",", "y", ")"] := by
    rw [tokenize, String.foldl_eq_foldl_toList]
    decide
  let root : Expr (ElementaryFunction ⊕ HostFunction) :=
    .call (.inl .max) (some 0) [.var 0 (some 2), .var 1 (some 4)]
  let table : Bindings := ⟨[⟨"x", none⟩, ⟨"y", none⟩]⟩
  have haccepts : Accepts (.ofList functions) ["max", "(", "x", ",", "y", ")"] .empty root table :=
    ⟨_, rfl, rfl, rfl⟩
  have hcheck : root.check table ["max", "(", "x", ",", "y", ")"] = .ok () := by
    rw [Expr.check_eq_ok_iff, Expr.forall_mem_labels_iff]
    simp only [root, Expr.sourceOrder_call, Expr.sourceOrder_var, List.flatMap_cons,
      List.flatMap_nil, List.append_nil, List.singleton_append, List.forall_mem_cons]
    exact ⟨rfl, rfl, rfl, nofun⟩
  have hbuild := Engine.built_eq_ok_iff.mpr ⟨haccepts, hcheck⟩
  rw [← htokens] at hbuild
  have hparse : (Engine.ofFunctions functions).parse "max(x,y)" = (.ok (), _) :=
    Engine.parse_of_built_ok hbuild
  have hroot : engine.root = some root ∧ engine.bindings = ⟨[⟨"x", some 1⟩, ⟨"y", some 2⟩]⟩ := by
    simp only [engine, operations, run, start, List.foldl_cons, List.foldl_nil, step, hparse]
    exact ⟨rfl, rfl⟩
  have hfit := invocations_fit.1 functions operations
  refine ⟨?_, fun call hcall => (hfit.fit call hcall).1, invocations_fit.2.2 functions operations⟩
  rw [Engine.invocations, hroot.1, hroot.2]
  change root.invocations _ = _
  simp [root, Expr.invocations, Bindings.value?, Bindings.get?]

end FormulaEngine
