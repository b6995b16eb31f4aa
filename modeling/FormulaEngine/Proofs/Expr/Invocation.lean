import FormulaEngine.Proofs.Expr.Outline

/-! The calls that evaluation makes. Evaluation gives the values of the arguments to a function
that the host supplies, and the host may do there what it likes, even fail. So that this can
be seen, functions are called with effects here. A call is made for every call node, with one
value for each argument of the node, after the calls of the arguments. If the nodes have as
many arguments as their functions take, it does not matter what a function would do with
any other number of them. -/

namespace FormulaEngine

variable {φ : Type}

/-- A function and the values that it is called with. -/
structure Invocation (φ : Type) where
  function : φ
  args : List Float

namespace Expr

variable {m : Type → Type} [Monad m]

/-- How each kind of node is evaluated if calling a function has effects. -/
def valuationWith (invoke : φ → List Float → m Float) (table : Bindings) : Algebra φ m Float where
  number value _ := pure value.toFloat
  var id _ := pure ((table.value? id).getD 0)
  binary op _ a b := pure (applySymbol op a b)
  call f _ args := invoke f args

variable [Callable φ]

/-- The calls that evaluation makes, in their order. -/
def invocations (table : Bindings) : Expr φ → List (Invocation φ)
  | number _ _ | var _ _ => []
  | binary _ _ left right => invocations table left ++ invocations table right
  | call f _ args => args.flatMap (invocations table) ++ [⟨f, args.map (evaluate table)⟩]

/-- A call is made for a node that has as many arguments. -/
theorem label_of_mem_invocations {table : Bindings} {e : Expr φ} {call : Invocation φ}
    (h : call ∈ e.invocations table) : Label.call call.function call.args.length ∈ e.labels := by
  induction e with
  | number | var =>
    rw [invocations] at h
    cases h
  | binary op p left right ihl ihr =>
    rw [invocations, List.mem_append] at h
    rw [mem_labels_iff]
    obtain h | h := h
    · exact .inr ⟨left, List.mem_cons_self .., ihl h⟩
    · exact .inr ⟨right, List.mem_cons_of_mem _ (List.mem_cons_self ..), ihr h⟩
  | call f p args ih =>
    rw [invocations, List.mem_append, List.mem_flatMap, List.mem_singleton] at h
    rw [mem_labels_iff]
    obtain ⟨arg, harg, h⟩ | rfl := h
    · exact .inr ⟨arg, harg, ih arg harg h⟩
    · exact .inl (by rw [label, List.length_map])

section Recorded

/-- Calling a function and writing down with what. -/
def recordedCall (f : φ) (args : List Float) : StateM (List (Invocation φ)) Float := do
  modify (· ++ [⟨f, args⟩])
  pure (Callable.call f args)

variable {table : Bindings}

theorem combineAll_recordedCall {args : List (Expr φ)}
    (h : ∀ e ∈ args, ∀ log, (combine (valuationWith recordedCall table) e).run log =
      pure (e.evaluate table, log ++ e.invocations table)) (log : List (Invocation φ)) :
    (combineAll (valuationWith recordedCall table) args).run log =
      pure (args.map (evaluate table), log ++ args.flatMap (invocations table)) := by
  induction args generalizing log with
  | nil => simp [combineAll]
  | cons e rest ih =>
    obtain ⟨he, hrest⟩ := List.forall_mem_cons.mp h
    simp only [combineAll, StateT.run_bind, StateT.run_pure, he, ih hrest, pure_bind,
      List.map_cons, List.flatMap_cons, List.append_assoc]

/-- Evaluation makes the calls of a tree, and its value is what it is without writing them
down. -/
theorem foldM_recordedCall (e : Expr φ) (log : List (Invocation φ)) :
    (e.foldM (valuationWith recordedCall table)).run log =
      pure (e.evaluate table, log ++ e.invocations table) := by
  rw [foldM_eq_combine]
  induction e generalizing log with
  | number | var => simp [combine, valuationWith, invocations]
  | binary op p left right ihl ihr =>
    rw [combine, StateT.run_bind, ihl, pure_bind, StateT.run_bind, ihr, pure_bind, invocations,
      evaluate_binary]
    simp [valuationWith]
  | call f p args ih =>
    rw [combine, StateT.run_bind, combineAll_recordedCall ih, pure_bind, invocations,
      evaluate_call]
    simp [valuationWith, recordedCall]

end Recorded

/-- Every call has as many arguments as its function takes. -/
def CallsFit (e : Expr φ) : Prop :=
  ∀ f argCount, Label.call f argCount ∈ e.labels → argCount = Callable.arity f

theorem CallsFit.child {e child : Expr φ} (h : e.CallsFit) (hc : child ∈ e.children) :
    child.CallsFit :=
  fun f argCount hl => h f argCount (mem_labels_iff.mpr (.inr ⟨child, hc, hl⟩))

variable [LawfulMonad m]

theorem combineAll_of_pure {alg : Algebra φ m Float} {table : Bindings} {args : List (Expr φ)}
    (h : ∀ e ∈ args, combine alg e = pure (e.evaluate table)) :
    combineAll alg args = pure (args.map (evaluate table)) := by
  induction args with
  | nil => rfl
  | cons e rest ih =>
    obtain ⟨he, hrest⟩ := List.forall_mem_cons.mp h
    rw [combineAll, he, ih hrest, pure_bind, pure_bind, List.map_cons]

/-- Whatever functions do when they are called with another number of arguments than they
take, evaluation does not meet it. -/
theorem CallsFit.foldM_eq {invoke : φ → List Float → m Float}
    (hinvoke : ∀ f args, args.length = Callable.arity f →
      invoke f args = pure (Callable.call f args)) {table : Bindings} {e : Expr φ}
    (h : e.CallsFit) : e.foldM (valuationWith invoke table) = pure (e.evaluate table) := by
  rw [foldM_eq_combine]
  induction e with
  | number value p =>
    rw [combine, evaluate_number]
    rfl
  | var id p =>
    rw [combine, evaluate_var]
    rfl
  | binary op p left right ihl ihr =>
    have hleft := ihl (h.child (List.mem_cons_self ..))
    have hright := ihr (h.child (List.mem_cons_of_mem _ (List.mem_cons_self ..)))
    rw [combine, hleft, hright, pure_bind, pure_bind, evaluate_binary]
    rfl
  | call f p args ih =>
    have hargs := combineAll_of_pure fun e he => ih e he (h.child he)
    have hcount : args.length = Callable.arity f := h f _ (mem_labels_iff.mpr (.inl rfl))
    rw [combine, hargs, pure_bind, evaluate_call]
    exact hinvoke f _ ((List.length_map ..).trans hcount)

end Expr

end FormulaEngine
