import FormulaEngine.Library.Standard
import FormulaEngine.Proofs.Expr.Machine

/-! The walk with two stacks does what recursion does, whatever effects the nodes have. A
node is combined once, after the nodes below it, with the results of its own children and
nothing else, since these are the last ones on the stack of results: everything below the
node has left one result for each child, and what was there before is still there. So the
stack is never too short for a node, and one result is left at the end. -/

namespace FormulaEngine.Expr

variable {φ τ : Type} {m : Type → Type}

/-- What could go wrong in a walk. -/
inductive Fault
  /-- A node is left, and there are fewer results than it has children. -/
  | tooFewResults
  /-- No result is left at the end. -/
  | noResult
  /-- A result that a node asks for is not among those that it was given. -/
  | missingOperand
  deriving DecidableEq, Repr

/-- The children in the order in which they are pushed, so that they pop in source order. -/
def pushed : Expr φ → List (Expr φ)
  | number _ _ | var _ _ => []
  | binary _ _ left right => [right, left]
  | call _ _ args => args.reverse

/-- The tasks with trees to enter pushed one after the other. -/
def pushTasks (es : List (Expr φ)) (tasks : List (Task φ)) : List (Task φ) :=
  es.foldl (fun tasks e => .enter e :: tasks) tasks

theorem pushTasks_pushed (e : Expr φ) (tasks : List (Task φ)) :
    pushTasks e.pushed tasks = e.children.map Task.enter ++ tasks := by
  have hreverse (es : List (Expr φ)) (tasks : List (Task φ)) :
      pushTasks es.reverse tasks = es.map Task.enter ++ tasks := by
    rw [pushTasks, List.foldl_reverse]
    induction es with
    | nil => rfl
    | cons e es ih => rw [List.foldr_cons, ih, List.map_cons, List.cons_append]
  cases e with
  | number | var => rfl
  | binary op p left right => exact hreverse [left, right] tasks
  | call f p args => exact hreverse args tasks

section Walk

variable [Monad m] [MonadExceptOf Fault m]

/-- Does the tasks and gives back the results that are left, the last one at the end. -/
def drain (combine : Expr φ → List τ → m τ) (tasks : List (Task φ)) (results : List τ) :
    m (List τ) :=
  match tasks with
  | [] => pure results
  | .enter e :: tasks => drain combine (pushTasks e.pushed (.exit e :: tasks)) results
  | .exit e :: tasks =>
    if results.length < e.children.length then throw Fault.tooFewResults
    else do
      let start := results.length - e.children.length
      let value ← combine e (results.drop start)
      drain combine tasks (results.take start ++ [value])
termination_by stepsOfAll tasks
decreasing_by
  · have := sizeOfAll_children e
    rw [pushTasks_pushed, stepsOfAll_enter, stepsOfAll, stepsOfAll]
    omega
  · rw [stepsOfAll]
    omega

/-- The last result when a tree has been entered and everything is done. -/
def foldStack (combine : Expr φ → List τ → m τ) (e : Expr φ) : m τ := do
  let results ← drain combine [.enter e] []
  match results.getLast? with
  | some value => pure value
  | none => throw Fault.noResult

end Walk

mutual

/-- Combining the nodes of a tree by recursion: those of each child from left to right, then
the node itself with the results of its children. -/
def fromBelow [Monad m] (combine : Expr φ → List τ → m τ) : Expr φ → m τ
  | number value p => combine (number value p) []
  | var id p => combine (var id p) []
  | binary op p left right => do
    let a ← fromBelow combine left
    let b ← fromBelow combine right
    combine (binary op p left right) [a, b]
  | call f p args => do
    let values ← fromBelowAll combine args
    combine (call f p args) values

/-- The results of several trees in order. -/
def fromBelowAll [Monad m] (combine : Expr φ → List τ → m τ) : List (Expr φ) → m (List τ)
  | [] => pure []
  | e :: rest => do
    let value ← fromBelow combine e
    let values ← fromBelowAll combine rest
    pure (value :: values)

end

mutual

/-- The nodes of a tree, children before their parents and from left to right. -/
def postorder : Expr φ → List (Expr φ)
  | number value p => [number value p]
  | var id p => [var id p]
  | binary op p left right => postorder left ++ postorder right ++ [binary op p left right]
  | call f p args => postorderAll args ++ [call f p args]

def postorderAll : List (Expr φ) → List (Expr φ)
  | [] => []
  | e :: rest => postorder e ++ postorderAll rest

end

section Recursion

variable [Monad m] [LawfulMonad m] (combine : Expr φ → List τ → m τ)

theorem fromBelow_eq (e : Expr φ) :
    fromBelow combine e = fromBelowAll combine e.children >>= combine e := by
  cases e with
  | number | var => simp [fromBelow, children, fromBelowAll]
  | binary op p left right => simp [fromBelow, children, fromBelowAll]
  | call f p args => rfl

/-- Trees have as many results as they are. -/
theorem fromBelowAll_bind_congr {α : Type} (es : List (Expr φ)) {k k' : List τ → m α}
    (h : ∀ values, values.length = es.length → k values = k' values) :
    fromBelowAll combine es >>= k = fromBelowAll combine es >>= k' := by
  induction es generalizing k k' with
  | nil =>
    simp only [fromBelowAll, pure_bind]
    exact h [] rfl
  | cons e rest ih =>
    simp only [fromBelowAll, bind_assoc, pure_bind]
    congr 1
    funext value
    exact ih fun values hvalues => h (value :: values) (congrArg (· + 1) hvalues)

/-- Trees whose results need no effects. -/
theorem fromBelowAll_of_pure {result : Expr φ → τ} {es : List (Expr φ)}
    (h : ∀ e ∈ es, fromBelow combine e = pure (result e)) :
    fromBelowAll combine es = pure (es.map result) := by
  induction es with
  | nil => rfl
  | cons e rest ih =>
    obtain ⟨he, hrest⟩ := List.forall_mem_cons.mp h
    rw [fromBelowAll, he, ih hrest, pure_bind, pure_bind, List.map_cons]

variable [MonadExceptOf Fault m]

omit [LawfulMonad m] in
/-- A node is left with the results of its children, which are taken off the stack. -/
theorem drain_exit (e : Expr φ) (tasks : List (Task φ)) (results : List τ) {values : List τ}
    (h : values.length = e.children.length) :
    drain combine (.exit e :: tasks) (results ++ values) =
      combine e values >>= fun value => drain combine tasks (results ++ [value]) := by
  have hlength : (results ++ values).length - e.children.length = results.length := by
    rw [List.length_append, h]
    omega
  have henough : ¬(results ++ values).length < e.children.length := by
    rw [List.length_append]
    omega
  rw [drain, if_neg henough]
  simp only [hlength, List.drop_left, List.take_left]

/-- Trees that are entered one after the other leave their results on the stack. -/
theorem drain_enter_all {es : List (Expr φ)}
    (h : ∀ e ∈ es, ∀ tasks results, drain combine (.enter e :: tasks) results =
      fromBelow combine e >>= fun value => drain combine tasks (results ++ [value]))
    (tasks : List (Task φ)) (results : List τ) :
    drain combine (es.map Task.enter ++ tasks) results =
      fromBelowAll combine es >>= fun values => drain combine tasks (results ++ values) := by
  induction es generalizing results with
  | nil => simp [fromBelowAll]
  | cons e rest ih =>
    obtain ⟨he, hrest⟩ := List.forall_mem_cons.mp h
    rw [List.map_cons, List.cons_append, he]
    simp only [ih hrest, fromBelowAll, bind_assoc, pure_bind, List.append_assoc,
      List.singleton_append]

/-- A tree leaves its result on the stack, on top of what was there before. -/
theorem drain_enter (e : Expr φ) (tasks : List (Task φ)) (results : List τ) :
    drain combine (.enter e :: tasks) results =
      fromBelow combine e >>= fun value => drain combine tasks (results ++ [value]) := by
  induction e using induction_children generalizing tasks results with
  | node e ih =>
    rw [drain, pushTasks_pushed, drain_enter_all combine ih, fromBelow_eq, bind_assoc]
    exact fromBelowAll_bind_congr combine _ fun values h => drain_exit combine e tasks results h

theorem drain_tree (e : Expr φ) :
    drain combine [.enter e] [] = (fun value => [value]) <$> fromBelow combine e := by
  rw [drain_enter, map_eq_pure_bind]
  simp only [drain, List.nil_append]

theorem foldStack_eq_fromBelow (e : Expr φ) : foldStack combine e = fromBelow combine e := by
  rw [foldStack, drain_tree]
  simp

end Recursion

section Recorded

/-- Combining that writes down each node before it is combined. -/
def recorded [Monad m] (combine : Expr φ → List τ → m τ) (e : Expr φ) (args : List τ) :
    StateT (List (Expr φ)) m τ := do
  modify (· ++ [e])
  combine e args

variable [Monad m] [LawfulMonad m] (combine : Expr φ → List τ → m τ)

theorem recorded_run (e : Expr φ) (args : List τ) (log : List (Expr φ)) :
    (recorded combine e args).run log = (fun value => (value, log ++ [e])) <$> combine e args := by
  simp [recorded]

theorem postorder_eq (e : Expr φ) : e.postorder = postorderAll e.children ++ [e] := by
  cases e with
  | number | var | call => rfl
  | binary => simp [postorder, children, postorderAll]

theorem fromBelowAll_recorded {es : List (Expr φ)}
    (h : ∀ e ∈ es, ∀ log, (fromBelow (recorded combine) e).run log =
      (fun value => (value, log ++ e.postorder)) <$> fromBelow combine e) (log : List (Expr φ)) :
    (fromBelowAll (recorded combine) es).run log =
      (fun values => (values, log ++ postorderAll es)) <$> fromBelowAll combine es := by
  induction es generalizing log with
  | nil => simp [fromBelowAll, postorderAll]
  | cons e rest ih =>
    obtain ⟨he, hrest⟩ := List.forall_mem_cons.mp h
    simp only [fromBelowAll, StateT.run_bind, StateT.run_pure, he, ih hrest, bind_map_left,
      map_bind, map_pure, postorderAll, List.append_assoc]

/-- The nodes are combined in their order, each of them once. -/
theorem fromBelow_recorded (e : Expr φ) (log : List (Expr φ)) :
    (fromBelow (recorded combine) e).run log =
      (fun value => (value, log ++ e.postorder)) <$> fromBelow combine e := by
  induction e using induction_children generalizing log with
  | node e ih =>
    simp only [fromBelow_eq, StateT.run_bind, fromBelowAll_recorded combine ih, recorded_run,
      bind_map_left, map_bind, postorder_eq e, List.append_assoc]

end Recorded

section Algebra

variable [Monad m] [MonadExceptOf Fault m]

/-- One of the results that a node was given. -/
def operand (args : List τ) (i : Nat) : m τ :=
  match args[i]? with
  | some value => pure value
  | none => throw Fault.missingOperand

/-- What an algebra makes of a node, given the results of its children. -/
def applyTo (alg : Algebra φ m τ) : Expr φ → List τ → m τ
  | number value p, _ => alg.number value p
  | var id p, _ => alg.var id p
  | binary op p _ _, args => do alg.binary op p (← operand args 0) (← operand args 1)
  | call f p _, args => alg.call f p args

variable (alg : Algebra φ m τ)

theorem fromBelowAll_applyTo {es : List (Expr φ)}
    (h : ∀ e ∈ es, fromBelow (applyTo alg) e = combine alg e) :
    fromBelowAll (applyTo alg) es = combineAll alg es := by
  induction es with
  | nil => rfl
  | cons e rest ih =>
    obtain ⟨he, hrest⟩ := List.forall_mem_cons.mp h
    rw [fromBelowAll, combineAll, he, ih hrest]

/-- Every operation has its operands. -/
theorem fromBelow_applyTo [LawfulMonad m] (e : Expr φ) :
    fromBelow (applyTo alg) e = combine alg e := by
  induction e with
  | number | var => rfl
  | binary op p left right ihl ihr =>
    simp [fromBelow, combine, applyTo, operand, ihl, ihr]
  | call f p args ih =>
    rw [fromBelow, combine, fromBelowAll_applyTo alg ih]
    rfl

end Algebra

section Evaluate

variable [Callable φ]

mutual

/-- The value of a tree by recursion. -/
def value (table : Bindings) : Expr φ → Float
  | number value _ => value.toFloat
  | var id _ => ((table.get? id).bind (·.value)).getD 0
  | binary op _ left right =>
    match Operator.ofChar? op with
    | some op => op.apply (value table left) (value table right)
    | none => nan
  | call f _ args => Callable.call f (values table args)

/-- The values of several trees in order. -/
def values (table : Bindings) : List (Expr φ) → List Float
  | [] => []
  | e :: rest => value table e :: values table rest

end

theorem values_eq_map (table : Bindings) (es : List (Expr φ)) :
    values table es = es.map (value table) := by
  induction es with
  | nil => rfl
  | cons e rest ih => rw [values, ih, List.map_cons]

/-- Evaluation is recursive evaluation. -/
theorem evaluate_eq_value (table : Bindings) (e : Expr φ) : e.evaluate table = e.value table := by
  induction e with
  | number v p => rw [evaluate_number, value]
  | var id p =>
    rw [evaluate_var, value]
    rfl
  | binary op p left right ihl ihr =>
    rw [evaluate_binary, value, ihl, ihr]
    rfl
  | call f p args ih => rw [evaluate_call, value, values_eq_map, List.map_congr_left ih]

variable [Monad m] [MonadExceptOf Fault m]

/-- The value of a node, given the values of its children. Without an operator no operand
is looked at. -/
def operate (table : Bindings) : Expr φ → List Float → m Float
  | number value _, _ => pure value.toFloat
  | var id _, _ => pure ((table.value? id).getD 0)
  | binary op _ _ _, args =>
    match Operator.ofChar? op with
    | some op => do return op.apply (← operand args 0) (← operand args 1)
    | none => pure nan
  | call f _ _, args => pure (Callable.call f args)

variable [LawfulMonad m]

theorem fromBelow_operate (table : Bindings) (e : Expr φ) :
    fromBelow (m := m) (operate table) e = pure (e.value table) := by
  induction e with
  | number | var => rfl
  | binary op p left right ihl ihr =>
    simp only [fromBelow, ihl, ihr, pure_bind, operate, value]
    cases Operator.ofChar? op with
    | none => rfl
    | some op => simp [operand]
  | call f p args ih =>
    rw [fromBelow, fromBelowAll_of_pure _ ih, pure_bind, value, values_eq_map]
    rfl

end Evaluate

/-- The walk with two stacks combines the nodes of a tree as recursion does, with any
effects: each node once, in the order of its listing from below, with the results of its
children. It leaves one result, and nothing goes wrong in it, since recursion knows of no
fault. So do the walk with frames and evaluation, which is the recursive value. -/
theorem foldStack_eq_recursion [Callable φ] [Monad m] [LawfulMonad m] [MonadExceptOf Fault m]
    (e : Expr φ) (table : Bindings) (combine : Expr φ → List τ → m τ) (alg : Algebra φ m τ) :
    drain combine [.enter e] [] = (fun value => [value]) <$> fromBelow combine e ∧
    foldStack combine e = fromBelow combine e ∧
    (∀ log, (foldStack (recorded combine) e).run log =
      (fun value => (value, log ++ e.postorder)) <$> foldStack combine e) ∧
    foldStack (applyTo alg) e = e.foldM alg ∧
    foldStack (m := m) (operate table) e = pure (e.evaluate table) ∧
    e.evaluate table = e.value table := by
  refine ⟨drain_tree combine e, foldStack_eq_fromBelow combine e, fun log => ?_, ?_, ?_,
    evaluate_eq_value table e⟩
  · rw [foldStack_eq_fromBelow, foldStack_eq_fromBelow, fromBelow_recorded]
  · rw [foldStack_eq_fromBelow, fromBelow_applyTo, foldM_eq_combine]
  · rw [foldStack_eq_fromBelow, fromBelow_operate, evaluate_eq_value]

/-- The difference `max(2, x) - 1`. -/
def difference : Expr ElementaryFunction :=
  .binary '-' none (.call .max none [.number 2 none, .var 0 none]) (.number 1 none)

/-- Numbering the nodes as they are combined. -/
def numbered (_ : Expr ElementaryFunction) (args : List (List Nat)) :
    StateT Nat (Except Fault) (List Nat) := do
  let n ← getModify (· + 1)
  pure (args.flatten ++ [n])

theorem foldStack_eq_recursion_difference :
    (foldStack numbered difference).run 0 = .ok ([0, 1, 2, 3, 4], 5) ∧
    (foldStack (recorded numbered) difference).run [] =
      (fun numbers => (numbers, difference.postorder)) <$> foldStack numbered difference ∧
    difference.evaluate ⟨[⟨"x", some 3⟩]⟩ = difference.value ⟨[⟨"x", some 3⟩]⟩ := by
  obtain ⟨-, hfold, hrecorded, -, -, hvalue⟩ := foldStack_eq_recursion difference
    ⟨[⟨"x", some 3⟩]⟩ numbered
    ⟨fun _ _ => pure [], fun _ _ => pure [], fun _ _ _ _ => pure [], fun _ _ _ => pure []⟩
  refine ⟨?_, hrecorded [], hvalue⟩
  rw [hfold]
  rfl

end FormulaEngine.Expr
