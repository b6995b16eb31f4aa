import FormulaEngine.Proofs.Expr.Outline

/-! The walk over a tree with a stack of tasks and a stack of results. A node is left
after its children, and is then given as many results as it has children. What a node
makes of them may be nothing: an operation without its operands has no value. On a tree
that is valid, with a value for each of its variables, this never happens, and the
result is the value of the tree. -/

namespace FormulaEngine.Expr

variable {φ τ : Type}

/-- What is still to be done: to enter a tree, or to leave a node whose children are
done. -/
inductive Task (φ : Type) where
  | enter (e : Expr φ)
  | exit (e : Expr φ)

/-- A bound on the steps that tasks cause. -/
def stepsOfAll : List (Task φ) → Nat
  | [] => 0
  | .enter e :: tasks => 2 * e.size + stepsOfAll tasks
  | .exit _ :: tasks => 1 + stepsOfAll tasks

theorem stepsOfAll_enter (es : List (Expr φ)) (tasks : List (Task φ)) :
    stepsOfAll (es.map Task.enter ++ tasks) = 2 * sizeOfAll es + stepsOfAll tasks := by
  induction es with
  | nil => simp [sizeOfAll]
  | cons e rest ih =>
    rw [List.map_cons, List.cons_append, stepsOfAll, ih, sizeOfAll]
    omega

/-- The last results are kept first. Nothing is the result if some node makes nothing of
the results that it is given, or if no result is left at the end. -/
def perform (combine : Expr φ → List τ → Option τ) : List (Task φ) → List τ → Option τ
  | [], results => results.head?
  | .enter e :: tasks, results =>
    perform combine (e.children.map Task.enter ++ .exit e :: tasks) results
  | .exit e :: tasks, results =>
    match combine e (results.take e.children.length).reverse with
    | none => none
    | some value => perform combine tasks (value :: results.drop e.children.length)
termination_by tasks => stepsOfAll tasks
decreasing_by
  · have := sizeOfAll_children e
    rw [stepsOfAll_enter, stepsOfAll, stepsOfAll]
    omega
  · rw [stepsOfAll]
    omega

section Perform

variable {combine : Expr φ → List τ → Option τ} {value : Expr φ → τ} {P : Expr φ → Prop}

/-- Trees that are entered one after the other leave their values, the last one first. -/
theorem perform_enter_all {es : List (Expr φ)}
    (h : ∀ e ∈ es, ∀ tasks results, perform combine (.enter e :: tasks) results =
      perform combine tasks (value e :: results)) (tasks : List (Task φ)) (results : List τ) :
    perform combine (es.map Task.enter ++ tasks) results =
      perform combine tasks ((es.map value).reverse ++ results) := by
  induction es generalizing results with
  | nil => rfl
  | cons e rest ih =>
    rw [List.map_cons, List.cons_append, h e (List.mem_cons_self ..),
      ih fun e' he' => h e' (List.mem_cons_of_mem _ he')]
    rw [List.map_cons, List.reverse_cons, List.append_assoc, List.singleton_append]

/-- A tree leaves its value, if the nodes of such trees always make their values of the
values of their children. -/
theorem perform_enter (hchildren : ∀ e, P e → ∀ child ∈ e.children, P child)
    (hcombine : ∀ e, P e → combine e (e.children.map value) = some (value e)) {e : Expr φ}
    (he : P e) (tasks : List (Task φ)) (results : List τ) :
    perform combine (.enter e :: tasks) results =
      perform combine tasks (value e :: results) := by
  induction e using induction_children generalizing tasks results with
  | node e ih =>
    -- the node is left with the results of its children on top, the last one first
    have hlength : e.children.length = ((e.children.map value).reverse).length := by
      rw [List.length_reverse, List.length_map]
    rw [perform, perform_enter_all fun child hc => ih child hc (hchildren e he child hc), perform,
      hlength, List.take_left, List.drop_left, List.reverse_reverse, hcombine e he]

end Perform

variable [Callable φ] {table : Bindings}

/-- The value of a node, given the values of its children. There is none if the node is
not valid, if a variable has no value, or if there are too few or too many values. -/
def compute? (table : Bindings) : Expr φ → List Float → Option Float
  | number value _, [] => if value.toFloat.isNaN then none else some value.toFloat
  | var id _, [] => table.value? id
  | binary op _ _ _, [a, b] => (Operator.ofChar? op).map (·.apply a b)
  | call f _ _, args =>
    if args.length = Callable.arity f then some (Callable.call f args) else none
  | _, _ => none

/-- The value of a tree, if no node fails to have one. -/
def computed? (table : Bindings) (e : Expr φ) : Option Float :=
  perform (compute? table) [.enter e] []

/-- All nodes are valid and all variables have values. -/
structure Ready (table : Bindings) (e : Expr φ) : Prop where
  valid : ∀ l ∈ e.labels, l.fault? table = none
  bound : ∀ id, Label.var id ∈ e.labels → (table.value? id).isSome = true

theorem Ready.child {e child : Expr φ} (h : e.Ready table) (hc : child ∈ e.children) :
    child.Ready table := by
  have hsub (l : Label φ) (hl : l ∈ child.labels) : l ∈ e.labels :=
    mem_labels_iff.mpr (.inr ⟨child, hc, hl⟩)
  exact ⟨fun l hl => h.valid l (hsub l hl), fun id hid => h.bound id (hsub _ hid)⟩

theorem Ready.compute_eq {e : Expr φ} (h : e.Ready table) :
    e.compute? table (e.children.map (evaluate table)) = some (e.evaluate table) := by
  have hlabel := h.valid e.label (mem_labels_iff.mpr (.inl rfl))
  cases e with
  | number value p =>
    have hnumber : ¬value.toFloat.isNaN = true := by simpa [label, Label.fault?] using hlabel
    rw [evaluate_number]
    exact if_neg hnumber
  | var id p =>
    obtain ⟨value, hvalue⟩ := Option.isSome_iff_exists.mp
      (h.bound id (mem_labels_iff.mpr (.inl rfl)))
    rw [evaluate_var, hvalue]
    exact hvalue
  | binary op p left right =>
    obtain ⟨op', hop⟩ : ∃ op', Operator.ofChar? op = some op' := by
      refine Option.isSome_iff_exists.mp ?_
      simpa [label, Label.fault?, Option.isSome_iff_ne_none] using hlabel
    rw [evaluate_binary, applySymbol, children, List.map_cons, List.map_singleton, compute?, hop]
    rfl
  | call f p args =>
    have harity : args.length = Callable.arity f := by
      simpa [label, Label.fault?] using hlabel
    rw [evaluate_call, children, compute?, List.length_map]
    exact if_pos harity

/-- A tree that is ready has a value without fail. -/
theorem Ready.computed?_eq {e : Expr φ} (h : e.Ready table) :
    e.computed? table = some (e.evaluate table) := by
  have hchildren (e : Expr φ) (he : e.Ready table) (child : Expr φ) (hc : child ∈ e.children) :
      child.Ready table := he.child hc
  rw [computed?, perform_enter hchildren (fun e he => he.compute_eq) h, perform]
  rfl

end FormulaEngine.Expr
