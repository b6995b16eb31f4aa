import FormulaEngine.Expr.Evaluate

/-! The walk over a tree does what recursion would do. A node is combined after its
children, which are combined from left to right, whatever effects the steps have. For
steps without effects this gives the equations of a fold, and so those of evaluation
and of relocation. -/

namespace FormulaEngine.Expr

variable {φ τ : Type} {m : Type → Type}

/-- What holds of a node if it holds of its children holds of all trees. -/
@[elab_as_elim, induction_eliminator]
theorem induction {motive : Expr φ → Prop} (number : ∀ value p, motive (.number value p))
    (var : ∀ id p, motive (.var id p))
    (binary : ∀ op p left right, motive left → motive right → motive (.binary op p left right))
    (call : ∀ f p args, (∀ e ∈ args, motive e) → motive (.call f p args)) (e : Expr φ) :
    motive e :=
  match e with
  | .number value p => number value p
  | .var id p => var id p
  | .binary op p left right =>
    binary op p left right (induction number var binary call left)
      (induction number var binary call right)
  | .call f p args => call f p args fun e _ => induction number var binary call e

/-- The same with the children as a list. -/
theorem induction_children {motive : Expr φ → Prop}
    (node : ∀ e : Expr φ, (∀ child ∈ e.children, motive child) → motive e) (e : Expr φ) :
    motive e := by
  induction e with
  | number value p => exact node _ nofun
  | var id p => exact node _ nofun
  | binary op p left right ihl ihr =>
    exact node _ (List.forall_mem_cons.mpr ⟨ihl, List.forall_mem_singleton.mpr ihr⟩)
  | call f p args ih => exact node _ ih

mutual

/-- Combining a tree by recursion. -/
def combine [Monad m] (alg : Algebra φ m τ) : Expr φ → m τ
  | number value p => alg.number value p
  | var id p => alg.var id p
  | binary op p left right => do
    let a ← combine alg left
    let b ← combine alg right
    alg.binary op p a b
  | call f p args => do
    let values ← combineAll alg args
    alg.call f p values

/-- Combining several trees in order. -/
def combineAll [Monad m] (alg : Algebra φ m τ) : List (Expr φ) → m (List τ)
  | [] => pure []
  | e :: rest => do
    let value ← combine alg e
    let values ← combineAll alg rest
    pure (value :: values)

end

section Walk

variable [Monad m] [LawfulMonad m] (alg : Algebra φ m τ)

/-- An argument frame goes on with the arguments still to come, if each of these is walked
as it is combined. -/
theorem walk_arg (f : φ) (p : Option Nat) (rest : List (Expr φ))
    (ih : ∀ e ∈ rest, ∀ frames, walk alg (.tree e) frames =
      combine alg e >>= fun v => walk alg (.result v) frames)
    (done : List τ) (v : τ) (frames : List (Frame φ τ)) :
    walk alg (.result v) (.arg f p done rest :: frames) =
      combineAll alg rest >>= fun values => alg.call f p ((v :: done).reverse ++ values) >>=
        fun r => walk alg (.result r) frames := by
  induction rest generalizing done v with
  | nil => simp [walk, combineAll]
  | cons e rest ihr =>
    rw [walk, ih e (List.mem_cons_self ..)]
    simp only [ihr fun e he => ih e (List.mem_cons_of_mem _ he), combineAll, bind_assoc,
      pure_bind, List.reverse_cons, List.append_assoc, List.cons_append, List.nil_append]

/-- A tree in the focus is replaced by its result. -/
theorem walk_tree (e : Expr φ) (frames : List (Frame φ τ)) :
    walk alg (.tree e) frames = combine alg e >>= fun v => walk alg (.result v) frames := by
  induction e generalizing frames with
  | number value p => rw [walk, combine]
  | var id p => rw [walk, combine]
  | binary op p left right ihl ihr => simp only [walk, combine, ihl, ihr, bind_assoc]
  | call f p args ih =>
    cases args with
    | nil => simp [walk, combine, combineAll]
    | cons e rest =>
      rw [walk, ih e (List.mem_cons_self ..)]
      simp only [walk_arg alg f p rest fun e he => ih e (List.mem_cons_of_mem _ he), combine,
        combineAll, bind_assoc, pure_bind, List.reverse_cons, List.reverse_nil, List.nil_append,
        List.cons_append]

/-- The walk combines a tree as recursion does. -/
theorem foldM_eq_combine (e : Expr φ) : e.foldM alg = combine alg e := by
  rw [foldM, walk_tree]
  simp only [walk, bind_pure]

end Walk

theorem combineAll_eq_map (alg : Algebra φ Id τ) (args : List (Expr φ)) :
    combineAll alg args = args.map (combine alg) := by
  induction args with
  | nil => rfl
  | cons e rest ih => rw [combineAll, ih]; rfl

section Fold

/-- Combining a tree without effects. -/
def fold (alg : Algebra φ Id τ) (e : Expr φ) : τ := (e.foldM alg).run

variable (alg : Algebra φ Id τ)

theorem fold_eq_combine (e : Expr φ) : e.fold alg = combine alg e := by
  rw [fold, foldM_eq_combine]
  rfl

theorem fold_number (value : Constant) (p : Option Nat) :
    (number value p : Expr φ).fold alg = alg.number value p := by
  rw [fold_eq_combine]
  rfl

theorem fold_var (id : Nat) (p : Option Nat) : (var id p : Expr φ).fold alg = alg.var id p := by
  rw [fold_eq_combine]
  rfl

theorem fold_binary (op : Char) (p : Option Nat) (left right : Expr φ) :
    (binary op p left right).fold alg = alg.binary op p (left.fold alg) (right.fold alg) := by
  simp only [fold_eq_combine]
  rfl

theorem fold_call (f : φ) (p : Option Nat) (args : List (Expr φ)) :
    (call f p args).fold alg = alg.call f p (args.map (fold alg)) := by
  have hargs : args.map (fold alg) = combineAll alg args := by
    rw [combineAll_eq_map]
    exact List.map_congr_left fun e _ => fold_eq_combine alg e
  rw [fold_eq_combine, hargs]
  rfl

end Fold

section Evaluate

variable [Callable φ] (table : Bindings)

@[simp] theorem evaluate_number (value : Constant) (p : Option Nat) :
    (number value p : Expr φ).evaluate table = value.toFloat := fold_number ..

@[simp] theorem evaluate_var (id : Nat) (p : Option Nat) :
    (var id p : Expr φ).evaluate table = (table.value? id).getD 0 := fold_var ..

@[simp] theorem evaluate_binary (op : Char) (p : Option Nat) (left right : Expr φ) :
    (binary op p left right).evaluate table =
      applySymbol op (left.evaluate table) (right.evaluate table) := fold_binary ..

@[simp] theorem evaluate_call (f : φ) (p : Option Nat) (args : List (Expr φ)) :
    (call f p args).evaluate table = Callable.call f (args.map (evaluate table)) := fold_call ..

end Evaluate

section Relocate

variable (g : Option Nat → Option Nat)

@[simp] theorem relocate_number (value : Constant) (p : Option Nat) :
    (number value p : Expr φ).relocate g = number value (g p) := fold_number ..

@[simp] theorem relocate_var (id : Nat) (p : Option Nat) :
    (var id p : Expr φ).relocate g = var id (g p) := fold_var ..

@[simp] theorem relocate_binary (op : Char) (p : Option Nat) (left right : Expr φ) :
    (binary op p left right).relocate g =
      binary op (g p) (left.relocate g) (right.relocate g) := fold_binary ..

@[simp] theorem relocate_call (f : φ) (p : Option Nat) (args : List (Expr φ)) :
    (call f p args).relocate g = call f (g p) (args.map (relocate g)) := fold_call ..

end Relocate

end FormulaEngine.Expr
