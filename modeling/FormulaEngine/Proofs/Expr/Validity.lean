import FormulaEngine.Proofs.Expr.Traversal

/-! Whether a tree is valid, and what is told if it is not. The check examines one node after
the other, each before its children and these from left to right, and stops at the first that
offends. So of several offending nodes, wherever they are in the tree, the first in the listing
is told, with its own data and the location of its own token. -/

namespace FormulaEngine.Expr

variable {φ : Type} [Callable φ] {table : Bindings}

/-- What is wrong with a node by itself. -/
inductive Offends (table : Bindings) : Expr φ → Cause → Prop
  | notANumber {value : Constant} {p : Option Nat} (h : value.toFloat.isNaN = true) :
    Offends table (.number value p) .notANumber
  | dangling {id : Nat} {p : Option Nat} (h : table.size ≤ id) :
    Offends table (.var id p) .danglingVariable
  | unknownOperator {op : Char} {p : Option Nat} {left right : Expr φ}
    (h : op ∉ ['+', '-', '*', '/']) : Offends table (.binary op p left right) (.unknownOperator op)
  | argumentCount {f : φ} {p : Option Nat} {args : List (Expr φ)}
    (h : args.length ≠ Callable.arity f) : Offends table (.call f p args)
      (.argumentCount (Callable.name f) (Callable.arity f) args.length)

/-- No node of a tree offends. -/
structure Valid (table : Bindings) (e : Expr φ) : Prop where
  number : ∀ depth value p, (depth, .number value p) ∈ e.nodes 0 → value.toFloat.isNaN = false
  var : ∀ depth id p, (depth, .var id p) ∈ e.nodes 0 → id < table.size
  operator : ∀ depth op p left right, (depth, .binary op p left right) ∈ e.nodes 0 →
    op ∈ ['+', '-', '*', '/']
  argCount : ∀ depth f p args, (depth, .call f p args) ∈ e.nodes 0 →
    args.length = Callable.arity f

theorem valid_iff {e : Expr φ} :
    e.Valid table ↔ ∀ node ∈ e.nodes 0, ∀ cause, ¬node.2.Offends table cause := by
  constructor
  · rintro h ⟨depth, node⟩ hnode cause (hnan | hid | hop | hcount)
    · rw [h.number _ _ _ hnode] at hnan
      cases hnan
    · exact absurd (h.var _ _ _ hnode) (Nat.not_lt.mpr hid)
    · exact hop (h.operator _ _ _ _ _ hnode)
    · exact hcount (h.argCount _ _ _ _ hnode)
  · intro h
    constructor
    · intro _ value _ hnode
      exact Bool.eq_false_iff.mpr fun hnan => h _ hnode _ (.notANumber hnan)
    · intro _ id _ hnode
      exact Nat.not_le.mp fun hid => h _ hnode _ (.dangling hid)
    · intro _ op _ _ _ hnode
      exact Decidable.not_not.mp fun hop => h _ hnode _ (.unknownOperator hop)
    · intro _ f _ args hnode
      exact Decidable.not_not.mp fun hcount => h _ hnode _ (.argumentCount hcount)

theorem isNone_ofChar?_iff {op : Char} :
    (Operator.ofChar? op).isNone = true ↔ op ∉ ['+', '-', '*', '/'] := by
  constructor
  · intro h hop
    simp only [List.mem_cons, List.not_mem_nil, or_false] at hop
    rcases hop with rfl | rfl | rfl | rfl <;> cases h
  · intro h
    rw [Option.isNone_iff_eq_none, Option.eq_none_iff_forall_ne_some]
    intro op' hop'
    obtain rfl := Operator.ofChar?_eq_some_iff.mp hop'
    cases op' <;> simp [Operator.symbol] at h

/-- The label of a node tells what is wrong with it. -/
theorem fault?_label_eq_some_iff {e : Expr φ} {cause : Cause} :
    e.label.fault? table = some cause ↔ e.Offends table cause := by
  constructor
  · intro h
    cases e with
    | number value p =>
      obtain ⟨hnan, h⟩ := Option.ite_none_right_eq_some.mp h
      cases h
      exact .notANumber hnan
    | var id p =>
      obtain ⟨hid, h⟩ := Option.ite_none_right_eq_some.mp h
      cases h
      exact .dangling (Bindings.isNone_get?_iff.mp hid)
    | binary op p left right =>
      obtain ⟨hop, h⟩ := Option.ite_none_right_eq_some.mp h
      cases h
      exact .unknownOperator (isNone_ofChar?_iff.mp hop)
    | call f p args =>
      obtain ⟨hcount, h⟩ := Option.ite_none_left_eq_some.mp h
      cases h
      exact .argumentCount hcount
  · rintro (hnan | hid | hop | hcount)
    · exact if_pos hnan
    · exact if_pos (Bindings.isNone_get?_iff.mpr hid)
    · exact if_pos (isNone_ofChar?_iff.mpr hop)
    · exact if_neg hcount

theorem fault?_label_eq_none_iff {e : Expr φ} :
    e.label.fault? table = none ↔ ∀ cause, ¬e.Offends table cause := by
  simp only [Option.eq_none_iff_forall_ne_some, ne_eq, fault?_label_eq_some_iff]

section Examine

variable (table : Bindings) (tokens : List String)

/-- Looks at a node by itself, and fails if something is wrong with it. -/
def examine : Expr φ → Except Failure Unit
  | number value p =>
    if value.toFloat.isNaN then .error (.located .notANumber (.ofIndex tokens p)) else .ok ()
  | var id p =>
    if (table.get? id).isNone then .error (.located .danglingVariable (.ofIndex tokens p))
    else .ok ()
  | binary op p _ _ =>
    if (Operator.ofChar? op).isNone then
      .error (.located (.unknownOperator op) (.ofIndex tokens p))
    else .ok ()
  | call f p args =>
    if args.length ≠ Callable.arity f then
      .error (.located (.argumentCount (Callable.name f) (Callable.arity f) args.length)
        (.ofIndex tokens p))
    else .ok ()

/-- A fault that may have been found, as an outcome. -/
def outcome : Option (Cause × Option Nat) → Except Failure Unit
  | none => .ok ()
  | some (cause, position) => .error (.located cause (.ofIndex tokens position))

theorem check_eq_outcome (e : Expr φ) :
    e.check table tokens = outcome tokens (e.firstFault? table) := by
  rw [check]
  cases e.firstFault? table with
  | none => rfl
  | some fault => rfl

theorem examine_eq_outcome (e : Expr φ) : examine table tokens e =
    outcome tokens ((e.label.fault? table).map (·, e.position)) := by
  cases e with
  | number | var | binary =>
    simp only [examine, label, Label.fault?]
    split <;> rfl
  | call f p args =>
    simp only [examine, label, Label.fault?, ite_not]
    split <;> rfl

/-- Examining one node after the other stops at the first fault. -/
theorem forM_examine (nodes : List (Nat × Expr φ)) :
    forM nodes (fun node => examine table tokens node.2) = outcome tokens
      (nodes.findSome? fun node => (node.2.label.fault? table).map (·, node.2.position)) := by
  induction nodes with
  | nil => rfl
  | cons node rest ih =>
    rw [List.forM_cons, ih, examine_eq_outcome, List.findSome?_cons]
    cases node.2.label.fault? table with
    | none => rfl
    | some cause => rfl

theorem firstFault?_eq (e : Expr φ) : e.firstFault? table =
    (e.nodes 0).findSome? fun node => (node.2.label.fault? table).map (·, node.2.position) := by
  rw [firstFault?, outline_eq_map_nodes, List.findSome?_map]
  rfl

theorem forM_nodes_examine (e : Expr φ) :
    forM (e.nodes 0) (fun node => examine table tokens node.2) = e.check table tokens := by
  rw [forM_examine, check_eq_outcome, firstFault?_eq]

end Examine

/-- The first fault of a tree is at the first node that offends. -/
theorem firstFault?_eq_some_iff {e : Expr φ} {cause : Cause} {position : Option Nat} :
    e.firstFault? table = some (cause, position) ↔
      ∃ before depth node after, e.nodes 0 = before ++ (depth, node) :: after ∧
        (∀ other ∈ before, ∀ cause, ¬other.2.Offends table cause) ∧
        node.Offends table cause ∧ node.position = position := by
  rw [firstFault?_eq, List.findSome?_eq_some_iff]
  simp only [Option.map_eq_none_iff, Option.map_eq_some_iff, fault?_label_eq_none_iff,
    fault?_label_eq_some_iff, Prod.mk.injEq]
  constructor
  · rintro ⟨before, ⟨depth, node⟩, after, hnodes, ⟨_, hnode, rfl, hposition⟩, hbefore⟩
    exact ⟨before, depth, node, after, hnodes, hbefore, hnode, hposition⟩
  · rintro ⟨before, depth, node, after, hnodes, hbefore, hnode, hposition⟩
    exact ⟨before, (depth, node), after, hnodes, ⟨cause, hnode, rfl, hposition⟩, hbefore⟩

theorem check_eq_error_iff {e : Expr φ} {tokens : List String} {failure : Failure} :
    e.check table tokens = .error failure ↔ ∃ cause position,
      e.firstFault? table = some (cause, position) ∧
        failure = .located cause (.ofIndex tokens position) := by
  rw [check_eq_outcome]
  cases e.firstFault? table with
  | none => simp [outcome]
  | some fault =>
    obtain ⟨cause, position⟩ := fault
    simp [outcome, eq_comm]

theorem check_eq_ok_iff_valid {e : Expr φ} {tokens : List String} :
    e.check table tokens = .ok () ↔ e.Valid table := by
  rw [check_eq_ok_iff, labels_eq_map_nodes, List.forall_mem_map, valid_iff]
  simp only [fault?_label_eq_none_iff]

/-- Checking a tree is examining its nodes one after the other, by a walk with a stack as by
recursion. It succeeds exactly if the tree is valid, and else it tells what is wrong with the
first node that offends, at the location of that node. -/
theorem check_eq_recursion (e : Expr φ) (table : Bindings) (tokens : List String) :
    walkStack (fun node => examine table tokens node.2) [(0, e)] = e.check table tokens ∧
    visitTree (fun node => examine table tokens node.2) 0 e = e.check table tokens ∧
    (e.check table tokens = .ok () ↔ e.Valid table) ∧
    ∀ failure, e.check table tokens = .error failure ↔
      ∃ before depth node after cause, e.nodes 0 = before ++ (depth, node) :: after ∧
        (∀ other ∈ before, ∀ cause, ¬other.2.Offends table cause) ∧
        node.Offends table cause ∧
        failure = .located cause (.ofIndex tokens node.position) := by
  have hvisit : visitTree (fun node => examine table tokens node.2) 0 e = e.check table tokens := by
    rw [visitTree_eq_forM, forM_nodes_examine]
  refine ⟨(walkStack_eq_visitTree _ e).trans hvisit, hvisit, check_eq_ok_iff_valid, ?_⟩
  intro failure
  rw [check_eq_error_iff]
  constructor
  · rintro ⟨cause, position, hfault, rfl⟩
    obtain ⟨before, depth, node, after, hnodes, hbefore, hnode, rfl⟩ :=
      firstFault?_eq_some_iff.mp hfault
    exact ⟨before, depth, node, after, cause, hnodes, hbefore, hnode, rfl⟩
  · rintro ⟨before, depth, node, after, cause, hnodes, hbefore, hnode, rfl⟩
    refine ⟨cause, node.position, firstFault?_eq_some_iff.mpr ?_, rfl⟩
    exact ⟨before, depth, node, after, hnodes, hbefore, hnode, rfl⟩

end FormulaEngine.Expr
