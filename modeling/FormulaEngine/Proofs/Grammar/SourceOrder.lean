import FormulaEngine.Proofs.Grammar.Occurrence

/-! The nodes of a tree and the tokens that they were read from. Every token but parentheses
and commas is read as one node, and the unwritten zeros are the only nodes without a token.
With operations between their operands the nodes stand in the order of their tokens. A
listing puts operations before their operands, and differs in nothing else. -/

namespace FormulaEngine

open Token

variable {φ : Type}

namespace Expr

/-- The nodes in the order of their tokens, each with its position. -/
def sourceOrder : Expr φ → List (Label φ × Option Nat)
  | number value p => [(.number value, p)]
  | var id p => [(.var id, p)]
  | binary op p left right => sourceOrder left ++ (.binary op, p) :: sourceOrder right
  | call f p args => (.call f args.length, p) :: args.flatMap sourceOrder

@[simp] theorem sourceOrder_number (value : Constant) (p : Option Nat) :
    (number value p : Expr φ).sourceOrder = [(.number value, p)] := by rw [sourceOrder]

@[simp] theorem sourceOrder_var (id : Nat) (p : Option Nat) :
    (var id p : Expr φ).sourceOrder = [(.var id, p)] := by rw [sourceOrder]

@[simp] theorem sourceOrder_binary (op : Char) (p : Option Nat) (left right : Expr φ) :
    (binary op p left right).sourceOrder =
      left.sourceOrder ++ (.binary op, p) :: right.sourceOrder := by rw [sourceOrder]

@[simp] theorem sourceOrder_call (f : φ) (p : Option Nat) (args : List (Expr φ)) :
    (call f p args).sourceOrder = (.call f args.length, p) :: args.flatMap sourceOrder := by
  rw [sourceOrder]

/-- The entries of the listing without their depths. -/
def listed (e : Expr φ) : List (Label φ × Option Nat) :=
  e.outline.map fun entry => (entry.label, entry.position)

theorem map_fst_listed (e : Expr φ) : e.listed.map (·.1) = e.labels := by
  rw [listed, List.map_map]
  rfl

theorem map_preorder (depth : Nat) (e : Expr φ) :
    (preorder depth e).map (fun entry => (entry.label, entry.position)) = e.listed := by
  rw [listed, outline_eq_preorder]
  exact map_preorder_depth Prod.mk depth 0 e

theorem listed_eq (e : Expr φ) :
    e.listed = (e.label, e.position) :: e.children.flatMap listed := by
  rw [← map_preorder 0, preorder_eq, List.map_cons, List.map_flatMap]
  simp only [map_preorder]

theorem mem_sourceOrder_iff {node : Label φ × Option Nat} {e : Expr φ} :
    node ∈ e.sourceOrder ↔
      node = (e.label, e.position) ∨ ∃ child ∈ e.children, node ∈ child.sourceOrder := by
  cases e with
  | number | var => simp [label, position, children]
  | binary op p left right =>
    simp only [sourceOrder_binary, label, position, children, List.mem_append, List.mem_cons,
      List.not_mem_nil, or_false, exists_eq_or_imp, exists_eq_left]
    exact or_left_comm
  | call f p args => simp [label, position, children]

/-- The same nodes are listed and found in the tokens. -/
theorem mem_listed_iff {node : Label φ × Option Nat} {e : Expr φ} :
    node ∈ e.listed ↔ node ∈ e.sourceOrder := by
  induction e using induction_children with
  | node e ih =>
    rw [listed_eq, List.mem_cons, List.mem_flatMap, mem_sourceOrder_iff]
    refine or_congr_right (exists_congr fun child => ?_)
    exact and_congr_right (ih child)

/-- What is said of all labels can be said of the nodes in the order of their tokens. -/
theorem forall_mem_labels_iff {P : Label φ → Prop} {e : Expr φ} :
    (∀ l ∈ e.labels, P l) ↔ ∀ node ∈ e.sourceOrder, P node.1 := by
  rw [← map_fst_listed, List.forall_mem_map]
  simp only [mem_listed_iff]

theorem listed_binary (op : Char) (p : Option Nat) (left right : Expr φ) :
    (binary op p left right).listed = (.binary op, p) :: (left.listed ++ right.listed) := by
  rw [listed_eq]
  simp [label, position, children]

/-- Only operations have another place in the listing. -/
theorem filter_listed {P : Label φ × Option Nat → Bool} (hP : ∀ op p, P (.binary op, p) = false)
    (e : Expr φ) : e.listed.filter P = e.sourceOrder.filter P := by
  induction e with
  | number value p =>
    rw [listed_eq, sourceOrder]
    rfl
  | var id p =>
    rw [listed_eq, sourceOrder]
    rfl
  | binary op p left right ihl ihr =>
    have hop : ¬P (.binary op, p) = true := by simp [hP]
    rw [listed_binary, sourceOrder, List.filter_cons_of_neg hop, List.filter_append,
      List.filter_append, List.filter_cons_of_neg hop, ihl, ihr]
  | call f p args ih =>
    have hargs : (args.flatMap listed).filter P = (args.flatMap sourceOrder).filter P := by
      rw [List.filter_flatMap, List.filter_flatMap, List.flatMap_congr ih]
    rw [listed_eq, sourceOrder, label, position, children, List.filter_cons, List.filter_cons,
      hargs]

end Expr

/-- The nodes of a chain of trees: those of the operands, and the operators between them. -/
def Chain.sourceOrder (chain : Chain (Expr φ)) : List (Label φ × Option Nat) :=
  chain.first.sourceOrder ++ chain.rest.flatMap fun (op, index, operand) =>
    (.binary op.symbol, some index) :: operand.sourceOrder

theorem Chain.sourceOrder_single (e : Expr φ) : Chain.sourceOrder ⟨e, []⟩ = e.sourceOrder :=
  List.append_nil _

theorem Chain.sourceOrder_fold (ids : String → Nat) (chain : Chain (Expr φ)) :
    (chain.fold (Meaning.tree ids).binary).sourceOrder = chain.sourceOrder := by
  obtain ⟨first, rest⟩ := chain
  unfold Chain.fold Chain.sourceOrder
  induction rest generalizing first with
  | nil => exact (List.append_nil _).symm
  | cons step rest ih =>
    obtain ⟨op, index, operand⟩ := step
    rw [List.foldl_cons, ih, List.flatMap_cons]
    simp [Meaning.tree]

/-- The nodes of all trees in what a part means. -/
def Part.sourceOrder : (part : Part) → part.Value (Expr φ) → List (Label φ × Option Nat)
  | .level _, chain => Chain.sourceOrder chain
  | .arguments, trees | .argumentList, trees => trees.flatMap Expr.sourceOrder

/-- How many arguments a part means. -/
def Part.argCount {τ : Type} : (part : Part) → part.Value τ → Nat
  | .level _, _ => 0
  | .arguments, values | .argumentList, values => values.length

namespace Derivation

variable [Callable φ] {library : Library φ} {part : Part} {sign : Bool}

/-- How many arguments are derived. -/
def argCount {part : Part} {sign : Bool} : Derivation library part sign → Nat
  | someArguments list => list.argCount
  | one _ => 1
  | more _ rest => rest.argCount + 1
  | last _ | join _ _ _ _ | numeral _ _ | var _ _ _ | zero | group _ | call _ _ _ _ _
  | noArguments => 0

theorem argCount_interpret {τ : Type} (m : Meaning φ τ) (d : Derivation library part sign)
    (i : Nat) : part.argCount (d.interpret m i) = d.argCount := by
  induction d generalizing i with
  | last | join | numeral | var | zero | group | call | noArguments | one => rfl
  | someArguments list ih => exact ih i
  | more argument rest iha ihr => exact congrArg (· + 1) (ihr _)

/-- The nodes that are derived, if the first token has this index. -/
def nodes (ids : String → Nat) {part : Part} {sign : Bool} :
    Derivation library part sign → Nat → List (Label φ × Option Nat)
  | last operand, i => operand.nodes ids i
  | join operand op _ rest, i =>
    let j := i + operand.tokens.length
    operand.nodes ids i ++ (.binary op.symbol, some j) :: rest.nodes ids (j + 1)
  | numeral text _, i => [(.number (numeralValue text), some i)]
  | var text _ _, i => [(.var (ids text), some i)]
  | zero, _ => [(.number 0, none)]
  | group inner, i => inner.nodes ids (i + 1)
  | call _ f _ _ args, i => (.call f args.argCount, some i) :: args.nodes ids (i + 2)
  | noArguments, _ => []
  | someArguments list, i => list.nodes ids i
  | one argument, i => argument.nodes ids i
  | more argument rest, i =>
    argument.nodes ids i ++ rest.nodes ids (i + argument.tokens.length + 1)

/-- What a level means as a whole has the nodes of its chain. -/
theorem sourceOrder_tree_of_interpret {level : Level} {ids : String → Nat}
    {d : Derivation library (.level level) sign} {i : Nat}
    (h : Chain.sourceOrder (d.interpret (.tree ids) i) = d.nodes ids i) :
    (d.tree ids i).sourceOrder = d.nodes ids i :=
  (Chain.sourceOrder_fold ids _).trans h

theorem sourceOrder_interpret (ids : String → Nat) (d : Derivation library part sign) (i : Nat) :
    part.sourceOrder (d.interpret (.tree ids) i) = d.nodes ids i := by
  induction d generalizing i with
  | last operand ih =>
    exact (Chain.sourceOrder_single _).trans (sourceOrder_tree_of_interpret (ih i))
  | join operand op isOfTier rest iho ihr =>
    have hoperand := sourceOrder_tree_of_interpret (iho i)
    have hrest := ihr (i + operand.tokens.length + 1)
    rw [nodes, ← hoperand, ← hrest]
    rfl
  | numeral text isNumeral =>
    exact (Chain.sourceOrder_single _).trans (Expr.sourceOrder_number _ _)
  | var text isName isFree =>
    exact (Chain.sourceOrder_single _).trans (Expr.sourceOrder_var _ _)
  | zero => exact (Chain.sourceOrder_single _).trans (Expr.sourceOrder_number _ _)
  | group inner ih =>
    exact (Chain.sourceOrder_single _).trans (sourceOrder_tree_of_interpret (ih (i + 1)))
  | call text f isName isRegistered args ih =>
    have hargs := ih (i + 2)
    have hcount := args.argCount_interpret (.tree ids) (i + 2)
    rw [nodes, ← hargs, ← hcount]
    exact (Chain.sourceOrder_single _).trans (Expr.sourceOrder_call _ _ _)
  | noArguments => rfl
  | someArguments list ih => exact ih i
  | one argument ih => exact (List.append_nil _).trans (sourceOrder_tree_of_interpret (ih i))
  | more argument rest iha ihr =>
    have hargument := sourceOrder_tree_of_interpret (iha i)
    have hrest := ihr (i + argument.tokens.length + 1)
    rw [nodes, ← hargument, ← hrest]
    rfl

/-- The nodes of the tree of a derivation are those that are derived. -/
theorem sourceOrder_tree {level : Level} (ids : String → Nat)
    (d : Derivation library (.level level) sign) (i : Nat) :
    (d.tree ids i).sourceOrder = d.nodes ids i :=
  sourceOrder_tree_of_interpret (d.sourceOrder_interpret ids i)

end Derivation

namespace Token

/-- Whether a token is read as a node. Parentheses and commas only hold nodes together. -/
def isNode (text : String) : Bool :=
  match kind text with
  | .opening | .closing | .comma => false
  | .operator _ | .numeral | .name => true

/-- The tokens that are read as nodes, each with its index, if the first token has this one. -/
def nodesFrom (i : Nat) (tokens : List String) : List (String × Nat) :=
  (tokens.zipIdx i).filter fun token => isNode token.1

theorem nodesFrom_append (i : Nat) (xs ys : List String) :
    nodesFrom i (xs ++ ys) = nodesFrom i xs ++ nodesFrom (i + xs.length) ys := by
  rw [nodesFrom, List.zipIdx_append, List.filter_append]
  rfl

theorem nodesFrom_node {text : String} (h : isNode text = true) (i : Nat) (rest : List String) :
    nodesFrom i (text :: rest) = (text, i) :: nodesFrom (i + 1) rest := by
  simp [nodesFrom, List.zipIdx_cons, h]

theorem nodesFrom_other {text : String} (h : isNode text = false) (i : Nat) (rest : List String) :
    nodesFrom i (text :: rest) = nodesFrom (i + 1) rest := by
  simp [nodesFrom, List.zipIdx_cons, h]

/-- The nodes that a token by itself can be read as. How many arguments a call has is not
seen from its name. -/
inductive ReadAs [Callable φ] (library : Library φ) (ids : String → Nat) (text : String) :
    Label φ → Prop where
  | numeral (isNumeral : kind text = .numeral) :
    ReadAs library ids text (.number (numeralValue text))
  | var (isName : kind text = .name) (isFree : library.get? text = none) :
    ReadAs library ids text (.var (ids text))
  | operator (op : Operator) (isOperator : text = op.token) :
    ReadAs library ids text (.binary op.symbol)
  | call (f : φ) (argCount : Nat) (isName : kind text = .name)
    (isRegistered : library.get? text = some f) : ReadAs library ids text (.call f argCount)

/-- A node is an unwritten zero, or it is told by a token. -/
def ToldBy [Callable φ] (library : Library φ) (ids : String → Nat) (tokens : List (String × Nat))
    (node : Label φ × Option Nat) : Prop :=
  node = (.number 0, none) ∨
    ∃ text j, (text, j) ∈ tokens ∧ ReadAs library ids text node.1 ∧ node.2 = some j

section ToldBy

variable [Callable φ] {library : Library φ} {ids : String → Nat} {node : Label φ × Option Nat}

theorem toldBy_cons {text : String} {label : Label φ} (h : ReadAs library ids text label) (i : Nat)
    (rest : List String) : ToldBy library ids ((text :: rest).zipIdx i) (label, some i) :=
  .inr ⟨text, i, List.mem_cons_self .., h, rfl⟩

/-- More tokens before and behind tell no less. -/
theorem ToldBy.within {tokens all : List String} {i j : Nat}
    (h : ToldBy library ids (tokens.zipIdx j) node) (before after : List String)
    (hall : all = before ++ (tokens ++ after))
    (hj : i + before.length = j) : ToldBy library ids (all.zipIdx i) node := by
  obtain hzero | ⟨text, k, htext, hread⟩ := h
  · exact .inl hzero
  · refine .inr ⟨text, k, ?_, hread⟩
    subst hall hj
    rw [List.zipIdx_append, List.zipIdx_append]
    exact List.mem_append_right _ (List.mem_append_left _ htext)

end ToldBy

end Token

namespace Derivation

variable [Callable φ] {library : Library φ} {part : Part} {sign : Bool}

/-- The nodes with positions stand at the tokens that are read as nodes, in their order. -/
theorem positions_nodes (ids : String → Nat) (d : Derivation library part sign) (i : Nat) :
    (d.nodes ids i).filterMap (·.2) = (nodesFrom i d.tokens).map (·.2) := by
  have hopening : isNode "(" = false := by simp [isNode]
  have hclosing : isNode ")" = false := by simp [isNode]
  induction d generalizing i with
  | last operand ih => exact ih i
  | join operand op isOfTier rest iho ihr =>
    rw [nodes, tokens, nodesFrom_append, nodesFrom_node (by simp [isNode])]
    simp [iho, ihr]
  | numeral text isNumeral =>
    rw [nodes, tokens, nodesFrom_node (by simp [isNode, isNumeral])]
    rfl
  | var text isName isFree =>
    rw [nodes, tokens, nodesFrom_node (by simp [isNode, isName])]
    rfl
  | zero => rfl
  | group inner ih =>
    rw [nodes, tokens, nodesFrom_other hopening, nodesFrom_append, nodesFrom_other hclosing]
    simp [ih, nodesFrom]
  | call text f isName isRegistered args ih =>
    rw [nodes, tokens, nodesFrom_node (by simp [isNode, isName]), nodesFrom_other hopening,
      nodesFrom_append, nodesFrom_other hclosing]
    simp [ih, nodesFrom]
  | noArguments => rfl
  | someArguments list ih => exact ih i
  | one argument ih => exact ih i
  | more argument rest iha ihr =>
    rw [nodes, tokens, nodesFrom_append, nodesFrom_other (by simp [isNode])]
    simp [iha, ihr]

theorem toldBy_of_mem_nodes {ids : String → Nat} {d : Derivation library part sign} {i : Nat}
    {node : Label φ × Option Nat} (h : node ∈ d.nodes ids i) :
    ToldBy library ids (d.tokens.zipIdx i) node := by
  induction d generalizing i with
  | last operand ih => exact ih h
  | join operand op isOfTier rest iho ihr =>
    obtain h | h := List.mem_append.mp h
    · exact (iho h).within [] (op.token :: rest.tokens) rfl rfl
    obtain rfl | h := List.mem_cons.mp h
    · exact (toldBy_cons (.operator op rfl) _ rest.tokens).within operand.tokens []
        (by simp [tokens]) rfl
    · exact (ihr h).within (operand.tokens ++ [op.token]) [] (by simp [tokens])
        (by simp [Nat.add_assoc])
  | numeral text isNumeral =>
    obtain rfl := List.mem_singleton.mp h
    exact toldBy_cons (.numeral isNumeral) i []
  | var text isName isFree =>
    obtain rfl := List.mem_singleton.mp h
    exact toldBy_cons (.var isName isFree) i []
  | zero => exact .inl (List.mem_singleton.mp h)
  | group inner ih => exact (ih h).within ["("] [")"] rfl rfl
  | call text f isName isRegistered args ih =>
    obtain rfl | h := List.mem_cons.mp h
    · exact toldBy_cons (.call f args.argCount isName isRegistered) i _
    · exact (ih h).within [text, "("] [")"] rfl rfl
  | noArguments => cases h
  | someArguments list ih => exact ih h
  | one argument ih => exact ih h
  | more argument rest iha ihr =>
    obtain h | h := List.mem_append.mp h
    · exact (iha h).within [] ("," :: rest.tokens) rfl rfl
    · exact (ihr h).within (argument.tokens ++ [","]) [] (by simp [tokens])
        (by simp [Nat.add_assoc])

/-- From node to node the positions increase. -/
theorem pairwise_sourceOrder {level : Level} (ids : String → Nat)
    (d : Derivation library (.level level) sign) (i : Nat) :
    (d.tree ids i).sourceOrder.Pairwise
      fun a b => ∀ j, a.2 = some j → ∀ k, b.2 = some k → j < k := by
  have hsub : ((nodesFrom i d.tokens).map (·.2)).Sublist (List.range' i d.tokens.length) := by
    rw [← List.zipIdx_map_snd i]
    exact List.filter_sublist.map _
  rw [sourceOrder_tree, ← List.pairwise_filterMap, positions_nodes]
  exact List.Pairwise.sublist hsub List.pairwise_lt_range'

end Derivation

end FormulaEngine
