import FormulaEngine.Proofs.Expr.PostOrder

/-! Walks over a tree with one stack. A tree is taken from the stack and visited, and its
children are pushed, the last child first. So everything below a tree is visited right after
it, before whatever else was on the stack. The nodes of a tree are visited as they are listed,
each before its children and these in source order, and that is what recursion does. This
holds whatever effects the visits have: one that fails ends the walk. -/

namespace FormulaEngine.Expr

variable {φ : Type} {m : Type → Type}

/-- A stack after pushing one thing after the other. -/
def pushAll {α : Type} (items stack : List α) : List α :=
  items.foldl (fun stack item => item :: stack) stack

theorem pushAll_eq {α : Type} (items stack : List α) :
    pushAll items stack = items.reverse ++ stack := by
  rw [pushAll, List.foldl_flip_cons_eq_append']

theorem reverse_pushed (e : Expr φ) : e.pushed.reverse = e.children := by
  cases e with
  | number | var | binary => rfl
  | call f p args => exact List.reverse_reverse args

theorem pushAll_pushed {α : Type} (g : Expr φ → α) (e : Expr φ) (stack : List α) :
    pushAll (e.pushed.map g) stack = e.children.map g ++ stack := by
  rw [pushAll_eq, ← List.map_reverse, reverse_pushed]

/-- The nodes of a tree with their depths, each before its children and these in source
order. -/
def nodes (depth : Nat) : Expr φ → List (Nat × Expr φ)
  | number value p => [(depth, number value p)]
  | var id p => [(depth, var id p)]
  | binary op p left right =>
    (depth, binary op p left right) :: (nodes (depth + 1) left ++ nodes (depth + 1) right)
  | call f p args => (depth, call f p args) :: args.flatMap (nodes (depth + 1))

theorem nodes_eq (depth : Nat) (e : Expr φ) :
    nodes depth e = (depth, e) :: e.children.flatMap (nodes (depth + 1)) := by
  cases e with
  | number | var | call => simp [nodes, children]
  | binary => simp [nodes, children]

theorem length_flatMap_nodes {es : List (Expr φ)} {depth : Nat}
    (h : ∀ e ∈ es, (nodes depth e).length = e.size) :
    (es.flatMap (nodes depth)).length = sizeOfAll es := by
  induction es with
  | nil => rfl
  | cons e rest ih =>
    obtain ⟨he, hrest⟩ := List.forall_mem_cons.mp h
    rw [List.flatMap_cons, List.length_append, he, ih hrest, sizeOfAll]

theorem length_nodes (depth : Nat) (e : Expr φ) : (e.nodes depth).length = e.size := by
  induction e using induction_children generalizing depth with
  | node e ih =>
    rw [nodes_eq, List.length_cons, length_flatMap_nodes fun child hc => ih child hc _,
      sizeOfAll_children]

/-- Whatever is listed of a node and then of its children is listed along the nodes. -/
theorem eq_map_nodes {α : Type} {listed : Nat → Expr φ → List α} {told : Nat → Expr φ → α}
    (h : ∀ depth e, listed depth e = told depth e :: e.children.flatMap (listed (depth + 1)))
    (depth : Nat) (e : Expr φ) :
    listed depth e = (nodes depth e).map fun node => told node.1 node.2 := by
  induction e using induction_children generalizing depth with
  | node e ih =>
    rw [h, nodes_eq, List.map_cons, List.map_flatMap,
      List.flatMap_congr fun child hc => ih child hc (depth + 1)]

/-- The listing says of every node what it is by itself. -/
theorem outline_eq_map_nodes (e : Expr φ) :
    e.outline = (nodes 0 e).map fun node => ⟨node.1, node.2.label, node.2.position⟩ := by
  rw [outline_eq_preorder]
  exact eq_map_nodes preorder_eq 0 e

theorem labels_eq_map_nodes (e : Expr φ) : e.labels = (nodes 0 e).map fun node => node.2.label := by
  rw [labels, outline_eq_map_nodes, List.map_map]
  rfl

section Walk

variable [Monad m] (visit : Nat × Expr φ → m Unit)

/-- Visits the trees on a stack, each with its depth, and everything below them. -/
def walkStack (stack : List (Nat × Expr φ)) : m Unit :=
  match stack with
  | [] => pure ()
  | (depth, e) :: stack => do
    visit (depth, e)
    walkStack (pushAll (e.pushed.map (depth + 1, ·)) stack)
termination_by sizeOfAll (stack.map (·.2))
decreasing_by
  have := sizeOfAll_children e
  rw [pushAll_pushed]
  simp only [List.map_append, List.map_map, Function.comp_def, List.map_id', List.map_cons,
    sizeOfAll, sizeOfAll_append]
  omega

/-- The walk visits the nodes of the trees on the stack, those of the top one first. -/
theorem walkStack_eq_forM (stack : List (Nat × Expr φ)) :
    walkStack visit stack = forM (stack.flatMap fun item => nodes item.1 item.2) visit := by
  induction stack using walkStack.induct with
  | case1 => simp [walkStack]
  | case2 depth e stack ih =>
    rw [walkStack, ih, pushAll_pushed, List.flatMap_cons, nodes_eq, List.cons_append,
      List.forM_cons, List.flatMap_append, List.flatMap_map]

mutual

/-- Visiting the nodes of a tree by recursion: a node, and then its children from left to
right. -/
def visitTree (depth : Nat) : Expr φ → m Unit
  | number value p => visit (depth, number value p)
  | var id p => visit (depth, var id p)
  | binary op p left right => do
    visit (depth, binary op p left right)
    visitTree (depth + 1) left
    visitTree (depth + 1) right
  | call f p args => do
    visit (depth, call f p args)
    visitTrees (depth + 1) args

/-- Visiting several trees in order. -/
def visitTrees (depth : Nat) : List (Expr φ) → m Unit
  | [] => pure ()
  | e :: rest => do
    visitTree depth e
    visitTrees depth rest

end

variable [LawfulMonad m]

theorem visitTrees_eq_forM {es : List (Expr φ)} (depth : Nat)
    (h : ∀ e ∈ es, visitTree visit depth e = forM (nodes depth e) visit) :
    visitTrees visit depth es = forM (es.flatMap (nodes depth)) visit := by
  induction es with
  | nil => simp [visitTrees]
  | cons e rest ih =>
    obtain ⟨he, hrest⟩ := List.forall_mem_cons.mp h
    rw [visitTrees, he, ih hrest, List.flatMap_cons, List.forM_append]

theorem visitTree_eq_forM (depth : Nat) (e : Expr φ) :
    visitTree visit depth e = forM (nodes depth e) visit := by
  induction e generalizing depth with
  | number value p => simp [visitTree, nodes]
  | var id p => simp [visitTree, nodes]
  | binary op p left right ihl ihr =>
    rw [visitTree, nodes, List.forM_cons, List.forM_append, ihl, ihr]
  | call f p args ih =>
    rw [visitTree, nodes, List.forM_cons, visitTrees_eq_forM visit _ fun e he => ih e he _]

/-- The walk over a tree is the recursion. -/
theorem walkStack_eq_visitTree (e : Expr φ) :
    walkStack visit [(0, e)] = visitTree visit 0 e := by
  rw [walkStack_eq_forM, visitTree_eq_forM, List.flatMap_singleton]

end Walk

end FormulaEngine.Expr
