import FormulaEngine.Proofs.Expr.Traversal

/-! The shape of a tree, which is what is left of it without the data of its nodes. The depths
of the nodes in their order determine it: below a node stand the nodes that follow it at larger
depths, up to the first one that is not deeper. -/

namespace FormulaEngine

/-- A tree without data. -/
inductive Shape where
  | node (below : List Shape)

namespace Shape

mutual

/-- The depths of the nodes of a shape, each before those below it. -/
def depths (depth : Nat) : Shape → List Nat
  | node below => depth :: depthsOfAll (depth + 1) below

/-- The depths of the nodes of several shapes that stand side by side. -/
def depthsOfAll (depth : Nat) : List Shape → List Nat
  | [] => []
  | shape :: rest => depths depth shape ++ depthsOfAll depth rest

end

/-- Shapes that stand side by side are none, or those below the first one and the rest. -/
theorem induction_row {motive : List Shape → Prop} (nil : motive [])
    (cons : ∀ below rest, motive below → motive rest → motive (node below :: rest))
    (row : List Shape) : motive row :=
  match row with
  | [] => nil
  | node below :: rest =>
    cons below rest (induction_row nil cons below) (induction_row nil cons rest)

theorem depthsOfAll_cons (depth : Nat) (below rest : List Shape) :
    depthsOfAll depth (node below :: rest) =
      depth :: (depthsOfAll (depth + 1) below ++ depthsOfAll depth rest) := by
  rw [depthsOfAll, depths, List.cons_append]

theorem depthsOfAll_eq_flatMap (depth : Nat) (row : List Shape) :
    depthsOfAll depth row = row.flatMap (depths depth) := by
  induction row with
  | nil => rfl
  | cons shape rest ih => rw [depthsOfAll, ih, List.flatMap_cons]

/-- What may follow a row of shapes at a depth: nothing, or nodes the first of which is less
deep. -/
def Follows (depth : Nat) (xs : List Nat) : Prop := ∀ x ∈ xs.head?, x < depth

theorem Follows.row {depth : Nat} {xs : List Nat} (h : Follows depth xs) (row : List Shape) :
    Follows (depth + 1) (depthsOfAll depth row ++ xs) := by
  intro x hx
  cases row with
  | nil => exact Nat.lt_succ_of_lt (h x hx)
  | cons shape rest =>
    obtain ⟨below⟩ := shape
    rw [depthsOfAll_cons, List.cons_append, List.head?_cons, Option.mem_some_iff] at hx
    omega

theorem not_follows_cons (depth : Nat) (xs : List Nat) : ¬Follows depth (depth :: xs) :=
  fun h => Nat.lt_irrefl depth (h depth rfl)

/-- A row of shapes can be told from what follows it. -/
theorem eq_of_depthsOfAll_append_eq {row row' : List Shape} {depth : Nat} {xs ys : List Nat}
    (hxs : Follows depth xs) (hys : Follows depth ys)
    (h : depthsOfAll depth row ++ xs = depthsOfAll depth row' ++ ys) : row = row' ∧ xs = ys := by
  induction row using induction_row generalizing row' depth xs ys with
  | nil =>
    cases row' with
    | nil => exact ⟨rfl, h⟩
    | cons shape rest =>
      obtain ⟨below⟩ := shape
      rw [depthsOfAll_cons] at h
      change xs = _ at h
      rw [h] at hxs
      exact absurd hxs (not_follows_cons depth _)
  | cons below rest ihbelow ihrest =>
    cases row' with
    | nil =>
      rw [depthsOfAll_cons] at h
      change _ = ys at h
      rw [← h] at hys
      exact absurd hys (not_follows_cons depth _)
    | cons shape rest' =>
      obtain ⟨below'⟩ := shape
      rw [depthsOfAll_cons, depthsOfAll_cons, List.cons_append, List.cons_append, List.append_assoc,
        List.append_assoc] at h
      -- the shapes below the first one are followed by the rest of the row
      obtain ⟨rfl, hrest⟩ := ihbelow (hxs.row rest) (hys.row rest') (List.cons.inj h).2
      obtain ⟨rfl, rfl⟩ := ihrest hxs hys hrest
      exact ⟨rfl, rfl⟩

theorem depths_injective (depth : Nat) : Function.Injective (depths depth) := by
  intro shape shape' h
  have hrow : depthsOfAll depth [shape] ++ [] = depthsOfAll depth [shape'] ++ [] := by
    rw [depthsOfAll_eq_flatMap, depthsOfAll_eq_flatMap, List.flatMap_singleton,
      List.flatMap_singleton, h]
  have hnothing : Follows depth [] := by
    intro x hx
    cases hx
  exact (List.cons.inj (eq_of_depthsOfAll_append_eq hnothing hnothing hrow).1).1

end Shape

namespace Expr

variable {φ : Type}

def shape : Expr φ → Shape
  | number _ _ | var _ _ => .node []
  | binary _ _ left right => .node [shape left, shape right]
  | call _ _ args => .node (args.map shape)

theorem shape_eq (e : Expr φ) : e.shape = .node (e.children.map shape) := by
  cases e with
  | number | var | call => simp [shape, children]
  | binary => simp [shape, children]

/-- The depths in the listing of a tree are those of its shape. -/
theorem map_fst_nodes (depth : Nat) (e : Expr φ) :
    (e.nodes depth).map (·.1) = e.shape.depths depth := by
  have h (depth : Nat) (e : Expr φ) : e.shape.depths depth =
      depth :: e.children.flatMap fun child => child.shape.depths (depth + 1) := by
    rw [shape_eq, Shape.depths, Shape.depthsOfAll_eq_flatMap, List.flatMap_map]
  exact (eq_map_nodes h depth e).symm

/-- The shape of a tree can be read off the depths of its nodes. -/
theorem shape_eq_of_depths_eq {ψ : Type} {a : Expr φ} {b : Expr ψ}
    (h : (a.nodes 0).map (·.1) = (b.nodes 0).map (·.1)) : a.shape = b.shape := by
  rw [map_fst_nodes, map_fst_nodes] at h
  exact Shape.depths_injective 0 h

end Expr

end FormulaEngine
