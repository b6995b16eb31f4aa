import FormulaEngine.Expr.Check
import FormulaEngine.Proofs.Expr.Fold
import Mathlib.Data.List.Basic

/-! The listing of a tree is the root and then the listings of its children. All that
is said by way of the listing, whether two trees are equal and whether a tree is
valid, can so be said of a node and its children. Positions have no part in it but
to tell where a fault is. -/

namespace FormulaEngine.Expr

variable {φ : Type}

/-- The entries of a tree whose root has a depth, by recursion. -/
def preorder (depth : Nat) : Expr φ → List (Entry φ)
  | number value p => [⟨depth, .number value, p⟩]
  | var id p => [⟨depth, .var id, p⟩]
  | binary op p left right =>
    ⟨depth, .binary op, p⟩ :: (preorder (depth + 1) left ++ preorder (depth + 1) right)
  | call f p args => ⟨depth, .call f args.length, p⟩ :: args.flatMap (preorder (depth + 1))

theorem preorder_eq (depth : Nat) (e : Expr φ) :
    preorder depth e =
      ⟨depth, e.label, e.position⟩ :: e.children.flatMap (preorder (depth + 1)) := by
  cases e with
  | number | var | call => simp [preorder, label, position, children]
  | binary => simp [preorder, label, position, children]

/-- Pending trees are listed one after the other. -/
theorem listing_toList (pending : List (Nat × Expr φ)) (entries : Array (Entry φ)) :
    (listing pending entries).toList =
      entries.toList ++ pending.flatMap fun (depth, e) => preorder depth e := by
  induction pending, entries using listing.induct with
  | case1 entries => simp [listing]
  | case2 entries depth e rest ih =>
    rw [listing, ih]
    simp [preorder_eq depth e, List.flatMap_map]

theorem outline_eq_preorder (e : Expr φ) : e.outline = preorder 0 e := by
  rw [outline, listing_toList]
  simp

/-- The labels of all nodes. -/
def labels (e : Expr φ) : List (Label φ) := e.outline.map (·.label)

/-- Wherever a tree stands, its nodes are listed in the same way. -/
theorem map_preorder_depth {α : Type} (f : Label φ → Option Nat → α) (depth depth' : Nat)
    (e : Expr φ) : (preorder depth e).map (fun entry => f entry.label entry.position) =
      (preorder depth' e).map fun entry => f entry.label entry.position := by
  induction e using induction_children generalizing depth depth' with
  | node e ih =>
    rw [preorder_eq, preorder_eq, List.map_cons, List.map_cons, List.map_flatMap,
      List.map_flatMap, List.flatMap_congr fun child hc => ih child hc (depth + 1) (depth' + 1)]

theorem map_label_preorder (depth : Nat) (e : Expr φ) :
    (preorder depth e).map (·.label) = e.labels := by
  rw [labels, outline_eq_preorder]
  exact map_preorder_depth (fun label _ => label) depth 0 e

/-- The labels of a tree are that of the root and those of the children. -/
theorem labels_eq (e : Expr φ) : e.labels = e.label :: e.children.flatMap labels := by
  rw [← map_label_preorder 0, preorder_eq]
  simp only [List.map_cons, List.map_flatMap, map_label_preorder]

theorem mem_labels_iff {l : Label φ} {e : Expr φ} :
    l ∈ e.labels ↔ l = e.label ∨ ∃ child ∈ e.children, l ∈ child.labels := by
  rw [labels_eq, List.mem_cons, List.mem_flatMap]

section Relocate

variable (g : Option Nat → Option Nat)

@[simp] theorem label_relocate (e : Expr φ) : (e.relocate g).label = e.label := by
  cases e <;> simp [label]

@[simp] theorem children_relocate (e : Expr φ) :
    (e.relocate g).children = e.children.map (relocate g) := by
  cases e <;> simp [children]

/-- Relocating changes no label. -/
theorem labels_relocate (e : Expr φ) : (e.relocate g).labels = e.labels := by
  induction e using induction_children with
  | node e ih =>
    rw [labels_eq, labels_eq e, label_relocate, children_relocate, List.flatMap_map,
      List.flatMap_congr ih]

end Relocate

/-- Trees that differ in positions only are equal. -/
theorem beq_of_relocate_eq [DecidableEq φ] {a b : Expr φ} {g : Option Nat → Option Nat}
    (h : a.relocate g = b.relocate g) : (a == b) = true := by
  have hlabels : a.labels = b.labels := by
    rw [← labels_relocate g a, h, labels_relocate]
  exact (beq_iff_eq (a := a.labels)).mpr hlabels

/-- Relocating by the identity rebuilds the tree as it was. -/
theorem relocate_id (e : Expr φ) : e.relocate id = e := by
  induction e with
  | number value p => rw [relocate_number, id]
  | var i p => rw [relocate_var, id]
  | binary op p left right ihl ihr => rw [relocate_binary, ihl, ihr, id]
  | call f p args ih => rw [relocate_call, List.map_congr_left ih, List.map_id', id]

section Check

variable [Callable φ] {table : Bindings}

/-- A tree is valid exactly if every node is by itself. -/
theorem firstFault?_eq_none_iff {e : Expr φ} :
    e.firstFault? table = none ↔ ∀ l ∈ e.labels, l.fault? table = none := by
  rw [firstFault?, List.findSome?_eq_none_iff, labels, List.forall_mem_map]
  simp only [Option.map_eq_none_iff]

theorem check_eq_ok_iff {e : Expr φ} {tokens : List String} :
    e.check table tokens = .ok () ↔ ∀ l ∈ e.labels, l.fault? table = none := by
  rw [← firstFault?_eq_none_iff, check]
  cases e.firstFault? table with
  | none => simp
  | some fault => simp

end Check

end FormulaEngine.Expr
