import FormulaEngine.Expr.Listing
import FormulaEngine.Library.Standard
import FormulaEngine.Proofs.Expr.Shape
import FormulaEngine.Proofs.Expr.Validity
import Mathlib.Data.List.Forall2

/-! Equality of trees. Two trees are equal if they have the same shape and their nodes agree one
by one, whatever their positions. The comparison keeps pairs of nodes on a stack. When the nodes
of a pair agree they have equally many children, so pairing the children loses none of them.
Since a label says how many children its node has, no listing of labels is the beginning of
another one, and equal listings come from trees that differ in their positions only. Nothing
that is asked of a tree depends on positions but the place where a fault is told. -/

namespace FormulaEngine

/-- What is wrong, without where it is. -/
def Failure.cause? : Failure → Option Cause
  | .located cause _ => some cause
  | _ => none

/-- How many children a node has by its label. -/
def Label.childCount {φ : Type} : Label φ → Nat
  | .number _ | .var _ => 0
  | .binary _ => 2
  | .call _ argCount => argCount

namespace Expr

variable {φ : Type}

theorem length_children (e : Expr φ) : e.children.length = e.label.childCount := by
  cases e <;> rfl

theorem length_children_eq {a b : Expr φ} (h : a.label = b.label) :
    a.children.length = b.children.length := by
  rw [length_children, length_children, h]

/-- Trees that differ in positions only: their nodes are of one kind and have the same data. -/
inductive Same : Expr φ → Expr φ → Prop
  | number {v w : Constant} {p q : Option Nat} (hbits : v.bits = w.bits) :
    Same (.number v p) (.number w q)
  | var {id : Nat} {p q : Option Nat} : Same (.var id p) (.var id q)
  | binary {op : Char} {p q : Option Nat} {left left' right right' : Expr φ}
    (hleft : Same left left') (hright : Same right right') :
    Same (.binary op p left right) (.binary op q left' right')
  | call {f : φ} {p q : Option Nat} {args args' : List (Expr φ)}
    (hargs : List.Forall₂ Same args args') : Same (.call f p args) (.call f q args')

theorem same_iff {a b : Expr φ} :
    a.Same b ↔ a.label = b.label ∧ List.Forall₂ Same a.children b.children := by
  constructor
  · intro h
    cases h with
    | number hbits => exact ⟨congrArg Label.number (Constant.ext hbits), .nil⟩
    | var => exact ⟨rfl, .nil⟩
    | binary hleft hright => exact ⟨rfl, .cons hleft (.cons hright .nil)⟩
    | call hargs => exact ⟨congrArg (Label.call _) hargs.length_eq, hargs⟩
  · rintro ⟨hlabel, hchildren⟩
    cases a with
    | number v p =>
      cases b <;> cases hlabel
      exact .number rfl
    | var id p =>
      cases b <;> cases hlabel
      exact .var
    | binary op p left right =>
      cases b <;> cases hlabel
      obtain ⟨hleft, hright⟩ := List.forall₂_cons.mp hchildren
      exact .binary hleft (List.forall₂_cons.mp hright).1
    | call f p args =>
      cases b with
      | number | var | binary => cases hlabel
      | call g q args' =>
        obtain ⟨rfl, -⟩ := Label.call.inj hlabel
        exact .call hchildren

/-- A tree is its label, its position and its children. -/
theorem eq_of_label_eq {a b : Expr φ} (hlabel : a.label = b.label)
    (hposition : a.position = b.position) (hchildren : a.children = b.children) : a = b := by
  cases a with
  | number v p =>
    cases b <;> cases hlabel
    cases hposition
    rfl
  | var id p =>
    cases b <;> cases hlabel
    cases hposition
    rfl
  | binary op p left right =>
    cases b <;> cases hlabel
    cases hposition
    cases hchildren
    rfl
  | call f p args =>
    cases b with
    | number | var | binary => cases hlabel
    | call g q args' =>
      obtain ⟨rfl, -⟩ := Label.call.inj hlabel
      cases hposition
      cases hchildren
      rfl

section Relocate

variable (g : Option Nat → Option Nat)

theorem position_relocate (e : Expr φ) : (e.relocate g).position = g e.position := by
  cases e <;> simp [position]

/-- The same nodes are listed. -/
theorem nodes_relocate (depth : Nat) (e : Expr φ) : (e.relocate g).nodes depth =
    (e.nodes depth).map fun node => (node.1, node.2.relocate g) := by
  have h (depth : Nat) (e : Expr φ) : (e.relocate g).nodes depth = (depth, e.relocate g) ::
      e.children.flatMap fun child => (child.relocate g).nodes (depth + 1) := by
    rw [nodes_eq, children_relocate, List.flatMap_map]
  exact eq_map_nodes h depth e

theorem outline_relocate (e : Expr φ) : (e.relocate g).outline =
    e.outline.map fun entry => { entry with position := g entry.position } := by
  rw [outline_eq_map_nodes, outline_eq_map_nodes, nodes_relocate, List.map_map, List.map_map]
  simp only [Function.comp_def, label_relocate, position_relocate]

theorem shape_relocate (e : Expr φ) : (e.relocate g).shape = e.shape := by
  apply shape_eq_of_depths_eq
  rw [nodes_relocate, List.map_map]
  rfl

variable [Callable φ] (table : Bindings)

theorem evaluate_relocate (e : Expr φ) : (e.relocate g).evaluate table = e.evaluate table := by
  induction e with
  | number v p => rw [relocate_number, evaluate_number, evaluate_number]
  | var id p => rw [relocate_var, evaluate_var, evaluate_var]
  | binary op p left right ihl ihr =>
    rw [relocate_binary, evaluate_binary, ihl, ihr, evaluate_binary]
  | call f p args ih =>
    have hargs : (args.map (relocate g)).map (evaluate table) = args.map (evaluate table) := by
      rw [List.map_map]
      exact List.map_congr_left ih
    rw [relocate_call, evaluate_call, hargs, evaluate_call]

theorem listingText_relocate (e : Expr φ) :
    (e.relocate g).listingText table = e.listingText table := by
  rw [listingText, outline_relocate, List.map_map]
  rfl

theorem firstFault?_relocate (e : Expr φ) : (e.relocate g).firstFault? table =
    (e.firstFault? table).map fun fault => (fault.1, g fault.2) := by
  rw [firstFault?, outline_relocate, List.findSome?_map, firstFault?, List.map_findSome?]
  congr 1
  funext entry
  simp only [Function.comp_apply, Option.map_map]
  rfl

end Relocate

section Same

/-- The same tree without positions. -/
def unplaced (e : Expr φ) : Expr φ := e.relocate fun _ => none

theorem Same.unplaced_eq {a b : Expr φ} (h : a.Same b) : a.unplaced = b.unplaced := by
  induction a using induction_children generalizing b with
  | node a ih =>
    obtain ⟨hlabel, hchildren⟩ := same_iff.mp h
    have hmap : a.children.map unplaced = b.children.map unplaced := by
      rw [← List.forall₂_eq_eq_eq, List.forall₂_map_left_iff, List.forall₂_map_right_iff]
      have hmem := (List.forall₂_and_left _ _).mpr ⟨ih, hchildren⟩
      exact hmem.imp fun child child' h => h.1 h.2
    apply eq_of_label_eq
    · rw [unplaced, unplaced, label_relocate, label_relocate, hlabel]
    · rw [unplaced, unplaced, position_relocate, position_relocate]
    · rw [unplaced, unplaced, children_relocate, children_relocate]
      exact hmap

/-- Labels in front of a list can be told from what follows them. -/
theorem same_of_flatMap_labels_eq {as bs : List (Expr φ)}
    (ih : ∀ a ∈ as, ∀ (b : Expr φ) (xs ys : List (Label φ)),
      a.labels ++ xs = b.labels ++ ys → a.Same b ∧ xs = ys)
    (hlength : as.length = bs.length) {xs ys : List (Label φ)}
    (h : as.flatMap labels ++ xs = bs.flatMap labels ++ ys) :
    List.Forall₂ Same as bs ∧ xs = ys := by
  induction as generalizing bs with
  | nil =>
    obtain rfl := List.eq_nil_of_length_eq_zero hlength.symm
    exact ⟨.nil, h⟩
  | cons a as ihas =>
    cases bs with
    | nil => cases hlength
    | cons b bs =>
      obtain ⟨iha, ihrest⟩ := List.forall_mem_cons.mp ih
      rw [List.flatMap_cons, List.flatMap_cons, List.append_assoc, List.append_assoc] at h
      obtain ⟨hsame, hrest⟩ := iha b _ _ h
      obtain ⟨hsames, rfl⟩ := ihas ihrest (Nat.succ.inj hlength) hrest
      exact ⟨.cons hsame hsames, rfl⟩

theorem same_of_labels_append_eq {a b : Expr φ} {xs ys : List (Label φ)}
    (h : a.labels ++ xs = b.labels ++ ys) : a.Same b ∧ xs = ys := by
  induction a using induction_children generalizing b xs ys with
  | node a ih =>
    rw [labels_eq, labels_eq b, List.cons_append, List.cons_append] at h
    obtain ⟨hlabel, hrest⟩ := List.cons.inj h
    obtain ⟨hchildren, hrest⟩ :=
      same_of_flatMap_labels_eq (fun a ha b xs ys => ih a ha) (length_children_eq hlabel) hrest
    exact ⟨same_iff.mpr ⟨hlabel, hchildren⟩, hrest⟩

theorem labels_unplaced (e : Expr φ) : e.unplaced.labels = e.labels := labels_relocate _ e

theorem same_iff_labels_eq {a b : Expr φ} : a.Same b ↔ a.labels = b.labels := by
  constructor
  · intro h
    rw [← labels_unplaced a, h.unplaced_eq, labels_unplaced]
  · intro h
    exact (same_of_labels_append_eq (congrArg (· ++ []) h)).1

end Same

section Compare

variable [DecidableEq φ]

/-- Whether two nodes are of one kind and have the same data. -/
def agrees : Expr φ → Expr φ → Bool
  | number v _, number w _ => v.bits == w.bits
  | var id _, var id' _ => id == id'
  | binary op _ _ _, binary op' _ _ _ => op == op'
  | call f _ args, call f' _ args' => f == f' && args.length == args'.length
  | _, _ => false

theorem agrees_iff {a b : Expr φ} : a.agrees b = true ↔ a.label = b.label := by
  cases a <;> cases b <;> simp [agrees, label, Constant.ext_iff]

/-- Nodes that agree have equally many children, so each child has its partner. -/
theorem pushAll_zip_pushed {a b : Expr φ} (h : a.agrees b = true)
    (pairs : List (Expr φ × Expr φ)) :
    pushAll (a.pushed.zip b.pushed) pairs = a.children.zip b.children ++ pairs := by
  have hlength : a.pushed.length = b.pushed.length := by
    rw [← List.length_reverse, reverse_pushed, length_children_eq (agrees_iff.mp h),
      ← reverse_pushed, List.length_reverse]
  have hreverse : (a.pushed.zip b.pushed).reverse = a.children.zip b.children := by
    rw [← reverse_pushed, ← reverse_pushed]
    exact List.reverse_zipWith hlength
  rw [pushAll_eq, hreverse]

/-- Compares the pairs of trees on a stack. The first pair of nodes that do not agree ends the
comparison. -/
def compareStack (pairs : List (Expr φ × Expr φ)) : Bool :=
  match pairs with
  | [] => true
  | (a, b) :: pairs =>
    if a.agrees b then compareStack (pushAll (a.pushed.zip b.pushed) pairs) else false
termination_by sizeOfAll (pairs.map (·.1))
decreasing_by
  have hagrees : a.agrees b = true := by assumption
  have hlength := length_children_eq (agrees_iff.mp hagrees)
  have := sizeOfAll_children a
  rw [pushAll_zip_pushed hagrees, List.map_append, List.map_fst_zip (Nat.le_of_eq hlength)]
  simp only [sizeOfAll_append, List.map_cons, sizeOfAll]
  omega

/-- The comparison succeeds exactly if the trees of every pair are the same. -/
theorem compareStack_eq_true_iff {pairs : List (Expr φ × Expr φ)} :
    compareStack pairs = true ↔ ∀ pair ∈ pairs, pair.1.Same pair.2 := by
  induction pairs using compareStack.induct with
  | case1 => simp [compareStack]
  | case2 a b pairs hagrees ih =>
    have hlabel := agrees_iff.mp hagrees
    have hlength := length_children_eq hlabel
    have hsame : a.Same b ↔ ∀ pair ∈ a.children.zip b.children, pair.1.Same pair.2 := by
      rw [same_iff, List.forall₂_iff_zip]
      simp only [hlabel, hlength, true_and, Prod.forall]
    rw [compareStack, if_pos hagrees, ih, pushAll_zip_pushed hagrees, List.forall_mem_append,
      List.forall_mem_cons, hsame]
  | case3 a b pairs hdiffer =>
    rw [compareStack, if_neg hdiffer, List.forall_mem_cons]
    refine iff_of_false Bool.false_ne_true fun h => hdiffer ?_
    exact agrees_iff.mpr (same_iff.mp h.1).1

theorem beq_iff_same {a b : Expr φ} : (a == b) = true ↔ a.Same b :=
  (beq_iff_eq (a := a.labels)).trans same_iff_labels_eq.symm

theorem compareStack_eq_beq (a b : Expr φ) : compareStack [(a, b)] = (a == b) := by
  rw [Bool.eq_iff_iff, compareStack_eq_true_iff, List.forall_mem_singleton, beq_iff_same]

/-- Equality is agreement node by node in the order of the listing. -/
theorem beq_iff_forall₂_agrees {a b : Expr φ} :
    (a == b) = true ↔ List.Forall₂ (fun x y => x.2.agrees y.2 = true) (a.nodes 0) (b.nodes 0) := by
  rw [beq_iff_same, same_iff_labels_eq, labels_eq_map_nodes, labels_eq_map_nodes,
    ← List.forall₂_eq_eq_eq, List.forall₂_map_left_iff, List.forall₂_map_right_iff]
  simp only [agrees_iff]

theorem beq_iff_unplaced_eq {a b : Expr φ} : (a == b) = true ↔ a.unplaced = b.unplaced := by
  rw [beq_iff_same]
  constructor
  · intro h
    exact h.unplaced_eq
  · intro h
    rw [same_iff_labels_eq, ← labels_unplaced, h, labels_unplaced]

instance : EquivBEq (Expr φ) where
  rfl := beq_iff_unplaced_eq.mpr rfl
  symm h := beq_iff_unplaced_eq.mpr (beq_iff_unplaced_eq.mp h).symm
  trans h h' :=
    beq_iff_unplaced_eq.mpr ((beq_iff_unplaced_eq.mp h).trans (beq_iff_unplaced_eq.mp h'))

end Compare

variable [Callable φ]

theorem cause_check (e : Expr φ) (table : Bindings) (tokens : List String) :
    (e.check table tokens).mapError Failure.cause? =
      ((e.firstFault? table).map (·.1)).elim (.ok ()) (fun cause => .error (some cause)) := by
  rw [check_eq_outcome]
  cases e.firstFault? table with
  | none => rfl
  | some fault => rfl

/-- Nothing that is asked of the two trees tells them apart, but the place where a fault is. -/
structure Indiscernible (a b : Expr φ) : Prop where
  value : ∀ table, a.evaluate table = b.evaluate table
  listing : ∀ table, a.listingText table = b.listingText table
  fault : ∀ table tokens tokens', (a.check table tokens).mapError Failure.cause? =
    (b.check table tokens').mapError Failure.cause?

theorem indiscernible_of_unplaced_eq {a b : Expr φ} (h : a.unplaced = b.unplaced) :
    Indiscernible a b := by
  constructor
  · intro table
    rw [← evaluate_relocate (fun _ => none), ← evaluate_relocate (fun _ => none) table b]
    exact congrArg (evaluate table) h
  · intro table
    rw [← listingText_relocate (fun _ => none), ← listingText_relocate (fun _ => none) table b]
    exact congrArg (listingText table) h
  · intro table tokens tokens'
    have hcause (e : Expr φ) :
        (e.unplaced.firstFault? table).map (·.1) = (e.firstFault? table).map (·.1) := by
      rw [unplaced, firstFault?_relocate, Option.map_map]
      rfl
    rw [cause_check, cause_check, ← hcause a, h, hcause]

/-- Trees are equal exactly if they have the same shape and their nodes agree one by one, that is
if they are the same tree up to positions. So equality is an equivalence, also where there are
NaNs, and equal trees have the same value, the same listing and the same fault. -/
theorem beq_congruence [DecidableEq φ] (a b : Expr φ) :
    compareStack [(a, b)] = (a == b) ∧
    ((a == b) = true ↔ a.Same b) ∧
    ((a == b) = true ↔ a.shape = b.shape ∧
      List.Forall₂ (fun x y => x.2.agrees y.2 = true) (a.nodes 0) (b.nodes 0)) ∧
    ((a == b) = true ↔ a.unplaced = b.unplaced) ∧
    (a == a) = true ∧ (b == a) = (a == b) ∧
    (∀ c, (a == b) = true → (b == c) = true → (a == c) = true) ∧
    ((a == b) = true → Indiscernible a b) := by
  refine ⟨compareStack_eq_beq a b, beq_iff_same, ?_, beq_iff_unplaced_eq, BEq.rfl, BEq.comm,
    fun c => BEq.trans, fun h => indiscernible_of_unplaced_eq (beq_iff_unplaced_eq.mp h)⟩
  rw [← beq_iff_forall₂_agrees]
  refine ⟨fun h => ⟨?_, h⟩, And.right⟩
  rw [← shape_relocate (fun _ => none) a, ← shape_relocate (fun _ => none) b]
  exact congrArg shape (beq_iff_unplaced_eq.mp h)

/-- A tree in which every node is wrong, all of them read from the same token. The number has
these bits. -/
def wrong (bits : UInt64) (p : Option Nat) : Expr ElementaryFunction :=
  .binary '^' p (.number ⟨bits⟩ p) (.call .max p [.var 3 p])

/-- The same NaN at another token makes an equal tree, another NaN does not. -/
theorem beq_congruence_wrong :
    (⟨0x7ff8000000000001⟩ : Constant).toFloat.isNaN = true ∧
    (wrong 0x7ff8000000000001 (some 5) == wrong 0x7ff8000000000001 none) = true ∧
    Indiscernible (wrong 0x7ff8000000000001 (some 5)) (wrong 0x7ff8000000000001 none) ∧
    (⟨0xfff8000000000000⟩ : Constant).toFloat.isNaN = true ∧
    (wrong 0x7ff8000000000001 none == wrong 0xfff8000000000000 none) = false := by
  obtain ⟨-, hsame, -, -, -, -, -, halike⟩ :=
    beq_congruence (wrong 0x7ff8000000000001 (some 5)) (wrong 0x7ff8000000000001 none)
  have hequal : (wrong 0x7ff8000000000001 (some 5) == wrong 0x7ff8000000000001 none) = true :=
    hsame.mpr (.binary (.number rfl) (.call (.cons .var .nil)))
  obtain ⟨-, hsame', -, -, -, -, -, -⟩ :=
    beq_congruence (wrong 0x7ff8000000000001 none) (wrong 0xfff8000000000000 none)
  have hother : (wrong 0x7ff8000000000001 none == wrong 0xfff8000000000000 none) = false := by
    rw [Bool.eq_false_iff, Ne, hsame']
    rintro (_ | _ | ⟨hnumber, -⟩)
    obtain hbits | _ := hnumber
    exact absurd hbits (by decide)
  exact ⟨by decide, hequal, halike hequal, by decide, hother⟩

end Expr

end FormulaEngine
