import FormulaEngine.Proofs.Expr.Outline
import FormulaEngine.Proofs.Grammar.Interpretation
import FormulaEngine.Proofs.Library.Registration
import Mathlib.Data.List.Basic

/-! What occurs in the tree of a derivation. Its variables are the names of the
derivation in the same order, and all functions that it calls are those of the
library. -/

namespace FormulaEngine

variable {φ : Type}

/-- The variable that a node refers to. -/
def Label.id? : Label φ → Option Nat
  | .var id => some id
  | .number _ | .binary _ | .call _ _ => none

namespace Expr

/-- The variables of a tree, in source order. -/
def ids (e : Expr φ) : List Nat := e.labels.filterMap Label.id?

theorem mem_ids_iff {id : Nat} {e : Expr φ} : id ∈ e.ids ↔ Label.var id ∈ e.labels := by
  rw [ids, List.mem_filterMap]
  constructor
  · rintro ⟨l, hl, hid⟩
    cases l with
    | var id' =>
      cases hid
      exact hl
    | number | binary | call => cases hid
  · intro h
    exact ⟨.var id, h, rfl⟩

/-- The variables of a node are its own and those of its children. -/
theorem ids_eq (e : Expr φ) : e.ids = e.label.id?.toList ++ e.children.flatMap ids := by
  have hchildren : (e.children.flatMap labels).filterMap Label.id? = e.children.flatMap ids :=
    List.filterMap_flatMap
  rw [ids, labels_eq, List.filterMap_cons, hchildren]
  cases e.label.id? with
  | none => rfl
  | some id => rfl

end Expr

/-- The variables alone, in source order. -/
def Meaning.ids (index : String → Nat) : Meaning φ (List Nat) where
  number _ _ := []
  var name _ := [index name]
  binary _ _ left right := left ++ right
  call _ _ args := args.flatten

/-- All lists of a chain, in source order. -/
def Chain.flatten {α : Type} (chain : Chain (List α)) : List α :=
  chain.first ++ chain.rest.flatMap (·.2.2)

theorem Chain.flatten_single {α : Type} (values : List α) :
    Chain.flatten ⟨values, []⟩ = values := List.append_nil values

theorem Chain.fold_append {α : Type} (chain : Chain (List α)) :
    chain.fold (fun _ _ left right => left ++ right) = chain.flatten := by
  obtain ⟨first, rest⟩ := chain
  unfold Chain.fold Chain.flatten
  induction rest generalizing first with
  | nil => exact (List.append_nil first).symm
  | cons step rest ih =>
    rw [List.foldl_cons, ih, List.flatMap_cons, List.append_assoc]

/-- All lists in what a part means, in source order. -/
def Part.flatten {α : Type} : (part : Part) → part.Value (List α) → List α
  | .level _, chain => Chain.flatten chain
  | .arguments, lists | .argumentList, lists => lists.flatten

namespace Derivation

variable [Callable φ] {library : Library φ} {part : Part} {sign : Bool}

/-- What a level means as a whole holds what its chain holds. -/
theorem meaning_ids {level : Level} {index : String → Nat}
    {d : Derivation library (.level level) sign} {i : Nat}
    (h : Chain.flatten (d.interpret (.ids index) i) = d.uses.map index) :
    d.meaning (.ids index) i = d.uses.map index := by
  rw [← h]
  exact Chain.fold_append _

theorem interpret_ids (index : String → Nat) (d : Derivation library part sign) (i : Nat) :
    part.flatten (d.interpret (.ids index) i) = d.uses.map index := by
  induction d generalizing i with
  | last operand ih => exact (Chain.flatten_single _).trans (meaning_ids (ih i))
  | join operand op isOfTier rest iho ihr =>
    have hoperand := meaning_ids (iho i)
    have hrest := ihr (i + operand.tokens.length + 1)
    rw [uses, List.map_append, ← hoperand, ← hrest]
    rfl
  | numeral | var | zero | noArguments => rfl
  | group inner ih => exact (Chain.flatten_single _).trans (meaning_ids (ih (i + 1)))
  | call text f isName isRegistered args ih =>
    exact (Chain.flatten_single _).trans (ih (i + 2))
  | someArguments list ih => exact ih i
  | one argument ih => exact (List.append_nil _).trans (meaning_ids (ih i))
  | more argument rest iha ihr =>
    have hargument := meaning_ids (iha i)
    have hrest := ihr (i + argument.tokens.length + 1)
    rw [uses, List.map_append, ← hargument, ← hrest]
    rfl

/-- The variables of the tree are those of the derivation. -/
theorem ids_tree {level : Level} (index : String → Nat)
    (d : Derivation library (.level level) sign) (i : Nat) :
    (d.tree index i).ids = d.uses.map index := by
  have hids : (d.tree index i).ids = d.meaning (.ids index) i := by
    refine meaning_map ⟨?_, ?_, ?_⟩ d ?_ i
    · intro value p
      rw [Expr.ids_eq]
      rfl
    · intro op i a b
      rw [Expr.ids_eq]
      exact congrArg (a.ids ++ ·) (List.append_nil _)
    · intro f i args
      rw [Expr.ids_eq]
      exact List.flatMap_def
    · intro name _ i
      rw [Expr.ids_eq]
      rfl
  rw [hids, meaning_ids (interpret_ids index d i)]

end Derivation

/-- What holds of all operands of a chain. -/
def Chain.All {τ : Type} (P : τ → Prop) (chain : Chain τ) : Prop :=
  P chain.first ∧ ∀ step ∈ chain.rest, P step.2.2

theorem Chain.All.single {τ : Type} {P : τ → Prop} {value : τ} (h : P value) :
    Chain.All P ⟨value, []⟩ := ⟨h, nofun⟩

theorem Chain.All.fold {τ : Type} {P : τ → Prop} {f : Operator → Nat → τ → τ → τ}
    {chain : Chain τ} (h : chain.All P) (hf : ∀ op i a b, P a → P b → P (f op i a b)) :
    P (chain.fold f) := by
  obtain ⟨first, rest⟩ := chain
  obtain ⟨hfirst, hrest⟩ := h
  unfold Chain.fold
  induction rest generalizing first with
  | nil => exact hfirst
  | cons step rest ih =>
    obtain ⟨hstep, hrest⟩ := List.forall_mem_cons.mp hrest
    rw [List.foldl_cons]
    exact ih _ (hf _ _ _ _ hfirst hstep) hrest

/-- What holds of all values in what a part means. -/
def Part.All {τ : Type} (P : τ → Prop) : (part : Part) → part.Value τ → Prop
  | .level _, chain => Chain.All P chain
  | .arguments, values | .argumentList, values => ∀ value ∈ values, P value

/-- What holds of numbers and variables, and of operations and of calls of registered
functions if it holds of their operands. -/
structure Meaning.Keeps [Callable φ] {τ : Type} (m : Meaning φ τ) (library : Library φ)
    (P : τ → Prop) : Prop where
  number : ∀ value p, P (m.number value p)
  var : ∀ name i, P (m.var name i)
  binary : ∀ op i a b, P a → P b → P (m.binary op i a b)
  call : ∀ f i args, library.get? (Callable.name f) = some f → (∀ a ∈ args, P a) →
    P (m.call f i args)

namespace Derivation

variable [Callable φ] {library : Library φ} {part : Part} {sign : Bool}

theorem interpret_all {τ : Type} {m : Meaning φ τ} {P : τ → Prop} (hm : m.Keeps library P)
    (d : Derivation library part sign) (i : Nat) : part.All P (d.interpret m i) := by
  induction d generalizing i with
  | last operand ih => exact .single (Chain.All.fold (ih i) hm.binary)
  | join operand op isOfTier rest iho ihr =>
    have hoperand := Chain.All.fold (iho i) hm.binary
    obtain ⟨hfirst, hrest⟩ := ihr (i + operand.tokens.length + 1)
    exact ⟨hoperand, List.forall_mem_cons.mpr ⟨hfirst, hrest⟩⟩
  | numeral text isNumeral => exact .single (hm.number _ _)
  | var text isName isFree => exact .single (hm.var text i)
  | zero => exact .single (hm.number _ _)
  | group inner ih => exact .single (Chain.All.fold (ih (i + 1)) hm.binary)
  | call text f isName isRegistered args ih =>
    have hname := Library.name_of_get? isRegistered
    rw [← hname] at isRegistered
    exact .single (hm.call f i _ isRegistered (ih (i + 2)))
  | noArguments => exact nofun
  | someArguments list ih => exact ih i
  | one argument ih =>
    have hargument := Chain.All.fold (ih i) hm.binary
    exact List.forall_mem_singleton.mpr hargument
  | more argument rest iha ihr =>
    have hargument := Chain.All.fold (iha i) hm.binary
    have hrest := ihr (i + argument.tokens.length + 1)
    exact List.forall_mem_cons.mpr ⟨hargument, hrest⟩

theorem meaning_keeps {τ : Type} {m : Meaning φ τ} {P : τ → Prop} (hm : m.Keeps library P)
    {level : Level} (d : Derivation library (.level level) sign) (i : Nat) : P (d.meaning m i) :=
  Chain.All.fold (d.interpret_all hm i) hm.binary

end Derivation

section CallsFrom

variable [Callable φ] {library : Library φ}

/-- Every function that a tree calls is the one that the library has under its name. -/
def Expr.CallsFrom (library : Library φ) (e : Expr φ) : Prop :=
  ∀ f argCount, Label.call f argCount ∈ e.labels → library.get? (Callable.name f) = some f

theorem Expr.callsFrom_of_children {e : Expr φ}
    (hlabel : ∀ f argCount, e.label = .call f argCount → library.get? (Callable.name f) = some f)
    (hchildren : ∀ child ∈ e.children, child.CallsFrom library) : e.CallsFrom library := by
  intro f argCount h
  rcases Expr.mem_labels_iff.mp h with h | ⟨child, hc, h⟩
  · exact hlabel f argCount h.symm
  · exact hchildren child hc f argCount h

theorem Derivation.callsFrom_tree {level : Level} {sign : Bool} (index : String → Nat)
    (d : Derivation library (.level level) sign) (i : Nat) :
    (d.tree index i).CallsFrom library := by
  refine meaning_keeps (P := Expr.CallsFrom library) ⟨?_, ?_, ?_, ?_⟩ d i
  · exact fun value p => Expr.callsFrom_of_children nofun nofun
  · exact fun name i => Expr.callsFrom_of_children nofun nofun
  · intro op i a b ha hb
    refine Expr.callsFrom_of_children nofun ?_
    exact List.forall_mem_cons.mpr ⟨ha, List.forall_mem_singleton.mpr hb⟩
  · intro f i args hf hargs
    refine Expr.callsFrom_of_children ?_ hargs
    rintro f' argCount ⟨⟩
    exact hf

end CallsFrom

end FormulaEngine
