import FormulaEngine.Proofs.Expr.Fold
import FormulaEngine.Proofs.Grammar.Derivation

/-! Meanings that are images of each other. A map between the values of two meanings
that respects numbers, operations and calls, and the variables of a derivation, takes
what the derivation means in the one to what it means in the other. So what is
computed from the tree of a derivation by recursion is a meaning of the derivation. -/

namespace FormulaEngine

variable {φ σ τ : Type}

/-- A chain with its operands mapped. -/
def Chain.map (h : σ → τ) (chain : Chain σ) : Chain τ :=
  ⟨h chain.first, chain.rest.map fun (op, index, value) => (op, index, h value)⟩

theorem Chain.fold_map {h : σ → τ} {f : Operator → Nat → σ → σ → σ}
    {g : Operator → Nat → τ → τ → τ} (hop : ∀ op i a b, h (f op i a b) = g op i (h a) (h b))
    {chain : Chain σ} {image : Chain τ} (himage : chain.map h = image) :
    h (chain.fold f) = image.fold g := by
  obtain ⟨first, rest⟩ := chain
  subst himage
  unfold Chain.fold Chain.map
  induction rest generalizing first with
  | nil => rfl
  | cons step rest ih =>
    obtain ⟨op, i, value⟩ := step
    rw [List.foldl_cons, ih, hop]
    rfl

/-- What a part means with all values in it mapped. -/
def Part.mapValue (h : σ → τ) : (part : Part) → part.Value σ → part.Value τ
  | .level _ => Chain.map h
  | .arguments | .argumentList => List.map h

/-- A map that respects two meanings everywhere but at variables. -/
structure Meaning.Hom (m : Meaning φ σ) (m' : Meaning φ τ) (h : σ → τ) : Prop where
  number : ∀ value p, h (m.number value p) = m'.number value p
  binary : ∀ op i a b, h (m.binary op i a b) = m'.binary op i (h a) (h b)
  call : ∀ f i args, h (m.call f i args) = m'.call f i (args.map h)

namespace Derivation

variable [Callable φ] {library : Library φ} {part : Part} {sign : Bool}

theorem interpret_map {m : Meaning φ σ} {m' : Meaning φ τ} {h : σ → τ} (hom : m.Hom m' h)
    (d : Derivation library part sign)
    (hvar : ∀ name ∈ d.uses, ∀ i, h (m.var name i) = m'.var name i) (i : Nat) :
    part.mapValue h (d.interpret m i) = d.interpret m' i := by
  induction d generalizing i with
  | last operand ih =>
    have hoperand := Chain.fold_map hom.binary (ih hvar i)
    exact congrArg (Chain.mk · []) hoperand
  | join operand op isOfTier rest iho ihr =>
    have hoperand := Chain.fold_map hom.binary
      (iho (fun name hn => hvar name (List.mem_append_left _ hn)) i)
    have hrest := ihr (fun name hn => hvar name (List.mem_append_right _ hn))
      (i + operand.tokens.length + 1)
    rw [interpret, interpret, ← hrest, ← hoperand]
    rfl
  | numeral text isNumeral => exact congrArg (Chain.mk · []) (hom.number _ _)
  | var text isName isFree =>
    have htext := hvar text (List.mem_singleton_self _) i
    exact congrArg (Chain.mk · []) htext
  | zero => exact congrArg (Chain.mk · []) (hom.number _ _)
  | group inner ih =>
    have hinner := Chain.fold_map hom.binary (ih hvar (i + 1))
    exact congrArg (Chain.mk · []) hinner
  | call text f isName isRegistered args ih =>
    have hargs := ih hvar (i + 2)
    rw [interpret, interpret, ← hargs]
    exact congrArg (Chain.mk · []) (hom.call f i _)
  | noArguments => rfl
  | someArguments list ih => exact ih hvar i
  | one argument ih =>
    have hargument := Chain.fold_map hom.binary (ih hvar i)
    exact congrArg ([·]) hargument
  | more argument rest iha ihr =>
    have hargument := Chain.fold_map hom.binary
      (iha (fun name hn => hvar name (List.mem_append_left _ hn)) i)
    have hrest := ihr (fun name hn => hvar name (List.mem_append_right _ hn))
      (i + argument.tokens.length + 1)
    rw [interpret, interpret, ← hrest, ← hargument]
    rfl

theorem meaning_map {m : Meaning φ σ} {m' : Meaning φ τ} {h : σ → τ} (hom : m.Hom m' h)
    {level : Level} (d : Derivation library (.level level) sign)
    (hvar : ∀ name ∈ d.uses, ∀ i, h (m.var name i) = m'.var name i) (i : Nat) :
    h (d.meaning m i) = d.meaning m' i :=
  Chain.fold_map hom.binary (d.interpret_map hom hvar i)

end Derivation

/-- The tree without positions. -/
def Meaning.bare (ids : String → Nat) : Meaning φ (Expr φ) where
  number value _ := .number value none
  var name _ := .var (ids name) none
  binary op _ left right := .binary op.symbol none left right
  call f _ args := .call f none args

/-- Values of any kind, with what numbers, operators and functions are among them. -/
structure Arithmetic (φ τ : Type) where
  number : Constant → τ
  operation : Char → τ → τ → τ
  call : φ → List τ → τ

/-- The arithmetic that trees are evaluated in. -/
def Arithmetic.float [Callable φ] : Arithmetic φ Float where
  number value := value.toFloat
  operation := applySymbol
  call := Callable.call

/-- The value of a tree in an arithmetic, given the values of its variables. -/
def Expr.valueIn (arithmetic : Arithmetic φ τ) (values : Nat → τ) : Expr φ → τ :=
  fold {
    number := fun value _ => arithmetic.number value
    var := fun id _ => values id
    binary := fun op _ a b => arithmetic.operation op a b
    call := fun f _ args => arithmetic.call f args }

theorem Expr.evaluate_eq_valueIn [Callable φ] (table : Bindings) (e : Expr φ) :
    e.evaluate table = e.valueIn .float fun id => (table.value? id).getD 0 := rfl

/-- The value in an arithmetic, given the values of the names. -/
def Meaning.valueIn (arithmetic : Arithmetic φ τ) (env : String → τ) : Meaning φ τ where
  number value _ := arithmetic.number value
  var name _ := env name
  binary op _ a b := arithmetic.operation op.symbol a b
  call f _ args := arithmetic.call f args

namespace Derivation

variable [Callable φ] {library : Library φ} {level : Level} {sign : Bool}

/-- Without its positions the tree of a derivation is the bare one. -/
theorem relocate_tree {ids ids' : String → Nat} (d : Derivation library (.level level) sign)
    (hids : ∀ name ∈ d.uses, ids name = ids' name) (i : Nat) :
    (d.tree ids i).relocate (fun _ => none) = d.meaning (.bare ids') i := by
  refine meaning_map ⟨?_, ?_, ?_⟩ d ?_ i
  · exact fun value p => Expr.relocate_number _ value p
  · exact fun op i a b => Expr.relocate_binary _ op.symbol (some i) a b
  · exact fun f i args => Expr.relocate_call _ f (some i) args
  · intro name hn i
    rw [Meaning.tree, Meaning.bare, Expr.relocate_var, hids name hn]

/-- The value of the tree of a derivation is told by the derivation alone, if the indices
of the variables have the right values. -/
theorem valueIn_tree (arithmetic : Arithmetic φ τ) {ids : String → Nat} {values : Nat → τ}
    {env : String → τ} (d : Derivation library (.level level) sign)
    (henv : ∀ name ∈ d.uses, values (ids name) = env name) (i : Nat) :
    (d.tree ids i).valueIn arithmetic values = d.meaning (.valueIn arithmetic env) i := by
  refine meaning_map ⟨?_, ?_, ?_⟩ d ?_ i
  · exact fun value p => Expr.fold_number _ value p
  · exact fun op i a b => Expr.fold_binary _ op.symbol (some i) a b
  · exact fun f i args => Expr.fold_call _ f (some i) args
  · intro name hn i
    exact (Expr.fold_var _ (ids name) (some i)).trans (henv name hn)

end Derivation

end FormulaEngine
