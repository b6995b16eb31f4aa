import FormulaEngine.Proofs.Expr.Outline
import FormulaEngine.Proofs.Grammar.Acceptance
import FormulaEngine.Proofs.Grammar.Interpretation
import FormulaEngine.Proofs.Grammar.Nesting

/-! Printing trees with no more parentheses than needed, and reading them back. An
operand is put in parentheses exactly if the operators would group otherwise without
them: on the left only below an operator that binds tighter, on the right also below
one that binds equally, since operators of one tier group to the left. Arguments of
calls never need any. What is printed is derived at every level that asks for no
parentheses, and the derivation means the tree that was printed. -/

namespace FormulaEngine

variable {φ : Type} [Callable φ]

def Tier.bindsTighter : Tier → Tier → Bool
  | .multiplicative, .additive => true
  | _, _ => false

/-- Trees of operators and registered functions, with a text for each leaf and for each
function. -/
inductive Written (library : Library φ) where
  | numeral (text : String) (isNumeral : Token.kind text = .numeral)
  | var (text : String) (isName : Token.kind text = .name) (isFree : library.get? text = none)
  | binary (op : Operator) (left right : Written library)
  | call (text : String) (function : φ) (isName : Token.kind text = .name)
      (isRegistered : library.get? text = some function) (args : List (Written library))

namespace Written

variable {library : Library φ}

/-- The tier of the operator at the root, if there is one. -/
def tier? : Written library → Option Tier
  | binary op _ _ => some op.tier
  | numeral .. | var .. | call .. => none

/-- Tokens in parentheses, if these are needed. -/
def parenthesize (needed : Bool) (tokens : List String) : List String :=
  if needed then "(" :: (tokens ++ [")"]) else tokens

mutual

/-- The tokens of a tree. -/
def print : Written library → List String
  | numeral text _ => [text]
  | var text _ _ => [text]
  | binary op left right =>
    parenthesize (left.tier?.any fun tier => op.tier.bindsTighter tier) (print left) ++ op.token ::
      parenthesize (right.tier?.any fun tier => !tier.bindsTighter op.tier) (print right)
  | call text _ _ _ args => text :: "(" :: (printArguments args ++ [")"])

/-- The tokens of arguments, with commas between them. -/
def printArguments : List (Written library) → List String
  | [] => []
  | [arg] => print arg
  | arg :: rest => print arg ++ "," :: printArguments rest

end

mutual

/-- The variables in the order of their uses. -/
def uses : Written library → List String
  | numeral _ _ => []
  | var text _ _ => [text]
  | binary _ left right => uses left ++ uses right
  | call _ _ _ _ args => usesOfAll args

def usesOfAll : List (Written library) → List String
  | [] => []
  | arg :: rest => uses arg ++ usesOfAll rest

end

mutual

/-- The tree itself, without positions, given the indices of the variables. -/
def tree (ids : String → Nat) : Written library → Expr φ
  | numeral text _ => .number (Token.numeralValue text) none
  | var text _ _ => .var (ids text) none
  | binary op left right => .binary op.symbol none (tree ids left) (tree ids right)
  | call _ f _ _ args => .call f none (trees ids args)

def trees (ids : String → Nat) : List (Written library) → List (Expr φ)
  | [] => []
  | arg :: rest => tree ids arg :: trees ids rest

end

end Written

/-- Whether an operation of a tier needs parentheses at a level. -/
def Level.wraps : Level → Tier → Bool
  | .series tier, inner => tier.bindsTighter inner
  | .factor, _ => true

namespace Written

variable {library : Library φ}

/-- The tokens of a tree that stands at a level. -/
def printAt (w : Written library) (level : Level) : List String :=
  parenthesize (w.tier?.any level.wraps) w.print

/-- The left operand of an operator stands where the series so far would, the right one
where one operand would. -/
theorem print_binary (op : Operator) (left right : Written library) :
    (binary op left right).print =
      left.printAt (.series op.tier) ++ op.token :: right.printAt op.tier.operand := by
  have hright : (fun tier => !tier.bindsTighter op.tier) = op.tier.operand.wraps := by
    funext tier
    cases op <;> cases tier <;> rfl
  rw [print, hright]
  rfl

/-- No tree needs parentheses where a whole expression stands. -/
theorem not_wraps (w : Written library) :
    w.tier?.any (Level.series .additive).wraps = false := by
  cases w.tier? <;> rfl

end Written

/-- A series goes on with one more operand, which is applied last. -/
def Derivation.GoesOn {library : Library φ} :
    {part : Part} → {sign : Bool} → Derivation library part sign → Prop
  | .level (.series tier), sign, d => sign = tier.isSign →
    ∀ (op : Operator) (_ : op ∈ tier.operators) (sign' : Bool)
      (e : Derivation library (.level tier.operand) sign'),
      ∃ d' : Derivation library (.level (.series tier)) sign',
        d'.tokens = d.tokens ++ op.token :: e.tokens ∧ d'.uses = d.uses ++ e.uses ∧
        ∀ {τ : Type} (m : Meaning φ τ) (i : Nat), d'.interpret m i = ⟨(d.interpret m i).first,
          (d.interpret m i).rest ++
            [(op, i + d.tokens.length, e.meaning m (i + d.tokens.length + 1))]⟩
  | _, _, _ => True

theorem Derivation.goesOn {library : Library φ} {part : Part} {sign : Bool}
    (d : Derivation library part sign) : d.GoesOn := by
  induction d with
  | last operand =>
    rintro rfl op hop sign' e
    exact ⟨.join operand op hop (.last e), rfl, rfl, fun m i => rfl⟩
  | join operand op' hop' rest _ ih =>
    intro hsign op hop sign' e
    -- the operand goes behind the rest of the series, so the chain grows at its end
    obtain ⟨rest', htokens, huses, hinterpret⟩ := ih hsign op hop sign' e
    refine ⟨.join operand op' hop' rest', ?_, ?_, ?_⟩
    · rw [tokens, tokens, htokens, List.append_assoc, List.cons_append]
    · rw [uses, uses, huses, List.append_assoc]
    · intro τ m i
      have hlength : i + operand.tokens.length + 1 + rest.tokens.length =
          i + (operand.tokens ++ op'.token :: rest.tokens).length := by
        rw [List.length_append, List.length_cons]
        omega
      simp only [interpret, hinterpret, tokens, hlength, List.cons_append]
  | numeral | var | zero | group | call | noArguments | someArguments | one | more => trivial

namespace Written

variable {library : Library φ}

/-- The tokens are derived at a level, whatever comes next, and mean the tree. -/
def Derived (w : Written library) (tokens : List String) (level : Level) : Prop :=
  ∀ sign, ∃ d : Derivation library (.level level) sign, d.tokens = tokens ∧
    d.uses = w.uses ∧ ∀ ids i, d.meaning (.bare ids) i = w.tree ids

namespace Derived

variable {w left right : Written library} {tokens before after : List String} {tier : Tier}

/-- An operand alone is a series. -/
theorem last (h : w.Derived tokens tier.operand) : w.Derived tokens (.series tier) := by
  intro sign
  obtain ⟨d, htokens, huses, htree⟩ := h sign
  exact ⟨.last d, htokens, huses, htree⟩

/-- What is derived as a factor is derived at every level. -/
theorem raise (h : w.Derived tokens .factor) (level : Level) : w.Derived tokens level := by
  have hterm : w.Derived tokens (.series .multiplicative) := last h
  cases level with
  | factor => exact h
  | series tier =>
    cases tier with
    | multiplicative => exact hterm
    | additive => exact last hterm

theorem group (h : w.Derived tokens (.series .additive)) :
    w.Derived ("(" :: (tokens ++ [")"])) .factor := by
  intro sign
  obtain ⟨d, rfl, huses, htree⟩ := h false
  exact ⟨.group d, rfl, huses, fun ids i => htree ids (i + 1)⟩

theorem binary {op : Operator} (hl : left.Derived before (.series op.tier))
    (hr : right.Derived after op.tier.operand) :
    (Written.binary op left right).Derived (before ++ op.token :: after) (.series op.tier) := by
  intro sign
  obtain ⟨dl, rfl, hul, htl⟩ := hl op.tier.isSign
  obtain ⟨dr, rfl, hur, htr⟩ := hr sign
  have hop : op ∈ op.tier.operators := Tier.mem_operators_iff.mpr rfl
  obtain ⟨d, htokens, huses, hinterpret⟩ := dl.goesOn rfl op hop sign dr
  refine ⟨d, htokens, by rw [huses, hul, hur, uses], ?_⟩
  intro ids i
  rw [Derivation.meaning, hinterpret, Chain.fold, List.foldl_append, List.foldl_cons,
    List.foldl_nil, htr, tree, ← htl ids i]
  rfl

/-- If the tokens of a tree are derived at every level that needs no parentheses around
them, the tree can be printed at any level. -/
theorem at_level (h : ∀ level : Level, w.tier?.any level.wraps = false → w.Derived w.print level)
    (level : Level) : w.Derived (w.printAt level) level := by
  unfold printAt
  cases hwraps : w.tier?.any level.wraps with
  | false => exact h level hwraps
  | true =>
    exact (h (.series .additive) w.not_wraps).group.raise level

/-- A series stands wherever it needs no parentheses. -/
theorem of_wraps (h : w.Derived tokens (.series tier)) {level : Level}
    (hlevel : level.wraps tier = false) : w.Derived tokens level := by
  cases level with
  | factor => cases hlevel
  | series outer =>
    cases outer with
    | additive =>
      cases tier with
      | additive => exact h
      | multiplicative => exact last h
    | multiplicative =>
      cases tier with
      | additive => cases hlevel
      | multiplicative => exact h

end Derived

/-- The tokens of at least one argument are derived and mean the trees. -/
theorem derived_arguments {w : Written library} {args : List (Written library)}
    (h : ∀ a ∈ w :: args, a.Derived a.print (.series .additive)) :
    ∃ d : Derivation library .argumentList false, d.tokens = printArguments (w :: args) ∧
      d.uses = usesOfAll (w :: args) ∧
      ∀ ids i, d.interpret (.bare ids) i = trees ids (w :: args) := by
  induction args generalizing w with
  | nil =>
    obtain ⟨d, htokens, huses, htree⟩ := h w (List.mem_singleton_self w) false
    refine ⟨.one d, htokens, ?_, fun ids i => congrArg ([·]) (htree ids i)⟩
    rw [usesOfAll, usesOfAll, List.append_nil]
    exact huses
  | cons w' args ih =>
    obtain ⟨d, htokens, huses, htree⟩ := h w (List.mem_cons_self ..) false
    obtain ⟨rest, htokens', huses', htrees⟩ := ih fun a ha => h a (List.mem_cons_of_mem _ ha)
    refine ⟨.more d rest, ?_, ?_, ?_⟩
    · rw [Derivation.tokens, htokens, htokens']
      rfl
    · rw [Derivation.uses, huses, huses']
      rfl
    · intro ids i
      have hfirst := htree ids i
      rw [Derivation.meaning] at hfirst
      rw [Derivation.interpret, htrees, hfirst]
      rfl

theorem derived_call {text : String} {f : φ} (isName : Token.kind text = .name)
    (isRegistered : library.get? text = some f) {args : List (Written library)}
    (h : ∀ a ∈ args, a.Derived a.print (.series .additive)) :
    (call text f isName isRegistered args).Derived
      (call text f isName isRegistered args).print .factor := by
  intro sign
  cases args with
  | nil =>
    exact ⟨.call text f isName isRegistered .noArguments, rfl, rfl, fun ids i => rfl⟩
  | cons w args =>
    obtain ⟨d, htokens, huses, htrees⟩ := derived_arguments h
    refine ⟨.call text f isName isRegistered (.someArguments d), ?_, huses, ?_⟩
    · rw [print, ← htokens]
      rfl
    · intro ids i
      rw [tree, ← htrees ids (i + 2)]
      rfl

/-- What holds of a tree if it holds of its operands or arguments holds of all trees. -/
@[elab_as_elim, induction_eliminator]
theorem induction {motive : Written library → Prop}
    (numeral : ∀ text isNumeral, motive (.numeral text isNumeral))
    (var : ∀ text isName isFree, motive (.var text isName isFree))
    (binary : ∀ op left right, motive left → motive right → motive (.binary op left right))
    (call : ∀ text f isName isRegistered args, (∀ a ∈ args, motive a) →
      motive (.call text f isName isRegistered args)) (w : Written library) : motive w :=
  match w with
  | .numeral text isNumeral => numeral text isNumeral
  | .var text isName isFree => var text isName isFree
  | .binary op left right =>
    binary op left right (induction numeral var binary call left)
      (induction numeral var binary call right)
  | .call text f isName isRegistered args =>
    call text f isName isRegistered args fun a _ => induction numeral var binary call a

/-- The tokens of a tree are derived at every level that needs no parentheses around
them. -/
theorem derived (w : Written library) (level : Level) (hlevel : w.tier?.any level.wraps = false) :
    w.Derived w.print level := by
  induction w generalizing level with
  | numeral text isNumeral =>
    exact Derived.raise (fun sign => ⟨.numeral text isNumeral, rfl, rfl, fun ids i => rfl⟩) level
  | var text isName isFree =>
    exact Derived.raise (fun sign => ⟨.var text isName isFree, rfl, rfl, fun ids i => rfl⟩) level
  | binary op left right ihl ihr =>
    have hbinary := (Derived.at_level ihl (.series op.tier)).binary
      (Derived.at_level ihr op.tier.operand)
    rw [← print_binary] at hbinary
    exact hbinary.of_wraps hlevel
  | call text f isName isRegistered args ih =>
    exact Derived.raise (derived_call isName isRegistered fun a ha => ih a ha _ a.not_wraps) level

end Written

/-- Printing a tree and reading the tokens gives back the tree, if the tokens are not
nested too deep and the variables have the indices that the reader gives them. -/
theorem accepts_print [DecidableEq φ] {library : Library φ} (w : Written library)
    (hopen : OpenAtMost nestingLimit w.print) (table : Bindings) (ids : String → Nat)
    (hids : ∀ name ∈ w.uses, (table.internAll w.uses).idOf? name = some (ids name))
    (original : Expr φ) (horiginal : original.relocate (fun _ => none) = w.tree ids) :
    ∃ tree, Accepts library w.print table tree (table.internAll w.uses) ∧
      (tree == original) = true := by
  obtain ⟨d, htokens, huses, htree⟩ := w.derived (.series .additive) w.not_wraps false
  have hdepth : d.depth ≤ nestingLimit := by
    rw [d.depth_le_iff, htokens]
    exact hopen
  have haccepts := d.accepts hdepth table
  rw [htokens, huses] at haccepts
  refine ⟨_, haccepts, Expr.beq_of_relocate_eq (g := fun _ => none) ?_⟩
  have hindex (name : String) (hn : name ∈ d.uses) :
      (table.internAll w.uses).indexOf name = ids name :=
    Bindings.indexOf_eq (hids name (huses ▸ hn))
  rw [d.relocate_tree hindex, htree, horiginal]

/-- The product `(8 - x) * max(2, y - (1 - x))`. -/
def Written.product : Written (.ofList [ElementaryFunction.max]) :=
  .binary .mul (.binary .sub (.numeral "8" rfl) (.var "x" rfl rfl))
    (.call "max" .max rfl rfl [.numeral "2" rfl,
      .binary .sub (.var "y" rfl rfl) (.binary .sub (.numeral "1" rfl) (.var "x" rfl rfl))])

theorem accepts_print_product :
    ∃ tree, Accepts (.ofList [ElementaryFunction.max]) Written.product.print .empty tree
        ⟨[⟨"x", none⟩, ⟨"y", none⟩]⟩ ∧
      (tree == Written.product.tree fun name => if name = "x" then 0 else 1) = true := by
  refine accepts_print Written.product (by decide) .empty
    (fun name => if name = "x" then 0 else 1) (by decide) _ ?_
  simp only [Written.product, Written.tree, Written.trees, Expr.relocate_binary,
    Expr.relocate_number, Expr.relocate_var, Expr.relocate_call, List.map_cons, List.map_nil]

end FormulaEngine
