import FormulaEngine.Proofs.Grammar.Acceptance
import FormulaEngine.Proofs.Grammar.Interpretation
import FormulaEngine.Proofs.Grammar.Nesting
import Mathlib.Data.List.Basic

/-! Putting a formula in place of a variable. The tokens of the formula, in
parentheses, stand wherever the variable stood, and so does its derivation: a group may
stand wherever a variable may, and what is inside it does not depend on what is around
it. Positions and indices of variables are all different afterwards, but a meaning that
does not look at positions only sees that the variable now means the formula. -/

namespace FormulaEngine

open Token

namespace Bindings

variable {τ : Type} {table : Bindings}

/-- The name of an index. -/
def nameAt (table : Bindings) (id : Nat) : String := ((table.get? id).map (·.name)).getD ""

/-- Every variable bound to the value of its name. -/
def under (table : Bindings) (env : String → Float) : Bindings :=
  ⟨table.entries.map fun v => { v with value := some (env v.name) }⟩

/-- The indices of a table have the values of their names. -/
def Gives (table : Bindings) (values : Nat → τ) (env : String → τ) : Prop :=
  ∀ name id, table.idOf? name = some id → values id = env name

theorem get?_of_idOf? {name : String} {id : Nat} (h : table.idOf? name = some id) :
    ∃ v, table.get? id = some v ∧ v.name = name := by
  obtain ⟨hlt, hname, -⟩ := List.findIdx?_eq_some_iff_getElem.mp h
  exact ⟨table.entries[id], List.getElem?_eq_getElem hlt, of_decide_eq_true hname⟩

theorem gives_nameAt (table : Bindings) (env : String → τ) :
    table.Gives (fun id => env (table.nameAt id)) env := by
  intro name id hid
  obtain ⟨v, hv, rfl⟩ := get?_of_idOf? hid
  simp only [nameAt, hv, Option.map_some, Option.getD_some]

theorem gives_under (table : Bindings) (env : String → Float) :
    table.Gives (fun id => ((table.under env).value? id).getD 0) env := by
  intro name id hid
  obtain ⟨v, hv, rfl⟩ := get?_of_idOf? hid
  have hunder : (table.under env).get? id = some { v with value := some (env v.name) } := by
    unfold get? at hv ⊢
    rw [under, List.getElem?_map, hv]
    rfl
  simp only [value?, hunder, Option.bind_some, Option.getD_some]

end Bindings

variable {φ τ : Type}

/-- A meaning that does not look at positions. -/
structure Meaning.Blind (m : Meaning φ τ) : Prop where
  number : ∀ value p q, m.number value p = m.number value q
  var : ∀ name i j, m.var name i = m.var name j
  binary : ∀ op i j a b, m.binary op i a b = m.binary op j a b
  call : ∀ f i j args, m.call f i args = m.call f j args

/-- The meaning with other values for some names. -/
def Meaning.assign (m : Meaning φ τ) (values : String → Option τ) : Meaning φ τ :=
  { m with var := fun name i => (values name).getD (m.var name i) }

/-- The operators after the first operand, and their right operands. -/
def Chain.steps (chain : Chain τ) : List (Operator × τ) :=
  chain.rest.map fun step => (step.1, step.2.2)

/-- The same operators and operands, wherever they stand. -/
structure Chain.Same (chain chain' : Chain τ) : Prop where
  first : chain.first = chain'.first
  steps : chain.steps = chain'.steps

namespace Chain.Same

theorem single {a b : τ} (h : a = b) : Chain.Same ⟨a, []⟩ ⟨b, []⟩ := ⟨h, rfl⟩

theorem cons {a b : τ} (h : a = b) {chain chain' : Chain τ} (hs : chain.Same chain')
    (op : Operator) (i j : Nat) :
    Chain.Same ⟨a, (op, i, chain.first) :: chain.rest⟩
      ⟨b, (op, j, chain'.first) :: chain'.rest⟩ := by
  have hsteps := hs.steps
  unfold Chain.steps at hsteps
  refine ⟨h, ?_⟩
  rw [Chain.steps, Chain.steps, List.map_cons, List.map_cons, hs.first, hsteps]

theorem fold_eq {f : Operator → Nat → τ → τ → τ} (hf : ∀ op i j a b, f op i a b = f op j a b)
    {chain chain' : Chain τ} (h : chain.Same chain') : chain.fold f = chain'.fold f := by
  have hfold (c : Chain τ) :
      c.fold f = c.steps.foldl (fun left step => f step.1 0 left step.2) c.first := by
    rw [Chain.steps, List.foldl_map, Chain.fold]
    congr 1
    funext left step
    exact hf step.1 step.2.1 0 left step.2.2
  rw [hfold, hfold, h.first, h.steps]

end Chain.Same

/-- The same value of a part, wherever it stands. -/
def Part.Same : (part : Part) → part.Value τ → part.Value τ → Prop
  | .level _, a, b => Chain.Same a b
  | .arguments, a, b | .argumentList, a, b => a = b

namespace Derivation

variable [Callable φ] {library : Library φ} {part : Part} {sign : Bool}

/-- The derivation with groups in the places of some variables. -/
def substitute {part : Part} {sign : Bool} :
    Derivation library part sign → (String → Option (Sentence library)) →
      Derivation library part sign
  | last operand, s => last (operand.substitute s)
  | join operand op isOfTier rest, s => join (operand.substitute s) op isOfTier (rest.substitute s)
  | numeral text isNumeral, _ => numeral text isNumeral
  | var text isName isFree, s =>
    match s text with
    | some inner => group inner
    | none => var text isName isFree
  | zero, _ => zero
  | group inner, s => group (inner.substitute s)
  | call text f isName isRegistered args, s => call text f isName isRegistered (args.substitute s)
  | noArguments, _ => noArguments
  | someArguments list, s => someArguments (list.substitute s)
  | one argument, s => one (argument.substitute s)
  | more argument rest, s => more (argument.substitute s) (rest.substitute s)

theorem substitute_none (d : Derivation library part sign) :
    d.substitute (fun _ => none) = d := by
  induction d with
  | last operand ih => rw [substitute, ih]
  | join operand op isOfTier rest iho ihr => rw [substitute, iho, ihr]
  | group inner ih => rw [substitute, ih]
  | call text f isName isRegistered args ih => rw [substitute, ih]
  | someArguments list ih => rw [substitute, ih]
  | one argument ih => rw [substitute, ih]
  | more argument rest iha ihr => rw [substitute, iha, ihr]
  | numeral | var | zero | noArguments => rfl

/-- The tokens that come in the place of a token. -/
def replacement (s : String → Option (Sentence library)) (token : String) : List String :=
  match s token with
  | some inner => "(" :: (inner.tokens ++ [")"])
  | none => [token]

/-- Only variables are replaced: no other token is a name that is not registered. -/
theorem tokens_substitute {s : String → Option (Sentence library)}
    (hs : ∀ name, s name ≠ none → kind name = .name ∧ library.get? name = none)
    (d : Derivation library part sign) :
    (d.substitute s).tokens = d.tokens.flatMap (replacement s) := by
  have hkeep {token : String} (h : ¬(kind token = .name ∧ library.get? token = none)) :
      replacement s token = [token] := by
    rw [replacement, Classical.not_not.mp fun hne => h (hs token hne)]
  have hkind {token : String} (h : kind token ≠ .name) : replacement s token = [token] :=
    hkeep fun hk => h hk.1
  have hopening : replacement s "(" = ["("] := hkind (by simp)
  have hclosing : replacement s ")" = [")"] := hkind (by simp)
  have hcomma : replacement s "," = [","] := hkind (by simp)
  induction d with
  | last operand ih => exact ih
  | join operand op isOfTier rest iho ihr =>
    have hop : replacement s op.token = [op.token] := hkind (by simp)
    rw [substitute, tokens, tokens, List.flatMap_append, List.flatMap_cons, hop, iho, ihr]
    rfl
  | numeral text h =>
    rw [substitute, tokens, List.flatMap_singleton, hkind (by simp [h])]
  | var text isName isFree =>
    rw [substitute, tokens, List.flatMap_singleton, replacement]
    cases s text with
    | some inner => rfl
    | none => rfl
  | zero => rfl
  | group inner ih =>
    rw [substitute, tokens, tokens, List.flatMap_cons, List.flatMap_append,
      List.flatMap_singleton, hopening, hclosing, ih]
    rfl
  | call text f isName isRegistered args ih =>
    have htext : replacement s text = [text] := by
      refine hkeep fun hk => ?_
      rw [hk.2] at isRegistered
      cases isRegistered
    rw [substitute, tokens, tokens, List.flatMap_cons, List.flatMap_cons, List.flatMap_append,
      List.flatMap_singleton, htext, hopening, hclosing, ih]
    rfl
  | noArguments => rfl
  | someArguments list ih => exact ih
  | one argument ih => exact ih
  | more argument rest iha ihr =>
    rw [substitute, tokens, tokens, List.flatMap_append, List.flatMap_cons, hcomma, iha, ihr]
    rfl

/-- After a substitution the variables mean what was put in their places. -/
theorem interpret_substitute {m : Meaning φ τ} (hm : m.Blind)
    {s : String → Option (Sentence library)}
    (hs : ∀ name inner, s name = some inner → ∀ i, inner.meaning m i = inner.meaning m 0)
    (d : Derivation library part sign) (i j : Nat) :
    part.Same ((d.substitute s).interpret m i)
      (d.interpret (m.assign fun name => (s name).map (·.meaning m 0)) j) := by
  induction d generalizing i j with
  | last operand ih => exact .single ((ih i j).fold_eq hm.binary)
  | join operand op isOfTier rest iho ihr =>
    exact .cons ((iho i j).fold_eq hm.binary) (ihr _ _) op _ _
  | numeral text isNumeral => exact .single (hm.number _ _ _)
  | var text isName isFree =>
    have hvar : (m.assign fun name => (s name).map (·.meaning m 0)).var text j =
        ((s text).map (·.meaning m 0)).getD (m.var text j) := rfl
    rw [substitute, interpret, hvar]
    cases hinner : s text with
    | some inner => exact .single (hs text inner hinner (i + 1))
    | none => exact .single (hm.var text i j)
  | zero => exact .single rfl
  | group inner ih => exact .single ((ih _ _).fold_eq hm.binary)
  | call text f isName isRegistered args ih =>
    have hargs := ih (i + 2) (j + 2)
    refine .single ?_
    rw [Part.Same] at hargs
    rw [hargs]
    exact hm.call f i j _
  | noArguments => rfl
  | someArguments list ih => exact ih i j
  | one argument ih => exact congrArg ([·]) ((ih i j).fold_eq hm.binary)
  | more argument rest iha ihr =>
    have hrest := ihr (i + (argument.substitute s).tokens.length + 1)
      (j + argument.tokens.length + 1)
    exact List.cons_eq_cons.mpr ⟨(iha i j).fold_eq hm.binary, hrest⟩

/-- A meaning that does not look at positions is the same everywhere. -/
theorem meaning_same {m : Meaning φ τ} (hm : m.Blind) {level : Level}
    (d : Derivation library (.level level) sign) (i j : Nat) : d.meaning m i = d.meaning m j := by
  have hsame := d.interpret_substitute hm (s := fun _ => none) nofun i j
  rw [substitute_none] at hsame
  exact hsame.fold_eq hm.binary

theorem meaning_substitute {m : Meaning φ τ} (hm : m.Blind)
    (s : String → Option (Sentence library)) {level : Level}
    (d : Derivation library (.level level) sign) (i : Nat) :
    (d.substitute s).meaning m i =
      d.meaning (m.assign fun name => (s name).map (·.meaning m 0)) i :=
  (d.interpret_substitute hm (fun _ inner _ i => inner.meaning_same hm i 0) i i).fold_eq hm.binary

end Derivation

/-- Tokens with others, in parentheses, in the places of one. -/
def substituteToken (x : String) (inside tokens : List String) : List String :=
  tokens.flatMap fun token => if token = x then "(" :: (inside ++ [")"]) else [token]

theorem Meaning.blind_valueIn (arithmetic : Arithmetic φ τ) (env : String → τ) :
    (Meaning.valueIn arithmetic env).Blind :=
  ⟨fun _ _ _ => rfl, fun _ _ _ => rfl, fun _ _ _ _ _ => rfl, fun _ _ _ _ => rfl⟩

section Evaluate

variable [Callable φ] {library : Library φ}

namespace Derivation

/-- The value of an accepted tree, if the table left behind gives the values. -/
theorem valueIn_of_gives (arithmetic : Arithmetic φ τ) (d : Sentence library) {table : Bindings}
    {values : Nat → τ} {env : String → τ} (h : (table.internAll d.uses).Gives values env) :
    (d.tree (table.internAll d.uses).indexOf 0).valueIn arithmetic values =
      d.meaning (.valueIn arithmetic env) 0 := by
  refine d.valueIn_tree arithmetic (fun name hn => ?_) 0
  obtain ⟨id, hid⟩ := table.idOf?_internAll hn
  rw [Bindings.indexOf_eq hid]
  exact h name id hid

/-- A sentence for one name only. -/
def only (x : String) (inner : Sentence library) (name : String) : Option (Sentence library) :=
  if name = x then some inner else none

theorem tokens_substitute_only {x : String} (hname : kind x = .name)
    (hfree : library.get? x = none) (inner d : Sentence library) :
    (d.substitute (only x inner)).tokens = substituteToken x inner.tokens d.tokens := by
  rw [tokens_substitute _ d, substituteToken]
  · refine List.flatMap_congr fun token _ => ?_
    unfold replacement only
    by_cases h : token = x <;> simp [h]
  · intro name hne
    obtain rfl : name = x := by simpa [only] using hne
    exact ⟨hname, hfree⟩

theorem meaning_substitute_only (arithmetic : Arithmetic φ τ) (env : String → τ) (x : String)
    (inner d : Sentence library) :
    (d.substitute (only x inner)).meaning (.valueIn arithmetic env) 0 =
      d.meaning (.valueIn arithmetic fun name =>
        if name = x then inner.meaning (.valueIn arithmetic env) 0 else env name) 0 := by
  rw [meaning_substitute (Meaning.blind_valueIn arithmetic env)]
  congr 1
  unfold Meaning.assign Meaning.valueIn only
  congr 1
  funext name _
  by_cases h : name = x <;> simp [h]

end Derivation

/-- Putting accepted tokens in place of a variable of accepted tokens gives accepted
tokens, unless they are nested too deep, and the value is that of the tokens before
with the variable bound to the value of what was put in its place. This is so of the
values that evaluation gives, and likewise in any other arithmetic. -/
theorem accepts_substituteToken {x : String} (hname : kind x = .name)
    (hfree : library.get? x = none) {tokens inside : List String}
    {table later table' later' : Bindings} {outer inner : Expr φ}
    (houter : Accepts library tokens table outer later)
    (hinner : Accepts library inside table' inner later')
    (hopen : OpenAtMost nestingLimit (substituteToken x inside tokens)) (start : Bindings) :
    ∃ tree last, Accepts library (substituteToken x inside tokens) start tree last ∧
      (∀ env : String → Float, tree.evaluate (last.under env) =
        outer.evaluate (later.under fun name =>
          if name = x then inner.evaluate (later'.under env) else env name)) ∧
      ∀ (τ : Type) (arithmetic : Arithmetic φ τ) (env : String → τ),
        tree.valueIn arithmetic (fun id => env (last.nameAt id)) =
          outer.valueIn arithmetic fun id =>
            if later.nameAt id = x then inner.valueIn arithmetic fun id => env (later'.nameAt id)
            else env (later.nameAt id) := by
  obtain ⟨d, rfl, -, rfl, rfl⟩ := houter.sentence
  obtain ⟨b, rfl, -, rfl, rfl⟩ := hinner.sentence
  have htokens := Derivation.tokens_substitute_only hname hfree b d
  have hdepth : (d.substitute (Derivation.only x b)).depth ≤ nestingLimit := by
    rw [Derivation.depth_le_iff, htokens]
    exact hopen
  have haccepts := (d.substitute (Derivation.only x b)).accepts hdepth start
  rw [htokens] at haccepts
  refine ⟨_, _, haccepts, fun env => ?_, fun τ arithmetic env => ?_⟩
  · simp only [Expr.evaluate_eq_valueIn]
    rw [Derivation.valueIn_of_gives _ _ (Bindings.gives_under _ env),
      Derivation.valueIn_of_gives _ _ (Bindings.gives_under _ env),
      Derivation.valueIn_of_gives _ _ (Bindings.gives_under _ _),
      Derivation.meaning_substitute_only]
  · have hd := d.valueIn_of_gives arithmetic (Bindings.gives_nameAt (table.internAll d.uses)
      fun name => if name = x then b.meaning (.valueIn arithmetic env) 0 else env name)
    rw [Derivation.valueIn_of_gives _ _ (Bindings.gives_nameAt _ env),
      Derivation.valueIn_of_gives _ _ (Bindings.gives_nameAt _ env),
      Derivation.meaning_substitute_only]
    exact hd.symm

/-- The square of a variable becomes the square of a difference. -/
theorem accepts_substituteToken_square :
    ∃ outer inner tree : Expr ElementaryFunction, ∃ later later' last,
      Accepts .standard ["x", "*", "x"] .empty outer later ∧
      Accepts .standard ["y", "-", "1"] .empty inner later' ∧
      Accepts .standard ["(", "y", "-", "1", ")", "*", "(", "y", "-", "1", ")"] .empty tree last ∧
      ∀ env : String → Float, tree.evaluate (last.under env) =
        outer.evaluate (later.under fun name =>
          if name = "x" then inner.evaluate (later'.under env) else env name) := by
  have houter : Accepts .standard ["x", "*", "x"] .empty _ _ := ⟨_, rfl, rfl, rfl⟩
  have hinner : Accepts .standard ["y", "-", "1"] .empty _ _ := ⟨_, rfl, rfl, rfl⟩
  obtain ⟨tree, last, htree, hvalue, -⟩ := accepts_substituteToken (x := "x")
    (by decide) (by decide) houter hinner (by decide) .empty
  exact ⟨_, _, tree, _, _, last, houter, hinner, htree, hvalue⟩

end Evaluate

end FormulaEngine
