import FormulaEngine.Proofs.Bindings.Assigned
import FormulaEngine.Proofs.Grammar.Depth
import FormulaEngine.Proofs.Grammar.FreeNames
import FormulaEngine.Proofs.Grammar.ImplicitZero
import FormulaEngine.Proofs.Grammar.SourceOrder

/-! A tree has all tokens that it was read from. Each of them but the parentheses and commas is
one node, and the nodes stand in the order of their tokens, whatever part of a list of tokens
was read and from wherever it was. What a node is can be told by its token and the one behind
it. The only nodes besides are the zeros that are not written, one before every sign that stands
where an operand comes. -/

namespace FormulaEngine

open Token

variable {φ : Type} [Callable φ] {library : Library φ}

namespace Token

/-- The positions of the nodes that some tokens are read as, if the first of them has this
index. The flag tells whether an operand comes first; a sign there has a zero before it, and
that has no position. -/
def positionsFrom : Bool → Nat → List String → List (Option Nat)
  | _, _, [] => []
  | operandNext, i, token :: rest =>
    (if operandNext ∧ token ∈ ["+", "-"] then [none] else []) ++
      (if isNode token then [some i] else []) ++
      positionsFrom (token ∈ beforeOperand) (i + 1) rest

@[simp] theorem positionsFrom_nil (operandNext : Bool) (i : Nat) :
    positionsFrom operandNext i [] = [] := rfl

theorem positionsFrom_false (i : Nat) (token : String) (rest : List String) :
    positionsFrom false i (token :: rest) =
      (if isNode token then [some i] else []) ++
        positionsFrom (token ∈ beforeOperand) (i + 1) rest := by
  simp [positionsFrom]

/-- Where an operand comes a sign is the only token that makes a difference. -/
theorem positionsFrom_true (i : Nat) (tokens : List String) :
    positionsFrom true i tokens =
      if startsWithSign tokens then none :: positionsFrom false i tokens
      else positionsFrom false i tokens := by
  cases tokens with
  | nil => rfl
  | cons token rest =>
    rw [positionsFrom_false, positionsFrom, startsWithSign_eq_decide]
    by_cases hsign : token ∈ ["+", "-"]
    · simp only [hsign, and_self, if_true, decide_true]
      rfl
    · simp only [hsign, and_false, if_false, decide_false, Bool.false_eq_true]
      rfl

theorem positionsFrom_opening (operandNext : Bool) (i : Nat) (rest : List String) :
    positionsFrom operandNext i ("(" :: rest) = positionsFrom true (i + 1) rest := by
  simp [positionsFrom, isNode, beforeOperand]

theorem positionsFrom_closing (i : Nat) (rest : List String) :
    positionsFrom false i (")" :: rest) = positionsFrom false (i + 1) rest := by
  simp [positionsFrom, isNode, beforeOperand]

theorem positionsFrom_comma (i : Nat) (rest : List String) :
    positionsFrom false i ("," :: rest) = positionsFrom true (i + 1) rest := by
  simp [positionsFrom, isNode, beforeOperand]

theorem positionsFrom_operator (op : Operator) (i : Nat) (rest : List String) :
    positionsFrom false i (op.token :: rest) = some i :: positionsFrom true (i + 1) rest := by
  simp [positionsFrom_false, isNode, operator_beforeOperand]

/-- A numeral or a name takes the place of the operand that comes. -/
theorem positionsFrom_operand {text : String} (hk : kind text = .numeral ∨ kind text = .name)
    (i : Nat) (rest : List String) :
    positionsFrom true i (text :: rest) = some i :: positionsFrom false (i + 1) rest := by
  have hsign : startsWithSign (text :: rest) = false := by
    obtain hk | hk := hk
    · simp [startsWithSign, hk]
    · simp [startsWithSign, hk]
  have hnode : isNode text = true := by
    obtain hk | hk := hk
    · simp [isNode, hk]
    · simp [isNode, hk]
  rw [positionsFrom_true, hsign, if_neg Bool.false_ne_true, positionsFrom_false, hnode,
    not_beforeOperand hk]
  rfl

end Token

namespace Derivation

variable {part : Part} {sign : Bool}

/-- The tokens of a derivation account for its nodes, together with the sign behind it if
there is one. -/
theorem positionsFrom_tokens (ids : String → Nat) (d : Derivation library part sign) (i : Nat)
    {after : List String} (h : startsWithSign after = sign) :
    positionsFrom true i (d.tokens ++ after) =
      (d.nodes ids i).map (·.2) ++ positionsFrom false (i + d.tokens.length) after := by
  induction d generalizing i after with
  | last operand ih => exact ih i h
  | @join tier sign operand op isOfTier rest iho ihr =>
    have hsign (more : List String) : startsWithSign (op.token :: more) = tier.isSign := by
      rw [startsWithSign_token, Tier.mem_operators_iff.mp isOfTier]
    rw [tokens, List.append_assoc, List.cons_append, iho i (hsign _), positionsFrom_operator,
      ihr _ h, nodes]
    simp [Nat.add_assoc, Nat.add_comm 1]
  | numeral text isNumeral => exact positionsFrom_operand (.inl isNumeral) i after
  | var text isName isFree => exact positionsFrom_operand (.inr isName) i after
  | zero =>
    rw [tokens, List.nil_append, positionsFrom_true, if_pos h]
    rfl
  | group inner ih =>
    rw [tokens, List.cons_append, List.append_assoc, List.singleton_append, positionsFrom_opening,
      ih (i + 1) (startsWithSign_closing after), positionsFrom_closing, nodes]
    simp [Nat.add_assoc, Nat.add_comm 1]
  | call text f isName isRegistered args ih =>
    rw [tokens, List.cons_append, List.cons_append, List.append_assoc, List.singleton_append,
      positionsFrom_operand (.inr isName), positionsFrom_opening,
      ih (i + 2) (startsWithSign_closing after), positionsFrom_closing, nodes]
    simp [Nat.add_assoc, Nat.add_comm 2]
  | noArguments =>
    rw [tokens, List.nil_append, positionsFrom_true, h]
    rfl
  | someArguments list ih => exact ih i h
  | one argument ih => exact ih i h
  | more argument rest iha ihr =>
    rw [tokens, List.append_assoc, List.cons_append, iha i (startsWithSign_comma _),
      positionsFrom_comma, ihr _ h, nodes]
    simp [Nat.add_assoc, Nat.add_comm 1]

end Derivation

section Indices

variable (tokens : List String) (first : Nat)

/-- The token at an index is read as a node. -/
def Token.nodeAt (i : Nat) : Bool := tokens[i]? ∉ [some "(", some ")", some ","]

/-- The token at an index is a sign that stands where an operand comes, if reading begins at the
first of these indices. -/
def Token.zeroAt (i : Nat) : Bool :=
  tokens[i]? ∈ [some "+", some "-"] ∧ (i = first ∨ tokens[i - 1]? ∈ beforeOperand.map some)

/-- The positions of the nodes that the token at an index is read as. -/
def Token.positionsAt (i : Nat) : List (Option Nat) :=
  (if zeroAt tokens first i then [none] else []) ++ if nodeAt tokens i then [some i] else []

variable {tokens first}

theorem Token.nodeAt_eq {i : Nat} {token : String} (h : tokens[i]? = some token) :
    nodeAt tokens i = isNode token := by
  rw [nodeAt, h, Bool.eq_iff_iff, decide_eq_true_iff, isNode]
  cases hk : kind token with
  | opening => simp [kind_eq_opening_iff.mp hk]
  | closing => simp [kind_eq_closing_iff.mp hk]
  | comma => simp [kind_eq_comma_iff.mp hk]
  | operator | numeral | name =>
    simp only [iff_true]
    intro hmem
    simp only [List.mem_cons, Option.some.injEq, List.not_mem_nil, or_false] at hmem
    obtain rfl | rfl | rfl := hmem
    · simp at hk
    · simp at hk
    · simp at hk

/-- The positions of a part of the tokens, index by index. -/
theorem Token.positionsFrom_eq {segment rest : List String} {i : Nat}
    (h : tokens.drop i = segment ++ rest) (hle : first ≤ i) :
    positionsFrom (i = first ∨ tokens[i - 1]? ∈ beforeOperand.map some) i segment =
      (List.range' i segment.length).flatMap (positionsAt tokens first) := by
  induction segment generalizing i with
  | nil => rfl
  | cons token segment ih =>
    have htoken : tokens[i]? = some token := by
      rw [← List.head?_drop, h]
      rfl
    have hdrop : tokens.drop (i + 1) = segment ++ rest := by
      rw [← List.tail_drop, h]
      rfl
    have hnext := ih hdrop (Nat.le_succ_of_le hle)
    have hflag : (i + 1 = first ∨ tokens[i + 1 - 1]? ∈ beforeOperand.map some) ↔
        token ∈ beforeOperand := by
      rw [Nat.add_sub_cancel, htoken]
      have hne : i + 1 ≠ first := by omega
      simp [hne]
    rw [decide_eq_decide.mpr hflag] at hnext
    rw [positionsFrom, List.length_cons, List.range'_succ, List.flatMap_cons, hnext, positionsAt,
      nodeAt_eq htoken, zeroAt, htoken]
    simp [and_comm]

/-- With the unwritten zeros left out there are the tokens that are nodes. -/
theorem Token.filterMap_positionsAt (indices : List Nat) :
    (indices.flatMap (positionsAt tokens first)).filterMap id = indices.filter (nodeAt tokens) := by
  induction indices with
  | nil => rfl
  | cons i rest ih =>
    rw [List.flatMap_cons, List.filterMap_append, ih, positionsAt, List.filter_cons]
    cases zeroAt tokens first i <;> cases nodeAt tokens i <;> rfl

theorem Token.countP_positionsAt (indices : List Nat) :
    (indices.flatMap (positionsAt tokens first)).countP Option.isNone =
      indices.countP (zeroAt tokens first) := by
  induction indices with
  | nil => rfl
  | cons i rest ih =>
    rw [List.flatMap_cons, List.countP_append, ih, positionsAt, List.countP_cons]
    cases zeroAt tokens first i <;> cases nodeAt tokens i <;> simp [Nat.add_comm]

end Indices

/-- What the node at an index is, told by the tokens there. The table has the variables. -/
def Token.NodeAt (library : Library φ) (tokens : List String) (table : Bindings) (i : Nat)
    (label : Label φ) : Prop :=
  ∃ text, tokens[i]? = some text ∧
    match kind text with
    | .numeral => label = .number (numeralValue text)
    | .operator op => label = .binary op.symbol
    | .name =>
      match library.get? text with
      | none => ∃ id, label = .var id ∧ table.names[id]? = some text
      | some f => (∃ argCount, label = .call f argCount) ∧ tokens[i + 1]? = some "("
    | .opening | .closing | .comma => False

/-- A tree has the tokens from one index up to another as its nodes. -/
structure Covers (library : Library φ) (tokens : List String) (first last : Nat)
    (table : Bindings) (tree : Expr φ) : Prop where
  /-- The nodes with positions stand at all tokens that are no parentheses and no commas, in
  their order. -/
  positions : tree.sourceOrder.filterMap (·.2) =
    (List.range' first (last - first)).filter (nodeAt tokens)
  nodes : ∀ label i, (label, some i) ∈ tree.sourceOrder → NodeAt library tokens table i label
  zeros : ∀ label, (label, none) ∈ tree.sourceOrder → label = .number 0
  /-- Of the signs that stand where an operand comes, each has one zero. -/
  zeroCount : tree.sourceOrder.countP (·.2.isNone) =
    (List.range' first (last - first)).countP (zeroAt tokens first)
  /-- The zero is right before its sign. -/
  zeroPlaces : tree.sourceOrder.map (·.2) =
    (List.range' first (last - first)).flatMap (positionsAt tokens first)

namespace Derivation

/-- The nodes of the tree of a derivation are told by its tokens. -/
theorem nodeAt_tree {d : Sentence library} {tokens rest : List String} {first : Nat}
    (h : tokens.drop first = d.tokens ++ rest) {table : Bindings} {label : Label φ} {i : Nat}
    (hnode : (label, some i) ∈ (d.tree (table.internAll d.uses).indexOf first).sourceOrder) :
    NodeAt library tokens (table.internAll d.uses) i label := by
  have hat {j : Nat} {text : String} (hj : d.tokens[j]? = some text) :
      tokens[first + j]? = some text := by
    rw [← List.getElem?_drop, h, List.getElem?_append_left (List.getElem?_eq_some_iff.mp hj).1, hj]
  rw [sourceOrder_tree] at hnode
  obtain hzero | ⟨text, _, htext, hread, ⟨⟩⟩ := toldBy_of_mem_nodes hnode
  · cases hzero
  obtain ⟨hle, htext⟩ := List.mk_mem_zipIdx_iff_le_and_getElem?_sub.mp htext
  obtain ⟨j, rfl⟩ := Nat.exists_eq_add_of_le hle
  rw [Nat.add_sub_cancel_left] at htext
  refine ⟨text, hat htext, ?_⟩
  cases hread with
  | numeral isNumeral => simp only [isNumeral]
  | operator op isOperator =>
    subst isOperator
    simp only [kind_token]
  | var isName isFree =>
    have huse : text ∈ d.uses := by
      rw [d.uses_eq_freeNames]
      exact mem_freeNames.mpr ⟨List.mem_of_getElem? htext, isName, isFree⟩
    obtain ⟨id, hid⟩ := Bindings.idOf?_internAll table huse
    simp only [isName, isFree]
    exact ⟨id, congrArg Label.var (Bindings.indexOf_eq hid), Bindings.getElem?_names_of_idOf? hid⟩
  | call f argCount isName isRegistered =>
    have hfunction : NamesFunction library text :=
      ⟨isName, by rw [Library.contains, isRegistered]; rfl⟩
    simp only [isName, isRegistered]
    exact ⟨⟨argCount, rfl⟩, hat (d.callsOpen j text htext hfunction)⟩

theorem covers (d : Sentence library) {tokens rest : List String} {first : Nat}
    (h : tokens.drop first = d.tokens ++ rest) (table : Bindings) :
    Covers library tokens first (first + d.tokens.length) (table.internAll d.uses)
      (d.tree (table.internAll d.uses).indexOf first) := by
  have hplaces : (d.tree (table.internAll d.uses).indexOf first).sourceOrder.map (·.2) =
      (List.range' first d.tokens.length).flatMap (positionsAt tokens first) := by
    have hnodes := d.positionsFrom_tokens (table.internAll d.uses).indexOf first
      (show startsWithSign [] = false from rfl)
    have hindices := positionsFrom_eq h (Nat.le_refl first)
    rw [decide_eq_true (.inl rfl)] at hindices
    rw [List.append_nil, hindices, positionsFrom_nil, List.append_nil] at hnodes
    rw [sourceOrder_tree, hnodes]
  rw [← Nat.add_sub_cancel_left (n := first) (m := d.tokens.length)] at hplaces
  refine ⟨?_, fun label i => nodeAt_tree h, ?_, ?_, hplaces⟩
  · rw [← filterMap_positionsAt, ← hplaces, List.filterMap_map]
    rfl
  · intro label hnode
    rw [sourceOrder_tree] at hnode
    obtain hzero | ⟨text, j, -, -, ⟨⟩⟩ := toldBy_of_mem_nodes hnode
    exact (Prod.mk.inj hzero).1
  · rw [← countP_positionsAt, ← hplaces, List.countP_map]
    rfl

end Derivation

/-- Whatever part of some tokens is read as an expression, from whatever index on and with
whatever variables and levels left, the tree has each of these tokens that is no parenthesis and
no comma as one node, and beyond that one zero for each sign that stands where an operand
comes. -/
theorem read_covers (library : Library φ) (tokens : List String) (table : Bindings)
    (first room : Nat) {tree : Expr φ} {after : Reader φ}
    (h : (⟨tokens, library, ⟨first, tokens.drop first, table⟩, room⟩ : Reader φ).read .expression =
      (.ok tree, after)) :
    first ≤ after.cursor.index ∧ after.cursor.index ≤ tokens.length ∧
      after.cursor.rest = tokens.drop after.cursor.index ∧
      Covers library tokens first after.cursor.index after.cursor.bindings tree := by
  obtain ⟨last, hread, rfl⟩ := Reader.read_eq_ok_iff.mp h
  obtain ⟨d, htokens, -, -, rfl, hlast⟩ := Reading.derived_of_expression hread
  have hindex : last.index = first + d.tokens.length := congrArg Cursor.index hlast
  have htable : last.bindings = table.internAll d.uses := congrArg Cursor.bindings hlast
  have hlt : first < tokens.length := by
    refine Nat.lt_of_not_le fun hle => ?_
    rw [List.drop_eq_nil_of_le hle] at hread
    have hend := (Reading.bounded_ofLevel library room (.series .additive)).ofEnd
      (c := ⟨first, [], table⟩) rfl
    cases hread.symm.trans hend
  have hlength := congrArg List.length htokens
  rw [List.length_drop, List.length_append] at hlength
  have hrest : last.rest = tokens.drop last.index := by
    rw [hindex, ← List.drop_drop, htokens, List.drop_left]
  change first ≤ last.index ∧ last.index ≤ tokens.length ∧ _ ∧ Covers _ _ _ last.index _ _
  refine ⟨by omega, by omega, hrest, ?_⟩
  rw [hindex, htable]
  exact d.covers htokens table

/-- From the second token on, up to the comma. The sign behind the star has a zero. -/
theorem read_covers_difference :
    let tokens := ["(", "a", "*", "-", "max", "(", ")", ",", "b"]
    let reader : Reader ElementaryFunction :=
      ⟨tokens, .ofList [.max], ⟨1, tokens.drop 1, .empty⟩, 3⟩
    ∃ tree after, reader.read .expression = (.ok tree, after) ∧
      tree.sourceOrder.filterMap (·.2) = [1, 2, 3, 4] ∧
      tree.sourceOrder.map (·.2) = [some 1, some 2, none, some 3, some 4] := by
  intro tokens reader
  have hread : reader.read .expression = (.ok (.binary '-' (some 3)
      (.binary '*' (some 2) (.var 0 (some 1)) (.number 0 none)) (.call .max (some 4) [])),
    ⟨tokens, .ofList [.max], ⟨7, [",", "b"], ⟨[⟨"a", none⟩]⟩⟩, 3⟩) := rfl
  obtain ⟨-, -, -, hcovers⟩ :=
    read_covers (.ofList [ElementaryFunction.max]) tokens .empty 1 3 hread
  refine ⟨_, _, hread, hcovers.positions.trans ?_, hcovers.zeroPlaces.trans ?_⟩
  · decide
  · decide

end FormulaEngine
