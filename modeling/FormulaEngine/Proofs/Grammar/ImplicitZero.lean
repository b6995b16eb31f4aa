import FormulaEngine.Proofs.Expr.Outline
import FormulaEngine.Proofs.Grammar.Acceptance
import FormulaEngine.Proofs.Grammar.Locality

/-! The zero before a sign that stands for an operand can be written out. Two readings, one
of the tokens as they are and one of the tokens with these zeros, go side by side: they
stand before the same tokens, but for the zero that the one is about to take and the other
does without. So they come to the same end, be it a tree or an error, and only the indices
of the tokens tell them apart. -/

namespace FormulaEngine

open Token

/-- The tokens behind which an operand comes. -/
def beforeOperand : List String := ["(", ",", "+", "-", "*", "/"]

/-- The tokens with a zero before every sign that stands where an operand comes. The flag
tells whether one comes first. -/
def withZeros : Bool → List String → List String
  | _, [] => []
  | operandNext, token :: rest =>
    let marked := token :: withZeros (token ∈ beforeOperand) rest
    if operandNext ∧ token ∈ ["+", "-"] then "0" :: marked else marked

/-- How many zeros are written. -/
def zeroCount : Bool → List String → Nat
  | _, [] => 0
  | operandNext, token :: rest =>
    (if operandNext ∧ token ∈ ["+", "-"] then 1 else 0) + zeroCount (token ∈ beforeOperand) rest

/-- Where a token is among the zeros. -/
def zeroedIndex (tokens : List String) (i : Nat) : Nat := i + zeroCount true (tokens.take (i + 1))

@[simp] theorem withZeros_nil (operandNext : Bool) : withZeros operandNext [] = [] := rfl

@[simp] theorem withZeros_false_cons (token : String) (rest : List String) :
    withZeros false (token :: rest) = token :: withZeros (token ∈ beforeOperand) rest := by
  simp [withZeros]

theorem startsWithSign_eq_decide (token : String) (rest : List String) :
    startsWithSign (token :: rest) = decide (token ∈ ["+", "-"]) := by
  have hsign (op : Operator) (ht : op.tier = .additive) : op.token ∈ ["+", "-"] := by
    cases op with
    | add | sub => decide
    | mul | div => cases ht
  rw [Bool.eq_iff_iff, decide_eq_true_iff]
  constructor
  · intro h
    simp only [startsWithSign, List.head?_cons, Option.map_some] at h
    cases hk : kind token with
    | operator op =>
      rw [hk] at h
      rw [kind_eq_operator_iff.mp hk]
      exact hsign op (Tier.isSign_iff.mp h)
    | opening | closing | comma | numeral | name =>
      rw [hk] at h
      cases h
  · intro h
    rcases List.mem_pair.mp h with rfl | rfl
    · exact startsWithSign_token .add rest
    · exact startsWithSign_token .sub rest

/-- A zero is written exactly before a sign. -/
theorem withZeros_true (tokens : List String) :
    withZeros true tokens =
      if startsWithSign tokens then "0" :: withZeros false tokens else withZeros false tokens := by
  cases tokens with
  | nil => rfl
  | cons token rest => simp [withZeros, startsWithSign_eq_decide]

theorem length_withZeros (operandNext : Bool) (tokens : List String) :
    (withZeros operandNext tokens).length = tokens.length + zeroCount operandNext tokens := by
  induction tokens generalizing operandNext with
  | nil => rfl
  | cons token rest ih =>
    rw [withZeros, zeroCount]
    split <;> simp only [List.length_cons, ih] <;> omega

/-- The zeros up to a token and those behind it are all. -/
theorem zeroCount_split (operandNext : Bool) (tokens : List String) (i : Nat) :
    zeroCount operandNext tokens =
      zeroCount operandNext (tokens.take (i + 1)) + zeroCount false (tokens.drop i) := by
  induction tokens generalizing operandNext i with
  | nil => simp [zeroCount]
  | cons token rest ih =>
    cases i with
    | zero => simp [zeroCount]
    | succ i =>
      rw [List.take_succ_cons, List.drop_succ_cons, zeroCount, zeroCount, ih _ i, Nat.add_assoc]

/-- A token is moved by the zeros before it. -/
theorem getElem?_withZeros (operandNext : Bool) (tokens : List String) (i : Nat) :
    (withZeros operandNext tokens)[i + zeroCount operandNext (tokens.take (i + 1))]? =
      tokens[i]? := by
  induction tokens generalizing operandNext i with
  | nil => simp
  | cons token rest ih =>
    have hrest (j : Nat) : (token :: withZeros (token ∈ beforeOperand) rest)[j +
        zeroCount (token ∈ beforeOperand) (rest.take j)]? = (token :: rest)[j]? := by
      cases j with
      | zero => simp [zeroCount]
      | succ j =>
        rw [Nat.add_right_comm, List.getElem?_cons_succ, List.getElem?_cons_succ, ih]
    rw [withZeros, List.take_succ_cons, zeroCount]
    split
    next => rw [Nat.add_left_comm, Nat.add_comm 1, List.getElem?_cons_succ, hrest]
    next => rw [Nat.zero_add, hrest]

example : withZeros true ["2", "*", "-", "-", "x"] = ["2", "*", "0", "-", "0", "-", "x"] := by
  decide

theorem not_beforeOperand {token : String} (h : kind token = .numeral ∨ kind token = .name) :
    decide (token ∈ beforeOperand) = false := by
  have hkinds : ∀ text ∈ beforeOperand, ¬ (kind text = .numeral ∨ kind text = .name) := by decide
  exact decide_eq_false fun hm => hkinds token hm h

theorem operator_beforeOperand (op : Operator) : decide (op.token ∈ beforeOperand) = true := by
  cases op <;> decide

namespace Cursor

/-- The same place in the tokens and in those with zeros. The flag tells whether an operand
comes next. -/
structure Zeroed (operandNext : Bool) (c c' : Cursor) : Prop where
  rest : c'.rest = withZeros operandNext c.rest
  bindings : c'.bindings = c.bindings

namespace Zeroed

variable {c c' : Cursor}

theorem head? (h : Zeroed false c c') : c'.rest.head? = c.rest.head? := by
  rw [h.rest]
  cases c.rest with
  | nil => rfl
  | cons token rest => rw [withZeros_false_cons, List.head?_cons, List.head?_cons]

theorem cons (h : Zeroed false c c') {token : String} {rest : List String}
    (hr : c.rest = token :: rest) :
    c'.rest = token :: withZeros (token ∈ beforeOperand) rest := by
  rw [h.rest, hr, withZeros_false_cons]

/-- Whether an operand comes next is told by the token that is taken. -/
theorem advance (h : Zeroed false c c') {token : String} {rest : List String}
    (hr : c.rest = token :: rest) {operandNext : Bool}
    (hnext : decide (token ∈ beforeOperand) = operandNext) :
    Zeroed operandNext c.advance c'.advance := by
  refine ⟨?_, h.bindings⟩
  rw [advance_rest, advance_rest, h.cons hr, hr, List.tail_cons, List.tail_cons, hnext]

theorem of_not_sign (h : Zeroed true c c') (hs : startsWithSign c.rest = false) :
    Zeroed false c c' := by
  refine ⟨?_, h.bindings⟩
  rw [h.rest, withZeros_true, hs]
  rfl

/-- Before a sign there is a zero to take. -/
theorem of_sign (h : Zeroed true c c') (hs : startsWithSign c.rest = true) :
    (∃ rest, c'.rest = "0" :: rest) ∧ Zeroed false c c'.advance := by
  have hrest : c'.rest = "0" :: withZeros false c.rest := by
    rw [h.rest, withZeros_true, hs]
    rfl
  refine ⟨⟨_, hrest⟩, ?_, h.bindings⟩
  rw [advance_rest, hrest, List.tail_cons]

end Zeroed

end Cursor

/-- Trees that differ in positions only. -/
def Expr.Alike {φ : Type} (a b : Expr φ) : Prop :=
  a.relocate (fun _ => none) = b.relocate (fun _ => none)

/-- The same of all trees of two lists. -/
def Expr.AlikeAll {φ : Type} (as bs : List (Expr φ)) : Prop :=
  as.map (relocate fun _ => none) = bs.map (relocate fun _ => none)

namespace Reading

/-- Both read something, and the values are related, or both stop for the same cause with
the same levels left. Behind it they are at the same place. -/
inductive Outcome {α : Type} (related : α → α → Prop) :
    Except Stop (α × Cursor) → Except Stop (α × Cursor) → Prop
  | ok {a a' : α} {next next' : Cursor} (value : related a a')
      (cursor : next.Zeroed false next') : Outcome related (.ok (a, next)) (.ok (a', next'))
  | error {cause : Cause} {room : Nat} {c c' : Cursor} (cursor : c.Zeroed false c') :
      Outcome related (.error ⟨cause, c, room⟩) (.error ⟨cause, c', room⟩)

namespace Outcome

variable {α β : Type} {related : α → α → Prop} {related' : β → β → Prop}

theorem bind {x x' : Except Stop (α × Cursor)} {f f' : α × Cursor → Except Stop (β × Cursor)}
    (h : Outcome related x x')
    (hnext : ∀ ⦃a a' next next'⦄, x = .ok (a, next) → related a a' → next.Zeroed false next' →
      Outcome related' (f (a, next)) (f' (a', next'))) :
    Outcome related' (x >>= f) (x' >>= f') := by
  cases h with
  | ok value cursor => exact hnext rfl value cursor
  | error cursor => exact .error cursor

/-- A symbol that has to be there, and what is read behind it. -/
theorem pass {symbol : Char} {k : Kind} (hk : symbolKind? symbol = some k) {room : Nat}
    {c c' : Cursor} (hc : c.Zeroed false c') {f f' : Cursor → Except Stop (α × Cursor)}
    (hnext : c.kind? = some k → Outcome related (f c.advance) (f' c'.advance)) :
    Outcome related (c.pass symbol room >>= f) (c'.pass symbol room >>= f') := by
  unfold Cursor.pass
  rw [Cursor.kind?_congr hc.head?, hk]
  split
  next hkind => exact hnext hkind
  next => exact .error hc

end Outcome

variable {φ : Type}

/-- A reading of an operand makes nothing of a zero before a sign. -/
def IgnoresZeros (reading : Reading φ) : Prop :=
  ∀ ⦃c c' : Cursor⦄, c.Zeroed true c' → Outcome Expr.Alike (reading c) (reading c')

namespace IgnoresZeros

variable {tier : Tier} {room : Nat} {operand argument : Reading φ}

theorem seriesRest (hs : Bounded room operand) (ho : IgnoresZeros operand) {left left' : Expr φ}
    (hleft : left.Alike left') {c c' : Cursor} (hc : c.Zeroed false c') :
    Outcome Expr.Alike (seriesRest tier operand c.rest left c)
      (seriesRest tier operand c'.rest left' c') := by
  induction c using hs.induction_operand tier generalizing left left' c' with
  | round c ih =>
    rw [seriesRest_eq hs, seriesRest_eq hs, Cursor.operator?_congr hc.head?]
    cases hop : c.operator? tier with
    | none => exact .ok hleft hc
    | some op =>
      obtain ⟨-, rest, hr⟩ := Cursor.operator?_eq_some_iff.mp hop
      refine (ho (hc.advance hr (operator_beforeOperand op))).bind ?_
      intro right right' next next' hread hright hnext
      refine ih hop hread ?_ hnext
      unfold Expr.Alike at hleft hright ⊢
      rw [Expr.relocate_binary, Expr.relocate_binary, hleft, hright]

theorem ended {tree tree' : Expr φ} (htree : tree.Alike tree') {c c' : Cursor}
    (hc : c.Zeroed false c') :
    Outcome Expr.Alike (ended tier room tree c) (ended tier room tree' c') := by
  cases hr : c.rest with
  | nil =>
    have hr' : c'.rest = [] := by rw [hc.rest, hr, withZeros_nil]
    rw [Reading.ended, Reading.ended, hr, hr']
    exact .ok htree hc
  | cons token rest =>
    rw [Reading.ended, Reading.ended, hr, hc.cons hr]
    simp only
    split
    next => exact .ok htree hc
    next => exact .error hc

theorem series (hs : Bounded room operand) (ho : IgnoresZeros operand) :
    IgnoresZeros (series tier room operand) := by
  intro c c' hc
  rw [series_eq, series_eq]
  refine (ho hc).bind ?_
  intro first first' next next' _ hfirst hnext
  refine (ho.seriesRest hs hfirst hnext).bind ?_
  intro tree tree' last last' _ htree hlast
  exact ended htree hlast

theorem argumentsRest (hs : Bounded room argument) (ha : IgnoresZeros argument)
    {done done' : List (Expr φ)} (hdone : Expr.AlikeAll done done') {c c' : Cursor}
    (hc : c.Zeroed true c') :
    Outcome Expr.AlikeAll (argumentsRest room argument c.rest done c)
      (argumentsRest room argument c'.rest done' c') := by
  induction c using hs.induction_argument generalizing done done' c' with
  | round c ih =>
    rw [argumentsRest_eq hs, argumentsRest_eq hs]
    refine (ha hc).bind ?_
    intro tree tree' next next' hread htree hnext
    have hdone' : Expr.AlikeAll (tree :: done) (tree' :: done') := congrArg₂ List.cons htree hdone
    have hkind := Cursor.kind?_congr hnext.head?
    by_cases hcomma : next.kind? = some .comma
    · obtain ⟨rest, hr⟩ := Cursor.kind?_eq_comma_iff.mp hcomma
      rw [nextArgument_comma hcomma, nextArgument_comma (hkind.trans hcomma)]
      exact ih hread hcomma hdone' (hnext.advance hr (by decide))
    by_cases hclosing : next.kind? = some .closing
    · obtain ⟨rest, hr⟩ := Cursor.kind?_eq_closing_iff.mp hclosing
      rw [nextArgument_closing hclosing, nextArgument_closing (hkind.trans hclosing)]
      refine .ok ?_ (hnext.advance hr (by decide))
      rw [Expr.AlikeAll, List.map_reverse, hdone', List.map_reverse]
    · rw [nextArgument_other hcomma hclosing,
        nextArgument_other (hkind ▸ hcomma) (hkind ▸ hclosing)]
      exact .error hnext

theorem kind?_closing_iff {c c' : Cursor} (hc : c.Zeroed true c') :
    c'.kind? = some .closing ↔ c.kind? = some .closing := by
  cases hs : startsWithSign c.rest with
  | false => rw [Cursor.kind?_congr (hc.of_not_sign hs).head?]
  | true =>
    obtain ⟨⟨rest, hr⟩, -⟩ := hc.of_sign hs
    constructor
    · intro h
      rw [Cursor.kind?, hr] at h
      cases h
    · intro h
      obtain ⟨rest', hr'⟩ := Cursor.kind?_eq_closing_iff.mp h
      rw [hr', startsWithSign_closing] at hs
      cases hs

theorem arguments (hs : Bounded room argument) (ha : IgnoresZeros argument) {c c' : Cursor}
    (hc : c.Zeroed true c') :
    Outcome Expr.AlikeAll (arguments room argument c) (arguments room argument c') := by
  unfold Reading.arguments
  by_cases hclosing : c.kind? = some .closing
  · obtain ⟨rest, hr⟩ := Cursor.kind?_eq_closing_iff.mp hclosing
    rw [if_pos hclosing, if_pos ((kind?_closing_iff hc).mpr hclosing)]
    exact .ok rfl ((hc.of_not_sign (by rw [hr, startsWithSign_closing])).advance hr (by decide))
  · rw [if_neg hclosing, if_neg ((kind?_closing_iff hc).not.mpr hclosing)]
    exact ha.argumentsRest hs rfl hc

theorem group {inner? : Option (Reading φ)} (hi : ∀ inner ∈ inner?, IgnoresZeros inner)
    {c c' : Cursor} (hc : c.Zeroed false c') {rest : List String} (hr : c.rest = "(" :: rest) :
    Outcome Expr.Alike (group room inner? c) (group room inner? c') := by
  cases inner? with
  | none => exact .error hc
  | some inner =>
    refine (hi inner rfl (hc.advance hr (by decide))).bind ?_
    intro tree tree' next next' _ htree hnext
    refine .pass symbolKind?_closing hnext ?_
    intro hk
    obtain ⟨rest', hr'⟩ := Cursor.kind?_eq_closing_iff.mp hk
    exact .ok htree (hnext.advance hr' (by decide))

variable [Callable φ] {library : Library φ} {inner? : Option (Reading φ)}

theorem callWith (hi : ∀ inner ∈ inner?, Bounded (room - 1) inner ∧ IgnoresZeros inner)
    {c c' : Cursor} (hc : c.Zeroed false c') {name : String} {rest : List String}
    (hr : c.rest = name :: rest) (hk : kind name = .name) :
    Outcome Expr.Alike (callWith library room inner? c) (callWith library room inner? c') := by
  unfold Reading.callWith
  rw [hr, hc.cons hr]
  simp only
  cases library.get? name with
  | none => exact .error hc
  | some f =>
    cases inner? with
    | none => exact .error hc
    | some inner =>
      obtain ⟨hs, ha⟩ := hi inner rfl
      have hname := hc.advance hr (not_beforeOperand (.inr hk))
      refine .pass symbolKind?_opening hname ?_
      intro hopen
      obtain ⟨rest', hr'⟩ := Cursor.kind?_eq_opening_iff.mp hopen
      refine (ha.arguments hs (hname.advance hr' (by decide))).bind ?_
      intro args args' last last' _ hargs hlast
      refine .ok ?_ hlast
      unfold Expr.AlikeAll at hargs
      rw [Expr.Alike, Expr.relocate_call, Expr.relocate_call, hargs]

/-- A name that is no function is told from a call by the token behind it, which is the
same for both. -/
theorem freeName {c c' : Cursor} (hc : c.Zeroed false c') {name : String} {rest : List String}
    (hr : c.rest = name :: rest) (hk : kind name = .name)
    (hf : library.contains name = false) :
    Outcome Expr.Alike (factorWith library room inner? c) (factorWith library room inner? c') := by
  have hadvance := hc.advance hr (not_beforeOperand (.inr hk))
  have hr' := hc.cons hr
  rw [not_beforeOperand (.inr hk)] at hr'
  have hhead : (withZeros false rest).head? = rest.head? := by
    have hhead := hadvance.head?
    rwa [Cursor.advance_rest, Cursor.advance_rest, hr, hr'] at hhead
  unfold Reading.factorWith
  simp only [hr, hr', hk, hf, hhead, hc.bindings, Bool.false_eq_true, if_false]
  split
  next => exact .error hc
  next =>
    refine .ok ?_ ⟨hadvance.rest, rfl⟩
    rw [Expr.Alike, Expr.relocate_var, Expr.relocate_var]

theorem factorWith (hi : ∀ inner ∈ inner?, Bounded (room - 1) inner ∧ IgnoresZeros inner) :
    IgnoresZeros (factorWith library room inner?) := by
  intro c c' hc
  cases hsign : startsWithSign c.rest with
  | true =>
    -- one reading takes nothing here, the other takes the zero
    obtain ⟨⟨rest, hr⟩, hnext⟩ := hc.of_sign hsign
    have hzero : Reading.factorWith library room inner? c' =
        .ok (.number (numeralValue "0") (some c'.index), c'.advance) := by
      obtain ⟨index, tokens, table⟩ := c'
      obtain rfl : tokens = "0" :: rest := hr
      exact factorWith_of_numeral (by decide)
    rw [factorWith_of_sign hsign, hzero]
    refine .ok ?_ hnext
    rw [Expr.Alike, Expr.relocate_number, Expr.relocate_number]
    rfl
  | false =>
    replace hc := hc.of_not_sign hsign
    cases hr : c.rest with
    | nil =>
      unfold Reading.factorWith
      rw [hc.rest, hr, withZeros_nil]
      exact .error hc
    | cons token rest =>
      cases hk : kind token with
      | operator op =>
        have ht : op.tier ≠ .additive := by
          intro ht
          rw [hr, kind_eq_operator_iff.mp hk, startsWithSign_token, ht] at hsign
          cases hsign
        simp only [Reading.factorWith, hr, hc.cons hr, hk, if_neg ht]
        exact .error hc
      | closing | comma =>
        simp only [Reading.factorWith, hr, hc.cons hr, hk]
        exact .error hc
      | opening =>
        simp only [Reading.factorWith, hr, hc.cons hr, hk]
        exact group (fun inner hin => (hi inner hin).2) hc (kind_eq_opening_iff.mp hk ▸ hr)
      | numeral =>
        simp only [Reading.factorWith, hr, hc.cons hr, hk]
        refine .ok ?_ (hc.advance hr (not_beforeOperand (.inl hk)))
        rw [Expr.Alike, Expr.relocate_number, Expr.relocate_number]
      | name =>
        cases hf : library.contains token with
        | true =>
          simp only [Reading.factorWith, hr, hc.cons hr, hk, hf, if_true]
          exact callWith hi hc hr hk
        | false => exact freeName hc hr hk hf

end IgnoresZeros

theorem ignoresZeros_ofLevel {φ : Type} [Callable φ] (library : Library φ) (room : Nat)
    (level : Level) : IgnoresZeros (ofLevel library room level) := by
  refine Level.induction (P := fun room level => IgnoresZeros (ofLevel library room level))
    ?_ ?_ room level
  · intro room hinner
    refine .factorWith ?_
    intro inner hin
    obtain ⟨deeper, rfl, rfl⟩ := inside?_eq_some_iff.mp hin
    exact ⟨bounded_ofLevel library deeper _, hinner deeper rfl⟩
  · intro room tier hoperand
    rw [ofLevel_series]
    exact .series (bounded_ofLevel library room _) hoperand

/-- The cursors are apart by the zeros that are before them. -/
theorem index_of_zeroed {tokens : List String} {table : Bindings} {c c' : Cursor}
    (h : c.Zeroed false c') (hreach : Cursor.Reaches ⟨0, tokens, table⟩ c)
    (hreach' : Cursor.Reaches ⟨0, withZeros true tokens, table⟩ c') :
    c'.index = zeroedIndex tokens c.index := by
  have hlen := hreach.length_eq
  have hlen' := hreach'.length_eq
  have hsplit := zeroCount_split true tokens c.index
  rw [h.rest, length_withZeros, length_withZeros] at hlen'
  rw [← hreach.take_drop.2] at hsplit
  unfold zeroedIndex
  omega

end Reading

/-- Writing out the zeros before signs in operand position changes nothing but the indices
of the tokens. Either both lists are read as trees that are equal but for positions, or both
fail for the same cause. In both cases the variables met so far are the same, and the
token that is next, or that the error is at, is the same token. -/
theorem read_withZeros {φ : Type} [Callable φ] [DecidableEq φ] (library : Library φ)
    (tokens : List String) (table : Bindings) :
    let plain := (Reader.start library tokens table).read .expression
    let zeroed := (Reader.start library (withZeros true tokens) table).read .expression
    (∀ i, (withZeros true tokens)[zeroedIndex tokens i]? = tokens[i]?) ∧
      zeroed.2.cursor.bindings = plain.2.cursor.bindings ∧
      zeroed.2.cursor.index = zeroedIndex tokens plain.2.cursor.index ∧
      ((∃ tree tree', plain.1 = .ok tree ∧ zeroed.1 = .ok tree' ∧ (tree == tree') = true) ∨
        ∃ cause i, plain.1 = .error (.atToken cause tokens (some i)) ∧
          zeroed.1 =
            .error (.atToken cause (withZeros true tokens) (some (zeroedIndex tokens i)))) := by
  have hstart : Cursor.Zeroed true ⟨0, tokens, table⟩ ⟨0, withZeros true tokens, table⟩ :=
    ⟨rfl, rfl⟩
  have houtcome :=
    Reading.ignoresZeros_ofLevel library nestingLimit (.series .additive) hstart
  have hlocal := Reading.localAt_ofLevel library nestingLimit (.series .additive)
  have hphrase : Reading.ofPhrase library nestingLimit .expression =
      Reading.ofLevel library nestingLimit (.series .additive) := rfl
  refine ⟨fun i => getElem?_withZeros true tokens i, ?_⟩
  unfold Reader.read
  simp only [Reader.start, hphrase]
  generalize hplain : Reading.ofLevel library nestingLimit (.series .additive)
    ⟨0, tokens, table⟩ = plain at houtcome
  generalize hzeroed : Reading.ofLevel library nestingLimit (.series .additive)
    ⟨0, withZeros true tokens, table⟩ = zeroed at houtcome
  cases houtcome with
  | ok value cursor =>
    have hindex := Reading.index_of_zeroed cursor ((hlocal _).reaches hplain)
      ((hlocal _).reaches hzeroed)
    exact ⟨cursor.bindings, hindex, .inl ⟨_, _, rfl, rfl, Expr.beq_of_relocate_eq value⟩⟩
  | error cursor =>
    have hindex := Reading.index_of_zeroed cursor ((hlocal _).stops hplain).1
      ((hlocal _).stops hzeroed).1
    refine ⟨cursor.bindings, hindex, .inr ⟨_, _, rfl, ?_⟩⟩
    rw [← hindex]

end FormulaEngine
