import FormulaEngine.Proofs.Engine.Parsing
import FormulaEngine.Proofs.Grammar.Anchoring
import FormulaEngine.Proofs.Grammar.SourceOrder
import FormulaEngine.Proofs.Token.NumeralValue

/-! What comes of a text that is parsed. A text that is no expression is told first, then a
call with a wrong number of arguments, and tokens that are left over last. Nothing else can
be wrong with a tree that was read: its numbers are no NaNs, its operators are operators and
its variables are in the table. The tree is searched with parents before their children, but
of the calls that are wrong it finds the one that comes first in the tokens, because calls
are listed in the order of their names. -/

namespace FormulaEngine

open Token

variable {φ : Type} [Callable φ] {library : Library φ} {tokens : List String}

/-- A call that has more or fewer arguments than its function takes. -/
def Label.Miscall : Label φ → Prop
  | .call f argCount => argCount ≠ Callable.arity f
  | .number _ | .var _ | .binary _ => False

instance : DecidablePred (Label.Miscall (φ := φ)) := fun l =>
  match l with
  | .call f argCount => inferInstanceAs (Decidable (argCount ≠ Callable.arity f))
  | .number _ | .var _ | .binary _ => .isFalse id

namespace Derivation

variable {ids : String → Nat} {d : Sentence library} {i : Nat} {node : Label φ × Option Nat}

theorem toldBy_of_mem_listed (h : node ∈ (d.tree ids i).listed) :
    ToldBy library ids (d.tokens.zipIdx i) node := by
  rw [Expr.mem_listed_iff, sourceOrder_tree] at h
  exact toldBy_of_mem_nodes h

/-- A call stands at its name. -/
theorem call_of_miscall (h : node ∈ (d.tree ids i).listed) (hmiscall : node.1.Miscall) :
    ∃ f argCount j, node = (.call f argCount, some j) ∧ argCount ≠ Callable.arity f ∧
      (Callable.name f, j) ∈ d.tokens.zipIdx i := by
  obtain ⟨label, position⟩ := node
  obtain hzero | ⟨text, j, htext, hread, hposition⟩ := toldBy_of_mem_listed h
  · obtain ⟨rfl, -⟩ := Prod.mk.inj hzero
    exact hmiscall.elim
  · obtain rfl : position = some j := hposition
    cases hread with
    | numeral | var | operator => exact hmiscall.elim
    | call f argCount isName isRegistered =>
      rw [← Library.name_of_get? isRegistered] at htext
      exact ⟨f, argCount, j, rfl, hmiscall, htext⟩

/-- The calls that are wrong are listed in the order of the tokens. -/
theorem pairwise_miscalls (ids : String → Nat) (d : Sentence library) (i : Nat) :
    ((d.tree ids i).listed.filter (·.1.Miscall)).Pairwise
      fun a b => ∀ j, a.2 = some j → ∀ k, b.2 = some k → j < k := by
  rw [Expr.filter_listed fun op p => decide_eq_false id]
  exact (d.pairwise_sourceOrder ids i).filter _

/-- The wrong call that is listed first comes first in the tokens. -/
theorem first_miscall (h : ∃ node ∈ (d.tree ids i).listed, node.1.Miscall) :
    ∃ before f argCount j after,
      (d.tree ids i).listed = before ++ (.call f argCount, some j) :: after ∧
      (∀ node ∈ before, ¬node.1.Miscall) ∧ argCount ≠ Callable.arity f ∧
      ∀ node ∈ (d.tree ids i).listed, node.1.Miscall → ∃ g count k,
        node = (.call g count, some k) ∧ (Callable.name g, k) ∈ d.tokens.zipIdx i ∧ j ≤ k := by
  obtain ⟨node, hnode, hmiscall⟩ := h
  have hpairwise := d.pairwise_miscalls ids i
  cases hfilter : (d.tree ids i).listed.filter (·.1.Miscall) with
  | nil =>
    have hnone := List.filter_eq_nil_iff.mp hfilter node hnode
    exact absurd (decide_eq_true hmiscall) hnone
  | cons first others =>
    rw [hfilter, List.pairwise_cons] at hpairwise
    obtain ⟨before, after, hlisted, hbefore, hfirst, -⟩ := List.filter_eq_cons_iff.mp hfilter
    have hmem : first ∈ (d.tree ids i).listed := by simp [hlisted]
    obtain ⟨f, argCount, j, rfl, hcount, -⟩ := call_of_miscall hmem (of_decide_eq_true hfirst)
    refine ⟨before, f, argCount, j, after, hlisted, ?_, hcount, ?_⟩
    · intro node hnode
      exact of_decide_eq_false (by simpa using hbefore node hnode)
    · intro node hnode hmiscall
      obtain ⟨g, count, k, rfl, -, htext⟩ := call_of_miscall hnode hmiscall
      refine ⟨g, count, k, rfl, htext, ?_⟩
      have hothers : _ ∈ (d.tree ids i).listed.filter (·.1.Miscall) :=
        List.mem_filter.mpr ⟨hnode, decide_eq_true hmiscall⟩
      rw [hfilter, List.mem_cons] at hothers
      obtain heq | hother := hothers
      · cases heq
        exact Nat.le_refl _
      · exact Nat.le_of_lt (hpairwise.1 _ hother j rfl k rfl)

/-- Nothing but a call can be wrong with a tree that was read. -/
theorem fault?_of_mem_listed {table : Bindings}
    (h : node ∈ (d.tree (table.internAll d.uses).indexOf i).listed) (hcall : ¬node.1.Miscall) :
    node.1.fault? (table.internAll d.uses) = none := by
  have hvar : ∀ id, node.1 = .var id → id < (table.internAll d.uses).size := by
    intro id hid
    refine d.lt_size_of_var (i := i) ?_
    rw [← hid, ← Expr.map_fst_listed]
    exact List.mem_map_of_mem h
  obtain ⟨label, position⟩ := node
  obtain hzero | ⟨text, j, -, hread, -⟩ := toldBy_of_mem_listed h
  · obtain ⟨rfl, -⟩ := Prod.mk.inj hzero
    have hnumber : ¬(0 : Constant).toFloat.isNaN = true := by decide
    rw [Label.fault?, if_neg hnumber]
  · cases hread with
    | numeral isNumeral =>
      simp only [Label.fault?, isNaN_numeralValue, Bool.false_eq_true, if_false]
    | var isName isFree =>
      rw [Label.fault?, if_neg]
      rw [Bindings.isNone_get?_iff, Nat.not_le]
      exact hvar _ rfl
    | operator op =>
      simp only [Label.fault?, Operator.ofChar?_symbol, Option.isNone_some, Bool.false_eq_true,
        if_false]
    | call f argCount =>
      rw [Label.fault?, if_pos (Classical.not_not.mp hcall)]

/-- A tree that was read is valid if no call is wrong. -/
theorem check_of_no_miscall {table : Bindings}
    (h : ∀ node ∈ (d.tree (table.internAll d.uses).indexOf i).listed, ¬node.1.Miscall)
    (tokens : List String) :
    (d.tree (table.internAll d.uses).indexOf i).check (table.internAll d.uses) tokens = .ok () := by
  rw [Expr.check_eq_ok_iff, ← Expr.map_fst_listed, List.forall_mem_map]
  intro node hnode
  exact fault?_of_mem_listed hnode (h node hnode)

end Derivation

/-- A node that is wrong is told if no node listed before it is wrong. -/
theorem Expr.check_of_listed {table : Bindings} {e : Expr φ}
    {before after : List (Label φ × Option Nat)}
    {label : Label φ} {position : Option Nat} {cause : Cause}
    (hlisted : e.listed = before ++ (label, position) :: after)
    (hbefore : ∀ node ∈ before, node.1.fault? table = none)
    (hlabel : label.fault? table = some cause) :
    e.check table tokens = .error (.atToken cause tokens position) := by
  have hfirst : e.firstFault? table = some (cause, position) := by
    have hmap : e.firstFault? table =
        e.listed.findSome? fun node => (node.1.fault? table).map (·, node.2) := by
      rw [listed, List.findSome?_map]
      rfl
    rw [hmap, hlisted, List.findSome?_append, List.findSome?_eq_none_iff.mpr, List.findSome?_cons]
    · simp [hlabel]
    · intro node hnode
      rw [hbefore node hnode, Option.map_none]
  rw [check, hfirst]

/-- What comes of tokens that are given to an engine. -/
structure Verdict (library : Library φ) (tokens : List String) (outcome : Except Failure Unit) :
    Prop where
  /-- What is no expression fails as it does by itself. -/
  unread : ∀ failure reader,
    (Reader.start library tokens .empty).read .expression = (.error failure, reader) →
    outcome = .error failure
  /-- Of the calls that are wrong the first one in the tokens is told, whatever is left over. -/
  miscalled : ∀ root reader,
    (Reader.start library tokens .empty).read .expression = (.ok root, reader) →
    (∃ node ∈ root.listed, node.1.Miscall) →
    ∃ f argCount i, (.call f argCount, some i) ∈ root.listed ∧ argCount ≠ Callable.arity f ∧
      (∀ node ∈ root.listed, node.1.Miscall → ∃ g count j, node = (.call g count, some j) ∧
        tokens[j]? = some (Callable.name g) ∧ i ≤ j) ∧
      outcome = .error (.atToken
        (.argumentCount (Callable.name f) (Callable.arity f) argCount) tokens (some i))
  /-- Tokens that are left over are told at the first of them. -/
  trailing : ∀ root reader,
    (Reader.start library tokens .empty).read .expression = (.ok root, reader) →
    (∀ node ∈ root.listed, ¬node.1.Miscall) → reader.atEnd = false →
    reader.cursor.rest = tokens.drop reader.cursor.index ∧
      (tokens[reader.cursor.index]? = some ")" ∨ tokens[reader.cursor.index]? = some ",") ∧
      outcome = .error (.atToken .trailingSymbols tokens (some reader.cursor.index))
  accepted : ∀ root reader,
    (Reader.start library tokens .empty).read .expression = (.ok root, reader) →
    (∀ node ∈ root.listed, ¬node.1.Miscall) → reader.atEnd = true → outcome = .ok ()

/-- Whatever a reader reads as an expression, and where it is left. -/
theorem Reading.derived_of_read {root : Expr φ} {reader : Reader φ} {table : Bindings}
    (h : (Reader.start library tokens table).read .expression = (.ok root, reader)) :
    ∃ d : Sentence library, tokens = d.tokens ++ reader.cursor.rest ∧
      (Level.series .additive).Fits false reader.cursor.rest ∧
      root = d.tree (table.internAll d.uses).indexOf 0 ∧
      reader.cursor.index = d.tokens.length ∧ reader.cursor.bindings = table.internAll d.uses := by
  have hphrase : Reading.ofPhrase library nestingLimit .expression =
      Reading.expression library nestingLimit := rfl
  unfold Reader.read at h
  simp only [Reader.start, hphrase] at h
  cases hread : Reading.expression library nestingLimit ⟨0, tokens, table⟩ with
  | error stop => simp [hread] at h
  | ok read =>
    obtain ⟨tree, last⟩ := read
    rw [hread] at h
    obtain ⟨hroot, rfl⟩ := Prod.mk.inj h
    obtain rfl := Except.ok.inj hroot
    obtain ⟨d, htokens, -, hfits, rfl, hlast⟩ := derived_of_expression hread
    refine ⟨d, htokens, hfits, by rw [hlast]; rfl, ?_, by rw [hlast]; rfl⟩
    exact (congrArg Cursor.index hlast).trans (Nat.zero_add _)

namespace Engine

/-- Parsing has the outcome of building. -/
theorem parse_fst (engine : Engine φ) (text : String) :
    (engine.parse text).1 = (built engine.library (tokenize text)).map fun _ => () := by
  cases hbuild : built engine.library (tokenize text) with
  | error failure =>
    rw [parse_of_built_error hbuild]
    rfl
  | ok read =>
    rw [parse_of_built_ok hbuild]
    rfl

theorem parse_snd_tokens (engine : Engine φ) (text : String) :
    (engine.parse text).2.tokens = tokenize text := by
  obtain ⟨root, bindings, -, hparse⟩ | ⟨failure, hparse⟩ := engine.parse_cases text
  · rw [hparse]
  · rw [hparse]

theorem verdict_built (library : Library φ) (tokens : List String) :
    Verdict library tokens ((built library tokens).map fun _ => ()) where
  unread failure reader hread := by
    rw [built_of_unread hread]
    rfl
  miscalled root reader hread h := by
    obtain ⟨d, htokens, -, rfl, -, htable⟩ := Reading.derived_of_read hread
    obtain ⟨before, f, argCount, i, after, hlisted, hbefore, hcount, hfirst⟩ :=
      Derivation.first_miscall h
    have hvalid : ∀ node ∈ before, node.1.fault? reader.cursor.bindings = none := by
      intro node hnode
      have hmem := List.mem_append_left ((.call f argCount, some i) :: after) hnode
      rw [← hlisted] at hmem
      rw [htable]
      exact Derivation.fault?_of_mem_listed hmem (hbefore node hnode)
    refine ⟨f, argCount, i, by simp [hlisted], hcount, ?_, ?_⟩
    · intro node hnode hmiscall
      obtain ⟨g, count, j, rfl, htext, hle⟩ := hfirst node hnode hmiscall
      rw [List.mk_mem_zipIdx_iff_getElem?] at htext
      refine ⟨g, count, j, rfl, ?_, hle⟩
      rw [htokens, List.getElem?_append_left (List.getElem?_eq_some_iff.mp htext).1, htext]
    · rw [built_of_read hread, Expr.check_of_listed hlisted hvalid (if_neg hcount)]
      rfl
  trailing root reader hread h hend := by
    obtain ⟨d, htokens, hfits, rfl, hindex, htable⟩ := Reading.derived_of_read hread
    have hcheck := Derivation.check_of_no_miscall h tokens
    have hrest : reader.cursor.rest = tokens.drop reader.cursor.index := by
      rw [hindex, htokens, List.drop_left]
    refine ⟨hrest, ?_, ?_⟩
    · rw [← List.head?_drop, ← hrest]
      cases hr : reader.cursor.rest with
      | nil => simp [Reader.atEnd, hr] at hend
      | cons token rest =>
        have htoken := hfits.next token (by rw [hr]; rfl)
        simpa using eq_of_mayPrecede htoken
    · rw [built_of_read hread, htable, hcheck, hend]
      rfl
  accepted root reader hread h hend := by
    obtain ⟨d, -, -, rfl, -, htable⟩ := Reading.derived_of_read hread
    have hcheck := Derivation.check_of_no_miscall h tokens
    rw [built_of_read hread, htable, hcheck, hend]
    rfl

end Engine

/-- What stops a reading is told by the tokens at which it stops. -/
theorem Cause.Fits.stage_eq {cause : Cause} {rest : List String} (h : cause.Fits rest) :
    cause.stage = .lexical := by
  cases cause with
  | unexpectedEnd | unexpectedSymbol | expected | unsupportedFunction | tooDeep => rfl
  | trailingSymbols | unknownOperator | argumentCount | notANumber | danglingVariable => cases h

/-- A failure is about a token or the end, with the window there as its context. Its cause is
one of reading, or a call is wrong, or tokens are left over. -/
theorem Verdict.located {outcome : Except Failure Unit} (h : Verdict library tokens outcome)
    {failure : Failure} (houtcome : outcome = .error failure) :
    ∃ cause i, failure = .located cause ⟨some i, window tokens i⟩ ∧ i ≤ tokens.length ∧
      (cause.stage = .lexical ∨ (∃ name arity found, cause = .argumentCount name arity found) ∨
        cause = .trailingSymbols) := by
  cases hread : (Reader.start library tokens .empty).read .expression with
  | mk result reader =>
    cases result with
    | error failure' =>
      obtain rfl : failure' = failure := by
        rw [h.unread failure' reader hread] at houtcome
        exact Except.error.inj houtcome
      obtain ⟨stop, hstop, rfl⟩ := read_eq_error_iff.mp ⟨reader, hread⟩
      obtain ⟨hreach, hfits⟩ :=
        (Reading.localAt_ofLevel library nestingLimit (.series .additive) _).stops hstop
      have hlength := hreach.length_eq
      exact ⟨stop.cause, stop.cursor.index, rfl, by omega, .inl hfits.stage_eq⟩
    | ok root =>
      by_cases hmiscall : ∃ node ∈ root.listed, node.1.Miscall
      · obtain ⟨f, argCount, i, hcall, hcount, hfirst, hfailure⟩ :=
          h.miscalled root reader hread hmiscall
        obtain ⟨g, count, j, hnode, htoken, -⟩ := hfirst _ hcall hcount
        cases hnode
        have hlt := (List.getElem?_eq_some_iff.mp htoken).1
        rw [hfailure] at houtcome
        cases houtcome
        exact ⟨_, i, rfl, Nat.le_of_lt hlt, .inr (.inl ⟨_, _, _, rfl⟩)⟩
      · push Not at hmiscall
        cases hend : reader.atEnd with
        | true =>
          rw [h.accepted root reader hread hmiscall hend] at houtcome
          cases houtcome
        | false =>
          obtain ⟨-, htoken, hfailure⟩ := h.trailing root reader hread hmiscall hend
          have hlt : reader.cursor.index < tokens.length := by
            obtain htoken | htoken := htoken
            · exact (List.getElem?_eq_some_iff.mp htoken).1
            · exact (List.getElem?_eq_some_iff.mp htoken).1
          rw [hfailure] at houtcome
          cases houtcome
          exact ⟨_, _, rfl, Nat.le_of_lt hlt, .inr (.inr rfl)⟩

/-- Parsing reports at most one failure. It reads the text before it looks at the calls of
the tree, and at the calls before the tokens that are left over. -/
theorem Engine.parse_verdict (engine : Engine φ) (text : String) :
    Verdict engine.library (tokenize text) (engine.parse text).1 ∧
    ∀ failure, (engine.parse text).1 = .error failure →
      ∃ cause i, failure = .located cause ⟨some i, window (engine.parse text).2.tokens i⟩ ∧
        i ≤ (engine.parse text).2.tokens.length ∧
        (cause.stage = .lexical ∨ (∃ name arity found, cause = .argumentCount name arity found) ∨
          cause = .trailingSymbols) := by
  have hverdict := verdict_built engine.library (tokenize text)
  rw [← engine.parse_fst text] at hverdict
  refine ⟨hverdict, fun failure hfailure => ?_⟩
  rw [engine.parse_snd_tokens text]
  exact hverdict.located hfailure

/-- Both calls are wrong and a parenthesis is left over. The first call is told. -/
theorem Engine.parse_verdict_max :
    ((Engine.ofFunctions [ElementaryFunction.min, .max]).parse "max(1)*2+min(3))").1 =
      .error (.atToken (.argumentCount "max" 2 1) (tokenize "max(1)*2+min(3))") (some 0)) := by
  have htokens : tokenize "max(1)*2+min(3))" =
      ["max", "(", "1", ")", "*", "2", "+", "min", "(", "3", ")", ")"] := by
    rw [tokenize, String.foldl_eq_foldl_toList]
    decide
  obtain ⟨reader, hread⟩ : ∃ reader, (Reader.start (.ofList [ElementaryFunction.min, .max])
      (tokenize "max(1)*2+min(3))") .empty).read .expression = (.ok (.binary '+' (some 6)
        (.binary '*' (some 4) (.call .max (some 0) [.number (numeralValue "1") (some 2)])
          (.number (numeralValue "2") (some 5)))
        (.call .min (some 7) [.number (numeralValue "3") (some 9)])), reader) := by
    rw [htokens]
    exact ⟨_, rfl⟩
  have hmax : 1 ≠ Callable.arity ElementaryFunction.max := show 1 ≠ 2 by decide
  have hverdict := parse_verdict (.ofFunctions [ElementaryFunction.min, .max]) "max(1)*2+min(3))"
  have htold := hverdict.1.miscalled _ _ hread
    ⟨(.call .max 1, some 0), Expr.mem_listed_iff.mpr (by simp), hmax⟩
  obtain ⟨f, argCount, i, hcall, -, hfirst, houtcome⟩ := htold
  obtain ⟨g, count, j, hnode, -, hle⟩ :=
    hfirst (.call .max 1, some 0) (Expr.mem_listed_iff.mpr (by simp)) hmax
  have hj : 0 = j := Option.some.inj (congrArg Prod.snd hnode)
  obtain rfl : i = 0 := by omega
  obtain ⟨rfl, rfl⟩ : f = .max ∧ argCount = 1 := by simpa using Expr.mem_listed_iff.mp hcall
  exact houtcome

end FormulaEngine
