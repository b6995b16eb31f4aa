import FormulaEngine.Proofs.Grammar.Descent
import FormulaEngine.Proofs.Grammar.FreeNames
import FormulaEngine.Proofs.Grammar.Loops

/-! Descents and readings go in lockstep. From the same place they give the same tree and leave
the same place behind, or they stop at the same token for the same cause. The levels that a
reading has left are those that are not open in the descent. A descent that succeeds has closed
all the levels it has opened, one that fails has closed none that was open before. What is known
of the tokens at each place where an error is raised is told along the way. -/

namespace FormulaEngine

open Token

variable {φ : Type} [Callable φ]

/-- When the places in the rules raise their errors: the cause, and the tokens from the one that
the error is about. No error is raised behind a sum, and only the phrase that is a call itself
raises one where the call begins. -/
inductive Raised (library : Library φ) (phrase : Phrase) : Site → Cause → List String → Prop
  | ended : Raised library phrase .operand .unexpectedEnd []
  | noOperand {token : String} {rest : List String} (mem : token ∈ [",", "*", "/", ")"]) :
      Raised library phrase .operand (.unexpectedSymbol token .factor) (token :: rest)
  | unknownCall {name : String} {rest : List String} (isName : kind name = .name)
      (isFree : library.get? name = none) :
      Raised library phrase .operand (.unsupportedFunction name) (name :: "(" :: rest)
  | noCallee (isCall : phrase = .call) : Raised library phrase .callee .unexpectedEnd []
  | unknownCallee {name : String} {rest : List String} (isCall : phrase = .call)
      (isFree : library.get? name = none) :
      Raised library phrase .callee (.unsupportedFunction name) (name :: rest)
  | tooDeep {rest : List String} : Raised library phrase .level (.tooDeep nestingLimit) rest
  | noOpening {rest : List String} (other : rest.head? ≠ some "(") :
      Raised library phrase .opening (.expected '(') rest
  | openGroup {rest : List String} (atEnd : rest = [] ∨ rest.head? = some ",") :
      Raised library phrase .group (.expected ')') rest
  | openArguments : Raised library phrase .argument (.expected ')') []
  | noProduct {token : String} {rest : List String}
      (other : token = "(" ∨ isSymbol token = false) :
      Raised library phrase (.series .multiplicative) (.unexpectedSymbol token .term)
        (token :: rest)

namespace Descent

/-- Going from one state to another takes the tokens in between and interns their free names.
The levels are counted no higher than the limit. -/
structure State.Advances (library : Library φ) (tokens : List String) (before after : State) :
    Prop where
  taken : ∃ taken, tokens.drop before.index = taken ++ tokens.drop after.index ∧
    after.index = before.index + taken.length ∧
    after.bindings = before.bindings.internAll (freeNames library taken)
  peak : after.peak ≤ max before.peak nestingLimit
  depth : before.depth ≤ before.peak → after.depth ≤ after.peak

namespace State.Advances

variable {library : Library φ} {tokens : List String} {before mid after : State}

theorem refl (s : State) : s.Advances library tokens s :=
  ⟨⟨[], rfl, rfl, rfl⟩, Nat.le_max_left .., id⟩

theorem trans (h : before.Advances library tokens mid) (h' : mid.Advances library tokens after) :
    before.Advances library tokens after := by
  obtain ⟨xs, hx, hi, hb⟩ := h.taken
  obtain ⟨ys, hy, hj, hb'⟩ := h'.taken
  have hp := h.peak
  have hp' := h'.peak
  refine ⟨⟨xs ++ ys, by rw [hx, hy, List.append_assoc], ?_, ?_⟩, by omega, h'.depth ∘ h.depth⟩
  · rw [hj, hi, List.length_append, Nat.add_assoc]
  · rw [hb', hb, freeNames_append, Bindings.internAll_append]

theorem drop_succ {token : String} {rest : List String}
    (hr : (before.cursor tokens).rest = token :: rest) :
    tokens.drop before.index = [token] ++ tokens.drop (before.index + 1) := by
  change tokens.drop before.index = _ at hr
  rw [← List.tail_drop, hr]
  rfl

/-- Taking a token that is no variable. -/
theorem advanced {token : String} {rest : List String}
    (hr : (before.cursor tokens).rest = token :: rest)
    (hk : kind token ≠ .name ∨ library.get? token ≠ none) :
    before.Advances library tokens before.advanced := by
  refine ⟨⟨[token], drop_succ hr, rfl, ?_⟩, Nat.le_max_left .., id⟩
  rw [freeNames_other hk]
  rfl

/-- Taking a variable. -/
theorem interned {name : String} {rest : List String}
    (hr : (before.cursor tokens).rest = name :: rest) (hk : kind name = .name)
    (hf : library.get? name = none) :
    before.Advances library tokens
      { before.advanced with bindings := (before.bindings.intern name).2 } := by
  refine ⟨⟨[name], drop_succ hr, rfl, ?_⟩, Nat.le_max_left .., id⟩
  rw [freeNames_free hk hf]
  rfl

theorem entered (h : before.depth < nestingLimit) :
    before.Advances library tokens before.entered where
  taken := ⟨[], rfl, rfl, rfl⟩
  peak := by
    change max before.peak (before.depth + 1) ≤ max before.peak nestingLimit
    omega
  depth _ := Nat.le_max_right ..

theorem left {depth : Nat} (h : depth ≤ before.depth) :
    before.Advances library tokens { before with depth } :=
  ⟨⟨[], rfl, rfl, rfl⟩, Nat.le_max_left .., Nat.le_trans h⟩

end State.Advances

/-- The outcome of a descent, next to that of a reading from the same place. On success the depth
is the one given, on failure it is not below. -/
inductive Lockstep (library : Library φ) (phrase : Phrase) (tokens : List String) (depth : Nat)
    (before : State) {α : Type} :
    Except Stop (α × Cursor) → EStateM.Result Fault State α → Prop
  | ok (a : α) {after : State} (restored : after.depth = depth)
      (advances : before.Advances library tokens after) :
      Lockstep library phrase tokens depth before (.ok (a, after.cursor tokens)) (.ok a after)
  | error {site : Site} {cause : Cause} {after : State} (le : depth ≤ after.depth)
      (advances : before.Advances library tokens after)
      (raised : Raised library phrase site cause (tokens.drop after.index)) :
      Lockstep library phrase tokens depth before
        (.error ⟨cause, after.cursor tokens, after.room⟩)
        (.error (.failed site (.atToken cause tokens (some after.index))) after)

namespace Lockstep

variable {library : Library φ} {phrase : Phrase} {tokens : List String} {depth : Nat}
  {before s : State} {α β : Type}

theorem pure (a : α) (s : State) :
    Lockstep library phrase tokens s.depth s (.ok (a, s.cursor tokens)) (.ok a s) :=
  .ok a rfl (.refl s)

theorem fail {site : Site} {cause : Cause} (hle : depth ≤ s.depth)
    (h : Raised library phrase site cause (s.cursor tokens).rest) :
    Lockstep (α := α) library phrase tokens depth s (.error ⟨cause, s.cursor tokens, s.room⟩)
      (failAt tokens site cause s) :=
  .error hle (.refl s) h

/-- What comes before may be added. -/
theorem of_advances {step : Except Stop (α × Cursor)} {result : EStateM.Result Fault State α}
    (ha : before.Advances library tokens s)
    (h : Lockstep library phrase tokens depth s step result) :
    Lockstep library phrase tokens depth before step result := by
  cases h with
  | ok a restored advances => exact .ok a restored (ha.trans advances)
  | error le advances raised => exact .error le (ha.trans advances) raised

/-- One step after another. The first may begin at a greater depth. -/
theorem bindInner {step : Except Stop (α × Cursor)} {run : Descent α}
    {next : α × Cursor → Except Stop (β × Cursor)} {goOn : α → Descent β} {inner : Nat}
    (hle : depth ≤ inner) (h : Lockstep library phrase tokens inner s step (run s))
    (hnext : ∀ a after, step = .ok (a, after.cursor tokens) → after.depth = inner →
      Lockstep library phrase tokens depth after (next (a, after.cursor tokens)) (goOn a after)) :
    Lockstep library phrase tokens depth s (step >>= next) ((run >>= goOn) s) := by
  generalize hr : run s = result at h
  cases h with
  | ok a restored advances =>
    rw [bind_of_ok hr]
    exact (hnext a _ rfl restored).of_advances advances
  | error le advances raised =>
    rw [bind_of_error hr]
    exact .error (Nat.le_trans hle le) advances raised

/-- One step after another on the same level. -/
theorem bind {step : Except Stop (α × Cursor)} {run : Descent α}
    {next : α × Cursor → Except Stop (β × Cursor)} {goOn : α → Descent β}
    (h : Lockstep library phrase tokens s.depth s step (run s))
    (hnext : ∀ a after, step = .ok (a, after.cursor tokens) → after.room = s.room →
      Lockstep library phrase tokens after.depth after (next (a, after.cursor tokens))
        (goOn a after)) :
    Lockstep library phrase tokens s.depth s (step >>= next) ((run >>= goOn) s) := by
  refine .bindInner (Nat.le_refl _) h ?_
  intro a after hstep hdepth
  rw [← hdepth]
  exact hnext a after hstep (congrArg (nestingLimit - ·) hdepth)

section Rules

/-- A reading and a descent give the same wherever there are so many levels left. -/
def Always (library : Library φ) (phrase : Phrase) (tokens : List String) (room : Nat)
    (reading : Reading φ) (descent : Descent (Expr φ)) : Prop :=
  ∀ s : State, s.room = room →
    Lockstep library phrase tokens s.depth s (reading (s.cursor tokens)) (descent s)

variable {tier : Tier} {room : Nat} {operand argument : Reading φ}
  {operand' argument' : Descent (Expr φ)}

theorem seriesRest (hs : Reading.Bounded room operand)
    (ho : Always library phrase tokens room operand operand') {rounds : Nat} (left : Expr φ)
    (hroom : s.room = room) (hrounds : (s.cursor tokens).rest.length < rounds) :
    Lockstep library phrase tokens s.depth s
      (Reading.seriesRest tier operand (s.cursor tokens).rest left (s.cursor tokens))
      (Descent.seriesRest tokens tier operand' rounds left s) := by
  induction rounds generalizing left s with
  | zero => exact absurd hrounds (Nat.not_lt_zero _)
  | succ rounds ih =>
    rw [Reading.seriesRest_eq hs, Descent.seriesRest, here_bind]
    cases hop : (s.cursor tokens).operator? tier with
    | none => exact .pure left s
    | some op =>
      obtain ⟨-, rest, hr⟩ := Cursor.operator?_eq_some_iff.mp hop
      refine .of_advances (.advanced hr (.inl (by simp))) ?_
      simp only
      rw [bind_of_ok advance_eq, ← State.cursor_advanced]
      refine .bind (ho s.advanced hroom) ?_
      intro right after hread hafter
      have hle := hs.length_le hread
      -- the operator is a token, so there are fewer left than rounds
      rw [State.cursor_advanced, Cursor.advance_rest, hr, List.tail_cons] at hle
      rw [hr, List.length_cons] at hrounds
      exact ih _ (hafter.trans hroom) (by omega)

theorem ended {tree : Expr φ} (hroom : s.room = room)
    (h : ∀ token rest, (s.cursor tokens).rest = token :: rest →
      tier.mayPrecede (kind token) = false →
      Raised library phrase (.series tier) (.unexpectedSymbol token tier.phrase) (token :: rest)) :
    Lockstep library phrase tokens s.depth s (Reading.ended tier room tree (s.cursor tokens))
      (Descent.ended tokens tier tree s) := by
  rw [Reading.ended, Descent.ended, here_bind]
  cases hr : (s.cursor tokens).rest with
  | nil => exact .pure tree s
  | cons token rest =>
    by_cases hk : tier.mayPrecede (kind token) = true
    · simp only [if_pos hk]
      exact .pure tree s
    · simp only [if_neg hk]
      rw [← hroom]
      refine .fail (Nat.le_refl _) ?_
      rw [hr]
      exact h token rest hr (Bool.eq_false_iff.mpr hk)

theorem series (hs : Reading.Bounded room operand)
    (ho : Always library phrase tokens room operand operand')
    (h : ∀ ⦃c next tree last⦄ ⦃first : Expr φ⦄, operand c = .ok (first, next) →
      Reading.seriesRest tier operand next.rest first next = .ok (tree, last) →
      ∀ token rest, last.rest = token :: rest → tier.mayPrecede (kind token) = false →
      Raised library phrase (.series tier) (.unexpectedSymbol token tier.phrase)
        (token :: rest)) :
    Always library phrase tokens room (Reading.series tier room operand)
      (Descent.series tokens tier operand') := by
  intro s hroom
  rw [Reading.series_eq, Descent.series]
  refine .bind (ho s hroom) ?_
  intro first next hfirst hnext
  refine .bind (seriesRest hs ho first (hnext.trans hroom) (State.length_rest_lt tokens next)) ?_
  intro tree last hread hlast
  exact ended (hlast.trans (hnext.trans hroom)) (h hfirst hread)

/-- An argument is followed by a comma, a parenthesis or nothing, so where neither is found the
tokens are at their end. -/
theorem argumentsRest (hs : Reading.Bounded room argument)
    (ha : Always library phrase tokens room argument argument')
    (h : ∀ ⦃c next⦄ ⦃tree : Expr φ⦄, argument c = .ok (tree, next) →
      ∀ token ∈ next.rest.head?, Tier.additive.mayPrecede (kind token) = true)
    {rounds : Nat} (done : List (Expr φ)) (hroom : s.room = room)
    (hrounds : (s.cursor tokens).rest.length < rounds) :
    Lockstep library phrase tokens s.depth s
      (Reading.argumentsRest room argument (s.cursor tokens).rest done (s.cursor tokens))
      (Descent.argumentsRest tokens argument' rounds done s) := by
  induction rounds generalizing done s with
  | zero => exact absurd hrounds (Nat.not_lt_zero _)
  | succ rounds ih =>
    rw [Reading.argumentsRest_eq hs, Descent.argumentsRest]
    refine .bind (ha s hroom) ?_
    intro tree next hread hnext
    rw [here_bind, Reading.nextArgument]
    have hclosed := h hread
    have hle := hs.length_le hread
    cases hr : (next.cursor tokens).rest with
    | nil =>
      simp only [Cursor.kind?, hr, List.head?_nil, Option.map_none]
      rw [← hroom, ← hnext]
      refine .fail (Nat.le_refl _) ?_
      rw [hr]
      exact .openArguments
    | cons token rest =>
      simp only [Cursor.kind?, hr, List.head?_cons, Option.map_some]
      cases hk : kind token with
      | comma =>
        refine .of_advances (.advanced hr (.inl (by simp [hk]))) ?_
        simp only
        rw [bind_of_ok advance_eq, ← State.cursor_advanced]
        have hadvanced : next.advanced.room = room := hnext.trans hroom
        refine ih (tree :: done) hadvanced ?_
        rw [State.cursor_advanced, Cursor.advance_rest, hr, List.tail_cons]
        rw [hr, List.length_cons] at hle
        omega
      | closing =>
        refine .of_advances (.advanced hr (.inl (by simp [hk]))) ?_
        simp only
        rw [bind_of_ok advance_eq, ← State.cursor_advanced]
        exact .pure _ next.advanced
      | opening | operator | numeral | name =>
        have := hclosed token (by rw [hr]; rfl)
        rw [hk] at this
        cases this

theorem arguments (hs : Reading.Bounded room argument)
    (ha : Always library phrase tokens room argument argument')
    (h : ∀ ⦃c next⦄ ⦃tree : Expr φ⦄, argument c = .ok (tree, next) →
      ∀ token ∈ next.rest.head?, Tier.additive.mayPrecede (kind token) = true)
    (hroom : s.room = room) :
    Lockstep library phrase tokens s.depth s (Reading.arguments room argument (s.cursor tokens))
      (Descent.arguments tokens argument' s) := by
  rw [Reading.arguments, Descent.arguments, here_bind]
  by_cases hclosing : (s.cursor tokens).kind? = some .closing
  · obtain ⟨rest, hr⟩ := Cursor.kind?_eq_closing_iff.mp hclosing
    refine .of_advances (.advanced hr (.inl (by simp))) ?_
    rw [if_pos hclosing, if_pos hclosing, bind_of_ok advance_eq, ← State.cursor_advanced]
    exact .pure [] s.advanced
  · rw [if_neg hclosing, if_neg hclosing]
    exact argumentsRest hs ha h [] hroom (State.length_rest_lt tokens s)

/-- Opening a level, if there is one left. -/
theorem enter_bind {step : Except Stop (α × Cursor)} {goOn : Descent α}
    (hclosed : s.room = 0 → step = .error ⟨.tooDeep nestingLimit, s.cursor tokens, 0⟩)
    (hopen : ∀ deeper, s.room = deeper + 1 → s.entered.room = deeper →
      Lockstep library phrase tokens s.depth s.entered step (goOn s.entered)) :
    Lockstep library phrase tokens s.depth s step ((enter tokens >>= fun _ => goOn) s) := by
  by_cases hle : nestingLimit ≤ s.depth
  · have hroom : s.room = 0 := Nat.sub_eq_zero_of_le hle
    rw [bind_of_error ((enter_of_le hle).trans (failAt_eq ..)), hclosed hroom, ← hroom]
    exact .error (Nat.le_refl _) (.refl s) .tooDeep
  · have hlt := Nat.lt_of_not_le hle
    rw [bind_of_ok (enter_of_lt hlt)]
    refine .of_advances (.entered hlt) (hopen (nestingLimit - (s.depth + 1)) ?_ rfl)
    rw [State.room]
    omega

/-- Passing a symbol, if it is there. -/
theorem expect_bind {symbol : Char} {site : Site} {next : Cursor → Except Stop (α × Cursor)}
    {goOn : Descent α} (hle : depth ≤ s.depth) (hroom : s.room = room)
    (hsymbol : (symbolKind? symbol).isSome = true)
    (hraised : (s.cursor tokens).kind? ≠ symbolKind? symbol →
      Raised library phrase site (.expected symbol) (s.cursor tokens).rest)
    (hnext : (s.cursor tokens).kind? = symbolKind? symbol →
      Lockstep library phrase tokens depth s.advanced (next (s.advanced.cursor tokens))
        (goOn s.advanced)) :
    Lockstep library phrase tokens depth s ((s.cursor tokens).pass symbol room >>= next)
      ((expect tokens symbol site >>= fun _ => goOn) s) := by
  by_cases hk : (s.cursor tokens).kind? = symbolKind? symbol
  · obtain ⟨k, hk'⟩ := Option.isSome_iff_exists.mp hsymbol
    obtain ⟨token, hhead, rfl⟩ := Option.map_eq_some_iff.mp (hk.trans hk')
    obtain ⟨rest, hr⟩ := List.head?_eq_some_iff.mp hhead
    have hname : kind token ≠ .name := by
      intro hname
      rw [symbolKind?_eq_some_iff, hname] at hk'
      cases hk'
    rw [bind_of_ok (expect_of_eq hk), Cursor.pass, if_pos hk, ← State.cursor_advanced]
    exact (hnext hk).of_advances (.advanced hr (.inl hname))
  · rw [bind_of_error ((expect_of_ne hk).trans (failAt_eq ..)), Cursor.pass, if_neg hk, ← hroom]
    exact .error hle (.refl s) (hraised hk)

/-- Closing a level at the end. -/
theorem leave_bind {a : α} (h : s.depth = depth + 1) :
    Lockstep library phrase tokens depth s (.ok (a, s.cursor tokens))
      ((leave >>= fun _ => Pure.pure a) s) := by
  rw [bind_of_ok (leave_eq h)]
  exact .ok a rfl (.left (by omega))

variable {inner' : Descent (Expr φ)}

/-- What is said of the levels inside a group or call. -/
def AlwaysInside (library : Library φ) (phrase : Phrase) (tokens : List String) (room : Nat)
    (inner' : Descent (Expr φ)) : Prop :=
  ∀ deeper, deeper + 1 = room →
    Always library phrase tokens deeper (Reading.ofLevel library deeper (.series .additive)) inner'

/-- Behind an expression in a group there is a parenthesis, a comma or nothing. -/
theorem group (hi : AlwaysInside library phrase tokens room inner') (hroom : s.room = room)
    {rest : List String} (hr : (s.cursor tokens).rest = "(" :: rest) :
    Lockstep library phrase tokens s.depth s
      (Reading.group room (Reading.inside? library room) (s.cursor tokens))
      (Descent.group tokens inner' s) := by
  refine .enter_bind ?_ ?_
  · intro hzero
    obtain rfl : room = 0 := hroom.symm.trans hzero
    rfl
  intro deeper hdeeper hentered
  obtain rfl : room = deeper + 1 := hroom.symm.trans hdeeper
  have hcursor : s.entered.advanced.cursor tokens = (s.cursor tokens).advance :=
    State.cursor_advanced
  have hgroup : Reading.group (deeper + 1) (Reading.inside? library (deeper + 1))
      (s.cursor tokens) =
        Reading.ofLevel library deeper (.series .additive) (s.entered.advanced.cursor tokens) >>=
          fun read => read.2.pass ')' deeper >>= fun last => .ok (read.1, last) := by
    rw [hcursor]
    rfl
  rw [hgroup, bind_of_ok advance_eq]
  have hadvances : s.entered.Advances library tokens s.entered.advanced :=
    .advanced hr (.inl (by simp))
  refine .of_advances hadvances ?_
  refine .bindInner (Nat.le_succ s.depth) (hi deeper rfl s.entered.advanced hentered) ?_
  intro tree next hread hdepth
  have hnext : next.room = deeper := by rw [State.room, hdepth]; exact hentered
  refine .expect_bind (by omega) hnext rfl ?_ fun _ => .leave_bind hdepth
  intro hclosing
  refine .openGroup ?_
  cases hr : (next.cursor tokens).rest with
  | nil => exact .inl rfl
  | cons token rest =>
    have hk := Reading.mayPrecede_of_ofLevel hread token (by rw [hr]; rfl)
    obtain rfl | rfl := eq_of_mayPrecede hk
    · rw [Cursor.kind?, hr] at hclosing
      exact absurd (congrArg some kind_closing) hclosing
    · exact .inr rfl

theorem call (hi : AlwaysInside library phrase tokens room inner') (hroom : s.room = room)
    {name : String} {rest : List String} {f : φ} (hr : (s.cursor tokens).rest = name :: rest)
    (hf : library.get? name = some f) :
    Lockstep library phrase tokens s.depth s
      (Reading.callWith library room (Reading.inside? library room) (s.cursor tokens))
      (Descent.call tokens library inner' s) := by
  rw [Reading.callWith, Descent.call, here_bind]
  simp only [hr, hf]
  refine .enter_bind ?_ ?_
  · intro hzero
    obtain rfl : room = 0 := hroom.symm.trans hzero
    rfl
  intro deeper hdeeper hentered
  obtain rfl : room = deeper + 1 := hroom.symm.trans hdeeper
  have hcursor : s.entered.advanced.cursor tokens = (s.cursor tokens).advance :=
    State.cursor_advanced
  rw [bind_of_ok advance_eq, ← hcursor]
  have hadvances : s.entered.Advances library tokens s.entered.advanced :=
    .advanced hr (.inr (by simp [hf]))
  refine .of_advances hadvances ?_
  have hname : s.entered.advanced.room = deeper := hentered
  refine .expect_bind (Nat.le_succ s.depth) hname rfl ?_ fun _ => ?_
  · intro hopening
    refine .noOpening fun hhead => hopening ?_
    rw [Cursor.kind?, hhead]
    exact congrArg some kind_opening
  have hopened : s.entered.advanced.advanced.room = deeper := hentered
  refine .bindInner (Nat.le_succ s.depth) (arguments (Reading.bounded_ofLevel library deeper _)
    (hi deeper rfl) (fun _ _ _ hread => Reading.mayPrecede_of_ofLevel hread) hopened) ?_
  intro args last _ hdepth
  exact .leave_bind hdepth

theorem freeName {name : String} {rest : List String} (hr : (s.cursor tokens).rest = name :: rest)
    (hk : kind name = .name) (hf : library.get? name = none) :
    Lockstep library phrase tokens s.depth s
      (.ok (Expr.var (φ := φ) (s.bindings.intern name).1 (some s.index),
        { (s.cursor tokens).advance with bindings := (s.bindings.intern name).2 }))
      ((advance >>= fun _ => intern name >>= fun id =>
        Pure.pure (Expr.var id (some s.index))) s) := by
  rw [← State.cursor_advanced]
  exact .ok _ rfl (.interned hr hk hf)

theorem factor (hi : AlwaysInside library phrase tokens room inner') :
    Always library phrase tokens room (Reading.ofLevel library room .factor)
      (Descent.factor tokens library inner') := by
  intro s hroom
  rw [Reading.ofLevel_factor_eq, Reading.factorWith, Descent.factor, here_bind]
  have hfail {cause : Cause} (h : Raised library phrase .operand cause (s.cursor tokens).rest) :
      Lockstep library phrase tokens s.depth s
        (.error ⟨cause, s.cursor tokens, room⟩ : Except Stop (Expr φ × Cursor))
        (failAt tokens .operand cause s) := by
    rw [← hroom]
    exact .fail (Nat.le_refl _) h
  cases hr : (s.cursor tokens).rest with
  | nil => exact hfail (hr ▸ .ended)
  | cons token rest =>
    have hunexpected (h : token ∈ [",", "*", "/", ")"]) :
        Lockstep library phrase tokens s.depth s _
          (failAt tokens .operand (.unexpectedSymbol token .factor) s) :=
      hfail (hr ▸ .noOperand h)
    cases hk : kind token with
    | operator op =>
      simp only [hk]
      rw [kind_eq_operator_iff] at hk
      by_cases ht : op.tier = .additive
      · simp only [if_pos ht]
        exact .pure _ s
      · simp only [if_neg ht]
        refine hunexpected ?_
        subst hk
        cases op with
        | add | sub => exact absurd rfl ht
        | mul | div => decide
    | closing =>
      simp only [hk]
      exact hunexpected (by simp [kind_eq_closing_iff.mp hk])
    | comma =>
      simp only [hk]
      exact hunexpected (by simp [kind_eq_comma_iff.mp hk])
    | opening =>
      simp only [hk]
      rw [kind_eq_opening_iff] at hk
      exact group hi hroom (hk ▸ hr)
    | numeral =>
      simp only [hk]
      refine .of_advances (.advanced hr (.inl (by simp [hk]))) ?_
      rw [bind_of_ok advance_eq, ← State.cursor_advanced]
      exact .pure _ s.advanced
    | name =>
      simp only [hk]
      cases hf : library.get? token with
      | some f =>
        have hcontains : library.contains token = true := by rw [Library.contains, hf]; rfl
        simp only [if_pos hcontains]
        exact call hi hroom hr hf
      | none =>
        have hcontains : ¬library.contains token = true := by
          rw [Library.contains, hf]
          exact Bool.false_ne_true
        simp only [if_neg hcontains]
        by_cases hopening : rest.head?.map kind = some .opening
        · simp only [if_pos hopening]
          obtain ⟨token', hhead, hk'⟩ := Option.map_eq_some_iff.mp hopening
          obtain ⟨rest', rfl⟩ := List.head?_eq_some_iff.mp hhead
          rw [kind_eq_opening_iff] at hk'
          subst hk'
          exact hfail (hr ▸ .unknownCall hk hf)
        · simp only [if_neg hopening]
          exact freeName hr hk hf

/-- Where a series ends before a token that may not come there, the series is one of factors. -/
theorem raised_of_series {tier : Tier} {c next last : Cursor} {first tree : Expr φ}
    (h : Reading.ofLevel library room tier.operand c = .ok (first, next))
    (hrest : Reading.seriesRest tier (Reading.ofLevel library room tier.operand) next.rest first
      next = .ok (tree, last)) {token : String} {rest : List String}
    (hr : last.rest = token :: rest) (hk : tier.mayPrecede (kind token) = false) :
    Raised library phrase (.series tier) (.unexpectedSymbol token tier.phrase)
      (token :: rest) := by
  have hs := Reading.bounded_ofLevel library room tier.operand
  have hop := Reading.operator?_of_seriesRest hs hrest
  simp only [Cursor.operator?, Cursor.kind?, hr, List.head?_cons, Option.map_some] at hop
  cases tier with
  | additive =>
    -- behind the last term there is a sign, and that is read on
    have hlast := Reading.rest_of_seriesRest hs
      (P := fun rest => ∀ token ∈ rest.head?, Tier.multiplicative.mayPrecede (kind token) = true)
      (fun _ _ _ => Reading.mayPrecede_of_ofLevel) (Reading.mayPrecede_of_ofLevel h) hrest
      token (by rw [hr]; rfl)
    cases hkind : kind token with
    | operator op =>
      rw [hkind] at hop hlast
      have ht : op.tier = .additive := by simpa [Tier.mayPrecede] using hlast
      simp [ht] at hop
    | closing | comma =>
      rw [hkind] at hk
      cases hk
    | opening | numeral | name =>
      rw [hkind] at hlast
      cases hlast
  | multiplicative =>
    refine .noProduct ?_
    cases hkind : kind token with
    | opening => exact .inl (kind_eq_opening_iff.mp hkind)
    | numeral | name =>
      right
      rw [isSymbol_eq, hkind]
      rfl
    | operator op =>
      rw [hkind] at hop hk
      cases ht : op.tier <;> simp [ht, Tier.mayPrecede] at hop hk
    | closing | comma =>
      rw [hkind] at hk
      cases hk

end Rules

/-- The recursion is never cut off if it may go one level further than there are levels left. -/
theorem ofLevel (library : Library φ) (phrase : Phrase) (tokens : List String) (room : Nat)
    (level : Level) {levels : Nat} (hle : room ≤ levels) :
    Always library phrase tokens room (Reading.ofLevel library room level)
      (Descent.ofLevel tokens library (expression tokens library levels) level) := by
  refine Level.induction (P := fun room level => ∀ levels, room ≤ levels →
    Always library phrase tokens room (Reading.ofLevel library room level)
      (Descent.ofLevel tokens library (expression tokens library levels) level))
    ?_ ?_ room level levels hle
  · -- a level that is left is one that the recursion may still go down
    intro room hinner levels hle
    refine .factor ?_
    rintro deeper rfl
    obtain ⟨levels, rfl⟩ : ∃ more, levels = more + 1 := ⟨levels - 1, by omega⟩
    exact hinner deeper rfl levels (by omega)
  · intro room tier hoperand levels hle
    rw [Reading.ofLevel_series, Descent.ofLevel_series]
    exact .series (Reading.bounded_ofLevel library room _) (hoperand levels hle)
      fun _ _ _ _ _ h hrest _ _ => raised_of_series h hrest

/-- A descent through any phrase goes in lockstep with the reading of the phrase. -/
theorem ofPhrase (library : Library φ) (tokens : List String) (phrase : Phrase) (s : State) :
    Lockstep library phrase tokens s.depth s
      (Reading.ofPhrase library s.room phrase (s.cursor tokens))
      (Descent.ofPhrase tokens library phrase s) := by
  have hle : s.room ≤ nestingLimit := Nat.sub_le ..
  match phrase with
  | .expression => exact ofLevel library _ tokens s.room (.series .additive) hle s rfl
  | .term => exact ofLevel library _ tokens s.room (.series .multiplicative) hle s rfl
  | .factor => exact ofLevel library _ tokens s.room .factor hle s rfl
  | .call =>
    change Lockstep library .call tokens s.depth s
      (Reading.callWith library s.room (Reading.inside? library s.room) (s.cursor tokens))
      (Descent.call tokens library (expression tokens library nestingLimit) s)
    have hfail {cause : Cause} (h : Raised library .call .callee cause (s.cursor tokens).rest) :
        Lockstep (α := Expr φ) library .call tokens s.depth s
          (.error ⟨cause, s.cursor tokens, s.room⟩) (failAt tokens .callee cause s) :=
      .fail (Nat.le_refl _) h
    cases hr : (s.cursor tokens).rest with
    | nil =>
      rw [Reading.callWith, Descent.call, here_bind, hr]
      exact hfail (hr ▸ .noCallee rfl)
    | cons name rest =>
      cases hf : library.get? name with
      | none =>
        rw [Reading.callWith, Descent.call, here_bind]
        simp only [hr, hf]
        exact hfail (hr ▸ .unknownCallee rfl hf)
      | some f =>
        refine call ?_ rfl hr hf
        intro deeper hdeeper
        have hdeeper : deeper ≤ nestingLimit - 1 := by omega
        exact ofLevel library .call tokens deeper (.series .additive) hdeeper

end Lockstep

end Descent

end FormulaEngine
