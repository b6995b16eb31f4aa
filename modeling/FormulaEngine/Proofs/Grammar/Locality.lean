import FormulaEngine.Proofs.Grammar.Loops

/-! What a reading has looked at. It takes tokens from the front, and before it goes on
or stops it looks at one token more; a name that is no function it tells from a call by
the token behind it. So a reading goes the same way on every list of tokens that agrees
with its own as far as it has looked. With that the cause of a stop says something of the
tokens that it was found at. -/

namespace FormulaEngine

open Token

namespace Cursor

/-- The tokens between two cursors have been taken. -/
def Reaches (c next : Cursor) : Prop :=
  ∃ taken, c.rest = taken ++ next.rest ∧ next.index = c.index + taken.length

namespace Reaches

variable {c next last : Cursor}

theorem refl (c : Cursor) : c.Reaches c := ⟨[], rfl, rfl⟩

theorem trans (h : c.Reaches next) (h' : next.Reaches last) : c.Reaches last := by
  obtain ⟨xs, hx, hi⟩ := h
  obtain ⟨ys, hy, hj⟩ := h'
  refine ⟨xs ++ ys, by rw [hx, hy, List.append_assoc], ?_⟩
  rw [hj, hi, List.length_append, Nat.add_assoc]

theorem index_le (h : c.Reaches next) : c.index ≤ next.index := by
  obtain ⟨taken, -, hi⟩ := h
  omega

/-- The tokens taken and those left are as many as before. -/
theorem index_add_length (h : c.Reaches next) :
    next.index + next.rest.length = c.index + c.rest.length := by
  obtain ⟨taken, hr, hi⟩ := h
  rw [hr, hi, List.length_append, Nat.add_assoc]

variable {tokens : List String} {table : Bindings}

/-- Behind the tokens taken from the first one on, the others are left. -/
theorem take_drop {c : Cursor} (h : Reaches ⟨0, tokens, table⟩ c) :
    tokens.take c.index ++ c.rest = tokens ∧ c.rest = tokens.drop c.index := by
  obtain ⟨taken, hr, hi⟩ := h
  obtain rfl : tokens = taken ++ c.rest := hr
  rw [hi, Nat.zero_add, List.take_left, List.drop_left]
  exact ⟨rfl, rfl⟩

theorem length_eq {c : Cursor} (h : Reaches ⟨0, tokens, table⟩ c) :
    c.index + c.rest.length = tokens.length :=
  h.index_add_length.trans (Nat.zero_add _)

end Reaches

theorem reaches_advance {c : Cursor} {token : String} {rest : List String}
    (h : c.rest = token :: rest) : c.Reaches c.advance :=
  ⟨[token], by rw [h, advance_rest, h, List.tail_cons, List.singleton_append], rfl⟩

/-- The same place in two lists of tokens that have the same tokens before the bound. -/
structure Agree (bound : Nat) (c c' : Cursor) : Prop where
  index : c'.index = c.index
  bindings : c'.bindings = c.bindings
  rest : ∀ i, c.index + i < bound → c'.rest[i]? = c.rest[i]?

namespace Agree

variable {bound : Nat} {c c' : Cursor}

theorem head? (h : Agree bound c c') (hlt : c.index < bound) : c'.rest.head? = c.rest.head? := by
  rw [List.head?_eq_getElem?, List.head?_eq_getElem?]
  exact h.rest 0 hlt

theorem advance (h : Agree bound c c') : Agree bound c.advance c'.advance := by
  refine ⟨congrArg (· + 1) h.index, h.bindings, ?_⟩
  intro i hi
  rw [advance_rest, advance_rest, List.getElem?_tail, List.getElem?_tail]
  refine h.rest (i + 1) ?_
  rwa [Nat.add_comm i, ← Nat.add_assoc]

/-- If the bound is beyond the next token, that token and the one behind it agree. -/
theorem cons (h : Agree bound c c') {token : String} {rest : List String}
    (hr : c.rest = token :: rest) (hlt : c.index + 1 < bound) :
    ∃ rest', c'.rest = token :: rest' ∧ rest'.head? = rest.head? := by
  have hfirst := h.head? (by omega)
  rw [hr, List.head?_cons, List.head?_eq_some_iff] at hfirst
  obtain ⟨rest', hr'⟩ := hfirst
  have hsecond := h.advance.head? hlt
  rw [advance_rest, advance_rest, hr, hr'] at hsecond
  exact ⟨rest', hr', hsecond⟩

end Agree

end Cursor

namespace Cause

/-- How many tokens a cause is about, from the one it was found at. An unknown function is
told by the parenthesis behind its name. -/
def ahead : Cause → Nat
  | unsupportedFunction _ => 2
  | _ => 1

theorem ahead_pos (cause : Cause) : 0 < cause.ahead := by
  cases cause <;> exact Nat.succ_pos _

/-- What a cause says of the tokens from the one it was found at. The causes that a
reading does not have say nothing true. -/
def Fits : Cause → List String → Prop
  | unexpectedEnd, rest => rest = []
  | unexpectedSymbol symbol _, rest => rest.head? = some symbol
  | expected symbol, rest => rest.head? ≠ some (String.singleton symbol)
  | unsupportedFunction name, rest => ∃ after, rest = name :: "(" :: after
  | tooDeep _, rest => rest ≠ []
  | trailingSymbols, _ | unknownOperator _, _ | argumentCount .., _ | notANumber, _
  | danglingVariable, _ => False

end Cause

namespace Reading

/-- What is read along the tokens, be it a tree or a list of trees. -/
abbrev Step (α : Type) := Cursor → Except Stop (α × Cursor)

/-- A step from this cursor goes forward, and it goes the same way wherever the tokens
agree as far as it has looked. -/
structure LocalAt {α : Type} (step : Step α) (c : Cursor) : Prop where
  reaches : ∀ ⦃a next⦄, step c = .ok (a, next) → c.Reaches next
  again : ∀ ⦃a next⦄, step c = .ok (a, next) → ∀ ⦃bound c'⦄, c.Agree bound c' →
    next.index < bound → ∃ next', step c' = .ok (a, next') ∧ next.Agree bound next'
  stops : ∀ ⦃stop⦄, step c = .error stop →
    c.Reaches stop.cursor ∧ stop.cause.Fits stop.cursor.rest
  stopsAgain : ∀ ⦃stop⦄, step c = .error stop → ∀ ⦃bound c'⦄, c.Agree bound c' →
    stop.cursor.index + stop.cause.ahead ≤ bound → ∃ stop', step c' = .error stop'

namespace LocalAt

variable {α β : Type} {step : Step α} {c : Cursor} {room : Nat}

/-- A step may depend on the index and the first token of the cursor it starts from. -/
theorem look {other : Step α} (h : LocalAt other c)
    (hstep : ∀ c' : Cursor, c'.index = c.index → c'.rest.head? = c.rest.head? →
      step c' = other c') : LocalAt step c := by
  have hc := hstep c rfl rfl
  constructor
  · intro a next hok
    exact h.reaches (hc ▸ hok)
  · intro a next hok bound c' hagree hlt
    rw [hc] at hok
    have hle := (h.reaches hok).index_le
    rw [hstep c' hagree.index (hagree.head? (by omega))]
    exact h.again hok hagree hlt
  · intro stop herror
    exact h.stops (hc ▸ herror)
  · intro stop herror bound c' hagree hle
    rw [hc] at herror
    have hle' := (h.stops herror).1.index_le
    have hpos := stop.cause.ahead_pos
    rw [hstep c' hagree.index (hagree.head? (by omega))]
    exact h.stopsAgain herror hagree hle

theorem lookAt {other : Step α} {token : String} {rest : List String} (hr : c.rest = token :: rest)
    (h : LocalAt other c)
    (hstep : ∀ (c' : Cursor) (rest' : List String), c'.index = c.index → c'.rest = token :: rest' →
      step c' = other c') : LocalAt step c := by
  refine .look h ?_
  intro c' hindex hhead
  rw [hr, List.head?_cons, List.head?_eq_some_iff] at hhead
  obtain ⟨rest', hr'⟩ := hhead
  exact hstep c' rest' hindex hr'

theorem pure (a : α) (c : Cursor) : LocalAt (fun c => .ok (a, c)) c where
  reaches := by
    rintro _ _ ⟨⟩
    exact .refl c
  again := by
    rintro _ _ ⟨⟩ bound c' hagree -
    exact ⟨c', rfl, hagree⟩
  stops := nofun
  stopsAgain := nofun

theorem fail (cause : Cause) (room : Nat) (h : cause.Fits c.rest) :
    LocalAt (α := α) (fun c => .error ⟨cause, c, room⟩) c where
  reaches := nofun
  again := nofun
  stops := by
    rintro _ ⟨⟩
    exact ⟨.refl c, h⟩
  stopsAgain := by
    rintro _ ⟨⟩ bound c' - -
    exact ⟨_, rfl⟩

theorem bind (hstep : LocalAt step c) (next : α → Step β)
    (hnext : ∀ a c', step c = .ok (a, c') → LocalAt (next a) c') :
    LocalAt (fun c => step c >>= fun read => next read.1 read.2) c := by
  constructor
  · intro b last hok
    obtain ⟨⟨a, mid⟩, hmid, hlast⟩ := bind_eq_ok_iff.mp hok
    exact (hstep.reaches hmid).trans ((hnext a mid hmid).reaches hlast)
  · intro b last hok bound c' hagree hlt
    obtain ⟨⟨a, mid⟩, hmid, hlast⟩ := bind_eq_ok_iff.mp hok
    have hle := ((hnext a mid hmid).reaches hlast).index_le
    obtain ⟨mid', hmid', hagree'⟩ := hstep.again hmid hagree (by omega)
    obtain ⟨last', hlast', hagree''⟩ := (hnext a mid hmid).again hlast hagree' hlt
    exact ⟨last', bind_eq_ok_iff.mpr ⟨_, hmid', hlast'⟩, hagree''⟩
  · intro stop herror
    obtain herror | ⟨⟨a, mid⟩, hmid, hstop⟩ := bind_eq_error_iff.mp herror
    · exact hstep.stops herror
    · obtain ⟨hreach, hfits⟩ := (hnext a mid hmid).stops hstop
      exact ⟨(hstep.reaches hmid).trans hreach, hfits⟩
  · intro stop herror bound c' hagree hle
    obtain herror | ⟨⟨a, mid⟩, hmid, hstop⟩ := bind_eq_error_iff.mp herror
    · obtain ⟨stop', hstop'⟩ := hstep.stopsAgain herror hagree hle
      exact ⟨stop', bind_eq_error_iff.mpr (.inl hstop')⟩
    · have hle' := ((hnext a mid hmid).stops hstop).1.index_le
      have hpos := stop.cause.ahead_pos
      obtain ⟨mid', hmid', hagree'⟩ := hstep.again hmid hagree (by omega)
      obtain ⟨stop', hstop'⟩ := (hnext a mid hmid).stopsAgain hstop hagree' hle
      exact ⟨stop', bind_eq_error_iff.mpr (.inr ⟨_, hmid', hstop'⟩)⟩

theorem advance {token : String} {rest : List String} (hr : c.rest = token :: rest)
    (h : LocalAt step c.advance) : LocalAt (fun c => step c.advance) c where
  reaches _ _ hok := (Cursor.reaches_advance hr).trans (h.reaches hok)
  again _ _ hok _ _ hagree hlt := h.again hok hagree.advance hlt
  stops _ herror :=
    ⟨(Cursor.reaches_advance hr).trans (h.stops herror).1, (h.stops herror).2⟩
  stopsAgain _ herror _ _ hagree hle := h.stopsAgain herror hagree.advance hle

/-- A symbol that has to be there, and what is read behind it. -/
theorem pass {symbol : Char} {k : Kind} (hk : symbolKind? symbol = some k) (room : Nat)
    (step : Step α) (h : c.kind? = some k → LocalAt step c.advance) :
    LocalAt (fun c => c.pass symbol room >>= step) c := by
  by_cases hc : c.kind? = some k
  · obtain ⟨token, hr, -⟩ := Option.map_eq_some_iff.mp hc
    obtain ⟨rest, hr⟩ := List.head?_eq_some_iff.mp hr
    refine .look (.advance hr (h hc)) ?_
    intro c' _ hhead
    rw [Cursor.pass, Cursor.kind?_congr hhead, hc, hk, if_pos rfl]
    rfl
  · refine .look (.fail (.expected symbol) room ?_) ?_
    · intro hhead
      rw [Cursor.kind?, hhead, Option.map_some,
        (kind_eq_iff (symbolKind?_eq_some_iff.mp hk)).mpr rfl] at hc
      exact hc rfl
    · intro c' _ hhead
      rw [Cursor.pass, Cursor.kind?_congr hhead, hk, if_neg hc]
      rfl

variable {φ : Type} {tier : Tier} {operand argument : Reading φ}

theorem seriesRest (hs : Bounded room operand) (ho : ∀ c, LocalAt operand c) (left : Expr φ)
    (c : Cursor) : LocalAt (fun c => seriesRest tier operand c.rest left c) c := by
  induction c using hs.induction_operand tier generalizing left with
  | round c ih =>
    cases hop : c.operator? tier with
    | none =>
      refine .look (.pure left c) ?_
      intro c' _ hhead
      rw [seriesRest_eq hs, Cursor.operator?_congr hhead, hop]
    | some op =>
      obtain ⟨-, rest, hr⟩ := Cursor.operator?_eq_some_iff.mp hop
      refine .look (.bind (.advance hr (ho c.advance)) (fun right c' =>
        Reading.seriesRest tier operand c'.rest (.binary op.symbol (some c.index) left right) c')
        ?_) ?_
      · intro right next hread
        exact ih hop hread _
      · intro c' hindex hhead
        rw [seriesRest_eq hs, Cursor.operator?_congr hhead, hop, hindex]

theorem ended (tree : Expr φ) (c : Cursor) : LocalAt (ended tier room tree) c := by
  cases hr : c.rest with
  | nil =>
    refine .look (.pure tree c) ?_
    intro c' _ hhead
    rw [hr, List.head?_nil, List.head?_eq_none_iff] at hhead
    rw [Reading.ended, hhead]
  | cons token rest =>
    by_cases ht : tier.mayPrecede (kind token) = true
    · refine .lookAt hr (.pure tree c) ?_
      intro c' rest' _ hr'
      simp only [Reading.ended, hr', if_pos ht]
    · have hfits : (Cause.unexpectedSymbol token tier.phrase).Fits c.rest := congrArg List.head? hr
      refine .lookAt hr (.fail _ room hfits) ?_
      intro c' rest' _ hr'
      simp only [Reading.ended, hr', if_neg ht]

theorem series (hs : Bounded room operand) (ho : ∀ c, LocalAt operand c) (c : Cursor) :
    LocalAt (series tier room operand) c := by
  refine .bind (ho c) (fun first c' =>
    Reading.seriesRest tier operand c'.rest first c' >>= fun read =>
      Reading.ended tier room read.1 read.2) ?_
  intro first next _
  refine .bind (.seriesRest hs ho first next) (Reading.ended tier room) ?_
  intro tree last _
  exact .ended tree last

theorem argumentsRest (hs : Bounded room argument) (ha : ∀ c, LocalAt argument c)
    (done : List (Expr φ)) (c : Cursor) :
    LocalAt (fun c => argumentsRest room argument c.rest done c) c := by
  induction c using hs.induction_argument generalizing done with
  | round c ih =>
    refine .look (.bind (ha c) (fun tree => nextArgument room argument (tree :: done)) ?_)
      fun c' _ _ => argumentsRest_eq hs done c'
    intro tree next hread
    by_cases hcomma : next.kind? = some .comma
    · obtain ⟨rest, hr⟩ := Cursor.kind?_eq_comma_iff.mp hcomma
      refine .look (.advance hr (ih hread hcomma (tree :: done))) ?_
      intro c' _ hhead
      exact nextArgument_comma ((Cursor.kind?_congr hhead).trans hcomma)
    by_cases hclosing : next.kind? = some .closing
    · obtain ⟨rest, hr⟩ := Cursor.kind?_eq_closing_iff.mp hclosing
      refine .look (.advance hr (.pure (tree :: done).reverse _)) ?_
      intro c' _ hhead
      exact nextArgument_closing ((Cursor.kind?_congr hhead).trans hclosing)
    · refine .look (.fail (.expected ')') room ?_) ?_
      · intro hhead
        obtain ⟨rest, hr⟩ := List.head?_eq_some_iff.mp hhead
        exact hclosing (Cursor.kind?_eq_closing_iff.mpr ⟨rest, hr⟩)
      · intro c' _ hhead
        rw [← Cursor.kind?_congr hhead] at hcomma hclosing
        exact nextArgument_other hcomma hclosing

theorem arguments (hs : Bounded room argument) (ha : ∀ c, LocalAt argument c) (c : Cursor) :
    LocalAt (arguments room argument) c := by
  by_cases hclosing : c.kind? = some .closing
  · obtain ⟨rest, hr⟩ := Cursor.kind?_eq_closing_iff.mp hclosing
    refine .look (.advance hr (.pure [] _)) ?_
    intro c' _ hhead
    rw [Reading.arguments, Cursor.kind?_congr hhead, if_pos hclosing]
  · refine .look (.argumentsRest hs ha [] c) ?_
    intro c' _ hhead
    rw [Reading.arguments, Cursor.kind?_congr hhead, if_neg hclosing]

theorem group (room : Nat) {inner? : Option (Reading φ)}
    (hi : ∀ inner ∈ inner?, ∀ c, LocalAt inner c) {token : String} {rest : List String}
    (hr : c.rest = token :: rest) :
    LocalAt (group room inner?) c := by
  cases inner? with
  | none => exact .fail _ room (show c.rest ≠ [] by simp [hr])
  | some inner =>
    refine .bind (.advance hr (hi inner rfl c.advance)) (fun tree c' =>
      c'.pass ')' (room - 1) >>= fun last => .ok (tree, last)) ?_
    intro tree next _
    exact .pass symbolKind?_closing _ _ fun _ => .pure tree _

variable [Callable φ] {library : Library φ} {inner? : Option (Reading φ)}

theorem callWith (hi : ∀ inner ∈ inner?, Bounded (room - 1) inner ∧ ∀ c, LocalAt inner c)
    {name : String} {rest : List String} (hr : c.rest = name :: rest) {f : φ}
    (hf : library.get? name = some f) : LocalAt (callWith library room inner?) c := by
  cases inner? with
  | none =>
    have hfits : (Cause.tooDeep nestingLimit).Fits c.rest := show c.rest ≠ [] by simp [hr]
    refine .lookAt hr (.fail _ room hfits) ?_
    intro c' rest' _ hr'
    simp only [Reading.callWith, hr', hf]
  | some inner =>
    obtain ⟨hs, ha⟩ := hi inner rfl
    refine .lookAt hr (.advance hr (.pass symbolKind?_opening (room - 1) (fun c' =>
      Reading.arguments (room - 1) inner c' >>= fun read =>
        .ok (.call f (some c.index) read.1, read.2)) ?_)) ?_
    · intro _
      refine .bind (.arguments hs ha _) (fun args last =>
        .ok (Expr.call f (some c.index) args, last)) ?_
      intro args last _
      exact .pure _ last
    · intro c' rest' hindex hr'
      simp only [Reading.callWith, hr', hf, hindex]

/-- A name that is no function, before a parenthesis. -/
theorem unknownCall {name : String} {rest : List String} (hr : c.rest = name :: "(" :: rest)
    (hk : kind name = .name) (hf : library.contains name = false) :
    LocalAt (factorWith library room inner?) c := by
  have hstop {c' : Cursor} {rest' : List String} (hr' : c'.rest = name :: rest')
      (hhead : rest'.head? = some "(") : Reading.factorWith library room inner? c' =
        .error ⟨.unsupportedFunction name, c', room⟩ := by
    simp [Reading.factorWith, hr', hk, hf, hhead]
  have hc := hstop hr rfl
  constructor
  · simp [hc]
  · simp [hc]
  · intro stop herror
    rw [hc] at herror
    cases herror
    exact ⟨.refl c, rest, hr⟩
  · intro stop herror bound c' hagree hle
    rw [hc] at herror
    cases herror
    obtain ⟨rest', hr', hhead⟩ := hagree.cons hr hle
    exact ⟨_, hstop hr' hhead⟩

/-- A name that is no function, not before a parenthesis. -/
theorem freeName {name : String} {rest : List String} (hr : c.rest = name :: rest)
    (hk : kind name = .name) (hf : library.contains name = false)
    (hopen : rest.head?.map kind ≠ some .opening) :
    LocalAt (factorWith library room inner?) c := by
  have hread {c' : Cursor} {rest' : List String} (hr' : c'.rest = name :: rest')
      (hhead : rest'.head? = rest.head?) : Reading.factorWith library room inner? c' =
        .ok (.var (c'.bindings.intern name).1 (some c'.index),
          { c'.advance with bindings := (c'.bindings.intern name).2 }) := by
    simp [Reading.factorWith, hr', hk, hf, hhead, hopen]
  have hc := hread hr rfl
  constructor
  · intro tree next hok
    rw [hc] at hok
    cases hok
    exact Cursor.reaches_advance hr
  · intro tree next hok bound c' hagree hlt
    rw [hc] at hok
    cases hok
    obtain ⟨rest', hr', hhead⟩ := hagree.cons hr hlt
    have hadvance := hagree.advance
    rw [hread hr' hhead, hagree.index, hagree.bindings]
    exact ⟨_, rfl, hadvance.index, rfl, hadvance.rest⟩
  · simp [hc]
  · simp [hc]

theorem factorWith (hi : ∀ inner ∈ inner?, Bounded (room - 1) inner ∧ ∀ c, LocalAt inner c)
    (c : Cursor) : LocalAt (factorWith library room inner?) c := by
  cases hr : c.rest with
  | nil =>
    refine .look (.fail .unexpectedEnd room hr) ?_
    intro c' _ hhead
    rw [hr, List.head?_nil, List.head?_eq_none_iff] at hhead
    simp only [Reading.factorWith, hhead]
  | cons token rest =>
    have hunexpected : LocalAt (α := Expr φ)
        (fun c => .error ⟨.unexpectedSymbol token .factor, c, room⟩) c :=
      .fail _ room (congrArg List.head? hr)
    cases hk : kind token with
    | operator op =>
      by_cases ht : op.tier = .additive
      · refine .lookAt hr (.pure (.number 0 none) c) ?_
        intro c' rest' _ hr'
        simp only [Reading.factorWith, hr', hk, if_pos ht]
      · refine .lookAt hr hunexpected ?_
        intro c' rest' _ hr'
        simp only [Reading.factorWith, hr', hk, if_neg ht]
    | closing | comma =>
      refine .lookAt hr hunexpected ?_
      intro c' rest' _ hr'
      simp only [Reading.factorWith, hr', hk]
    | opening =>
      refine .lookAt hr (.group room (fun inner hin => (hi inner hin).2) hr) ?_
      intro c' rest' _ hr'
      simp only [Reading.factorWith, hr', hk]
    | numeral =>
      refine .lookAt hr (.advance hr (.pure (.number (numeralValue token) (some c.index)) _)) ?_
      intro c' rest' hindex hr'
      simp only [Reading.factorWith, hr', hk, hindex]
    | name =>
      cases hf : library.contains token with
      | true =>
        obtain ⟨f, hf'⟩ := Option.isSome_iff_exists.mp hf
        refine .lookAt hr (.callWith hi hr hf') ?_
        intro c' rest' _ hr'
        simp only [Reading.factorWith, hr', hk, hf, if_true]
      | false =>
        by_cases hopen : rest.head?.map kind = some .opening
        · obtain ⟨token', hhead, hk'⟩ := Option.map_eq_some_iff.mp hopen
          obtain ⟨rest', rfl⟩ := List.head?_eq_some_iff.mp hhead
          rw [kind_eq_opening_iff] at hk'
          exact .unknownCall (hk' ▸ hr) hk hf
        · exact .freeName hr hk hf hopen

end LocalAt

theorem localAt_ofLevel {φ : Type} [Callable φ] (library : Library φ) (room : Nat) (level : Level)
    (c : Cursor) : LocalAt (ofLevel library room level) c := by
  refine Level.induction (P := fun room level => ∀ c, LocalAt (ofLevel library room level) c)
    ?_ ?_ room level c
  · intro room hinner
    refine .factorWith ?_
    intro inner hin
    obtain ⟨deeper, rfl, rfl⟩ := inside?_eq_some_iff.mp hin
    exact ⟨bounded_ofLevel library deeper _, hinner deeper rfl⟩
  · intro room tier hoperand c
    rw [ofLevel_series]
    exact .series (bounded_ofLevel library room _) hoperand c

end Reading

end FormulaEngine
