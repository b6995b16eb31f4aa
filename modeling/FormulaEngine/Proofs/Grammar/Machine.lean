import FormulaEngine.Proofs.Grammar.Acceptance
import FormulaEngine.Proofs.Grammar.Locality

/-! Reading one step at a time. A machine keeps the rules that it has begun on a stack of frames,
so a step neither recurses nor loops, and no bound on the levels or the rounds is needed to say
what a step is. A step is told the token at the cursor and the one behind it, and no other token.
The frames remember where the groups, the calls and the rounds of the loops began.

From the place of a reader the machine comes to the same result and to the same place as the
reader. -/

namespace FormulaEngine

open Token

/-- What a rule that has been begun waits for. -/
inductive Machine.Frame (φ : Type) where
  /-- The first operand of a series. -/
  | first (tier : Tier)
  /-- The operand behind an operator. There is one round for each operator; the operators of the
  rounds before this one are known by their indices, last first. -/
  | joined (op : Operator) (index : Nat) (earlier : List Nat) (left : Expr φ)
  /-- What is inside a group. -/
  | group (index : Nat)
  /-- An argument of a call. There is one round for each argument; the parenthesis and the commas
  that the rounds began with are known by their indices, and the arguments by their trees, both
  last first. -/
  | argument (function : φ) (index : Nat) (openers : List Nat) (done : List (Expr φ))

/-- What is to be done next. -/
inductive Machine.Task (φ : Type) where
  | read (phrase : Phrase)
  /-- To go on behind the operands of a series that have been read. -/
  | series (tier : Tier) (earlier : List Nat) (left : Expr φ)
  /-- To go on behind the name of a function. -/
  | callee (function : φ) (index : Nat)
  /-- To go on behind the opening parenthesis of a call. -/
  | arguments (function : φ) (index opening : Nat)
  | done (tree : Expr φ)
  | failed (cause : Cause)

structure Machine (φ : Type) where
  task : Machine.Task φ
  /-- What has been begun, innermost first. -/
  frames : List (Machine.Frame φ)
  /-- The index of the token at the cursor. -/
  index : Nat
  bindings : Bindings
  /-- The nesting levels that are left. -/
  room : Nat

/-- The operator of a tier that a token is, if it is one. -/
def Tier.operator? (tier : Tier) (token : Option String) : Option Operator :=
  match token.map kind with
  | some (.operator op) => if op.tier = tier then some op else none
  | _ => none

/-- The reader at the token with an index. -/
def Reader.startAt {φ : Type} (library : Library φ) (tokens : List String) (index : Nat)
    (bindings : Bindings) (room : Nat) : Reader φ :=
  ⟨tokens, library, ⟨index, tokens.drop index, bindings⟩, room⟩

/-- What a level is as a phrase. -/
def Level.phrase : Level → Phrase
  | .series tier => tier.phrase
  | .factor => .factor

namespace Reading

variable {φ : Type}

/-- A reading takes tokens, and gives none back. -/
def Forward (reading : Reading φ) : Prop :=
  ∀ ⦃c : Cursor⦄ ⦃tree : Expr φ⦄ ⦃next : Cursor⦄, reading c = .ok (tree, next) → c.Reaches next

theorem forward_ofLevel [Callable φ] (library : Library φ) (room : Nat) (level : Level) :
    Forward (ofLevel library room level) :=
  fun c _ _ h => (localAt_ofLevel library room level c).reaches h

end Reading

namespace Machine

variable {φ : Type}

/-- Stops. An error goes through everything that has been begun. -/
def fail (m : Machine φ) (cause : Cause) : Machine φ :=
  { m with task := .failed cause, frames := [] }

def finish (m : Machine φ) (tree : Expr φ) : Machine φ := { m with task := .done tree }

/-- Begins a phrase that a frame waits for. -/
def begin (m : Machine φ) (phrase : Phrase) (frame : Frame φ) : Machine φ :=
  { m with task := .read phrase, frames := frame :: m.frames }

/-- Takes the token at the cursor. -/
def take (m : Machine φ) : Machine φ := { m with index := m.index + 1 }

/-- Takes the parenthesis that closes a level. -/
def close (m : Machine φ) (tree : Expr φ) : Machine φ :=
  { m.take.finish tree with room := m.room + 1 }

/-- Goes on behind the operands of a series: with the next operator, or with the tree if what
comes next may come there. -/
def goOn (m : Machine φ) (tier : Tier) (earlier : List Nat) (left : Expr φ)
    (token : Option String) : Machine φ :=
  match tier.operator? token, token with
  | some op, _ => m.take.begin tier.operand.phrase (.joined op m.index earlier left)
  | none, none => m.finish left
  | none, some token =>
    if tier.mayPrecede (kind token) then m.finish left
    else m.fail (.unexpectedSymbol token tier.phrase)

/-- Goes on behind the name of a function. -/
def openCall (m : Machine φ) (f : φ) (index : Nat) (token : Option String) : Machine φ :=
  if token.map kind = some .opening then { m.take with task := .arguments f index m.index }
  else m.fail (.expected '(')

/-- Goes on behind the opening parenthesis of a call, where there may be no argument. -/
def beginArguments (m : Machine φ) (f : φ) (index opening : Nat) (token : Option String) :
    Machine φ :=
  if token.map kind = some .closing then m.close (.call f (some index) [])
  else m.begin .expression (.argument f index [opening] [])

/-- Goes on behind an argument: with another one, or with the call. -/
def goOnArguments (m : Machine φ) (f : φ) (index : Nat) (openers : List Nat)
    (done : List (Expr φ)) (token : Option String) : Machine φ :=
  match token.map kind with
  | some .comma => m.take.begin .expression (.argument f index (m.index :: openers) done)
  | some .closing => m.close (.call f (some index) done.reverse)
  | _ => m.fail (.expected ')')

/-- Hands a tree to the frame that has waited for it. -/
def resume (m : Machine φ) (tree : Expr φ) (token : Option String) : Frame φ → Machine φ
  | .first tier => { m with task := .series tier [] tree }
  | .joined op index earlier left =>
    { m with task := .series op.tier (index :: earlier) (.binary op.symbol (some index) left tree) }
  | .group _ => if token.map kind = some .closing then m.close tree else m.fail (.expected ')')
  | .argument f index openers done => m.goOnArguments f index openers (tree :: done) token

variable [Callable φ]

/-- Begins a call. -/
def readCall (m : Machine φ) (library : Library φ) : Option String → Machine φ
  | none => m.fail .unexpectedEnd
  | some name =>
    match library.get? name with
    | none => m.fail (.unsupportedFunction name)
    | some f =>
      match m.room with
      | 0 => m.fail (.tooDeep nestingLimit)
      | room + 1 => { m.take with task := .callee f m.index, room }

/-- Reads a factor or begins one. A name that is no function is told from a call by the token
behind it. -/
def readFactor (m : Machine φ) (library : Library φ) (next : Option String) :
    Option String → Machine φ
  | none => m.fail .unexpectedEnd
  | some token =>
    match kind token with
    | .operator op =>
      if op.tier = .additive then m.finish (.number 0 none)
      else m.fail (.unexpectedSymbol token .factor)
    | .closing | .comma => m.fail (.unexpectedSymbol token .factor)
    | .opening =>
      match m.room with
      | 0 => m.fail (.tooDeep nestingLimit)
      | room + 1 => { m.take.begin .expression (.group m.index) with room }
    | .numeral => m.take.finish (.number (numeralValue token) (some m.index))
    | .name =>
      if library.contains token then { m with task := .read .call }
      else if next.map kind = some .opening then m.fail (.unsupportedFunction token)
      else
        let (id, bindings) := m.bindings.intern token
        { m.take.finish (.var id (some m.index)) with bindings }

/-- One step, given the token at the cursor and the one behind it. -/
def step (m : Machine φ) (library : Library φ) (token next : Option String) : Machine φ :=
  match m.task with
  | .read .expression => m.begin .term (.first .additive)
  | .read .term => m.begin .factor (.first .multiplicative)
  | .read .factor => m.readFactor library next token
  | .read .call => m.readCall library token
  | .series tier earlier left => m.goOn tier earlier left token
  | .callee f index => m.openCall f index token
  | .arguments f index opening => m.beginArguments f index opening token
  | .done tree =>
    match m.frames with
    | [] => m
    | frame :: frames => { m with frames }.resume tree token frame
  | .failed _ => m

/-- One step along a list of tokens. -/
def stepIn (library : Library φ) (tokens : List String) (m : Machine φ) : Machine φ :=
  m.step library tokens[m.index]? tokens[m.index + 1]?

def run (library : Library φ) (tokens : List String) : Nat → Machine φ → Machine φ
  | 0, m => m
  | steps + 1, m => (run library tokens steps m).stepIn library tokens

/-- What has come out, if the machine has ended. -/
def outcome? (m : Machine φ) : Option (Except Cause (Expr φ)) :=
  match m.task, m.frames with
  | .done tree, [] => some (.ok tree)
  | .failed cause, _ => some (.error cause)
  | _, _ => none

/-- The same as a reader gives it: a tree, or a failure at the cursor, and the reader there. -/
def result? (library : Library φ) (tokens : List String) (m : Machine φ) :
    Option (Except Failure (Expr φ) × Reader φ) :=
  m.outcome?.map fun outcome =>
    (outcome.mapError fun cause => .atToken cause tokens (some m.index),
      .startAt library tokens m.index m.bindings m.room)

end Machine

/-- The cursor is one of these tokens. -/
def Cursor.In (tokens : List String) (c : Cursor) : Prop := c.rest = tokens.drop c.index

/-- The machine at a cursor. -/
def Cursor.machine {φ : Type} (c : Cursor) (room : Nat) (frames : List (Machine.Frame φ))
    (task : Machine.Task φ) : Machine φ :=
  ⟨task, frames, c.index, c.bindings, room⟩

section Places

variable {tokens : List String} {c next : Cursor}

theorem Cursor.In.reaches (h : c.In tokens) (hr : c.Reaches next) : next.In tokens := by
  obtain ⟨taken, hrest, hindex⟩ := hr
  rw [Cursor.In, hindex, ← List.drop_drop, ← h, hrest, List.drop_left]

theorem Cursor.In.advance (h : c.In tokens) : c.advance.In tokens := by
  rw [Cursor.In, Cursor.advance_rest, h, List.tail_drop]
  rfl

end Places

namespace Machine

variable {φ : Type} [Callable φ] {library : Library φ} {tokens : List String}
  {frames : List (Frame φ)} {room : Nat} {c : Cursor}

theorem stepIn_machine (h : c.In tokens) (task : Task φ) :
    (c.machine room frames task).stepIn library tokens =
      (c.machine room frames task).step library c.rest.head? c.rest.tail.head? := by
  rw [stepIn, h, List.tail_drop, List.head?_drop, List.head?_drop]
  rfl

theorem run_add (s t : Nat) (m : Machine φ) :
    run library tokens (s + t) m = run library tokens t (run library tokens s m) := by
  induction t with
  | zero => rfl
  | succ t ih => rw [← Nat.add_assoc, run, ih, run]

/-- The machine comes from one state to another. -/
def Leads (library : Library φ) (tokens : List String) (m m' : Machine φ) : Prop :=
  ∃ steps, run library tokens steps m = m'

namespace Leads

variable {m m' m'' : Machine φ}

theorem refl (m : Machine φ) : Leads library tokens m m := ⟨0, rfl⟩

theorem trans (h : Leads library tokens m m') (h' : Leads library tokens m' m'') :
    Leads library tokens m m'' := by
  obtain ⟨s, rfl⟩ := h
  obtain ⟨t, rfl⟩ := h'
  exact ⟨s + t, run_add s t m⟩

/-- One step, from a cursor in the tokens. -/
theorem step {task : Task φ} (hc : c.In tokens)
    (h : Leads library tokens
      ((c.machine room frames task).step library c.rest.head? c.rest.tail.head?) m') :
    Leads library tokens (c.machine room frames task) m' := by
  rw [← stepIn_machine hc] at h
  exact trans ⟨1, rfl⟩ h

end Leads

/-- What a reading comes to, as a state of the machine that it has been begun in. -/
def ofOutcome (room : Nat) (frames : List (Frame φ)) :
    Except Stop (Expr φ × Cursor) → Machine φ
  | .ok (tree, next) => next.machine room frames (.done tree)
  | .error stop => stop.cursor.machine stop.room [] (.failed stop.cause)

/-- The machine reads a phrase as a reading does. -/
def Reads (library : Library φ) (tokens : List String) (room : Nat) (phrase : Phrase)
    (reading : Reading φ) : Prop :=
  ∀ ⦃c : Cursor⦄, c.In tokens → ∀ frames : List (Frame φ),
    Leads library tokens (c.machine room frames (.read phrase)) (ofOutcome room frames (reading c))

/-- A phrase that a frame waits for, and what is done with its tree. -/
theorem Leads.bind {m : Machine φ} {frame : Frame φ} {inner : Nat}
    {read : Except Stop (Expr φ × Cursor)}
    {next : Expr φ × Cursor → Except Stop (Expr φ × Cursor)}
    (h : Leads library tokens m (ofOutcome inner (frame :: frames) read))
    (hnext : ∀ tree c, read = .ok (tree, c) →
      Leads library tokens (c.machine inner (frame :: frames) (.done tree))
        (ofOutcome room frames (next (tree, c)))) :
    Leads library tokens m (ofOutcome room frames (read >>= next)) := by
  cases read with
  | error stop => exact h
  | ok read => exact h.trans (hnext read.1 read.2 rfl)

section Tokens

open Reading

variable {φ : Type} {frames : List (Frame φ)} {room : Nat} {c : Cursor} {tier : Tier}

/-- Behind the last operand the machine asks of the next token what a series asks of it. -/
theorem goOn_of_end (hop : c.operator? tier = none) (earlier : List Nat) (left : Expr φ)
    (task : Task φ) : (c.machine room frames task).goOn tier earlier left c.rest.head? =
      ofOutcome room frames (ended tier room left c) := by
  have hop : tier.operator? c.rest.head? = none := hop
  cases hr : c.rest with
  | nil =>
    rw [ended, hr]
    rfl
  | cons token rest =>
    rw [hr, List.head?_cons] at hop
    by_cases hk : tier.mayPrecede (kind token) = true
    · simp only [goOn, ended, hr, List.head?_cons, hop, if_pos hk]
      rfl
    · simp only [goOn, ended, hr, List.head?_cons, hop, if_neg hk]
      rfl

theorem goOn_of_operator {op : Operator} (hop : c.operator? tier = some op) (earlier : List Nat)
    (left : Expr φ) (task : Task φ) :
    (c.machine room frames task).goOn tier earlier left c.rest.head? =
      c.advance.machine room (.joined op c.index earlier left :: frames)
        (.read tier.operand.phrase) := by
  have hop : tier.operator? c.rest.head? = some op := hop
  simp only [goOn, hop]
  rfl

theorem goOnArguments_comma (h : c.kind? = some .comma) (f : φ) (index : Nat) (openers : List Nat)
    (done : List (Expr φ)) (task : Task φ) :
    (c.machine room frames task).goOnArguments f index openers done c.rest.head? =
      c.advance.machine room (.argument f index (c.index :: openers) done :: frames)
        (.read .expression) := by
  have hk : c.rest.head?.map kind = some .comma := h
  simp only [goOnArguments, hk]
  rfl

/-- What comes of the arguments of a call. -/
def callOf (f : φ) (index : Nat) (read : List (Expr φ) × Cursor) :
    Except Stop (Expr φ × Cursor) :=
  .ok (.call f (some index) read.1, read.2)

theorem goOnArguments_other (h : c.kind? ≠ some .comma) (argument : Reading φ) (f : φ)
    (index : Nat) (openers : List Nat) (done : List (Expr φ)) (task : Task φ) :
    (c.machine room frames task).goOnArguments f index openers done c.rest.head? =
      ofOutcome (room + 1) frames (nextArgument room argument done c >>= callOf f index) := by
  by_cases hclosing : c.kind? = some .closing
  · have hk : c.rest.head?.map kind = some .closing := hclosing
    rw [nextArgument_closing hclosing]
    simp only [goOnArguments, hk]
    rfl
  · rw [nextArgument_other h hclosing]
    unfold goOnArguments
    split
    next hk => exact absurd hk h
    next hk => exact absurd hk hclosing
    next => rfl

end Tokens

section Rules

open Reading

variable {tier : Tier} {operand argument : Reading φ}

/-- The loop over operands. -/
theorem leads_series (hs : Bounded room operand) (hreach : Forward operand)
    (ho : Reads library tokens room tier.operand.phrase operand) (hc : c.In tokens)
    (frames : List (Frame φ)) (earlier : List Nat) (left : Expr φ) :
    Leads library tokens (c.machine room frames (.series tier earlier left))
      (ofOutcome room frames (seriesRest tier operand c.rest left c >>= fun read =>
        ended tier room read.1 read.2)) := by
  induction c using hs.induction_operand tier generalizing earlier left with
  | round c ih =>
    rw [seriesRest_eq hs]
    refine .step hc ?_
    change Leads library tokens ((c.machine room frames _).goOn tier earlier left c.rest.head?) _
    cases hop : c.operator? tier with
    | none =>
      rw [goOn_of_end hop]
      exact .refl _
    | some op =>
      rw [goOn_of_operator hop, bind_assoc]
      refine .bind (ho hc.advance _) ?_
      intro right next hread
      obtain ⟨rfl, rest, hr⟩ := Cursor.operator?_eq_some_iff.mp hop
      have hnext := hc.reaches ((Cursor.reaches_advance hr).trans (hreach hread))
      exact .step hnext (ih hop hread hnext _ _)

theorem reads_series (hs : Bounded room operand) (hreach : Forward operand)
    (ho : Reads library tokens room tier.operand.phrase operand) :
    Reads library tokens room tier.phrase (series tier room operand) := by
  intro c hc frames
  rw [series_eq]
  refine .step hc ?_
  have hbegin : (c.machine room frames (.read tier.phrase)).step library c.rest.head?
      c.rest.tail.head? = c.machine room (.first tier :: frames) (.read tier.operand.phrase) := by
    cases tier <;> rfl
  rw [hbegin]
  refine .bind (ho hc _) ?_
  intro first next hread
  have hnext := hc.reaches (hreach hread)
  exact .step hnext (leads_series hs hreach ho hnext frames [] first)

/-- The loop over arguments. -/
theorem leads_argumentsRest (hs : Bounded room argument) (hreach : Forward argument)
    (ha : Reads library tokens room .expression argument) (hc : c.In tokens)
    (frames : List (Frame φ)) (f : φ) (index : Nat) (openers : List Nat)
    (done : List (Expr φ)) :
    Leads library tokens
      (c.machine room (.argument f index openers done :: frames) (.read .expression))
      (ofOutcome (room + 1) frames
        (argumentsRest room argument c.rest done c >>= callOf f index)) := by
  induction c using hs.induction_argument generalizing openers done with
  | round c ih =>
    rw [argumentsRest_eq hs, bind_assoc]
    refine .bind (ha hc _) ?_
    intro tree next hread
    have hnext := hc.reaches (hreach hread)
    refine .step hnext ?_
    change Leads library tokens ((next.machine room frames (.done tree)).goOnArguments f index
      openers (tree :: done) next.rest.head?) (ofOutcome (room + 1) frames
        (nextArgument room argument (tree :: done) next >>= callOf f index))
    by_cases hcomma : next.kind? = some .comma
    · rw [goOnArguments_comma hcomma, nextArgument_comma hcomma]
      exact ih hread hcomma hnext.advance _ _
    · rw [goOnArguments_other hcomma argument]
      exact .refl _

theorem leads_arguments (hs : Bounded room argument) (hreach : Forward argument)
    (ha : Reads library tokens room .expression argument) (hc : c.In tokens)
    (frames : List (Frame φ)) (f : φ) (index opening : Nat) :
    Leads library tokens (c.machine room frames (.arguments f index opening))
      (ofOutcome (room + 1) frames (arguments room argument c >>= callOf f index)) := by
  refine .step hc ?_
  change Leads library tokens (if c.kind? = some .closing then _ else _) _
  by_cases hclosing : c.kind? = some .closing
  · rw [if_pos hclosing, arguments, if_pos hclosing]
    exact .refl _
  · rw [if_neg hclosing, arguments, if_neg hclosing]
    exact leads_argumentsRest hs hreach ha hc frames f index [opening] []

theorem leads_callee (hs : Bounded room argument) (hreach : Forward argument)
    (ha : Reads library tokens room .expression argument) (hc : c.In tokens)
    (frames : List (Frame φ)) (f : φ) (index : Nat) :
    Leads library tokens (c.machine room frames (.callee f index))
      (ofOutcome (room + 1) frames
        (c.pass '(' room >>= fun opened => arguments room argument opened >>= callOf f index)) := by
  refine .step hc ?_
  change Leads library tokens (if c.kind? = some .opening then _ else _) _
  rw [Cursor.pass, symbolKind?_opening]
  by_cases hopening : c.kind? = some .opening
  · rw [if_pos hopening, if_pos hopening]
    exact leads_arguments hs hreach ha hc.advance frames f index c.index
  · rw [if_neg hopening, if_neg hopening]
    exact .refl _

/-- The machine reads an expression inside a group or call, if a level is left for it. -/
def ReadsInside (library : Library φ) (tokens : List String) (room : Nat) : Prop :=
  ∀ deeper, deeper + 1 = room →
    Reads library tokens deeper .expression (ofLevel library deeper (.series .additive))

theorem reads_call (hi : ReadsInside library tokens room) :
    Reads library tokens room .call (callWith library room (inside? library room)) := by
  intro c hc frames
  refine .step hc ?_
  change Leads library tokens ((c.machine room frames _).readCall library c.rest.head?) _
  cases hr : c.rest with
  | nil =>
    simp only [callWith, hr]
    exact .refl _
  | cons name rest =>
    cases hf : library.get? name with
    | none =>
      simp only [readCall, callWith, hr, hf, List.head?_cons]
      exact .refl _
    | some f =>
      simp only [readCall, callWith, hr, hf, List.head?_cons]
      cases room with
      | zero => exact .refl _
      | succ deeper =>
        exact leads_callee (bounded_ofLevel library deeper _)
          (forward_ofLevel library deeper _) (hi deeper rfl)
          hc.advance frames f c.index

theorem leads_group (hi : ReadsInside library tokens room) (hc : c.In tokens)
    (frames : List (Frame φ)) (deeper : Nat) (hroom : deeper + 1 = room) :
    Leads library tokens
      (c.advance.machine deeper (.group c.index :: frames) (.read .expression))
      (ofOutcome room frames (group room (inside? library room) c)) := by
  subst hroom
  change Leads library tokens _ (ofOutcome (deeper + 1) frames
    (ofLevel library deeper (.series .additive) c.advance >>= fun read =>
      read.2.pass ')' deeper >>= fun last => .ok (read.1, last)))
  refine .bind (hi deeper rfl hc.advance _) ?_
  intro tree next hread
  have hnext := hc.advance.reaches (forward_ofLevel library deeper _ hread)
  refine .step hnext ?_
  change Leads library tokens (if next.kind? = some .closing then _ else _)
    (ofOutcome (deeper + 1) frames (next.pass ')' deeper >>= fun last => .ok (tree, last)))
  rw [Cursor.pass, symbolKind?_closing]
  by_cases hclosing : next.kind? = some .closing
  · rw [if_pos hclosing, if_pos hclosing]
    exact .refl _
  · rw [if_neg hclosing, if_neg hclosing]
    exact .refl _

theorem reads_factor (hi : ReadsInside library tokens room) :
    Reads library tokens room .factor (ofLevel library room .factor) := by
  intro c hc frames
  refine .step hc ?_
  change Leads library tokens
    ((c.machine room frames _).readFactor library c.rest.tail.head? c.rest.head?) _
  rw [ofLevel_factor_eq]
  cases hr : c.rest with
  | nil =>
    simp only [factorWith, hr]
    exact .refl _
  | cons token rest =>
    rw [List.head?_cons, List.tail_cons]
    simp only [readFactor, factorWith, hr]
    cases hk : kind token with
    | operator op =>
      by_cases ht : op.tier = .additive
      · simp only [if_pos ht]
        exact .refl _
      · simp only [if_neg ht]
        exact .refl _
    | closing | comma => exact .refl _
    | numeral => exact .refl _
    | opening =>
      cases room with
      | zero => exact .refl _
      | succ deeper => exact leads_group hi hc frames deeper rfl
    | name =>
      by_cases hf : library.contains token = true
      · simp only [if_pos hf]
        exact reads_call hi hc frames
      · simp only [if_neg hf]
        by_cases hopening : rest.head?.map kind = some .opening
        · rw [if_pos hopening, if_pos hopening]
          exact .refl _
        · rw [if_neg hopening, if_neg hopening]
          exact .refl _

end Rules

open Reading in
theorem reads_ofLevel (library : Library φ) (tokens : List String) (room : Nat) (level : Level) :
    Reads library tokens room level.phrase (ofLevel library room level) := by
  refine Level.induction
    (P := fun room level => Reads library tokens room level.phrase (ofLevel library room level))
    ?_ ?_ room level
  · intro room hinner
    exact reads_factor hinner
  · intro room tier hoperand
    rw [ofLevel_series]
    exact reads_series (bounded_ofLevel library room _) (forward_ofLevel library room _) hoperand

/-- The machine reads every phrase as the rule for it does. -/
theorem reads_ofPhrase (library : Library φ) (tokens : List String) (room : Nat)
    (phrase : Phrase) :
    Reads library tokens room phrase (Reading.ofPhrase library room phrase) := by
  cases phrase with
  | expression => exact reads_ofLevel library tokens room (.series .additive)
  | term => exact reads_ofLevel library tokens room (.series .multiplicative)
  | factor => exact reads_ofLevel library tokens room .factor
  | call =>
    refine reads_call ?_
    intro deeper _
    exact reads_ofLevel library tokens deeper (.series .additive)

end Machine

end FormulaEngine
