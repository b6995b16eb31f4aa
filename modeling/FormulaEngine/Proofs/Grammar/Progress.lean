import FormulaEngine.Proofs.Grammar.ImplicitZero
import FormulaEngine.Proofs.Grammar.Machine

/-! Reading ends. Not every rule takes a token: before a sign a factor is a zero that nobody has
written, and it takes none. What gets less with each step of the machine is a bound on the steps
that are left. Each token still ahead counts for nine of them, each phrase for its rank, so a rule
that begins another one at the same token pays for it by its rank.

Nothing that has been begun is begun again at the same place. The tokens by which the groups, the
calls and the rounds of the loops were begun are kept in the frames, and they stand in order. -/

namespace FormulaEngine

open Token

/-- How much a phrase costs before its first token is taken. -/
@[simp] def Phrase.rank : Phrase → Nat
  | .expression => 8
  | .term => 5
  | .factor => 2
  | .call => 1

namespace Machine

variable {φ : Type}

/-- The steps that a frame still costs, those for tokens apart. -/
@[simp] def Frame.weight : Frame φ → Nat
  | .first _ | .joined .. => 2
  | .group _ | .argument .. => 1

@[simp] def Frame.weightOfAll : List (Frame φ) → Nat
  | [] => 0
  | frame :: frames => frame.weight + weightOfAll frames

@[simp] def Task.weight : Task φ → Nat
  | .read phrase => phrase.rank
  | .series .. => 1
  | .callee .. => 2
  | .arguments .. => 10
  | .done _ | .failed _ => 0

def load (m : Machine φ) : Nat := m.task.weight + Frame.weightOfAll m.frames

/-- The tokens that a rule and its rounds began with, by their indices, last first. -/
@[simp] def Frame.marks : Frame φ → List Nat
  | .first _ => []
  | .joined _ index earlier _ => index :: earlier
  | .group index => [index]
  | .argument _ index openers _ => openers ++ [index]

@[simp] def Task.marks : Task φ → List Nat
  | .series _ earlier _ => earlier
  | .callee _ index => [index]
  | .arguments _ index opening => [opening, index]
  | .read _ | .done _ | .failed _ => []

/-- The tokens that everything open began with, innermost first. -/
def marks (m : Machine φ) : List Nat := m.task.marks ++ m.frames.flatMap Frame.marks

/-- What one step does. -/
inductive Moves (token : Option String) (m m' : Machine φ) : Prop
  | stays (index : m'.index = m.index) (load : m'.load < m.load) (marks : m'.marks.Sublist m.marks)
  | takes (isSome : token.isSome = true) (index : m'.index = m.index + 1)
      (load : m'.load < m.load + 9) (marks : m'.marks.Sublist (m.index :: m.marks))

namespace Moves

variable {token : Option String} {m : Machine φ}

theorem isSome_of_map {k : Kind} (h : token.map kind = some k) : token.isSome = true := by
  simpa using congrArg Option.isSome h

theorem fail (h : 0 < m.load) (cause : Cause) : Moves token m (m.fail cause) :=
  .stays rfl h (List.nil_sublist _)

theorem finish (h : 0 < m.task.weight) (tree : Expr φ) : Moves token m (m.finish tree) :=
  .stays rfl (Nat.add_lt_add_right h _) (List.sublist_append_right ..)

/-- The level that is closed may have been open on top of the frames. -/
theorem close {outer : Machine φ} (hs : token.isSome = true) (hindex : m.index = outer.index)
    (hload : m.load ≤ outer.load) (hmarks : m.marks.Sublist outer.marks) (tree : Expr φ) :
    Moves token outer (m.close tree) := by
  refine .takes hs (congrArg (· + 1) hindex) ?_ ?_
  · have hle : (m.close tree).load ≤ m.load := Nat.add_le_add_right (Nat.zero_le _) _
    omega
  · exact ((List.sublist_append_right ..).trans hmarks).cons _

theorem goOn {tier : Tier} {earlier : List Nat} {left : Expr φ}
    (h : m.task = .series tier earlier left) : Moves token m (m.goOn tier earlier left token) := by
  have hweight : 0 < m.task.weight := by simp [h]
  cases hop : tier.operator? token with
  | some op =>
    have hrank : tier.operand.phrase.rank ≤ 5 := by cases tier <;> decide
    simp only [Machine.goOn, hop]
    refine .takes ?_ rfl ?_ ?_
    · cases token with
      | none => cases hop
      | some token => rfl
    · simp only [load, begin, take, h, Task.weight, Frame.weightOfAll, Frame.weight]
      omega
    · simp [marks, begin, take, h]
  | none =>
    cases token with
    | none =>
      simp only [Machine.goOn, hop]
      exact .finish hweight left
    | some token =>
      simp only [Machine.goOn, hop]
      split
      next => exact .finish hweight left
      next => exact .fail (Nat.lt_add_right _ hweight) _

theorem openCall {f : φ} {index : Nat} (h : m.task = .callee f index) :
    Moves token m (m.openCall f index token) := by
  unfold Machine.openCall
  split
  next hk =>
    refine .takes (isSome_of_map hk) rfl ?_ ?_
    · simp only [take, load, h, Task.weight]
      omega
    · simp [take, marks, h]
  next => exact .fail (Nat.lt_add_right _ (by simp [h])) _

theorem beginArguments {f : φ} {index opening : Nat} (h : m.task = .arguments f index opening) :
    Moves token m (m.beginArguments f index opening token) := by
  unfold Machine.beginArguments
  split
  next hk => exact .close (isSome_of_map hk) rfl (Nat.le_refl _) (.refl _) _
  next =>
    refine .stays rfl ?_ ?_
    · simp only [begin, load, h, Task.weight, Phrase.rank, Frame.weightOfAll, Frame.weight]
      omega
    · simp [begin, marks, h]

/-- What a frame is handed is paid for by the frame. -/
theorem resume {m : Machine φ} {tree : Expr φ} (h : m.task = .done tree) (frame : Frame φ) :
    Moves token { m with frames := frame :: m.frames } (m.resume tree token frame) := by
  obtain ⟨_, frames, index, table, room⟩ := m
  subst h
  have hload : 0 < load (⟨.done tree, frame :: frames, index, table, room⟩ : Machine φ) := by
    have hweight : 0 < frame.weight := by cases frame <;> simp
    simp only [load, Frame.weightOfAll]
    omega
  cases frame with
  | first tier =>
    exact .stays rfl (by simp [Machine.resume, load]) (by simp [Machine.resume, marks])
  | joined op i earlier left =>
    exact .stays rfl (by simp [Machine.resume, load]) (by simp [Machine.resume, marks])
  | group i =>
    simp only [Machine.resume]
    split
    next hk =>
      exact .close (isSome_of_map hk) (by rfl) (by simp [load]) (by simp [marks]) tree
    next => exact .fail hload _
  | argument f i openers done =>
    simp only [Machine.resume, goOnArguments]
    split
    next hk =>
      refine .takes (isSome_of_map hk) rfl ?_ ?_
      · simp only [load, begin, take, Task.weight, Phrase.rank, Frame.weightOfAll,
          Frame.weight]
        omega
      · simp [marks, begin, take]
    next hk =>
      exact .close (isSome_of_map hk) (by rfl) (by simp [load]) (by simp [marks]) _
    next => exact .fail hload _

variable [Callable φ] {library : Library φ} {next : Option String}

theorem readCall (h : m.task = .read .call) : Moves token m (m.readCall library token) := by
  have hload : 0 < m.load := Nat.lt_add_right _ (by simp [h])
  cases token with
  | none => exact .fail hload _
  | some name =>
    simp only [Machine.readCall]
    split
    next => exact .fail hload _
    next f _ =>
      split
      next => exact .fail hload _
      next =>
        refine .takes rfl rfl ?_ ?_
        · simp only [load, take, h, Task.weight, Phrase.rank]
          omega
        · simp [marks, take, h]

theorem readFactor (h : m.task = .read .factor) :
    Moves token m (m.readFactor library next token) := by
  have hweight : 0 < m.task.weight := by simp [h]
  have hload : 0 < m.load := Nat.lt_add_right _ hweight
  -- a token alone is an operand
  have hleaf (text : String) (tree : Expr φ) (table : Bindings) :
      Moves (some text) m { m.take.finish tree with bindings := table } := by
    refine .takes rfl rfl ?_ ?_
    · simp only [load, take, Machine.finish, h, Task.weight, Phrase.rank]
      omega
    · simp [marks, take, Machine.finish, h]
  cases token with
  | none => exact .fail hload _
  | some token =>
    simp only [Machine.readFactor]
    cases kind token with
    | operator op =>
      simp only
      split
      next => exact .finish hweight _
      next => exact .fail hload _
    | closing | comma => exact .fail hload _
    | opening =>
      simp only
      split
      next => exact .fail hload _
      next =>
        refine .takes rfl rfl ?_ ?_
        · simp only [load, take, begin, h, Task.weight, Phrase.rank, Frame.weightOfAll,
            Frame.weight]
          omega
        · simp [marks, take, begin, h]
    | numeral => exact hleaf token _ m.bindings
    | name =>
      simp only
      split
      next =>
        refine .stays rfl ?_ ?_
        · simp [load, h]
        · simp [marks, h]
      next =>
        split
        next => exact .fail hload _
        next => exact hleaf token _ _

/-- Every step that is not the last gets on. -/
theorem step (h : m.outcome? = none) : Moves token m (m.step library token next) := by
  obtain ⟨task, frames, index, table, room⟩ := m
  cases task with
  | read phrase =>
    cases phrase with
    | expression | term =>
      refine .stays rfl ?_ (by simp [Machine.step, begin, marks])
      simp only [Machine.step, begin, load, Task.weight, Phrase.rank, Frame.weightOfAll,
        Frame.weight]
      omega
    | factor => exact .readFactor rfl
    | call => exact .readCall rfl
  | series tier earlier left => exact .goOn rfl
  | callee f i => exact .openCall rfl
  | arguments f i opening => exact .beginArguments rfl
  | done tree =>
    cases frames with
    | nil => cases h
    | cons frame frames => exact .resume (m := ⟨.done tree, frames, index, table, room⟩) rfl frame
  | failed cause => cases h

end Moves

section Run

variable [Callable φ] {library : Library φ} {tokens : List String} {m m' : Machine φ}

/-- A bound on the steps to the end. Every token allows for nine. -/
def measure (tokens : List String) (m : Machine φ) : Nat :=
  9 * (tokens.length - m.index) + m.load

theorem measure_stepIn_lt (h : m.outcome? = none) :
    (m.stepIn library tokens).measure tokens < m.measure tokens := by
  have hmoves : Moves tokens[m.index]? m (m.stepIn library tokens) := .step h
  unfold measure
  cases hmoves with
  | stays index load marks =>
    rw [index]
    omega
  | takes isSome index load marks =>
    have hlt : m.index < tokens.length := by simpa using isSome
    rw [index]
    omega

theorem stepIn_of_ended (h : m.outcome?.isSome = true) : m.stepIn library tokens = m := by
  obtain ⟨task, frames, index, table, room⟩ := m
  cases task with
  | read | series | callee | arguments => cases h
  | done tree =>
    cases frames with
    | nil => rfl
    | cons frame frames => cases h
  | failed cause => rfl

theorem run_of_ended (h : m.outcome?.isSome = true) (steps : Nat) :
    run library tokens steps m = m := by
  induction steps with
  | zero => rfl
  | succ steps ih => rw [run, ih, stepIn_of_ended h]

/-- The steps done and those that may be left are no more than the steps there were. -/
theorem measure_run_le {steps : Nat} (h : (run library tokens steps m).outcome? = none) :
    (run library tokens steps m).measure tokens + steps ≤ m.measure tokens := by
  induction steps with
  | zero => exact Nat.le_refl _
  | succ steps ih =>
    cases hbefore : (run library tokens steps m).outcome? with
    | none =>
      have hlt : ((run library tokens steps m).stepIn library tokens).measure tokens <
          (run library tokens steps m).measure tokens := measure_stepIn_lt hbefore
      have hle := ih hbefore
      rw [run]
      omega
    | some outcome =>
      rw [run, stepIn_of_ended (by rw [hbefore]; rfl), hbefore] at h
      cases h

/-- From wherever it starts the machine ends. -/
theorem ended_run {steps : Nat} (h : m.measure tokens ≤ steps) :
    (run library tokens steps m).outcome?.isSome = true := by
  cases hend : (run library tokens steps m).outcome? with
  | some outcome => rfl
  | none =>
    have hle := measure_run_le hend
    have hlt : ((run library tokens steps m).stepIn library tokens).measure tokens <
        (run library tokens steps m).measure tokens := measure_stepIn_lt hend
    omega

/-- Where it ends does not depend on how many steps it is given, if they are enough. -/
theorem run_of_leads (h : Leads library tokens m m') (hend : m'.outcome?.isSome = true)
    {steps : Nat} (hsteps : m.measure tokens ≤ steps) : run library tokens steps m = m' := by
  obtain ⟨n, rfl⟩ := h
  obtain ⟨k, rfl⟩ | ⟨k, rfl⟩ := (Nat.le_total n steps).imp Nat.exists_eq_add_of_le
    Nat.exists_eq_add_of_le
  · rw [run_add, run_of_ended hend]
  · rw [run_add, run_of_ended (ended_run hsteps)]

theorem index_le_stepIn (m : Machine φ) : m.index ≤ (m.stepIn library tokens).index := by
  cases h : m.outcome? with
  | some outcome => exact Nat.le_of_eq (by rw [stepIn_of_ended (by rw [h]; rfl)])
  | none =>
    have hmoves : Moves tokens[m.index]? m (m.stepIn library tokens) := .step h
    cases hmoves with
    | stays index load marks => exact Nat.le_of_eq index.symm
    | takes isSome index load marks => rw [index]; exact Nat.le_succ _

/-- The tokens that everything open began with stand in the order in which it was begun, and the
cursor is behind them. So an expression in a group or call begins behind the place where the group
or call began, and each round of a loop behind the place where the round before it began. -/
def Progresses (m : Machine φ) : Prop := (m.index :: m.marks).Pairwise (· > ·)

theorem Progresses.stepIn (h : m.Progresses) : (m.stepIn library tokens).Progresses := by
  cases hend : m.outcome? with
  | some outcome =>
    rw [stepIn_of_ended (by rw [hend]; rfl)]
    exact h
  | none =>
    have hmoves : Moves tokens[m.index]? m (m.stepIn library tokens) := .step hend
    cases hmoves with
    | stays index load marks =>
      rw [Progresses, index]
      exact h.sublist (marks.cons_cons _)
    | takes isSome index load marks =>
      rw [Progresses, index]
      refine List.pairwise_cons.mpr ⟨?_, h.sublist marks⟩
      intro i hi
      obtain rfl | hi := List.mem_cons.mp (marks.subset hi)
      · exact Nat.lt_succ_self _
      · exact Nat.lt_succ_of_lt (List.rel_of_pairwise_cons h hi)

theorem Progresses.run (h : m.Progresses) (steps : Nat) :
    (run library tokens steps m).Progresses := by
  induction steps with
  | zero => exact h
  | succ steps ih => exact ih.stepIn

end Run

end Machine

namespace Reading

variable {φ : Type} [Callable φ] {library : Library φ} {room : Nat}

/-- The cursor that a reading ends at, be it by success or failure. -/
def endOf : Except Stop (Expr φ × Cursor) → Cursor
  | .ok read => read.2
  | .error stop => stop.cursor

omit [Callable φ] in
theorem LocalAt.reaches_endOf {reading : Reading φ} {c : Cursor} (h : LocalAt reading c) :
    c.Reaches (endOf (reading c)) := by
  cases hread : reading c with
  | ok read => exact h.reaches hread
  | error stop => exact (h.stops hread).1

theorem reaches_ofPhrase (library : Library φ) (room : Nat) (phrase : Phrase) (c : Cursor) :
    c.Reaches (endOf (ofPhrase library room phrase c)) := by
  have hlevel (level : Level) : c.Reaches (endOf (ofLevel library room level c)) :=
    (localAt_ofLevel library room level c).reaches_endOf
  cases phrase with
  | expression => exact hlevel (.series .additive)
  | term => exact hlevel (.series .multiplicative)
  | factor => exact hlevel .factor
  | call =>
    change c.Reaches (endOf (callWith library room (inside? library room) c))
    cases hr : c.rest with
    | nil =>
      simp only [callWith, hr]
      exact .refl c
    | cons name rest =>
      cases hf : library.get? name with
      | none =>
        simp only [callWith, hr, hf]
        exact .refl c
      | some f =>
        refine (LocalAt.callWith ?_ hr hf).reaches_endOf
        intro inner hin
        obtain ⟨deeper, rfl, rfl⟩ := inside?_eq_some_iff.mp hin
        exact ⟨bounded_ofLevel library deeper _, localAt_ofLevel library deeper _⟩

/-- A level that takes no token stands before a sign. -/
theorem startsWithSign_of_index_eq {level : Level} {c next : Cursor} {tree : Expr φ}
    (h : ofLevel library room level c = .ok (tree, next)) (hindex : next.index = c.index) :
    startsWithSign next.rest = true ∧ next.rest = c.rest := by
  obtain ⟨d, htokens, -⟩ := derives_ofLevel library room level h _ rfl
  have hlength := (forward_ofLevel library room level h).index_add_length
  have hnil : d.tokens = [] := by
    rw [htokens, List.length_append] at hlength
    exact List.eq_nil_of_length_eq_zero (by omega)
  rw [hnil, List.nil_append] at htokens
  refine ⟨?_, htokens.symm⟩
  cases hsign : startsWithSign next.rest with
  | true => rfl
  | false => exact absurd hnil (d.tokens_ne_nil hsign nofun)

/-- An expression takes a token, since what comes after it is no sign. -/
theorem index_lt_of_expression {c next : Cursor} {tree : Expr φ}
    (h : expression library room c = .ok (tree, next)) : c.index < next.index := by
  have hlevel : ofLevel library room (.series .additive) c = .ok (tree, next) := h
  refine Nat.lt_of_le_of_ne (forward_ofLevel library room _ hlevel).index_le fun hindex => ?_
  have hsign := (startsWithSign_of_index_eq hlevel hindex.symm).1
  rw [startsWithSign_of_expression hlevel] at hsign
  cases hsign

/-- A call takes its name and its parenthesis. -/
theorem index_lt_of_call {c next : Cursor} {tree : Expr φ}
    (h : call library room c = .ok (tree, next)) : c.index < next.index := by
  obtain ⟨name, rest, f, inner, args, -, -, hinner, hargs, -⟩ := callWith_eq_ok_iff.mp h
  obtain ⟨deeper, rfl, rfl⟩ := inside?_eq_some_iff.mp hinner
  have hlocal := LocalAt.arguments (bounded_ofLevel library deeper (.series .additive))
    (localAt_ofLevel library deeper _) c.advance.advance
  have hle : c.index + 1 + 1 ≤ next.index := (hlocal.reaches hargs).index_le
  omega

/-- Before a sign a level of factors takes nothing and is the zero. -/
theorem factor_of_sign {c : Cursor} (h : startsWithSign c.rest = true) :
    factor library room c = .ok (.number 0 none, c) := factorWith_of_sign h

theorem term_of_sign {c : Cursor} (h : startsWithSign c.rest = true) :
    term library room c = .ok (.number 0 none, c) := by
  have hnext : ∀ token ∈ c.rest.head?, Tier.multiplicative.mayPrecede (kind token) = true := by
    intro token ht
    obtain ⟨rest, hr⟩ := List.head?_eq_some_iff.mp ht
    rw [hr, startsWithSign, List.head?_cons, Option.map_some] at h
    cases hk : kind token with
    | operator op =>
      rw [hk] at h
      simpa [Tier.mayPrecede] using Tier.isSign_iff.mp h
    | opening | closing | comma | numeral | name =>
      rw [hk] at h
      cases h
  refine series_eq_ok_iff.mpr ⟨.number 0 none, c, factor_of_sign h, ?_, hnext⟩
  exact seriesRest_of_end (Cursor.operator?_eq_none hnext)

end Reading

section Progress

variable {φ : Type} [Callable φ] {library : Library φ} {tokens : List String} {index : Nat}
  {table : Bindings} {room : Nat}

omit [Callable φ] in
theorem Cursor.In.startAt_eq {c : Cursor} (h : c.In tokens) :
    Reader.startAt library tokens c.index c.bindings room = ⟨tokens, library, c, room⟩ := by
  rw [Reader.startAt, ← h]

/-- What the machine comes to, as the reader gives it. -/
theorem Machine.result?_ofOutcome {c : Cursor} (hc : c.In tokens) (phrase : Phrase) :
    (ofOutcome room [] (Reading.ofPhrase library room phrase c)).result? library tokens =
      some ((⟨tokens, library, c, room⟩ : Reader φ).read phrase) := by
  have hin := hc.reaches (Reading.reaches_ofPhrase library room phrase c)
  unfold Reader.read
  cases hread : Reading.ofPhrase library room phrase c with
  | ok read =>
    rw [hread] at hin
    exact congrArg some (Prod.ext rfl hin.startAt_eq)
  | error stop =>
    rw [hread] at hin
    exact congrArg some (Prod.ext rfl hin.startAt_eq)

/-- With steps enough the machine gives what the reader gives at its place. -/
theorem Machine.result?_run (phrase : Phrase) {steps : Nat}
    (h : 9 * (tokens.length - index) + 8 ≤ steps) :
    (run library tokens steps ⟨.read phrase, [], index, table, room⟩).result? library tokens =
      some ((Reader.startAt library tokens index table room).read phrase) := by
  let c : Cursor := ⟨index, tokens.drop index, table⟩
  have hc : c.In tokens := rfl
  have hleads := reads_ofPhrase library tokens room phrase hc []
  have hended : (ofOutcome room [] (Reading.ofPhrase library room phrase c)).outcome?.isSome =
      true := by
    cases Reading.ofPhrase library room phrase c <;> rfl
  have hsteps : measure tokens (c.machine room [] (.read phrase) : Machine φ) ≤ steps := by
    have hrank : phrase.rank ≤ 8 := by cases phrase <;> decide
    simp only [measure, load, Cursor.machine, c, Task.weight, Frame.weightOfAll]
    omega
  change (run library tokens steps (c.machine room [] (.read phrase))).result? library tokens = _
  rw [run_of_leads hleads hended hsteps]
  exact result?_ofOutcome hc phrase

theorem Token.startsWithSign_drop_iff :
    startsWithSign (tokens.drop index) = true ↔ tokens[index]? ∈ [some "+", some "-"] := by
  rw [← List.head?_drop]
  cases tokens.drop index with
  | nil => simp
  | cons token rest => simp [startsWithSign_eq_decide]

/-- A term or a factor is read without a token being taken exactly before a sign. -/
theorem Reading.stays_iff (level : Level) {phrase : Phrase}
    (hphrase : ofPhrase library room phrase = ofLevel library room level)
    (hzero : ∀ c : Cursor, startsWithSign c.rest = true →
      ofPhrase library room phrase c = .ok (.number 0 none, c)) :
    let reader := Reader.startAt library tokens index table room
    ((∃ tree after, reader.read phrase = (.ok tree, after) ∧ after.cursor.index = index) ↔
        tokens[index]? ∈ [some "+", some "-"]) ∧
      (tokens[index]? ∈ [some "+", some "-"] →
        reader.read phrase = (.ok (.number 0 none), reader)) := by
  intro reader
  have hread (h : tokens[index]? ∈ [some "+", some "-"]) :
      reader.read phrase = (.ok (.number 0 none), reader) :=
    Reader.read_eq_ok_iff.mpr
      ⟨reader.cursor, hzero reader.cursor (Token.startsWithSign_drop_iff.mpr h), rfl⟩
  refine ⟨⟨?_, fun h => ⟨_, _, hread h, rfl⟩⟩, hread⟩
  rintro ⟨tree, after, h, hindex⟩
  obtain ⟨last, hlast, rfl⟩ := Reader.read_eq_ok_iff.mp h
  have hlevel : ofLevel library room level reader.cursor = .ok (tree, last) := hphrase ▸ hlast
  obtain ⟨hsign, hrest⟩ := startsWithSign_of_index_eq hlevel hindex
  rw [hrest] at hsign
  exact Token.startsWithSign_drop_iff.mp hsign

/-- Reading any phrase ends, from whatever token of whatever list and with whatever levels left.
The machine that reads it step by step, and knows of no bound on levels or rounds, has ended after
nine steps for each token left and eight more, in what the reader gives. Until then each group,
each call and each round of a loop begins behind what was begun before it, by a token of its own.
An expression and a call take a token wherever they succeed; a term and a factor do so everywhere
but before a sign, where they succeed as a zero without a position and leave the reader as it
was. -/
theorem Reader.read_progresses (library : Library φ) (tokens : List String) (index : Nat)
    (table : Bindings) (room : Nat) (phrase : Phrase) :
    let reader := Reader.startAt library tokens index table room
    let machine (steps : Nat) :=
      Machine.run library tokens steps ⟨.read phrase, [], index, table, room⟩
    (∀ steps, 9 * (tokens.length - index) + 8 ≤ steps →
      (machine steps).result? library tokens = some (reader.read phrase)) ∧
    (∀ steps, (machine steps).Progresses) ∧
    match phrase with
    | .expression | .call =>
      ∀ tree after, reader.read phrase = (.ok tree, after) → index < after.cursor.index
    | .term | .factor =>
      ((∃ tree after, reader.read phrase = (.ok tree, after) ∧ after.cursor.index = index) ↔
        tokens[index]? ∈ [some "+", some "-"]) ∧
      (tokens[index]? ∈ [some "+", some "-"] →
        reader.read phrase = (.ok (.number 0 none), reader)) := by
  intro reader machine
  have hstart : (⟨.read phrase, [], index, table, room⟩ : Machine φ).Progresses :=
    List.pairwise_singleton _ _
  refine ⟨fun steps => Machine.result?_run phrase, hstart.run, ?_⟩
  cases phrase with
  | expression =>
    intro tree after h
    obtain ⟨last, hlast, rfl⟩ := Reader.read_eq_ok_iff.mp h
    exact Reading.index_lt_of_expression hlast
  | call =>
    intro tree after h
    obtain ⟨last, hlast, rfl⟩ := Reader.read_eq_ok_iff.mp h
    exact Reading.index_lt_of_call hlast
  | term =>
    exact Reading.stays_iff (.series .multiplicative) rfl fun _ => Reading.term_of_sign
  | factor => exact Reading.stays_iff .factor rfl fun _ => Reading.factor_of_sign

end Progress

end FormulaEngine
