import FormulaEngine.Library.Elementary
import FormulaEngine.Proofs.Grammar.Progress

/-! Reading does not depend on its place. A step of the machine is told two tokens, and of its
place it does nothing but count on from it and keep it. So a run from some token on is the run from
the start of the tokens that are left there, with everything moved as far, and a run that ends
somewhere has been told nothing of the tokens from the second one behind its end on. -/

namespace FormulaEngine

open Token

variable {φ : Type}

/-- The same tree read from so many tokens further on. -/
def Expr.shift (n : Nat) (e : Expr φ) : Expr φ := e.relocate (Option.map (· + n))

section Expr

variable (n : Nat)

theorem Expr.shift_number (value : Constant) (p : Option Nat) :
    (number value p : Expr φ).shift n = number value (p.map (· + n)) := relocate_number ..

theorem Expr.shift_var (id : Nat) (p : Option Nat) :
    (var id p : Expr φ).shift n = var id (p.map (· + n)) := relocate_var ..

theorem Expr.shift_binary (op : Char) (p : Option Nat) (left right : Expr φ) :
    (binary op p left right).shift n =
      binary op (p.map (· + n)) (left.shift n) (right.shift n) := relocate_binary ..

theorem Expr.shift_call (f : φ) (p : Option Nat) (args : List (Expr φ)) :
    (call f p args).shift n = call f (p.map (· + n)) (args.map (shift n)) := relocate_call ..

end Expr

namespace Machine

/-- The same frame so many tokens further on. -/
def Frame.shift (n : Nat) : Frame φ → Frame φ
  | .first tier => .first tier
  | .joined op index earlier left =>
    .joined op (index + n) (earlier.map (· + n)) (left.shift n)
  | .group index => .group (index + n)
  | .argument f index openers done =>
    .argument f (index + n) (openers.map (· + n)) (done.map (Expr.shift n))

def Task.shift (n : Nat) : Task φ → Task φ
  | .read phrase => .read phrase
  | .series tier earlier left => .series tier (earlier.map (· + n)) (left.shift n)
  | .callee f index => .callee f (index + n)
  | .arguments f index opening => .arguments f (index + n) (opening + n)
  | .done tree => .done (tree.shift n)
  | .failed cause => .failed cause

/-- The same state so many tokens further on. -/
def shift (n : Nat) (m : Machine φ) : Machine φ where
  task := m.task.shift n
  frames := m.frames.map (Frame.shift n)
  index := m.index + n
  bindings := m.bindings
  room := m.room

section Shift

variable (m : Machine φ) (n : Nat)

theorem room_shift : (m.shift n).room = m.room := rfl

theorem finish_shift (tree : Expr φ) :
    (m.shift n).finish (tree.shift n) = (m.finish tree).shift n := rfl

theorem begin_shift (phrase : Phrase) (frame : Frame φ) :
    (m.shift n).begin phrase (frame.shift n) = (m.begin phrase frame).shift n := rfl

theorem take_shift : (m.shift n).take = m.take.shift n := by
  simp only [take, shift, Nat.add_right_comm]

theorem close_shift (tree : Expr φ) :
    (m.shift n).close (tree.shift n) = (m.close tree).shift n := by
  simp only [close, take_shift, finish_shift]
  rfl

theorem goOn_shift (tier : Tier) (earlier : List Nat) (left : Expr φ) (token : Option String) :
    (m.shift n).goOn tier (earlier.map (· + n)) (left.shift n) token =
      (m.goOn tier earlier left token).shift n := by
  cases hop : tier.operator? token with
  | some op =>
    simp only [goOn, hop, take_shift]
    exact begin_shift m.take n _ (.joined op m.index earlier left)
  | none =>
    cases token with
    | none =>
      simp only [goOn, hop]
      rfl
    | some token =>
      simp only [goOn, hop]
      split <;> rfl

theorem openCall_shift (f : φ) (index : Nat) (token : Option String) :
    (m.shift n).openCall f (index + n) token = (m.openCall f index token).shift n := by
  unfold openCall
  split
  next =>
    rw [take_shift]
    rfl
  next => rfl

theorem beginArguments_shift (f : φ) (index opening : Nat) (token : Option String) :
    (m.shift n).beginArguments f (index + n) (opening + n) token =
      (m.beginArguments f index opening token).shift n := by
  unfold beginArguments
  split
  next =>
    rw [← close_shift, Expr.shift_call]
    rfl
  next => rfl

theorem goOnArguments_shift (f : φ) (index : Nat) (openers : List Nat) (done : List (Expr φ))
    (token : Option String) :
    (m.shift n).goOnArguments f (index + n) (openers.map (· + n)) (done.map (Expr.shift n)) token =
      (m.goOnArguments f index openers done token).shift n := by
  unfold goOnArguments
  split
  next =>
    rw [take_shift]
    exact begin_shift m.take n _ (.argument f index (m.index :: openers) done)
  next =>
    rw [← close_shift, Expr.shift_call, List.map_reverse]
    rfl
  next => rfl

theorem resume_shift (tree : Expr φ) (token : Option String) (frame : Frame φ) :
    (m.shift n).resume (tree.shift n) token (frame.shift n) =
      (m.resume tree token frame).shift n := by
  cases frame with
  | first tier => rfl
  | joined op index earlier left =>
    simp only [resume, Frame.shift, shift, Task.shift, Expr.shift_binary]
    rfl
  | group index =>
    simp only [resume, Frame.shift]
    split
    next => exact close_shift ..
    next => rfl
  | argument f index openers done =>
    exact goOnArguments_shift m n f index openers (tree :: done) token

theorem outcome?_shift : (m.shift n).outcome? = m.outcome?.map (·.map (Expr.shift n)) := by
  obtain ⟨task, frames, index, table, room⟩ := m
  cases task with
  | read | series | callee | arguments | failed => rfl
  | done tree => cases frames <;> rfl

variable [Callable φ] (library : Library φ)

theorem readCall_shift (token : Option String) :
    (m.shift n).readCall library token = (m.readCall library token).shift n := by
  cases token with
  | none => rfl
  | some name =>
    simp only [readCall, room_shift, take_shift]
    cases library.get? name with
    | none => rfl
    | some f => cases m.room <;> rfl

theorem readFactor_shift (token next : Option String) :
    (m.shift n).readFactor library next token = (m.readFactor library next token).shift n := by
  cases token with
  | none => rfl
  | some token =>
    simp only [readFactor, room_shift, take_shift]
    cases kind token with
    | operator op =>
      simp only
      split
      next =>
        rw [← finish_shift, Expr.shift_number]
        rfl
      next => rfl
    | closing | comma => rfl
    | opening => cases m.room <;> rfl
    | numeral =>
      rw [← finish_shift, Expr.shift_number]
      rfl
    | name =>
      simp only
      split
      next => rfl
      next =>
        split
        next => rfl
        next =>
          simp only [finish, shift, Task.shift, Expr.shift_var]
          rfl

/-- A step does not depend on where the machine is. -/
theorem step_shift (token next : Option String) :
    (m.shift n).step library token next = (m.step library token next).shift n := by
  obtain ⟨task, frames, index, table, room⟩ := m
  cases task with
  | read phrase =>
    cases phrase with
    | expression | term => rfl
    | factor => exact readFactor_shift ..
    | call => exact readCall_shift ..
  | series tier earlier left => exact goOn_shift ..
  | callee f i => exact openCall_shift ..
  | arguments f i opening => exact beginArguments_shift ..
  | done tree =>
    cases frames with
    | nil => rfl
    | cons frame frames =>
      exact resume_shift ⟨.done tree, frames, index, table, room⟩ n tree token frame
  | failed cause => rfl

variable (tokens : List String)

theorem stepIn_shift :
    (m.shift n).stepIn library tokens = (m.stepIn library (tokens.drop n)).shift n := by
  rw [stepIn, stepIn, step_shift, List.getElem?_drop, List.getElem?_drop, Nat.add_comm n,
    Nat.add_comm n, Nat.add_right_comm]
  rfl

/-- Nor does a run. It is the run along the tokens from there on. -/
theorem run_shift (steps : Nat) :
    run library tokens steps (m.shift n) = (run library (tokens.drop n) steps m).shift n := by
  induction steps with
  | zero => rfl
  | succ steps ih => rw [run, run, ih, stepIn_shift]

end Shift

variable [Callable φ] {library : Library φ} {tokens tokens' : List String}

/-- A run looks at no token beyond the one behind its place. -/
theorem run_congr {k : Nat} (h : ∀ j ≤ k + 1, tokens'[j]? = tokens[j]?) {m : Machine φ}
    {steps : Nat} (hk : (run library tokens steps m).index ≤ k) :
    run library tokens' steps m = run library tokens steps m := by
  induction steps with
  | zero => rfl
  | succ steps ih =>
    have hle : (run library tokens steps m).index ≤ k := Nat.le_trans (index_le_stepIn _) hk
    rw [run, run, ih hle, stepIn, stepIn, h _ (by omega), h _ (by omega)]

omit [Callable φ] in
theorem result?_shift_eq_some_iff {m : Machine φ} {n : Nat}
    {result : Except Failure (Expr φ) × Reader φ} :
    (m.shift n).result? library tokens = some result ↔
      ∃ outcome, m.outcome? = some outcome ∧
        ((outcome.map (Expr.shift n)).mapError fun cause =>
            .atToken cause tokens (some (m.index + n)),
          .startAt library tokens (m.index + n) m.bindings m.room) = result := by
  rw [result?, outcome?_shift, Option.map_map, Option.map_eq_some_iff]
  rfl

/-- What is read at a place is what is read at the start of the tokens from there on. -/
theorem result?_shift_run {phrase : Phrase} {index : Nat} {table : Bindings} {room steps : Nat}
    (h : 9 * (tokens.length - index) + 8 ≤ steps) :
    ((run library (tokens.drop index) steps ⟨.read phrase, [], 0, table, room⟩).shift
        index).result? library tokens =
      some ((Reader.startAt library tokens index table room).read phrase) := by
  rw [← run_shift, ← result?_run phrase h]
  simp only [shift, Task.shift, List.map_nil, Nat.zero_add]

end Machine

/-- A phrase is read in the same way from two places with the same levels left and the same
variables, if the tokens agree from there on up to the one behind that where the one reading ends,
or end alike before it. The other reading ends as many tokens behind its place, with the same
levels left and the same variables. It gives the same tree, with the positions counted from its own
place, or it fails for the same cause, at the token that is as far from its place. -/
theorem Reader.read_shift [Callable φ] (library : Library φ) (phrase : Phrase) (table : Bindings)
    (room : Nat) {tokens tokens' : List String} {index index' k : Nat}
    (hends : ((startAt library tokens index table room).read phrase).2.cursor.index = index + k)
    (hagree : ∀ j ≤ k + 1, tokens'[index' + j]? = tokens[index + j]?) :
    let here := (startAt library tokens index table room).read phrase
    let there := (startAt library tokens' index' table room).read phrase
    (∃ later left, here.2 = startAt library tokens (index + k) later left ∧
      there.2 = startAt library tokens' (index' + k) later left) ∧
    match here.1, there.1 with
    | .ok tree, .ok tree' => ∃ base : Expr φ, tree = base.shift index ∧ tree' = base.shift index'
    | .error failure, .error failure' =>
      ∃ cause, failure = .atToken cause tokens (some (index + k)) ∧
        failure' = .atToken cause tokens' (some (index' + k))
    | _, _ => False := by
  intro here there
  let start : Machine φ := ⟨.read phrase, [], 0, table, room⟩
  let steps := max (9 * (tokens.length - index) + 8) (9 * (tokens'.length - index') + 8)
  let base := Machine.run library (tokens.drop index) steps start
  have hhere : (base.shift index).result? library tokens = some here :=
    Machine.result?_shift_run (Nat.le_max_left ..)
  obtain ⟨outcome, houtcome, heq⟩ := Machine.result?_shift_eq_some_iff.mp hhere
  have hk : base.index = k := by
    have hindex : base.index + index = here.2.cursor.index := by rw [← heq]; rfl
    have hlast : base.index + index = index + k := hindex.trans hends
    omega
  -- so the machine has not been told of any other token than the ones that agree
  have hbase : Machine.run library (tokens'.drop index') steps start = base := by
    refine Machine.run_congr ?_ (Nat.le_of_eq hk)
    simpa only [List.getElem?_drop] using hagree
  have hthere : (base.shift index').result? library tokens' = some there := by
    rw [← hbase]
    exact Machine.result?_shift_run (Nat.le_max_right ..)
  obtain ⟨outcome', houtcome', heq'⟩ := Machine.result?_shift_eq_some_iff.mp hthere
  obtain rfl : outcome = outcome' := Option.some.inj (houtcome.symm.trans houtcome')
  rw [← heq, ← heq', hk, Nat.add_comm k, Nat.add_comm k]
  refine ⟨⟨_, _, rfl, rfl⟩, ?_⟩
  cases outcome with
  | ok tree => exact ⟨tree, rfl, rfl⟩
  | error cause => exact ⟨cause, rfl, rfl⟩

/-- A group that begins one list and is an operand of a product in another. That the one list goes
on behind the name after the comma and the other ends there makes no difference. -/
theorem Reader.read_shift_operand :
    let library := Library.ofList [ElementaryFunction.max]
    let tokens := ["(", "a", "-", "max", "(", ")", ")", ",", "b", ")"]
    let tokens' := ["b", "*", "(", "a", "-", "max", "(", ")", ")", ",", "b"]
    ∃ base later left,
      (startAt library tokens 0 .empty 2).read .expression =
        (.ok (Expr.shift 0 base), startAt library tokens 7 later left) ∧
      (startAt library tokens' 2 .empty 2).read .expression =
        (.ok (Expr.shift 2 base), startAt library tokens' 9 later left) := by
  intro library tokens tokens'
  have hread : (startAt library tokens 0 .empty 2).read .expression = (.ok _, _) := rfl
  have hread' : (startAt library tokens' 2 .empty 2).read .expression = (.ok _, _) := rfl
  have hends : ((startAt library tokens 0 .empty 2).read .expression).2.cursor.index = 0 + 7 := rfl
  have hagree : ∀ j ≤ 7 + 1, tokens'[2 + j]? = tokens[0 + j]? := by decide
  obtain ⟨⟨later, left, hlast, hlast'⟩, base, htree, htree'⟩ :=
    Reader.read_shift library .expression .empty 2 hends hagree
  refine ⟨base, later, left, ?_, ?_⟩
  · rw [hread]
    exact Prod.ext (congrArg Except.ok htree) hlast
  · rw [hread']
    exact Prod.ext (congrArg Except.ok htree') hlast'

end FormulaEngine
