import FormulaEngine.Proofs.Bindings.FirstUses
import FormulaEngine.Proofs.Grammar.Lockstep

/-! One phrase after the other, in any order and also after errors. A reader driven so stays at
the place of the descent that is driven through the same phrases. Nothing that an error leaves
behind, be it open levels, tokens taken or names interned, makes a later phrase go wrong: the
tokens between two places are taken once, the count of the open levels stays within the limit
and never runs below zero, and the variables are those of the tokens taken, in their order. -/

namespace FormulaEngine

open Token

variable {φ : Type} [Callable φ]

/-- Reads phrases one after the other, whether they succeed or not. -/
def Reader.run (reader : Reader φ) (phrases : List Phrase) : Reader φ :=
  phrases.foldl (fun reader phrase => (reader.read phrase).2) reader

namespace Descent

/-- The state that is left, be it by success or failure. -/
def left {α : Type} : EStateM.Result Fault State α → State
  | .ok _ after => after
  | .error _ after => after

/-- Descends through phrases one after the other, whether they succeed or not. -/
def run (tokens : List String) (library : Library φ) (s : State) (phrases : List Phrase) : State :=
  phrases.foldl (fun s phrase => left (ofPhrase tokens library phrase s)) s

/-- The reader at the place of a descent. -/
def State.reader (library : Library φ) (tokens : List String) (s : State) : Reader φ :=
  ⟨tokens, library, s.cursor tokens, s.room⟩

/-- The two ways in which a descent and the reader in its place go through a phrase. -/
inductive Goes (library : Library φ) (tokens : List String) (phrase : Phrase) (s : State) : Prop
  | ok (tree : Expr φ) (after : State)
      (descends : ofPhrase tokens library phrase s = .ok tree after)
      (reads : (s.reader library tokens).read phrase = (.ok tree, after.reader library tokens))
      (restored : after.depth = s.depth) (advances : s.Advances library tokens after)
  | error (site : Site) (cause : Cause) (after : State)
      (descends : ofPhrase tokens library phrase s =
        .error (.failed site (.atToken cause tokens (some after.index))) after)
      (reads : (s.reader library tokens).read phrase =
        (.error (.atToken cause tokens (some after.index)), after.reader library tokens))
      (le : s.depth ≤ after.depth) (advances : s.Advances library tokens after)
      (raised : Raised library phrase site cause (tokens.drop after.index))

theorem goes (library : Library φ) (tokens : List String) (phrase : Phrase) (s : State) :
    Goes library tokens phrase s := by
  have hlock := Lockstep.ofPhrase library tokens phrase s
  generalize hread : Reading.ofPhrase library s.room phrase (s.cursor tokens) = step at hlock
  generalize hdescends : ofPhrase tokens library phrase s = result at hlock
  cases hlock with
  | @ok tree after restored advances =>
    have hroom : after.room = s.room := congrArg (nestingLimit - ·) restored
    refine .ok tree after hdescends (Reader.read_eq_ok_iff.mpr ⟨_, hread, ?_⟩) restored advances
    rw [State.reader, hroom]
    rfl
  | error le advances raised =>
    exact .error _ _ _ hdescends (Reader.read_eq_error_iff.mpr ⟨_, hread, rfl, rfl⟩) le advances
      raised

/-- What holds of all states that a descent is driven to. -/
structure State.Valid (tokens : List String) (s : State) : Prop where
  index_le : s.index ≤ tokens.length
  depth_le : s.depth ≤ s.peak
  /-- At no time more levels were open than the limit. -/
  peak_le : s.peak ≤ nestingLimit

namespace State.Valid

variable {library : Library φ} {tokens : List String} {s after : State}

theorem start (tokens : List String) (table : Bindings) :
    State.Valid tokens { bindings := table } :=
  ⟨Nat.zero_le _, Nat.le_refl 0, Nat.zero_le _⟩

theorem advances (h : s.Valid tokens) (ha : s.Advances library tokens after) :
    after.Valid tokens := by
  obtain ⟨taken, htaken, hindex, -⟩ := ha.taken
  have hle := h.index_le
  have hpeak := ha.peak
  have hlength := congrArg List.length htaken
  rw [List.length_append, List.length_drop, List.length_drop] at hlength
  refine ⟨by omega, ha.depth h.depth_le, ?_⟩
  rwa [Nat.max_eq_right h.peak_le] at hpeak

end State.Valid

section Run

variable {tokens : List String} {s : State}

/-- One phrase leaves a valid state, and the reader at its place. -/
theorem valid_left (library : Library φ) (h : s.Valid tokens) (phrase : Phrase) :
    (left (ofPhrase tokens library phrase s)).Valid tokens ∧
      ((s.reader library tokens).read phrase).2 =
        (left (ofPhrase tokens library phrase s)).reader library tokens := by
  cases goes library tokens phrase s with
  | ok tree after descends reads restored advances =>
    rw [descends, reads]
    exact ⟨h.advances advances, rfl⟩
  | error site cause after descends reads le advances raised =>
    rw [descends, reads]
    exact ⟨h.advances advances, rfl⟩

/-- So do any phrases. -/
theorem valid_run (library : Library φ) (h : s.Valid tokens) (phrases : List Phrase) :
    (run tokens library s phrases).Valid tokens ∧
      (s.reader library tokens).run phrases =
        (run tokens library s phrases).reader library tokens := by
  induction phrases generalizing s with
  | nil => exact ⟨h, rfl⟩
  | cons phrase rest ih =>
    obtain ⟨hvalid, hread⟩ := valid_left library h phrase
    obtain ⟨hrun, hreader⟩ := ih hvalid
    refine ⟨hrun, ?_⟩
    rw [Reader.run, List.foldl_cons, hread]
    exact hreader

end Run

end Descent

/-- The tokens between two places of a reader. -/
def Reader.taken (before after : Reader φ) : List String :=
  (before.tokens.drop before.cursor.index).take (after.cursor.index - before.cursor.index)

/-- What is kept between two places of a reader. -/
structure Reader.Keeps (before after : Reader φ) : Prop where
  index_le : before.cursor.index ≤ after.cursor.index
  index_le_length : after.cursor.index ≤ before.tokens.length
  /-- The variables stay as they are and where they are, values included. Those that come to
  them are new and have no values, and they come in the order in which the tokens taken have
  them. -/
  entries : ∃ added : List String,
    after.cursor.bindings.entries =
      before.cursor.bindings.entries ++ added.map (fun name => ⟨name, none⟩) ∧
    added.Nodup ∧ (∀ name ∈ added, name ∉ before.cursor.bindings.names) ∧
    (∀ name ∈ added, name ∈ before.taken after) ∧
    added.Pairwise fun a b => (before.taken after).idxOf a < (before.taken after).idxOf b
  ids : ∀ name id, before.cursor.bindings.idOf? name = some id →
    after.cursor.bindings.idOf? name = some id

theorem Descent.State.Advances.keeps {library : Library φ} {tokens : List String}
    {s after : Descent.State} (h : s.Advances library tokens after)
    (hvalid : after.Valid tokens) :
    (s.reader library tokens).Keeps (after.reader library tokens) := by
  obtain ⟨taken, htaken, hindex, hbindings⟩ := h.taken
  have htake : (s.reader library tokens).taken (after.reader library tokens) = taken := by
    change (tokens.drop s.index).take (after.index - s.index) = taken
    rw [htaken, hindex, Nat.add_sub_cancel_left, List.take_left]
  have hpairwise := s.bindings.pairwise_newNames taken
    fun token => kind token = .name ∧ (library.get? token).isNone
  constructor
  · change s.index ≤ after.index
    omega
  · exact hvalid.index_le
  · rw [htake]
    refine ⟨s.bindings.newNames (freeNames library taken), ?_, ?_, ?_, ?_, hpairwise⟩
    · change after.bindings.entries = _
      rw [hbindings, Bindings.entries_internAll]
      rfl
    · refine hpairwise.imp ?_
      rintro a _ hlt rfl
      exact Nat.lt_irrefl _ hlt
    · exact fun name hname => (Bindings.mem_newNames.mp hname).2
    · exact fun name hname => (mem_freeNames.mp (Bindings.mem_newNames.mp hname).1).1
  · intro name id hid
    change after.bindings.idOf? name = some id
    rw [hbindings]
    exact (Bindings.within_internAll _ _).idOf? hid

/-- However a reader is driven through phrases, the next phrase moves it forward within the
tokens and adds to its variables what it takes. A descent driven through the same phrases is at
the same place and gives the same result, in which it counts its open levels: they are never
more than the limit and never fewer than none, they are as many as before when it succeeds, and
at least as many when it fails. A failure is located where the reader is left. -/
theorem Reader.run_read (library : Library φ) (tokens : List String) (table : Bindings)
    (phrases : List Phrase) (phrase : Phrase) :
    let before := (Reader.start library tokens table).run phrases
    let after := (before.read phrase).2
    let state := Descent.run tokens library { bindings := table } phrases
    before = state.reader library tokens ∧ state.Valid tokens ∧ before.Keeps after ∧
    ∃ left : Descent.State, after = left.reader library tokens ∧ left.Valid tokens ∧
      match (before.read phrase).1 with
      | .ok tree =>
        Descent.ofPhrase tokens library phrase state = .ok tree left ∧ left.depth = state.depth
      | .error failure =>
        (∃ site, Descent.ofPhrase tokens library phrase state =
          .error (.failed site failure) left) ∧
        state.depth ≤ left.depth ∧
        failure.location? = some ⟨some after.cursor.index, window tokens after.cursor.index⟩ := by
  intro before after state
  obtain ⟨hvalid, hbefore⟩ := Descent.valid_run library (.start tokens table) phrases
  have hbefore : before = state.reader library tokens := hbefore
  refine ⟨hbefore, hvalid, ?_⟩
  change before.Keeps (before.read phrase).2 ∧ _
  simp only [after]
  rw [hbefore]
  cases Descent.goes library tokens phrase state with
  | ok tree left descends reads restored advances =>
    have hleft := hvalid.advances advances
    rw [reads]
    exact ⟨advances.keeps hleft, left, rfl, hleft, descends, restored⟩
  | error site cause left descends reads le advances raised =>
    have hleft := hvalid.advances advances
    rw [reads]
    exact ⟨advances.keeps hleft, left, rfl, hleft, ⟨site, descends⟩, le, rfl⟩

/-- The sum breaks off inside a group. A factor is read from there, and the group stays open. -/
example :
    let reader := (Reader.start (.ofList [ElementaryFunction.max])
      ["(", "2", "(", "x", ")", ")"] .empty).run [.expression, .factor]
    reader.cursor.index = 5 ∧ reader.room = nestingLimit - 1 := ⟨rfl, rfl⟩

end FormulaEngine
