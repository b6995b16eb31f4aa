import FormulaEngine.Proofs.Grammar.Soundness

/-! The loops of the rules, without the lists that bound their rounds. A round takes at
least one token, an operator or a comma, so any list that is as long as the tokens left
allows for all rounds. What is left is an equation for each loop: one round, and the same
loop from there on. -/

namespace FormulaEngine

open Token

namespace Reading

variable {φ : Type}

/-- The tokens left bound the loops over a reading: it gives no tokens back, and where
none are left it reads nothing. -/
structure Bounded (room : Nat) (reading : Reading φ) : Prop where
  length_le : ∀ ⦃c : Cursor⦄ ⦃tree : Expr φ⦄ ⦃next : Cursor⦄, reading c = .ok (tree, next) →
    next.rest.length ≤ c.rest.length
  ofEnd : ∀ ⦃c : Cursor⦄, c.rest = [] → reading c = .error ⟨.unexpectedEnd, c, room⟩

section Series

variable {tier : Tier} {room : Nat} {operand : Reading φ}

theorem seriesRest_rounds (hs : Bounded room operand) {rounds rounds' : List String} {left : Expr φ}
    {c : Cursor} (h : c.rest.length ≤ rounds.length) (h' : c.rest.length ≤ rounds'.length) :
    seriesRest tier operand rounds left c = seriesRest tier operand rounds' left c := by
  induction rounds generalizing rounds' left c with
  | nil =>
    have hend : c.operator? tier = none := by
      refine Cursor.operator?_eq_none ?_
      rw [List.eq_nil_of_length_eq_zero (Nat.le_zero.mp h)]
      nofun
    rw [seriesRest_of_end hend, seriesRest_of_end hend]
  | cons round rounds ih =>
    cases hop : c.operator? tier with
    | none => rw [seriesRest_of_end hop, seriesRest_of_end hop]
    | some op =>
      obtain ⟨-, rest, hr⟩ := Cursor.operator?_eq_some_iff.mp hop
      cases rounds' with
      | nil => simp [hr] at h'
      | cons round' rounds' =>
        rw [seriesRest, seriesRest, hop]
        cases hread : operand c.advance with
        | error stop => rfl
        | ok read =>
          obtain ⟨right, next⟩ := read
          have hle := hs.length_le hread
          simp only [Cursor.advance_rest, hr, List.tail_cons, List.length_cons] at hle h h'
          exact ih (by omega) (by omega)

/-- One round of the loop over operands. -/
theorem seriesRest_eq (hs : Bounded room operand) (left : Expr φ) (c : Cursor) :
    seriesRest tier operand c.rest left c =
      match c.operator? tier with
      | none => .ok (left, c)
      | some op => operand c.advance >>= fun read =>
          seriesRest tier operand read.2.rest (.binary op.symbol (some c.index) left read.1)
            read.2 := by
  cases hop : c.operator? tier with
  | none => exact seriesRest_of_end hop
  | some op =>
    obtain ⟨-, rest, hr⟩ := Cursor.operator?_eq_some_iff.mp hop
    rw [hr, seriesRest, hop]
    cases hread : operand c.advance with
    | error stop => rfl
    | ok read =>
      obtain ⟨right, next⟩ := read
      have hle := hs.length_le hread
      rw [Cursor.advance_rest, hr, List.tail_cons] at hle
      exact seriesRest_rounds hs hle (Nat.le_refl _)

/-- What holds of a cursor if it holds behind the next operator and operand, holds of all. -/
theorem Bounded.induction_operand (hs : Bounded room operand) (tier : Tier) {P : Cursor → Prop}
    (round : ∀ c, (∀ ⦃op right next⦄, c.operator? tier = some op →
      operand c.advance = .ok (right, next) → P next) → P c) (c : Cursor) : P c := by
  induction hn : c.rest.length using Nat.strongRecOn generalizing c with
  | ind n ih =>
    refine round c ?_
    intro op right next hop hread
    obtain ⟨-, rest, hr⟩ := Cursor.operator?_eq_some_iff.mp hop
    have hle := hs.length_le hread
    rw [Cursor.advance_rest, hr, List.tail_cons] at hle
    rw [hr, List.length_cons] at hn
    exact ih next.rest.length (by omega) next rfl

/-- The loop stops before a token that is no operator of the tier. -/
theorem operator?_of_seriesRest (hs : Bounded room operand) {left tree : Expr φ} {c last : Cursor}
    (h : seriesRest tier operand c.rest left c = .ok (tree, last)) :
    last.operator? tier = none := by
  induction c using hs.induction_operand tier generalizing left with
  | round c ih =>
    rw [seriesRest_eq hs] at h
    cases hop : c.operator? tier with
    | none =>
      rw [hop] at h
      cases h
      exact hop
    | some op =>
      rw [hop] at h
      obtain ⟨⟨right, next⟩, hread, hrest⟩ := bind_eq_ok_iff.mp h
      exact ih hop hread hrest

/-- Whatever holds behind each operand of a series holds behind the last. -/
theorem rest_of_seriesRest {tier : Tier} {operand : Reading φ} (hs : Bounded room operand)
    {P : List String → Prop} (hp : ∀ ⦃c tree next⦄, operand c = .ok (tree, next) → P next.rest)
    {left tree : Expr φ} {c last : Cursor} (hc : P c.rest)
    (h : seriesRest tier operand c.rest left c = .ok (tree, last)) : P last.rest := by
  induction c using hs.induction_operand tier generalizing left with
  | round c ih =>
    rw [seriesRest_eq hs] at h
    cases hop : c.operator? tier with
    | none =>
      rw [hop] at h
      cases h
      exact hc
    | some op =>
      rw [hop] at h
      obtain ⟨⟨right, next⟩, hread, hrest⟩ := bind_eq_ok_iff.mp h
      exact ih hop hread (hp hread) hrest

/-- A sign behind a series is read on, or let through. -/
theorem startsWithSign_of_ended {tree : Expr φ} {last : Cursor} {stop : Stop}
    (h : ended tier room tree last = .error stop) (hop : last.operator? tier = none) :
    startsWithSign last.rest = false := by
  obtain ⟨token, rest, hr, hnext, -⟩ := ended_eq_error_iff.mp h
  simp only [Cursor.operator?, Cursor.kind?, hr, List.head?_cons, Option.map_some] at hop
  simp only [startsWithSign, hr, List.head?_cons, Option.map_some]
  cases hk : kind token with
  | operator op =>
    cases tier <;> cases ht : op.tier <;> simp_all [Tier.mayPrecede, Tier.isSign]
  | opening | closing | comma | numeral | name => rfl

end Series

section Arguments

variable {room : Nat} {argument : Reading φ}

theorem argumentsRest_rounds (hs : Bounded room argument) {rounds rounds' : List String}
    {done : List (Expr φ)} {c : Cursor} (h : c.rest.length ≤ rounds.length)
    (h' : c.rest.length ≤ rounds'.length) :
    argumentsRest room argument rounds done c = argumentsRest room argument rounds' done c := by
  have hstop (rounds : List String) (done : List (Expr φ)) {c : Cursor} (hc : c.rest = []) :
      argumentsRest room argument rounds done c = .error ⟨.unexpectedEnd, c, room⟩ := by
    cases rounds with
    | nil => rfl
    | cons round rounds => rw [argumentsRest, hs.ofEnd hc]
  induction rounds generalizing rounds' done c with
  | nil =>
    have hc := List.eq_nil_of_length_eq_zero (Nat.le_zero.mp h)
    rw [hstop _ _ hc, hstop _ _ hc]
  | cons round rounds ih =>
    cases rounds' with
    | nil =>
      have hc := List.eq_nil_of_length_eq_zero (Nat.le_zero.mp h')
      rw [hstop _ _ hc, hstop _ _ hc]
    | cons round' rounds' =>
      rw [argumentsRest, argumentsRest]
      cases hread : argument c with
      | error stop => rfl
      | ok read =>
        obtain ⟨tree, next⟩ := read
        simp only
        split
        next hk =>
          obtain ⟨rest, hr⟩ := Cursor.kind?_eq_comma_iff.mp hk
          have hle := hs.length_le hread
          have hrest : next.advance.rest = rest := by rw [Cursor.advance_rest, hr, List.tail_cons]
          rw [hr] at hle
          simp only [List.length_cons] at h h' hle
          exact ih (by rw [hrest]; omega) (by rw [hrest]; omega)
        next => rfl
        next => rfl

/-- What comes behind an argument: another one, the end of the list, or neither. -/
def nextArgument (room : Nat) (argument : Reading φ) (done : List (Expr φ)) (next : Cursor) :
    Except Stop (List (Expr φ) × Cursor) :=
  match next.kind? with
  | some .comma => argumentsRest room argument next.advance.rest done next.advance
  | some .closing => .ok (done.reverse, next.advance)
  | _ => .error ⟨.expected ')', next, room⟩

section NextArgument

variable {done : List (Expr φ)} {next : Cursor}

theorem nextArgument_comma (h : next.kind? = some .comma) :
    nextArgument room argument done next =
      argumentsRest room argument next.advance.rest done next.advance := by
  rw [nextArgument, h]

theorem nextArgument_closing (h : next.kind? = some .closing) :
    nextArgument room argument done next = .ok (done.reverse, next.advance) := by
  rw [nextArgument, h]

theorem nextArgument_other (hcomma : next.kind? ≠ some .comma)
    (hclosing : next.kind? ≠ some .closing) :
    nextArgument room argument done next = .error ⟨.expected ')', next, room⟩ := by
  unfold nextArgument
  split
  next hk => exact absurd hk hcomma
  next hk => exact absurd hk hclosing
  next => rfl

end NextArgument

/-- One round of the loop over arguments. -/
theorem argumentsRest_eq (hs : Bounded room argument) (done : List (Expr φ)) (c : Cursor) :
    argumentsRest room argument c.rest done c =
      argument c >>= fun read => nextArgument room argument (read.1 :: done) read.2 := by
  cases hc : c.rest with
  | nil =>
    rw [hs.ofEnd hc]
    rfl
  | cons token rest =>
    rw [argumentsRest]
    cases hread : argument c with
    | error stop => rfl
    | ok read =>
      obtain ⟨tree, next⟩ := read
      change _ = nextArgument room argument (tree :: done) next
      unfold nextArgument
      cases hk : next.kind? with
      | none => simp only [hk]
      | some k =>
        cases k with
        | comma =>
          obtain ⟨rest', hr⟩ := Cursor.kind?_eq_comma_iff.mp hk
          have hle := hs.length_le hread
          rw [hr, hc, List.length_cons, List.length_cons] at hle
          simp only [hk]
          refine argumentsRest_rounds hs ?_ (Nat.le_refl _)
          rw [Cursor.advance_rest, hr, List.tail_cons]
          omega
        | opening | closing | operator | numeral | name => simp only [hk]

/-- What holds of a cursor if it holds behind the next argument and comma, holds of all. -/
theorem Bounded.induction_argument (hs : Bounded room argument) {P : Cursor → Prop}
    (round : ∀ c, (∀ ⦃tree next⦄, argument c = .ok (tree, next) → next.kind? = some .comma →
      P next.advance) → P c) (c : Cursor) : P c := by
  induction hn : c.rest.length using Nat.strongRecOn generalizing c with
  | ind n ih =>
    refine round c ?_
    intro tree next hread hcomma
    obtain ⟨rest, hr⟩ := Cursor.kind?_eq_comma_iff.mp hcomma
    have hle := hs.length_le hread
    rw [hr, List.length_cons] at hle
    refine ih next.advance.rest.length ?_ next.advance rfl
    rw [Cursor.advance_rest, hr, List.tail_cons]
    omega

end Arguments

variable [Callable φ] {library : Library φ}

theorem bounded_ofLevel (library : Library φ) (room : Nat) (level : Level) :
    Bounded room (ofLevel library room level) where
  length_le c tree next h := by
    obtain ⟨d, htokens, -⟩ := derives_ofLevel library room level h _ rfl
    rw [htokens, List.length_append]
    exact Nat.le_add_left ..
  ofEnd c h := by
    refine Level.induction (P := fun room level =>
      ofLevel library room level c = .error ⟨.unexpectedEnd, c, room⟩) ?_ ?_ room level
    · intro room _
      rw [ofLevel_factor_eq, factorWith, h]
    · intro room tier ho
      rw [ofLevel_series, series_eq, ho]
      rfl

/-- What comes after an expression is no sign. -/
theorem startsWithSign_of_expression {room : Nat} {c next : Cursor} {tree : Expr φ}
    (h : ofLevel library room (.series .additive) c = .ok (tree, next)) :
    startsWithSign next.rest = false :=
  startsWithSign_eq_false (mayPrecede_of_ofLevel h)

end Reading

end FormulaEngine
