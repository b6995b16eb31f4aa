import FormulaEngine.Proofs.Grammar.Follow

/-! When each rule succeeds, in terms of the readings it is made of. The errors of a
rule are of no concern here: a rule that does not succeed gives one. -/

namespace FormulaEngine

open Token

/-- A step after another succeeds exactly if both do. -/
theorem bind_eq_ok_iff {ε α β : Type} {x : Except ε α} {f : α → Except ε β} {b : β} :
    (x >>= f) = .ok b ↔ ∃ a, x = .ok a ∧ f a = .ok b := by
  cases x with
  | error e => simp [bind, Except.bind]
  | ok a => simp [bind, Except.bind]

/-- A step after another fails exactly if one of them does. -/
theorem bind_eq_error_iff {ε α β : Type} {x : Except ε α} {f : α → Except ε β} {e : ε} :
    (x >>= f) = .error e ↔ x = .error e ∨ ∃ a, x = .ok a ∧ f a = .error e := by
  cases x with
  | error e' => simp [bind, Except.bind]
  | ok a => simp [bind, Except.bind]

namespace Reading

variable {φ : Type}

/-- What a series asks of the token behind it. -/
def ended (tier : Tier) (room : Nat) (tree : Expr φ) (last : Cursor) :
    Except Stop (Expr φ × Cursor) :=
  match last.rest with
  | [] => .ok (tree, last)
  | token :: _ =>
    if tier.mayPrecede (kind token) then .ok (tree, last)
    else .error ⟨.unexpectedSymbol token tier.phrase, last, room⟩

theorem series_eq (tier : Tier) (room : Nat) (operand : Reading φ) (c : Cursor) :
    series tier room operand c = operand c >>= fun read =>
      seriesRest tier operand read.2.rest read.1 read.2 >>= fun series =>
        ended tier room series.1 series.2 := rfl

theorem ended_eq_ok_iff {tier : Tier} {room : Nat} {tree : Expr φ} {last : Cursor}
    {read : Expr φ × Cursor} : ended tier room tree last = .ok read ↔
      (tree, last) = read ∧ ∀ token ∈ last.rest.head?, tier.mayPrecede (kind token) = true := by
  unfold ended
  cases hrest : last.rest with
  | nil => simp
  | cons token rest =>
    rw [List.head?_cons]
    simp only [Option.mem_some_iff, forall_eq']
    split
    next hk => simp [hk]
    next hk => simp [hk]

theorem ended_eq_error_iff {tier : Tier} {room : Nat} {tree : Expr φ} {last : Cursor}
    {stop : Stop} : ended tier room tree last = .error stop ↔
      ∃ token rest, last.rest = token :: rest ∧ tier.mayPrecede (kind token) = false ∧
        stop = ⟨.unexpectedSymbol token tier.phrase, last, room⟩ := by
  unfold ended
  cases last.rest with
  | nil => simp
  | cons token rest =>
    simp only [List.cons.injEq]
    split
    next hk =>
      simp only [reduceCtorEq, false_iff]
      rintro ⟨_, _, ⟨rfl, rfl⟩, hk', -⟩
      simp [hk] at hk'
    next hk =>
      simp only [Except.error.injEq]
      constructor
      · rintro rfl
        exact ⟨token, rest, ⟨rfl, rfl⟩, Bool.eq_false_iff.mpr hk, rfl⟩
      · rintro ⟨_, _, ⟨rfl, rfl⟩, -, rfl⟩
        rfl

theorem series_eq_ok_iff {tier : Tier} {room : Nat} {operand : Reading φ} {c last : Cursor}
    {tree : Expr φ} :
    series tier room operand c = .ok (tree, last) ↔
      ∃ first next, operand c = .ok (first, next) ∧
        seriesRest tier operand next.rest first next = .ok (tree, last) ∧
        ∀ token ∈ last.rest.head?, tier.mayPrecede (kind token) = true := by
  rw [series_eq]
  simp only [bind_eq_ok_iff, ended_eq_ok_iff]
  constructor
  · rintro ⟨⟨first, next⟩, ho, ⟨tree', last'⟩, hr, hread, hnext⟩
    cases hread
    exact ⟨first, next, ho, hr, hnext⟩
  · rintro ⟨first, next, ho, hr, hnext⟩
    exact ⟨(first, next), ho, (tree, last), hr, rfl, hnext⟩

/-- One round of the loop over operands. -/
theorem seriesRest_cons (tier : Tier) (operand : Reading φ) (round : String)
    (rounds : List String) (left : Expr φ) (c : Cursor) :
    seriesRest tier operand (round :: rounds) left c =
      match c.operator? tier with
      | none => .ok (left, c)
      | some op => operand c.advance >>= fun read =>
          seriesRest tier operand rounds (.binary op.symbol (some c.index) left read.1) read.2 := by
  rw [seriesRest]
  cases c.operator? tier with
  | none => rfl
  | some op => cases operand c.advance <;> rfl

theorem seriesRest_of_end {tier : Tier} {operand : Reading φ} {rounds : List String}
    {left : Expr φ} {c : Cursor} (h : c.operator? tier = none) :
    seriesRest tier operand rounds left c = .ok (left, c) := by
  cases rounds with
  | nil => rfl
  | cons round rounds => rw [seriesRest, h]

theorem seriesRest_of_operator {tier : Tier} {operand : Reading φ} {round : String}
    {rounds : List String} {left right : Expr φ} {c next : Cursor} {op : Operator}
    (h : c.operator? tier = some op) (ho : operand c.advance = .ok (right, next)) :
    seriesRest tier operand (round :: rounds) left c =
      seriesRest tier operand rounds (.binary op.symbol (some c.index) left right) next := by
  rw [seriesRest_cons, h]
  simp only [ho]
  rfl

theorem group_eq_ok_iff {room : Nat} {inner? : Option (Reading φ)} {c last : Cursor}
    {tree : Expr φ} :
    group room inner? c = .ok (tree, last) ↔
      ∃ inner next rest, inner? = some inner ∧ inner c.advance = .ok (tree, next) ∧
        next.rest = ")" :: rest ∧ last = next.advance := by
  unfold group
  cases inner? with
  | none => simp
  | some inner =>
    simp only [bind_eq_ok_iff, Prod.exists, Cursor.pass_closing_eq_ok_iff, Except.ok.injEq,
      Prod.mk.injEq, Option.some.injEq]
    constructor
    · rintro ⟨tree', next, hi, last', ⟨rest, hr, rfl⟩, rfl, rfl⟩
      exact ⟨inner, next, rest, rfl, hi, hr, rfl⟩
    · rintro ⟨_, next, rest, rfl, hi, hr, rfl⟩
      exact ⟨tree, next, hi, next.advance, ⟨rest, hr, rfl⟩, rfl, rfl⟩

/-- One round of the loop over arguments. -/
theorem argumentsRest_cons (room : Nat) (argument : Reading φ) (round : String)
    (rounds : List String) (done : List (Expr φ)) (c : Cursor) :
    argumentsRest room argument (round :: rounds) done c = argument c >>= fun read =>
      match read.2.kind? with
      | some .comma => argumentsRest room argument rounds (read.1 :: done) read.2.advance
      | some .closing => .ok ((read.1 :: done).reverse, read.2.advance)
      | _ => .error ⟨.expected ')', read.2, room⟩ := by
  rw [argumentsRest]
  cases argument c <;> rfl

theorem argumentsRest_cons_eq_ok_iff {room : Nat} {argument : Reading φ} {round : String}
    {rounds : List String} {done args : List (Expr φ)} {c last : Cursor} :
    argumentsRest room argument (round :: rounds) done c = .ok (args, last) ↔
      ∃ tree next rest, argument c = .ok (tree, next) ∧
        (next.rest = "," :: rest ∧
            argumentsRest room argument rounds (tree :: done) next.advance = .ok (args, last) ∨
          next.rest = ")" :: rest ∧ args = (tree :: done).reverse ∧ last = next.advance) := by
  rw [argumentsRest]
  cases ha : argument c with
  | error stop => simp
  | ok read =>
    obtain ⟨tree, next⟩ := read
    constructor
    · intro h
      simp only at h
      split at h
      next hk =>
        obtain ⟨rest, hr⟩ := Cursor.kind?_eq_comma_iff.mp hk
        exact ⟨tree, next, rest, rfl, .inl ⟨hr, h⟩⟩
      next hk =>
        obtain ⟨rest, hr⟩ := Cursor.kind?_eq_closing_iff.mp hk
        cases h
        exact ⟨tree, next, rest, rfl, .inr ⟨hr, rfl, rfl⟩⟩
      next => cases h
    · rintro ⟨_, _, rest, ⟨⟩, ⟨hr, h⟩ | ⟨hr, rfl, rfl⟩⟩
      · simp only [Cursor.kind?_eq_comma_iff.mpr ⟨rest, hr⟩, h]
      · simp only [Cursor.kind?_eq_closing_iff.mpr ⟨rest, hr⟩]

variable [Callable φ]

/-- The reading of each level. -/
def ofLevel (library : Library φ) (room : Nat) : Level → Reading φ
  | .series .additive => expression library room
  | .series .multiplicative => term library room
  | .factor => factor library room

theorem ofLevel_series (library : Library φ) (room : Nat) (tier : Tier) :
    ofLevel library room (.series tier) = series tier room (ofLevel library room tier.operand) := by
  cases tier with
  | additive => exact expression_eq library room
  | multiplicative => rfl

theorem ofLevel_factor (library : Library φ) (room : Nat) :
    ofLevel library (room + 1) .factor =
      factorWith library (room + 1) (some (expression library room)) := rfl

variable {library : Library φ} {room : Nat} {inner? : Option (Reading φ)}

theorem inside?_eq_some_iff {room : Nat} {inner : Reading φ} :
    inside? library room = some inner ↔
      ∃ deeper, deeper + 1 = room ∧ inner = ofLevel library deeper (.series .additive) := by
  cases room with
  | zero => simp [inside?]
  | succ room =>
    simp only [inside?, Option.some.injEq, Nat.add_right_cancel_iff, exists_eq_left]
    exact eq_comm

theorem ofLevel_factor_eq (library : Library φ) (room : Nat) :
    ofLevel library room .factor = factorWith library room (inside? library room) := rfl

theorem callWith_eq_ok_iff {c last : Cursor} {tree : Expr φ} :
    callWith library room inner? c = .ok (tree, last) ↔
      ∃ name rest f inner args, c.rest = name :: "(" :: rest ∧ library.get? name = some f ∧
        inner? = some inner ∧ arguments (room - 1) inner c.advance.advance = .ok (args, last) ∧
        tree = .call f (some c.index) args := by
  obtain ⟨index, tokens, table⟩ := c
  unfold callWith
  cases tokens with
  | nil => simp
  | cons name tokens =>
    cases hf : library.get? name with
    | none => simp +contextual [hf]
    | some f =>
      cases inner? with
      | none => simp [hf]
      | some inner =>
        simp only [hf, bind_eq_ok_iff, Prod.exists, Cursor.pass_opening_eq_ok_iff,
          Except.ok.injEq, Prod.mk.injEq, Option.some.injEq, Cursor.advance_cons,
          List.cons.injEq]
        constructor
        · rintro ⟨opened, ⟨rest, rfl, rfl⟩, args, last', ha, rfl, rfl⟩
          exact ⟨name, rest, f, inner, args, ⟨rfl, rfl⟩, hf, rfl, ha, rfl⟩
        · rintro ⟨_, rest, f', _, args, ⟨rfl, rfl⟩, hf', rfl, ha, rfl⟩
          rw [hf] at hf'
          cases hf'
          exact ⟨_, ⟨rest, rfl, rfl⟩, args, last, ha, rfl, rfl⟩

theorem factorWith_of_numeral {index : Nat} {token : String} {rest : List String}
    {table : Bindings} (h : kind token = .numeral) :
    factorWith library room inner? ⟨index, token :: rest, table⟩ =
      .ok (.number (numeralValue token) (some index), ⟨index + 1, rest, table⟩) := by
  simp only [factorWith, h, Cursor.advance_cons]

theorem factorWith_of_sign {c : Cursor} (h : startsWithSign c.rest = true) :
    factorWith library room inner? c = .ok (.number 0 none, c) := by
  obtain ⟨index, tokens, table⟩ := c
  cases tokens with
  | nil => cases h
  | cons token rest =>
    simp only [startsWithSign, List.head?_cons, Option.map_some] at h
    split at h
    next op hk =>
      simp only [Option.some.injEq] at hk
      simp only [factorWith, hk, if_pos (Tier.isSign_iff.mp h)]
    next => cases h

theorem factorWith_of_opening {index : Nat} {rest : List String} {table : Bindings} :
    factorWith library room inner? ⟨index, "(" :: rest, table⟩ =
      group room inner? ⟨index, "(" :: rest, table⟩ := by
  simp only [factorWith, kind_opening]

theorem factorWith_of_registered {index : Nat} {name : String} {rest : List String}
    {table : Bindings} {f : φ} (h : kind name = .name) (hf : library.get? name = some f) :
    factorWith library room inner? ⟨index, name :: rest, table⟩ =
      callWith library room inner? ⟨index, name :: rest, table⟩ := by
  simp only [factorWith, h, Library.contains, hf, Option.isSome_some, if_true]

theorem factorWith_of_free {index : Nat} {name : String} {rest : List String} {table : Bindings}
    (h : kind name = .name) (hf : library.get? name = none)
    (hr : rest.head?.map kind ≠ some .opening) :
    factorWith library room inner? ⟨index, name :: rest, table⟩ =
      .ok (.var (table.intern name).1 (some index), ⟨index + 1, rest, (table.intern name).2⟩) := by
  simp only [factorWith, h, Library.contains, hf, Option.isSome_none, Bool.false_eq_true,
    if_false, if_neg hr, Cursor.advance_cons]

/-- The five ways in which a factor is read. -/
inductive FactorRead (library : Library φ) (room : Nat) (inner? : Option (Reading φ)) (c : Cursor)
    (tree : Expr φ) : Cursor → Prop where
  | numeral {token : String} {rest : List String} (tokens : c.rest = token :: rest)
      (isNumeral : kind token = .numeral) : FactorRead library room inner? c tree c.advance
  | zero (sign : startsWithSign c.rest = true) : FactorRead library room inner? c tree c
  | group {rest : List String} {last : Cursor} (tokens : c.rest = "(" :: rest)
      (read : group room inner? c = .ok (tree, last)) : FactorRead library room inner? c tree last
  | call {name : String} {rest : List String} {f : φ} {last : Cursor}
      (tokens : c.rest = name :: rest) (isName : kind name = .name)
      (isRegistered : library.get? name = some f)
      (read : callWith library room inner? c = .ok (tree, last)) :
      FactorRead library room inner? c tree last
  | var {name : String} {last : Cursor} (tokens : c.rest = name :: last.rest)
      (isName : kind name = .name) (isFree : library.get? name = none) :
      FactorRead library room inner? c tree last

theorem factorWith_cases {c last : Cursor} {tree : Expr φ}
    (h : factorWith library room inner? c = .ok (tree, last)) :
    FactorRead library room inner? c tree last := by
  obtain ⟨index, tokens, table⟩ := c
  cases tokens with
  | nil => cases h
  | cons token rest =>
    cases hk : kind token with
    | operator op =>
      simp only [factorWith, hk] at h
      split at h
      next ht =>
        cases h
        exact .zero (by simp [startsWithSign, hk, ht, Tier.isSign])
      next => cases h
    | closing | comma => simp only [factorWith, hk, reduceCtorEq] at h
    | opening =>
      rw [kind_eq_opening_iff] at hk
      subst hk
      rw [factorWith_of_opening] at h
      exact .group rfl h
    | numeral =>
      rw [factorWith_of_numeral hk] at h
      cases h
      exact .numeral rfl hk
    | name =>
      cases hf : library.get? token with
      | some f =>
        rw [factorWith_of_registered hk hf] at h
        exact .call rfl hk hf h
      | none =>
        by_cases hr : rest.head?.map kind = some .opening
        · simp [factorWith, hk, Library.contains, hf, hr] at h
        · rw [factorWith_of_free hk hf hr] at h
          cases h
          exact .var rfl hk hf

/-- What comes behind the operands of a tier where a series ends. -/
theorem mayPrecede_of_ofLevel {tier : Tier} {c next : Cursor} {tree : Expr φ}
    (h : ofLevel library room (.series tier) c = .ok (tree, next)) :
    ∀ token ∈ next.rest.head?, tier.mayPrecede (kind token) = true := by
  rw [ofLevel_series, series_eq_ok_iff] at h
  obtain ⟨first, next', -, -, hnext⟩ := h
  exact hnext

/-- No level begins with a closing parenthesis. -/
theorem ofLevel_of_closing {level : Level} {c : Cursor} (h : c.kind? = some .closing)
    (read : Expr φ × Cursor) : ofLevel library room level c ≠ .ok read := by
  obtain ⟨rest, hr⟩ := Cursor.kind?_eq_closing_iff.mp h
  have hfirst {token : String} {rest' : List String} (ht : c.rest = token :: rest') :
      kind token = .closing := by
    rw [hr] at ht
    cases ht
    exact kind_closing
  refine Level.induction (P := fun room level => ∀ read, ofLevel library room level c ≠ .ok read)
    ?_ ?_ room level read
  · rintro room - ⟨tree, last⟩ hf
    cases factorWith_cases hf with
    | numeral tokens isNumeral => simp [hfirst tokens] at isNumeral
    | zero sign => simp [hr] at sign
    | group tokens => simpa using hfirst tokens
    | call tokens isName => simp [hfirst tokens] at isName
    | var tokens isName => simp [hfirst tokens] at isName
  · rintro room tier hoperand ⟨tree, last⟩ hs
    rw [ofLevel_series, series_eq_ok_iff] at hs
    obtain ⟨first, next, ho, -⟩ := hs
    exact hoperand (first, next) ho

end Reading

end FormulaEngine
