import FormulaEngine.Proofs.Grammar.Derivation

/-! What may come after a derivation. A reading looks at one token beyond its own:
that token tells it that a series has ended, and that a name is no call. A reader
of a whole formula never meets any other token there. -/

namespace FormulaEngine

open Token

/-- Whether a token of a kind may come after a level. -/
def Level.mayPrecede : Level → Kind → Bool
  | .series tier, kind => tier.mayPrecede kind
  | .factor, .closing | .factor, .comma | .factor, .operator _ => true
  | .factor, _ => false

/-- The tokens may come after a derivation of the level with this index. -/
structure Level.Fits (level : Level) (sign : Bool) (after : List String) : Prop where
  sign : sign = true → startsWithSign after = true
  next : ∀ token ∈ after.head?, level.mayPrecede (kind token) = true

/-- The same for all parts. Behind arguments there is always a parenthesis. -/
def Part.Fits : Part → Bool → List String → Prop
  | .level l, sign, after => l.Fits sign after
  | .arguments, _, _ | .argumentList, _, _ => True

namespace Level.Fits

theorem nil (level : Level) : level.Fits false [] := ⟨nofun, nofun⟩

theorem closing (level : Level) (rest : List String) : level.Fits false (")" :: rest) := by
  refine ⟨nofun, ?_⟩
  rintro token ⟨⟩
  rw [kind_closing]
  cases level with
  | factor => rfl
  | series tier => rfl

theorem comma (level : Level) (rest : List String) : level.Fits false ("," :: rest) := by
  refine ⟨nofun, ?_⟩
  rintro token ⟨⟩
  rw [kind_comma]
  cases level with
  | factor => rfl
  | series tier => rfl

theorem mayPrecede_operand {tier : Tier} {kind : Kind} (h : tier.mayPrecede kind = true) :
    tier.operand.mayPrecede kind = true := by
  cases tier <;> cases kind <;> first | rfl | exact absurd h (by simp [Tier.mayPrecede])

/-- What may come after a series may come after its last operand. -/
theorem operand {tier : Tier} {sign : Bool} {after : List String}
    (h : (Level.series tier).Fits sign after) : tier.operand.Fits sign after :=
  ⟨h.sign, fun token ht => mayPrecede_operand (h.next token ht)⟩

/-- An operator of a tier may come after any operand of the tier but the last. -/
theorem operator {tier : Tier} {op : Operator} (h : op ∈ tier.operators) (rest : List String) :
    tier.operand.Fits tier.isSign (op.token :: rest) := by
  have ht : op.tier = tier := Tier.mem_operators_iff.mp h
  constructor
  · intro hs
    rw [startsWithSign_token, ht, hs]
  · rintro token ⟨⟩
    rw [kind_token]
    cases tier with
    | additive => simp [Tier.operand, Level.mayPrecede, Tier.mayPrecede, ht]
    | multiplicative => rfl

end Level.Fits

/-- What may come after a sum is no sign. -/
theorem startsWithSign_eq_false {rest : List String}
    (h : ∀ token ∈ rest.head?, Tier.additive.mayPrecede (kind token) = true) :
    startsWithSign rest = false := by
  cases rest with
  | nil => rfl
  | cons token rest =>
    have hk := h token rfl
    unfold startsWithSign
    rw [List.head?_cons, Option.map_some]
    cases hkind : kind token with
    | operator op =>
      rw [hkind] at hk
      cases hk
    | opening | closing | comma | numeral | name => rfl

/-- What may be left over behind an expression. -/
theorem eq_of_mayPrecede {token : String} (h : Tier.additive.mayPrecede (kind token) = true) :
    token = ")" ∨ token = "," := by
  cases hk : kind token with
  | closing => exact .inl (kind_eq_closing_iff.mp hk)
  | comma => exact .inr (kind_eq_comma_iff.mp hk)
  | operator | opening | numeral | name =>
    rw [hk] at h
    cases h

/-- What may be left over behind a term. -/
theorem mem_of_mayPrecede {token : String}
    (h : Tier.multiplicative.mayPrecede (kind token) = true) : token ∈ [")", ",", "+", "-"] := by
  cases hk : kind token with
  | closing => simp [kind_eq_closing_iff.mp hk]
  | comma => simp [kind_eq_comma_iff.mp hk]
  | operator op =>
    rw [hk] at h
    rw [kind_eq_operator_iff.mp hk]
    cases op with
    | add | sub => decide
    | mul | div => cases h
  | opening | numeral | name =>
    rw [hk] at h
    cases h

namespace Cursor

@[simp] theorem kind?_nil (index : Nat) (table : Bindings) :
    kind? ⟨index, [], table⟩ = none := rfl

@[simp] theorem kind?_cons (index : Nat) (token : String) (rest : List String)
    (table : Bindings) : kind? ⟨index, token :: rest, table⟩ = some (kind token) := rfl

theorem kind?_congr {c c' : Cursor} (h : c'.rest.head? = c.rest.head?) : c'.kind? = c.kind? :=
  congrArg (Option.map kind) h

theorem operator?_congr {c c' : Cursor} (h : c'.rest.head? = c.rest.head?) (tier : Tier) :
    c'.operator? tier = c.operator? tier := by
  unfold operator?
  rw [kind?_congr h]

theorem kind?_eq_opening_iff {c : Cursor} :
    c.kind? = some .opening ↔ ∃ rest, c.rest = "(" :: rest := by
  obtain ⟨index, rest, table⟩ := c
  cases rest with
  | nil => simp
  | cons token rest => simp [kind_eq_opening_iff]

theorem kind?_eq_closing_iff {c : Cursor} :
    c.kind? = some .closing ↔ ∃ rest, c.rest = ")" :: rest := by
  obtain ⟨index, rest, table⟩ := c
  cases rest with
  | nil => simp
  | cons token rest => simp [kind_eq_closing_iff]

theorem kind?_eq_comma_iff {c : Cursor} :
    c.kind? = some .comma ↔ ∃ rest, c.rest = "," :: rest := by
  obtain ⟨index, rest, table⟩ := c
  cases rest with
  | nil => simp
  | cons token rest => simp [kind_eq_comma_iff]

@[simp] theorem advance_cons (index : Nat) (token : String) (rest : List String)
    (table : Bindings) : advance ⟨index, token :: rest, table⟩ = ⟨index + 1, rest, table⟩ := rfl

@[simp] theorem advance_rest (c : Cursor) : c.advance.rest = c.rest.tail := rfl

/-- No operator of a tier comes after a series of the tier. -/
theorem operator?_eq_none {tier : Tier} {c : Cursor}
    (h : ∀ token ∈ c.rest.head?, tier.mayPrecede (kind token) = true) :
    c.operator? tier = none := by
  obtain ⟨index, rest, table⟩ := c
  cases rest with
  | nil => rfl
  | cons token rest =>
    have hk := h token rfl
    unfold operator?
    rw [kind?_cons]
    cases hkind : kind token with
    | operator op =>
      rw [hkind] at hk
      cases tier with
      | additive => cases hk
      | multiplicative =>
        have hop : op.tier = .additive := by simpa [Tier.mayPrecede] using hk
        simp [hop]
    | opening | closing | comma | numeral | name => rfl

@[simp] theorem operator?_token (index : Nat) {op : Operator} {tier : Tier} (h : op.tier = tier)
    (rest : List String) (table : Bindings) :
    operator? ⟨index, op.token :: rest, table⟩ tier = some op := by
  simp [operator?, h]

theorem operator?_eq_some_iff {c : Cursor} {tier : Tier} {op : Operator} :
    c.operator? tier = some op ↔ op.tier = tier ∧ ∃ rest, c.rest = op.token :: rest := by
  obtain ⟨index, rest, table⟩ := c
  constructor
  · intro h
    unfold operator? at h
    cases rest with
    | nil => cases h
    | cons token rest =>
      rw [kind?_cons] at h
      split at h
      next op' hk =>
        split at h
        next ht =>
          cases h
          rw [Option.some.injEq, kind_eq_operator_iff] at hk
          exact ⟨ht, rest, hk ▸ rfl⟩
        next => cases h
      next => cases h
  · rintro ⟨ht, rest', hr⟩
    obtain rfl : rest = op.token :: rest' := hr
    exact operator?_token index ht rest' table

/-- A symbol is passed exactly if it is there. -/
theorem pass_eq_ok_iff {symbol : Char} {k : Kind} (hk : symbolKind? symbol = some k)
    {c next : Cursor} {room : Nat} :
    c.pass symbol room = .ok next ↔
      ∃ rest, c.rest = String.singleton symbol :: rest ∧ next = c.advance := by
  have hs := symbolKind?_eq_some_iff.mp hk
  obtain ⟨index, rest, table⟩ := c
  unfold pass
  cases rest with
  | nil => simp [hk]
  | cons token rest =>
    simp only [kind?_cons, hk, Option.some.injEq, kind_eq_iff hs, advance_cons, List.cons.injEq,
      exists_and_right]
    split
    next ht => simp [ht, eq_comm]
    next ht => simp [ht]

/-- A symbol is missed exactly where another token is, or none. -/
theorem pass_eq_error_iff {c : Cursor} {symbol : Char} {room : Nat} {stop : Stop} :
    c.pass symbol room = .error stop ↔
      c.kind? ≠ symbolKind? symbol ∧ stop = ⟨.expected symbol, c, room⟩ := by
  unfold pass
  split
  next hk => simp [hk]
  next hk => simp [hk, eq_comm]

theorem pass_closing_eq_ok_iff {c next : Cursor} {room : Nat} :
    c.pass ')' room = .ok next ↔ ∃ rest, c.rest = ")" :: rest ∧ next = c.advance :=
  pass_eq_ok_iff symbolKind?_closing

theorem pass_opening_eq_ok_iff {c next : Cursor} {room : Nat} :
    c.pass '(' room = .ok next ↔ ∃ rest, c.rest = "(" :: rest ∧ next = c.advance :=
  pass_eq_ok_iff symbolKind?_opening

end Cursor

end FormulaEngine
