import FormulaEngine.Token

/-! Symbols as tokens. Every kind but numeral and name is spelled by exactly one
character, so a token of such a kind is known as a text. -/

namespace FormulaEngine

/-- Whether the operators of a tier are signs. -/
def Tier.isSign : Tier → Bool
  | .additive => true
  | .multiplicative => false

theorem Tier.isSign_iff {tier : Tier} : tier.isSign = true ↔ tier = .additive := by
  cases tier <;> simp [isSign]

/-- The token that spells an operator. -/
def Operator.token (op : Operator) : String := String.singleton op.symbol

namespace Token

/-- The character that a symbol of a kind is. -/
def Kind.symbol? : Kind → Option Char
  | .operator op => some op.symbol
  | .opening => some '('
  | .closing => some ')'
  | .comma => some ','
  | .numeral | .name => none

theorem symbolKind?_eq_some_iff {c : Char} {k : Kind} :
    symbolKind? c = some k ↔ k.symbol? = some c := by
  constructor
  · intro h
    unfold symbolKind? at h
    split at h
    iterate 3 cases h; rfl
    next =>
      obtain ⟨op, hop, rfl⟩ := Option.map_eq_some_iff.mp h
      rw [Operator.ofChar?_eq_some_iff] at hop
      rw [hop]
      rfl
  · intro h
    cases k with
    | operator op => cases op <;> (cases h; rfl)
    | numeral | name => cases h
    | opening | closing | comma => cases h; rfl

theorem symbolKind?_opening : symbolKind? '(' = some .opening := rfl

theorem symbolKind?_closing : symbolKind? ')' = some .closing := rfl

theorem symbol?_eq_some_iff {text : String} {k : Kind} :
    symbol? text = some k ↔ ∃ c, text = String.singleton c ∧ symbolKind? c = some k := by
  constructor
  · intro h
    unfold symbol? at h
    split at h
    next c hc => exact ⟨c, String.toList_inj.mp (by simp [hc]), h⟩
    next => cases h
  · rintro ⟨c, rfl, h⟩
    simpa [symbol?] using h

/-- A token of a kind that has a symbol is that symbol. -/
theorem kind_eq_iff {text : String} {k : Kind} {c : Char} (hc : k.symbol? = some c) :
    kind text = k ↔ text = String.singleton c := by
  have hk : symbol? text = some k ↔ text = String.singleton c := by
    simp only [symbol?_eq_some_iff, symbolKind?_eq_some_iff, hc, Option.some.injEq]
    exact ⟨fun ⟨d, ht, hd⟩ => hd ▸ ht, fun ht => ⟨c, ht, rfl⟩⟩
  rw [← hk, kind]
  cases symbol? text with
  | some k' => simp
  | none =>
    simp only [Option.getD_none, reduceCtorEq, iff_false]
    split <;> (rintro rfl; cases hc)

/-- What is no symbol is a numeral or a name. -/
theorem kind_of_isSymbol_eq_false {text : String} (h : isSymbol text = false) :
    kind text = if isNumeral text then .numeral else .name := by
  have hnone : symbol? text = none := by simpa [isSymbol] using h
  rw [kind, hnone, Option.getD_none]

/-- The symbols are the tokens whose kind has a symbol. -/
theorem isSymbol_eq (text : String) : isSymbol text = (kind text).symbol?.isSome := by
  cases hk : symbol? text with
  | none =>
    rw [kind_of_isSymbol_eq_false (by rw [isSymbol, hk]; rfl), isSymbol, hk]
    split <;> rfl
  | some k =>
    obtain ⟨c, -, hc⟩ := symbol?_eq_some_iff.mp hk
    rw [isSymbol, kind, hk, Option.getD_some, symbolKind?_eq_some_iff.mp hc]
    rfl

theorem kind_eq_name_iff {text : String} :
    kind text = .name ↔ isSymbol text = false ∧ isNumeral text = false := by
  cases h : isSymbol text with
  | false =>
    rw [kind_of_isSymbol_eq_false h]
    split
    next hn => simp [hn]
    next hn => simp [hn]
  | true =>
    obtain ⟨k, hk⟩ := Option.isSome_iff_exists.mp h
    obtain ⟨c, -, hc⟩ := symbol?_eq_some_iff.mp hk
    rw [symbolKind?_eq_some_iff] at hc
    rw [kind, hk, Option.getD_some]
    refine iff_of_false ?_ (by simp)
    rintro rfl
    cases hc

theorem kind_eq_opening_iff {text : String} : kind text = .opening ↔ text = "(" := by
  rw [kind_eq_iff (show Kind.opening.symbol? = some '(' from rfl)]
  rfl

theorem kind_eq_closing_iff {text : String} : kind text = .closing ↔ text = ")" := by
  rw [kind_eq_iff (show Kind.closing.symbol? = some ')' from rfl)]
  rfl

theorem kind_eq_comma_iff {text : String} : kind text = .comma ↔ text = "," := by
  rw [kind_eq_iff (show Kind.comma.symbol? = some ',' from rfl)]
  rfl

theorem kind_eq_operator_iff {text : String} {op : Operator} :
    kind text = .operator op ↔ text = op.token := kind_eq_iff rfl

@[simp] theorem kind_opening : kind "(" = .opening := kind_eq_opening_iff.mpr rfl

@[simp] theorem kind_closing : kind ")" = .closing := kind_eq_closing_iff.mpr rfl

@[simp] theorem kind_comma : kind "," = .comma := kind_eq_comma_iff.mpr rfl

@[simp] theorem kind_token (op : Operator) : kind op.token = .operator op :=
  kind_eq_operator_iff.mpr rfl

theorem token_injective {a b : Operator} (h : a.token = b.token) : a = b := by
  have hk := congrArg kind h
  simpa using hk

/-- Whether the tokens go on with a sign. -/
def startsWithSign (tokens : List String) : Bool :=
  match tokens.head?.map kind with
  | some (.operator op) => op.tier.isSign
  | _ => false

@[simp] theorem startsWithSign_nil : startsWithSign [] = false := rfl

@[simp] theorem startsWithSign_token (op : Operator) (rest : List String) :
    startsWithSign (op.token :: rest) = op.tier.isSign := by
  simp [startsWithSign]

@[simp] theorem startsWithSign_closing (rest : List String) :
    startsWithSign (")" :: rest) = false := by
  simp [startsWithSign]

@[simp] theorem startsWithSign_comma (rest : List String) :
    startsWithSign ("," :: rest) = false := by
  simp [startsWithSign]

end Token

end FormulaEngine
