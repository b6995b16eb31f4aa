import FormulaEngine.Token.Scan
import Mathlib.Data.List.Infix

/-! The texts that are tokens: symbols, numerals and words. A word has no symbols, and it
begins with no numeral, since the numeral would be a token of its own. Whatever a token
begins with is a token again, so a token can be found one character after the other. The
shape of a pending token says of each character whether it makes a longer token. -/

namespace FormulaEngine.Token

theorem isNumeralChars_iff {cs : List Char} : isNumeralChars cs = true ↔
    (∀ c ∈ cs, c.isDigit = true ∨ c = '.') ∧ (∃ c ∈ cs, c.isDigit = true) ∧ cs.count '.' ≤ 1 := by
  simp only [isNumeralChars, Bool.and_eq_true, List.all_eq_true, Bool.or_eq_true,
    decide_eq_true_eq, List.any_eq_true, and_assoc]

theorem isSymbol_iff {token : String} :
    isSymbol token = true ↔ ∃ c, token.toList = [c] ∧ isSymbolChar c = true := by
  unfold isSymbol symbol?
  split
  next c hc =>
    rw [symbolKind?_isSome]
    simp [hc]
  next hno =>
    refine iff_of_false nofun ?_
    rintro ⟨c, hc, -⟩
    exact hno c hc

theorem isDigit_point : '.'.isDigit = false := by decide

theorem isSymbolChar_point : isSymbolChar '.' = false := by decide

/-- The characters of numerals are no symbols. -/
theorem not_isDigit_of_symbol {c : Char} (h : isSymbolChar c = true) :
    ¬(c.isDigit = true ∨ c = '.') := by
  simp only [isSymbolChar, Bool.or_eq_true, decide_eq_true_eq, or_assoc] at h
  rcases h with rfl | rfl | rfl | rfl | rfl | rfl | rfl <;> decide

theorem eq_of_prefix_singleton {c : Char} {begin : List Char} (hne : begin ≠ [])
    (h : begin <+: [c]) : begin = [c] := by
  rcases List.prefix_cons_iff.mp h with rfl | ⟨rest, rfl, hrest⟩
  · exact absurd rfl hne
  · rw [List.prefix_nil.mp hrest]

/-- A run without symbols, at least one character long, that begins with no numeral. -/
structure IsWord (cs : List Char) : Prop where
  ne_nil : cs ≠ []
  noSymbol : ∀ c ∈ cs, isSymbolChar c = false
  noNumeral : ∀ begin, begin ≠ [] → begin <+: cs → isNumeralChars begin = false

/-- The characters of a token. -/
inductive IsLexeme : List Char → Prop
  | symbol {c : Char} (isSymbol : isSymbolChar c = true) : IsLexeme [c]
  | numeral {cs : List Char} (isNumeral : isNumeralChars cs = true) : IsLexeme cs
  | word {cs : List Char} (isWord : IsWord cs) : IsLexeme cs

theorem IsWord.beginning {cs begin : List Char} (h : IsWord cs) (hne : begin ≠ [])
    (hbegin : begin <+: cs) : IsWord begin where
  ne_nil := hne
  noSymbol c hc := h.noSymbol c (hbegin.subset hc)
  noNumeral p hp hpre := h.noNumeral p hp (hpre.trans hbegin)

theorem isWord_point : IsWord ['.'] where
  ne_nil := by simp
  noSymbol := by simp [isSymbolChar_point]
  noNumeral p hp hpre := by
    rw [eq_of_prefix_singleton hp hpre]
    decide

/-- What a numeral begins with is a numeral, if it has a digit. -/
theorem isNumeralChars_beginning {cs begin : List Char} (h : isNumeralChars cs = true)
    (hbegin : begin <+: cs) (hdigit : ∃ c ∈ begin, c.isDigit = true) :
    isNumeralChars begin = true := by
  obtain ⟨hall, -, hcount⟩ := isNumeralChars_iff.mp h
  refine isNumeralChars_iff.mpr ⟨fun c hc => hall c (hbegin.subset hc), hdigit, ?_⟩
  exact (hbegin.count_le '.').trans hcount

/-- Otherwise it is the point alone. -/
theorem eq_point_of_beginning {cs begin : List Char} (h : isNumeralChars cs = true)
    (hne : begin ≠ []) (hbegin : begin <+: cs) (hdigit : ¬∃ c ∈ begin, c.isDigit = true) :
    begin = ['.'] := by
  obtain ⟨hall, -, hcount⟩ := isNumeralChars_iff.mp h
  have hpoints : ∀ c ∈ begin, c = '.' := fun c hc =>
    (hall c (hbegin.subset hc)).resolve_left fun hd => hdigit ⟨c, hc, hd⟩
  have heq := List.eq_replicate_of_mem hpoints
  have hle : begin.length ≤ 1 := by
    have hc := hbegin.count_le '.'
    rw [heq, List.count_replicate_self] at hc
    omega
  have hpos := List.length_pos_of_ne_nil hne
  rw [heq, show begin.length = 1 by omega]
  rfl

/-- Whatever a token begins with is a token. -/
theorem IsLexeme.beginning {cs begin : List Char} (h : IsLexeme cs) (hne : begin ≠ [])
    (hbegin : begin <+: cs) : IsLexeme begin := by
  cases h with
  | @symbol c isSymbol =>
    rw [eq_of_prefix_singleton hne hbegin]
    exact .symbol isSymbol
  | numeral isNumeral =>
    by_cases hdigit : ∃ c ∈ begin, c.isDigit = true
    · exact .numeral (isNumeralChars_beginning isNumeral hbegin hdigit)
    · rw [eq_point_of_beginning isNumeral hne hbegin hdigit]
      exact .word isWord_point
  | word isWord => exact .word (isWord.beginning hne hbegin)

/-- A symbol is a token by itself only. -/
theorem not_isLexeme_of_symbol {cs : List Char} {c : Char} (hc : c ∈ cs)
    (hsymbol : isSymbolChar c = true) (hlength : 1 < cs.length) : ¬IsLexeme cs := by
  intro h
  cases h with
  | symbol => simp at hlength
  | numeral isNumeral =>
    exact not_isDigit_of_symbol hsymbol ((isNumeralChars_iff.mp isNumeral).1 c hc)
  | word isWord =>
    rw [isWord.noSymbol c hc] at hsymbol
    cases hsymbol

/-- A token that begins with a numeral is a numeral. -/
theorem not_isLexeme_of_numeral {cs : List Char} {c : Char} (h : isNumeralChars cs = true)
    (hlonger : isNumeralChars (cs ++ [c]) = false) : ¬IsLexeme (cs ++ [c]) := by
  have hne : cs ≠ [] := by
    rintro rfl
    cases h
  generalize hds : cs ++ [c] = ds at hlonger
  intro hlexeme
  cases hlexeme with
  | symbol =>
    have hlength := congrArg List.length hds
    have hpos := List.length_pos_of_ne_nil hne
    simp only [List.length_append, List.length_singleton] at hlength
    omega
  | numeral isNumeral =>
    rw [isNumeral] at hlonger
    cases hlonger
  | word isWord =>
    have hno := isWord.noNumeral cs hne (hds ▸ List.prefix_append cs [c])
    rw [h] at hno
    cases hno

section Append

variable {cs : List Char} {c : Char}

theorem isNumeralChars_append_digit (h : isNumeralChars cs = true) (hc : c.isDigit = true) :
    isNumeralChars (cs ++ [c]) = true := by
  obtain ⟨hall, ⟨d, hd, hdigit⟩, hcount⟩ := isNumeralChars_iff.mp h
  refine isNumeralChars_iff.mpr ⟨?_, ⟨d, List.mem_append_left _ hd, hdigit⟩, ?_⟩
  · intro e he
    rcases List.mem_append.mp he with he | he
    · exact hall e he
    · rw [List.mem_singleton.mp he]
      exact .inl hc
  · have hne : c ≠ '.' := by
      rintro rfl
      rw [isDigit_point] at hc
      cases hc
    rwa [List.count_append, List.count_singleton, if_neg (by simpa using hne)]

theorem isNumeralChars_append_point (h : isNumeralChars cs = true) (hpoint : '.' ∉ cs) :
    isNumeralChars (cs ++ ['.']) = true := by
  obtain ⟨hall, ⟨d, hd, hdigit⟩, -⟩ := isNumeralChars_iff.mp h
  refine isNumeralChars_iff.mpr ⟨?_, ⟨d, List.mem_append_left _ hd, hdigit⟩, ?_⟩
  · intro e he
    rcases List.mem_append.mp he with he | he
    · exact hall e he
    · exact .inr (List.mem_singleton.mp he)
  · rw [List.count_append, List.count_eq_zero_of_not_mem hpoint]
    decide

/-- No numeral goes on with another character than a digit or a point. -/
theorem isNumeralChars_eq_false (hc : c ∈ cs) (hother : ¬(c.isDigit = true ∨ c = '.')) :
    isNumeralChars cs = false := by
  rw [Bool.eq_false_iff]
  intro h
  exact hother ((isNumeralChars_iff.mp h).1 c hc)

/-- No numeral has a second point. -/
theorem isNumeralChars_append_second_point (hpoint : '.' ∈ cs) (more : List Char) :
    isNumeralChars (cs ++ '.' :: more) = false := by
  rw [Bool.eq_false_iff]
  intro h
  have hcount := (isNumeralChars_iff.mp h).2.2
  have hpos := List.count_pos_iff.mpr hpoint
  rw [List.count_append, List.count_cons_self] at hcount
  omega

/-- A word goes on with everything but symbols. -/
theorem isWord_append (hw : ∀ begin, begin ≠ [] → begin <+: cs → isNumeralChars begin = false)
    (hs : ∀ d ∈ cs, isSymbolChar d = false) (hc : isSymbolChar c = false)
    (hn : isNumeralChars (cs ++ [c]) = false) : IsWord (cs ++ [c]) where
  ne_nil := by simp
  noSymbol d hd := by
    rcases List.mem_append.mp hd with hd | hd
    · exact hs d hd
    · rw [List.mem_singleton.mp hd]
      exact hc
  noNumeral p hp hpre := by
    rcases List.prefix_concat_iff.mp hpre with rfl | hpre
    · exact hn
    · exact hw p hp hpre

end Append

/-- Whether a character continues a pending token, told from the whole token and not from
its shape. -/
def continues (pending : String) (c : Char) : Bool :=
  if pending.isEmpty then true
  else if isSymbol pending || isSymbolChar c then false
  else if isNumeral pending then c.isDigit || (c = '.' && pending.toList.all Char.isDigit)
  else true

namespace Shape

/-- What the characters of a token of a shape are. A word stays one whatever is added. -/
def Describes : Shape → List Char → Prop
  | symbol, cs => ∃ c, cs = [c] ∧ isSymbolChar c = true
  | integer, cs => cs ≠ [] ∧ ∀ c ∈ cs, c.isDigit = true
  | decimal, cs => isNumeralChars cs = true ∧ '.' ∈ cs
  | point, cs => cs = ['.']
  | word, cs => IsWord cs ∧ ∀ more, isNumeralChars (cs ++ more) = false

variable {shape next : Shape} {cs : List Char} {c : Char}

theorem Describes.isNumeral_of_integer (h : integer.Describes cs) : isNumeralChars cs = true := by
  obtain ⟨hne, hall⟩ := h
  refine isNumeralChars_iff.mpr ⟨fun c hc => .inl (hall c hc), ?_, ?_⟩
  · obtain ⟨c, hc⟩ := List.exists_mem_of_ne_nil cs hne
    exact ⟨c, hc, hall c hc⟩
  · have hpoint : '.' ∉ cs := fun hmem => by simpa [isDigit_point] using hall '.' hmem
    rw [List.count_eq_zero_of_not_mem hpoint]
    exact Nat.zero_le 1

theorem Describes.isLexeme (h : shape.Describes cs) : IsLexeme cs := by
  cases shape with
  | symbol =>
    obtain ⟨c, rfl, hc⟩ := h
    exact .symbol hc
  | integer => exact .numeral (isNumeral_of_integer h)
  | decimal => exact .numeral h.1
  | point =>
    obtain rfl : cs = ['.'] := h
    exact .word isWord_point
  | word => exact .word h.1

theorem Describes.ne_nil (h : shape.Describes cs) : cs ≠ [] := by
  rintro rfl
  cases shape with
  | symbol =>
    obtain ⟨c, hc, -⟩ := h
    cases hc
  | integer => exact h.1 rfl
  | decimal => cases h.2
  | point => cases h
  | word => exact h.1.ne_nil rfl

theorem describes_ofChar (c : Char) : (ofChar c).Describes [c] := by
  unfold ofChar
  split
  next hc => exact ⟨c, rfl, hc⟩
  next hc =>
    split
    next hd => exact ⟨by simp, by simpa using hd⟩
    next hd =>
      split
      next hp =>
        subst hp
        rfl
      next hp =>
        have hother : ¬(c.isDigit = true ∨ c = '.') := by simp [hd, hp]
        have hno (more : List Char) : isNumeralChars ([c] ++ more) = false :=
          isNumeralChars_eq_false (List.mem_append_left _ (List.mem_singleton_self c)) hother
        have hword : IsWord ([] ++ [c]) := by
          refine isWord_append ?_ nofun (by simpa using hc) (hno [])
          exact fun p hp hpre => absurd (List.prefix_nil.mp hpre) hp
        exact ⟨hword, hno⟩

theorem Describes.integer_digit (h : integer.Describes cs) (hc : c.isDigit = true) :
    integer.Describes (cs ++ [c]) := by
  refine ⟨by simp, ?_⟩
  intro d hd
  rcases List.mem_append.mp hd with hd | hd
  · exact h.2 d hd
  · rw [List.mem_singleton.mp hd]
    exact hc

theorem Describes.integer_point (h : integer.Describes cs) : decimal.Describes (cs ++ ['.']) := by
  have hpoint : '.' ∉ cs := fun hmem => by simpa [isDigit_point] using h.2 '.' hmem
  exact ⟨isNumeralChars_append_point h.isNumeral_of_integer hpoint, by simp⟩

theorem Describes.decimal_digit (h : decimal.Describes cs) (hc : c.isDigit = true) :
    decimal.Describes (cs ++ [c]) :=
  ⟨isNumeralChars_append_digit h.1 hc, List.mem_append_left _ h.2⟩

theorem Describes.point_digit (h : point.Describes cs) (hc : c.isDigit = true) :
    decimal.Describes (cs ++ [c]) := by
  obtain rfl : cs = ['.'] := h
  have hne : '.' ≠ c := by
    rintro rfl
    rw [isDigit_point] at hc
    cases hc
  refine ⟨isNumeralChars_iff.mpr ⟨by simp [hc], ⟨c, by simp, hc⟩, ?_⟩, by simp⟩
  simp [hne.symm]

theorem Describes.point_other (h : point.Describes cs) (hc : isSymbolChar c = false)
    (hd : ¬c.isDigit = true) : word.Describes (cs ++ [c]) := by
  obtain rfl : cs = ['.'] := h
  have hno (more : List Char) : isNumeralChars (['.', c] ++ more) = false := by
    by_cases hp : c = '.'
    · rw [hp]
      exact isNumeralChars_append_second_point (List.mem_singleton_self '.') more
    · exact isNumeralChars_eq_false (by simp) (not_or_intro hd hp)
  exact ⟨isWord_append isWord_point.noNumeral isWord_point.noSymbol hc (hno []), hno⟩

theorem Describes.word_append (h : word.Describes cs) (hc : isSymbolChar c = false) :
    word.Describes (cs ++ [c]) := by
  obtain ⟨hword, hno⟩ := h
  refine ⟨isWord_append hword.noNumeral hword.noSymbol hc (hno [c]), fun more => ?_⟩
  rw [List.append_assoc]
  exact hno _

theorem describes_singleton (c : Char) : (ofChar c).Describes (String.singleton c).toList := by
  rw [String.toList_singleton]
  exact describes_ofChar c

/-- A character that continues a token makes a token of the next shape. -/
theorem Describes.extend (h : shape.Describes cs) (hnext : shape.extend? c = some next) :
    next.Describes (cs ++ [c]) := by
  unfold extend? at hnext
  split at hnext
  next => cases hnext
  next hc =>
    have hc : isSymbolChar c = false := by simpa using hc
    cases shape with
    | symbol => cases hnext
    | integer =>
      by_cases hd : c.isDigit = true
      · obtain rfl : integer = next := by simpa [hd] using hnext
        exact h.integer_digit hd
      · obtain ⟨rfl, rfl⟩ : c = '.' ∧ decimal = next := by simpa [hd] using hnext
        exact h.integer_point
    | decimal =>
      obtain ⟨hd, rfl⟩ : c.isDigit = true ∧ decimal = next := by simpa using hnext
      exact h.decimal_digit hd
    | point =>
      by_cases hd : c.isDigit = true
      · obtain rfl : decimal = next := by simpa [hd] using hnext
        exact h.point_digit hd
      · obtain rfl : word = next := by simpa [hd] using hnext
        exact h.point_other hc hd
    | word =>
      obtain rfl : word = next := by simpa using hnext
      exact h.word_append hc

/-- A character that does not continue a token makes no token. -/
theorem Describes.not_isLexeme (h : shape.Describes cs) (hnone : shape.extend? c = none) :
    ¬IsLexeme (cs ++ [c]) := by
  have hlength : 1 < (cs ++ [c]).length := by
    have := List.length_pos_of_ne_nil h.ne_nil
    rw [List.length_append, List.length_singleton]
    omega
  unfold extend? at hnone
  split at hnone
  next hc => exact not_isLexeme_of_symbol (by simp) hc hlength
  next hc =>
    cases shape with
    | symbol =>
      obtain ⟨d, rfl, hd⟩ := h
      exact not_isLexeme_of_symbol (by simp) hd hlength
    | integer =>
      have hother : ¬(c.isDigit = true ∨ c = '.') := by
        rintro (hd | hp)
        · simp [hd] at hnone
        · simp [hp, isDigit_point] at hnone
      exact not_isLexeme_of_numeral h.isNumeral_of_integer
        (isNumeralChars_eq_false (by simp) hother)
    | decimal =>
      have hd : ¬c.isDigit = true := by simpa using hnone
      refine not_isLexeme_of_numeral h.1 ?_
      by_cases hp : c = '.'
      · rw [hp]
        exact isNumeralChars_append_second_point h.2 []
      · exact isNumeralChars_eq_false (by simp) (not_or_intro hd hp)
    | point =>
      simp only at hnone
      split at hnone
      next => cases hnone
      next => cases hnone
    | word => cases hnone

section Continues

variable {pending : String}

theorem Describes.isEmpty_eq_false (h : shape.Describes pending.toList) :
    pending.isEmpty = false := by
  rw [String.isEmpty_eq_false_iff]
  rintro rfl
  exact h.ne_nil rfl

theorem Describes.isSymbol_eq_false (h : shape.Describes pending.toList) (hshape : shape ≠ symbol) :
    isSymbol pending = false := by
  rw [Bool.eq_false_iff, ne_eq, isSymbol_iff]
  rintro ⟨c, hc, hsymbol⟩
  rw [hc] at h
  have hmem := List.mem_singleton_self c
  cases shape with
  | symbol => exact hshape rfl
  | integer => exact not_isDigit_of_symbol hsymbol (.inl (h.2 c hmem))
  | decimal => exact not_isDigit_of_symbol hsymbol ((isNumeralChars_iff.mp h.1).1 c hmem)
  | point =>
    obtain rfl : c = '.' := List.singleton_inj.mp h
    exact not_isDigit_of_symbol hsymbol (.inr rfl)
  | word =>
    rw [h.1.noSymbol c hmem] at hsymbol
    cases hsymbol

/-- The shape of a pending token tells as much as the token itself. -/
theorem Describes.isSome_extend? (h : shape.Describes pending.toList) (c : Char) :
    (shape.extend? c).isSome = continues pending c := by
  unfold extend? continues
  simp only [h.isEmpty_eq_false, Bool.false_eq_true, if_false]
  cases hc : isSymbolChar c with
  | true => simp
  | false =>
    cases shape with
    | symbol => simp [isSymbol_iff.mpr h]
    | integer =>
      have hnumeral : isNumeral pending = true := h.isNumeral_of_integer
      have hdigits : pending.toList.all Char.isDigit = true := List.all_eq_true.mpr h.2
      simp only [h.isSymbol_eq_false nofun, hnumeral, hdigits]
      by_cases hd : c.isDigit = true <;> by_cases hp : c = '.' <;> simp [hd, hp]
    | decimal =>
      have hnumeral : isNumeral pending = true := h.1
      have hdigits : pending.toList.all Char.isDigit = false := by
        rw [List.all_eq_false]
        exact ⟨'.', h.2, by simp [isDigit_point]⟩
      simp only [h.isSymbol_eq_false nofun, hnumeral, hdigits]
      by_cases hd : c.isDigit = true <;> simp [hd]
    | point =>
      have hnumeral : isNumeral pending = false := by
        rw [isNumeral, show pending.toList = ['.'] from h]
        decide
      simp only [h.isSymbol_eq_false nofun, hnumeral]
      by_cases hd : c.isDigit = true <;> simp [hd]
    | word =>
      have hnumeral : isNumeral pending = false := by
        rw [isNumeral, ← List.append_nil pending.toList]
        exact h.2 []
      simp [h.isSymbol_eq_false nofun, hnumeral]

end Continues

end Shape

end FormulaEngine.Token
