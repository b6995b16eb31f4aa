import FormulaEngine.Proofs.Grammar.Completeness

/-! The grammar is unambiguous. Two derivations of a level that begin the same list of
tokens, each with tokens behind it that fit, end at the same place, because a reading
would end at both. From this it follows rule by rule that the tokens determine the
derivation. -/

namespace FormulaEngine.Derivation

open Token

variable {φ : Type} [Callable φ] {library : Library φ}

/-- Where a derivation ends is determined by the tokens. -/
theorem after_eq {level : Level} {sign sign' : Bool}
    (d : Derivation library (.level level) sign) (d' : Derivation library (.level level) sign')
    {after after' : List String} (h : d.tokens ++ after = d'.tokens ++ after')
    (hfits : level.Fits sign after) (hfits' : level.Fits sign' after') : after = after' := by
  -- with levels enough for both, one reading from the same tokens ends where each of them does
  have hread := d.isRead.levelRead (max d.depth d'.depth) 0 .empty _ after (Nat.le_max_left _ _)
    hfits (.refl _)
  have hread' := d'.isRead.levelRead (max d.depth d'.depth) 0 .empty _ after'
    (Nat.le_max_right _ _) hfits' (.refl _)
  rw [h, hread'] at hread
  injection hread with hpair
  exact (congrArg (fun read => read.2.rest) hpair).symm

section Series

variable {tier : Tier} {sign sign' : Bool}

theorem tokens_join (operand : Derivation library (.level tier.operand) tier.isSign)
    (op : Operator) (hop : op ∈ tier.operators)
    (rest : Derivation library (.level (.series tier)) sign) (after : List String) :
    (join operand op hop rest).tokens ++ after =
      operand.tokens ++ op.token :: (rest.tokens ++ after) := by
  simp [tokens]

/-- A series of one operand is no longer series, since its operator would have to come
behind the whole of it. -/
theorem tokens_last_ne_join (operand : Derivation library (.level tier.operand) sign)
    (operand' : Derivation library (.level tier.operand) tier.isSign) (op : Operator)
    (hop : op ∈ tier.operators) (rest : Derivation library (.level (.series tier)) sign')
    {after : List String} (hfits : (Level.series tier).Fits sign after) :
    (last operand).tokens ≠ (join operand' op hop rest).tokens := by
  intro h
  have htokens :
      operand.tokens ++ after = operand'.tokens ++ op.token :: (rest.tokens ++ after) := by
    rw [← tokens_join operand' op hop, ← h, tokens]
  have hafter := operand.after_eq operand' htokens hfits.operand (.operator hop _)
  have hlen := congrArg List.length hafter
  simp only [List.length_cons, List.length_append] at hlen
  omega

theorem tokens_join_inj {operand operand' : Derivation library (.level tier.operand) tier.isSign}
    {op op' : Operator} {hop : op ∈ tier.operators}
    {hop' : op' ∈ tier.operators}
    {rest rest' : Derivation library (.level (.series tier)) sign}
    (h : (join operand op hop rest).tokens = (join operand' op' hop' rest').tokens) :
    operand.tokens = operand'.tokens ∧ op = op' ∧ rest.tokens = rest'.tokens := by
  simp only [tokens] at h
  obtain ⟨htoken, hrest⟩ := List.cons.inj
    (operand.after_eq operand' h (.operator hop _) (.operator hop' _))
  rw [htoken, hrest] at h
  exact ⟨List.append_cancel_right h, token_injective htoken, hrest⟩

end Series

section Arguments

/-- Only a zero before a sign and an empty argument list have no tokens. -/
theorem tokens_ne_nil {part : Part} {sign : Bool} (d : Derivation library part sign)
    (hsign : sign = false) (hpart : part ≠ .arguments) : d.tokens ≠ [] := by
  induction d with
  | last operand ih => exact ih hsign (by simp)
  | join | more => simp [tokens]
  | numeral | var | group | call => simp [tokens]
  | zero => cases hsign
  | noArguments | someArguments => exact absurd rfl hpart
  | one argument ih => exact ih hsign (by simp)

theorem tokens_one_ne_more (argument argument' : Sentence library)
    (rest : Derivation library .argumentList false) :
    (one argument).tokens ≠ (more argument' rest).tokens := by
  intro h
  have htokens : argument.tokens ++ [")"] = argument'.tokens ++ "," :: (rest.tokens ++ [")"]) := by
    simp only [tokens] at h
    simp [h]
  have hafter := argument.after_eq argument' htokens (.closing _ _) (.comma _ _)
  exact absurd (List.cons.inj hafter).1 (by decide)

theorem tokens_more_inj {argument argument' : Sentence library}
    {rest rest' : Derivation library .argumentList false}
    (h : (more argument rest).tokens = (more argument' rest').tokens) :
    argument.tokens = argument'.tokens ∧ rest.tokens = rest'.tokens := by
  simp only [tokens] at h
  have hrest := (List.cons.inj (argument.after_eq argument' h (.comma _ _) (.comma _ _))).2
  rw [hrest] at h
  exact ⟨List.append_cancel_right h, hrest⟩

end Arguments

/-- The tokens determine the derivation. In a series and in an argument list the place
where an operand ends does so; the kind of the first token tells the rules for factors
apart, up to the rules for the two sorts of names. -/
theorem eq_of_tokens_eq {part : Part} {sign : Bool} (d d' : Derivation library part sign)
    {after : List String} (hfits : part.Fits sign after) (h : d.tokens = d'.tokens) : d = d' := by
  induction d generalizing after with
  | last operand ih =>
    cases d' with
    | last operand' => rw [ih operand' hfits.operand h]
    | join operand' op hop rest =>
      exact absurd h (tokens_last_ne_join operand operand' op hop rest hfits)
  | join operand op hop rest iho ihr =>
    cases d' with
    | last operand' =>
      exact absurd h.symm (tokens_last_ne_join operand' operand op hop rest hfits)
    | join operand' op' hop' rest' =>
      obtain ⟨hoperand, rfl, hrest⟩ := tokens_join_inj h
      rw [iho operand' (.operator hop []) hoperand, ihr rest' hfits hrest]
  | numeral text hk =>
    cases d' with
    | numeral text' hk' =>
      obtain rfl : text = text' := List.singleton_inj.mp h
      rfl
    | var text' hk' =>
      obtain rfl : text = text' := List.singleton_inj.mp h
      rw [hk] at hk'
      cases hk'
    | zero | group | call => simp [tokens] at h
  | var text hk hfree =>
    cases d' with
    | var text' hk' hfree' =>
      obtain rfl : text = text' := List.singleton_inj.mp h
      rfl
    | numeral text' hk' =>
      obtain rfl : text = text' := List.singleton_inj.mp h
      rw [hk] at hk'
      cases hk'
    | zero | group | call => simp [tokens] at h
  | zero =>
    cases d' with
    | zero => rfl
    | numeral | var | group | call => simp [tokens] at h
  | group inner ih =>
    cases d' with
    | group inner' =>
      rw [tokens, tokens, List.cons.injEq] at h
      rw [ih inner' (.nil _) (List.append_cancel_right h.2)]
    | call text' f' hk' => simp [← (List.cons.inj h).1] at hk'
    | numeral | var | zero => simp [tokens] at h
  | call text f hk hf args ih =>
    cases d' with
    | call text' f' hk' hf' args' =>
      simp only [tokens, List.cons.injEq, true_and] at h
      obtain ⟨rfl, hargs⟩ := h
      obtain rfl := Option.some.inj (hf.symm.trans hf')
      rw [ih args' (show Part.arguments.Fits false after from trivial)
        (List.append_cancel_right hargs)]
    | group inner' => simp [(List.cons.inj h).1] at hk
    | numeral | var | zero => simp [tokens] at h
  | noArguments =>
    cases d' with
    | noArguments => rfl
    | someArguments list => exact absurd h.symm (list.tokens_ne_nil rfl (by simp))
  | someArguments list ih =>
    cases d' with
    | noArguments => exact absurd h (list.tokens_ne_nil rfl (by simp))
    | someArguments list' => rw [ih list' (show Part.argumentList.Fits false after from trivial) h]
  | one argument ih =>
    cases d' with
    | one argument' => rw [ih argument' (.nil _) h]
    | more argument' rest' => exact absurd h (tokens_one_ne_more argument argument' rest')
  | more argument rest iha ihr =>
    cases d' with
    | one argument' => exact absurd h.symm (tokens_one_ne_more argument' argument rest)
    | more argument' rest' =>
      obtain ⟨hargument, hrest⟩ := tokens_more_inj h
      rw [iha argument' (.nil _) hargument, ihr rest' hfits hrest]

end FormulaEngine.Derivation
