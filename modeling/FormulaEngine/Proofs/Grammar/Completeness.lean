import FormulaEngine.Proofs.Bindings.Interning
import FormulaEngine.Proofs.Grammar.Rules

/-! Whatever is derived is read. A reading that stands before the tokens of a
derivation, with as many levels left as the derivation is deep and with tokens
behind it that fit, takes exactly these tokens and gives the tree of the derivation.
The variables have the indices of the table that the reading leaves behind, which
are also those of every later table. -/

namespace FormulaEngine

open Token Reading

variable {φ : Type} [Callable φ] {library : Library φ}

namespace Derivation

/-- The cursor behind the tokens of a derivation. -/
def behind {part : Part} {sign : Bool} (d : Derivation library part sign) (index : Nat)
    (table : Bindings) (after : List String) : Cursor :=
  ⟨index + d.tokens.length, after, table.internAll d.uses⟩

/-- The reading of a level takes the tokens of the derivation. -/
def LevelRead {level : Level} {sign : Bool} (d : Derivation library (.level level) sign) : Prop :=
  ∀ (room index : Nat) (table later : Bindings) (after : List String), d.depth ≤ room →
    level.Fits sign after → (table.internAll d.uses).Within later →
    ofLevel library room level ⟨index, d.tokens ++ after, table⟩ =
      .ok (d.tree later.indexOf index, d.behind index table after)

/-- The first operand of a series is read, and the loop goes on from there over the
operators and operands after it. -/
def SeriesRead {tier : Tier} {sign : Bool} (d : Derivation library (.level (.series tier)) sign) :
    Prop :=
  ∀ (room index : Nat) (table later : Bindings) (after : List String), d.depth ≤ room →
    (Level.series tier).Fits sign after → (table.internAll d.uses).Within later →
    ∃ next, next.rest.length ≤ (d.tokens ++ after).length ∧
      ofLevel library room tier.operand ⟨index, d.tokens ++ after, table⟩ =
        .ok ((d.interpret (.tree later.indexOf) index).first, next) ∧
      ∀ (rounds : List String) (left : Expr φ), next.rest.length ≤ rounds.length →
        seriesRest tier (ofLevel library room tier.operand) rounds left next =
          .ok (Chain.fold (Meaning.tree later.indexOf).binary
              ⟨left, (d.interpret (.tree later.indexOf) index).rest⟩,
            d.behind index table after)

/-- The arguments of a call are read together with the parenthesis that closes it. -/
def ArgumentsRead {sign : Bool} (d : Derivation library .arguments sign) : Prop :=
  ∀ (outer room index : Nat) (table later : Bindings) (after : List String), d.depth ≤ room →
    (table.internAll d.uses).Within later →
    arguments outer (expression library room) ⟨index, d.tokens ++ ")" :: after, table⟩ =
      .ok (d.interpret (.tree later.indexOf) index, (d.behind index table (")" :: after)).advance)

/-- The same for the loop over arguments, after some have been read. -/
def ListRead {sign : Bool} (d : Derivation library .argumentList sign) : Prop :=
  ∀ (outer room index : Nat) (table later : Bindings) (after : List String), d.depth ≤ room →
    (table.internAll d.uses).Within later →
    ∀ (rounds : List String) (done : List (Expr φ)),
      (d.tokens ++ ")" :: after).length ≤ rounds.length →
      argumentsRest outer (expression library room) rounds done
          ⟨index, d.tokens ++ ")" :: after, table⟩ =
        .ok (List.append done.reverse (d.interpret (.tree later.indexOf) index),
          (d.behind index table (")" :: after)).advance)

/-- What is shown of the derivations of each part. -/
def IsRead : {part : Part} → {sign : Bool} → Derivation library part sign → Prop
  | .level (.series _), _, d => d.SeriesRead
  | .level .factor, _, d => d.LevelRead
  | .arguments, _, d => d.ArgumentsRead
  | .argumentList, _, d => d.ListRead

theorem SeriesRead.levelRead {tier : Tier} {sign : Bool}
    {d : Derivation library (.level (.series tier)) sign} (h : d.SeriesRead) : d.LevelRead := by
  intro room index table later after hdepth hfits hlater
  obtain ⟨next, _, hfirst, hrest⟩ := h room index table later after hdepth hfits hlater
  rw [ofLevel_series, series_eq_ok_iff]
  exact ⟨_, next, hfirst, hrest next.rest _ (Nat.le_refl _), hfits.next⟩

theorem IsRead.levelRead {level : Level} {sign : Bool}
    {d : Derivation library (.level level) sign} (h : d.IsRead) : d.LevelRead := by
  cases level with
  | series tier => exact SeriesRead.levelRead h
  | factor => exact h

theorem seriesRead_last {tier : Tier} {sign : Bool}
    (operand : Derivation library (.level tier.operand) sign) (ho : operand.LevelRead) :
    (last operand).SeriesRead := by
  intro room index table later after hdepth hfits hlater
  refine ⟨operand.behind index table after, by simp [behind],
    ho room index table later after hdepth hfits.operand hlater, ?_⟩
  intro rounds left _
  exact seriesRest_of_end (Cursor.operator?_eq_none hfits.next)

theorem seriesRead_join {tier : Tier} {sign : Bool}
    (operand : Derivation library (.level tier.operand) tier.isSign) (op : Operator)
    (hop : op ∈ tier.operators) (rest : Derivation library (.level (.series tier)) sign)
    (ho : operand.LevelRead) (hr : rest.SeriesRead) :
    (join operand op hop rest).SeriesRead := by
  intro room index table later after hdepth hfits hlater
  obtain ⟨hdo, hdr⟩ := Nat.max_le.mp hdepth
  simp only [uses, Bindings.internAll_append] at hlater
  have hread := ho room index table later (op.token :: (rest.tokens ++ after)) hdo
    (.operator hop _) ((Bindings.within_internAll _ _).trans hlater)
  obtain ⟨next, hlen, hfirst, hrest⟩ := hr room (index + operand.tokens.length + 1)
    (table.internAll operand.uses) later after hdr hfits hlater
  refine ⟨operand.behind index table (op.token :: (rest.tokens ++ after)), ?_, ?_, ?_⟩
  · simp [behind, tokens]
  · rw [show (join operand op hop rest).tokens ++ after =
      operand.tokens ++ op.token :: (rest.tokens ++ after) by simp [tokens]]
    exact hread
  · intro rounds left hrounds
    cases rounds with
    | nil => simp [behind] at hrounds
    | cons round rounds =>
      have hnext :
          (operand.behind index table (op.token :: (rest.tokens ++ after))).operator? tier =
            some op := Cursor.operator?_token _ (Tier.mem_operators_iff.mp hop) _ _
      rw [seriesRest_of_operator hnext hfirst, hrest]
      · simp [behind, tokens, uses, interpret, Chain.fold, Bindings.internAll_append,
          Meaning.tree, Nat.add_assoc, Nat.add_comm 1]
      · simp only [behind, List.length_cons] at hrounds
        omega

theorem levelRead_var {sign : Bool} (text : String) (hname : Token.kind text = .name)
    (hfree : library.get? text = none) :
    (var text hname hfree : Derivation library (.level .factor) sign).LevelRead := by
  intro room index table later after _ hfits hlater
  have hafter : after.head?.map kind ≠ some .opening := by
    intro h
    obtain ⟨token, ht, hk⟩ := Option.map_eq_some_iff.mp h
    have hm := hfits.next token ht
    rw [hk] at hm
    cases hm
  have hid : later.indexOf text = (table.intern text).1 :=
    Bindings.indexOf_eq (hlater.idOf? (table.idOf?_intern text))
  rw [tree, meaning, interpret, Chain.fold]
  simp only [Meaning.tree, hid, List.foldl_nil]
  exact factorWith_of_free hname hfree hafter

theorem levelRead_group {sign : Bool} (inner : Sentence library) (hi : inner.LevelRead) :
    (group inner : Derivation library (.level .factor) sign).LevelRead := by
  intro room index table later after hdepth _ hlater
  obtain ⟨room, rfl⟩ : ∃ r, room = r + 1 := ⟨room - 1, by simp only [depth] at hdepth; omega⟩
  have hread := hi room (index + 1) table later (")" :: after) (Nat.le_of_succ_le_succ hdepth)
    (.closing _ _) hlater
  have htokens : (group inner : Derivation library (.level .factor) sign).tokens ++ after =
      "(" :: (inner.tokens ++ ")" :: after) := by simp [tokens]
  rw [htokens, ofLevel_factor, factorWith_of_opening, group_eq_ok_iff]
  refine ⟨_, inner.behind (index + 1) table (")" :: after), after, rfl, hread, rfl, ?_⟩
  simp [behind, tokens, uses, Nat.add_assoc, Nat.add_comm 1]

theorem levelRead_call {sign : Bool} (text : String) (f : φ) (hname : Token.kind text = .name)
    (hf : library.get? text = some f) (args : Derivation library .arguments false)
    (ha : args.ArgumentsRead) :
    (call text f hname hf args : Derivation library (.level .factor) sign).LevelRead := by
  intro room index table later after hdepth _ hlater
  obtain ⟨room, rfl⟩ : ∃ r, room = r + 1 := ⟨room - 1, by simp only [depth] at hdepth; omega⟩
  have hread := ha room room (index + 2) table later after (Nat.le_of_succ_le_succ hdepth) hlater
  have htokens : (call text f hname hf args : Derivation library (.level .factor) sign).tokens ++
      after = text :: "(" :: (args.tokens ++ ")" :: after) := by simp [tokens]
  rw [htokens, ofLevel_factor, factorWith_of_registered hname hf, callWith_eq_ok_iff]
  refine ⟨text, _, f, _, _, rfl, hf, rfl, hread.trans ?_, rfl⟩
  simp [behind, tokens, uses]
  omega

theorem argumentsRead_none : (noArguments : Derivation library .arguments false).ArgumentsRead := by
  intro outer room index table later after _ _
  rfl

/-- No argument begins with a closing parenthesis, so the loop is entered. -/
theorem argumentsRead_some (list : Derivation library .argumentList false) (hl : list.ListRead) :
    (someArguments list).ArgumentsRead := by
  intro outer room index table later after hdepth hlater
  have hread := hl outer room index table later after hdepth hlater _ [] (Nat.le_refl _)
  change arguments outer _ ⟨index, list.tokens ++ ")" :: after, table⟩ = _
  unfold arguments
  split
  next hk =>
    cases hrounds : list.tokens ++ ")" :: after with
    | nil => simp at hrounds
    | cons round rounds =>
      rw [hrounds] at hread hk
      obtain ⟨tree, next, _, he, -⟩ := argumentsRest_cons_eq_ok_iff.mp hread
      replace he : ofLevel library room (.series .additive) _ = .ok (tree, next) := he
      exact absurd he (ofLevel_of_closing hk (tree, next))
  next => exact hread

theorem listRead_one (argument : Sentence library) (ha : argument.LevelRead) :
    (one argument).ListRead := by
  intro outer room index table later after hdepth hlater rounds done hrounds
  have hread := ha room index table later (")" :: after) hdepth (.closing _ _) hlater
  cases rounds with
  | nil => simp at hrounds
  | cons round rounds =>
    rw [argumentsRest_cons_eq_ok_iff]
    refine ⟨_, _, after, hread, .inr ⟨rfl, ?_, rfl⟩⟩
    simp [interpret, tree, meaning]

theorem listRead_more (argument : Sentence library) (rest : Derivation library .argumentList false)
    (ha : argument.LevelRead) (hr : rest.ListRead) : (more argument rest).ListRead := by
  intro outer room index table later after hdepth hlater rounds done hrounds
  obtain ⟨hda, hdr⟩ := Nat.max_le.mp hdepth
  simp only [uses, Bindings.internAll_append] at hlater
  have hread := ha room index table later ("," :: (rest.tokens ++ ")" :: after)) hda (.comma _ _)
    ((Bindings.within_internAll _ _).trans hlater)
  have htokens : (more argument rest).tokens ++ ")" :: after =
      argument.tokens ++ "," :: (rest.tokens ++ ")" :: after) := by simp [tokens]
  rw [htokens] at hrounds ⊢
  cases rounds with
  | nil => simp at hrounds
  | cons round rounds =>
    have hrest := hr outer room (index + argument.tokens.length + 1)
      (table.internAll argument.uses) later after hdr hlater rounds
      (argument.tree later.indexOf index :: done)
      (by simp only [List.length_append, List.length_cons] at hrounds ⊢; omega)
    rw [argumentsRest_cons_eq_ok_iff]
    refine ⟨_, _, rest.tokens ++ ")" :: after, hread, .inl ⟨rfl, hrest.trans ?_⟩⟩
    simp [behind, interpret, tree, meaning, tokens, uses, Bindings.internAll_append]
    omega

theorem isRead {part : Part} {sign : Bool} (d : Derivation library part sign) : d.IsRead := by
  induction d with
  | last operand ih => exact seriesRead_last operand ih.levelRead
  | join operand op hop rest iho ihr => exact seriesRead_join operand op hop rest iho.levelRead ihr
  | numeral text h =>
    intro room index table later after _ _ _
    exact factorWith_of_numeral h
  | var text hname hfree => exact levelRead_var text hname hfree
  | zero =>
    intro room index table later after _ hfits _
    exact factorWith_of_sign (hfits.sign rfl)
  | group inner ih => exact levelRead_group inner ih.levelRead
  | call text f hname hf args ih => exact levelRead_call text f hname hf args ih
  | noArguments => exact argumentsRead_none
  | someArguments list ih => exact argumentsRead_some list ih
  | one argument ih => exact listRead_one argument ih.levelRead
  | more argument rest iha ihr => exact listRead_more argument rest iha.levelRead ihr

end Derivation

end FormulaEngine
