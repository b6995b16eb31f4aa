import FormulaEngine.Proofs.Grammar.Rules

/-! Whatever is read is derived. The tokens that a successful reading takes are those
of a derivation that is no deeper than the levels that were left. Of the tree nothing
is said here, since a derivation says what is read from its tokens. -/

namespace FormulaEngine

open Token

variable {φ : Type} [Callable φ]

namespace Reading

/-- Every success of a reading of a level is due to a derivation. -/
def Derives (library : Library φ) (level : Level) (room : Nat) (reading : Reading φ) : Prop :=
  ∀ ⦃c : Cursor⦄ ⦃tree : Expr φ⦄ ⦃last : Cursor⦄, reading c = .ok (tree, last) →
    ∀ sign, startsWithSign last.rest = sign →
      ∃ d : Derivation library (.level level) sign,
        c.rest = d.tokens ++ last.rest ∧ d.depth ≤ room

variable {library : Library φ} {room : Nat}

/-- The loop over operands prolongs a series whose operands so far end in `first`. The
operands before that one are no part of the series that the loop finds. -/
theorem Derives.seriesRest {tier : Tier} {operand : Reading φ}
    (ho : Derives library tier.operand room operand) (rounds : List String) {left tree : Expr φ}
    {c last : Cursor} (h : seriesRest tier operand rounds left c = .ok (tree, last))
    (hrounds : c.rest.length ≤ rounds.length) {firstSign : Bool}
    (first : Derivation library (.level tier.operand) firstSign)
    (hfirst : startsWithSign c.rest = firstSign) (hdepth : first.depth ≤ room)
    {sign : Bool} (hsign : startsWithSign last.rest = sign) :
    ∃ d : Derivation library (.level (.series tier)) sign,
      d.tokens ++ last.rest = first.tokens ++ c.rest ∧ d.depth ≤ room := by
  induction rounds generalizing left c firstSign with
  | nil =>
    cases h
    subst hsign hfirst
    exact ⟨.last first, rfl, hdepth⟩
  | cons round rounds ih =>
    cases hop : c.operator? tier with
    | none =>
      rw [seriesRest_of_end hop] at h
      cases h
      subst hsign hfirst
      exact ⟨.last first, rfl, hdepth⟩
    | some op =>
      obtain ⟨ht, rest, hr⟩ := Cursor.operator?_eq_some_iff.mp hop
      cases hread : operand c.advance with
      | error stop => simp [Reading.seriesRest, hop, hread] at h
      | ok read =>
        obtain ⟨right, next⟩ := read
        rw [seriesRest_of_operator hop hread] at h
        obtain ⟨second, htokens, hsecond⟩ := ho hread _ rfl
        have hadvance : rest = second.tokens ++ next.rest := by
          rw [← htokens, Cursor.advance_rest, hr, List.tail_cons]
        have hlen : next.rest.length ≤ rounds.length := by
          rw [hr, hadvance] at hrounds
          simp only [List.length_cons, List.length_append] at hrounds
          omega
        obtain ⟨d, hd, hdd⟩ := ih h hlen second rfl hsecond
        rw [hr, startsWithSign_token, ht] at hfirst
        subst hfirst
        refine ⟨.join first op (Tier.mem_operators_iff.mpr ht) d, ?_, Nat.max_le.mpr ⟨hdepth, hdd⟩⟩
        rw [Derivation.tokens, List.append_assoc, List.cons_append, hd, ← hadvance, hr]

theorem Derives.series {tier : Tier} {operand : Reading φ} {room' : Nat}
    (ho : Derives library tier.operand room operand) :
    Derives library (.series tier) room (series tier room' operand) := by
  intro c tree last h sign hsign
  obtain ⟨first, next, hfirst, hrest, -⟩ := series_eq_ok_iff.mp h
  obtain ⟨x, htokens, hx⟩ := ho hfirst _ rfl
  obtain ⟨d, hd, hdd⟩ := ho.seriesRest _ hrest (Nat.le_refl _) x rfl hx hsign
  exact ⟨d, htokens.trans hd.symm, hdd⟩

theorem Derives.argumentsRest {argument : Reading φ} {outer : Nat}
    (ha : Derives library (.series .additive) room argument) (rounds : List String)
    {done args : List (Expr φ)} {c last : Cursor}
    (h : argumentsRest outer argument rounds done c = .ok (args, last)) :
    ∃ d : Derivation library .argumentList false,
      c.rest = d.tokens ++ ")" :: last.rest ∧ d.depth ≤ room := by
  induction rounds generalizing done c with
  | nil => cases h
  | cons round rounds ih =>
    obtain ⟨tree, next, rest, hread, ⟨hr, hnext⟩ | ⟨hr, -, rfl⟩⟩ :=
      argumentsRest_cons_eq_ok_iff.mp h
    · obtain ⟨x, htokens, hx⟩ := ha hread false (by rw [hr, startsWithSign_comma])
      obtain ⟨d, hd, hdd⟩ := ih hnext
      refine ⟨.more x d, ?_, Nat.max_le.mpr ⟨hx, hdd⟩⟩
      rw [Cursor.advance_rest, hr, List.tail_cons] at hd
      rw [htokens, hr, hd]
      simp [Derivation.tokens]
    · obtain ⟨x, htokens, hx⟩ := ha hread false (by rw [hr, startsWithSign_closing])
      refine ⟨.one x, ?_, hx⟩
      rw [Cursor.advance_rest, hr, List.tail_cons, htokens, hr]
      rfl

theorem Derives.arguments {argument : Reading φ} {outer : Nat}
    (ha : Derives library (.series .additive) room argument) {args : List (Expr φ)}
    {c last : Cursor} (h : arguments outer argument c = .ok (args, last)) :
    ∃ d : Derivation library .arguments false,
      c.rest = d.tokens ++ ")" :: last.rest ∧ d.depth ≤ room := by
  unfold Reading.arguments at h
  split at h
  next hk =>
    obtain ⟨rest, hr⟩ := Cursor.kind?_eq_closing_iff.mp hk
    cases h
    refine ⟨.noArguments, ?_, Nat.zero_le _⟩
    rw [Cursor.advance_rest, hr]
    rfl
  next =>
    obtain ⟨d, hd, hdd⟩ := ha.argumentsRest _ h
    exact ⟨.someArguments d, hd, hdd⟩

/-- A factor is derived if what stands inside its parentheses is. -/
theorem Derives.factorWith {inner? : Option (Reading φ)}
    (hi : ∀ inner ∈ inner?,
      0 < room ∧ Derives library (.series .additive) (room - 1) inner) :
    Derives library .factor room (factorWith library room inner?) := by
  intro c tree last h sign hsign
  cases factorWith_cases h with
  | @numeral token rest tokens isNumeral =>
    refine ⟨.numeral token isNumeral, ?_, Nat.zero_le _⟩
    rw [Cursor.advance_rest, tokens]
    rfl
  | zero hs =>
    rw [hs] at hsign
    subst hsign
    exact ⟨.zero, rfl, Nat.zero_le _⟩
  | @group rest last tokens read =>
    obtain ⟨inner, next, rest', hinner, hread, hnext, rfl⟩ := group_eq_ok_iff.mp read
    obtain ⟨hroom, hderives⟩ := hi inner hinner
    obtain ⟨d, hd, hdd⟩ := hderives hread false (by rw [hnext, startsWithSign_closing])
    refine ⟨.group d, ?_, by rw [Derivation.depth]; omega⟩
    rw [Cursor.advance_rest, tokens, List.tail_cons] at hd
    rw [Cursor.advance_rest, hnext, tokens, hd, hnext]
    simp [Derivation.tokens]
  | @call name rest f last tokens isName isRegistered read =>
    obtain ⟨_, rest', _, inner, args, hr', hf', hinner, hargs, -⟩ := callWith_eq_ok_iff.mp read
    rw [tokens, List.cons.injEq] at hr'
    obtain ⟨rfl, rfl⟩ := hr'
    obtain ⟨hroom, hderives⟩ := hi inner hinner
    obtain ⟨d, hd, hdd⟩ := hderives.arguments hargs
    refine ⟨.call name f isName isRegistered d, ?_, by rw [Derivation.depth]; omega⟩
    simp only [Cursor.advance_rest, tokens, List.tail_cons] at hd
    rw [tokens, hd]
    simp [Derivation.tokens]
  | @var name last tokens isName isFree =>
    exact ⟨.var name isName isFree, tokens, Nat.zero_le _⟩

theorem derives_ofLevel (library : Library φ) (room : Nat) (level : Level) :
    Derives library level room (ofLevel library room level) := by
  refine Level.induction (P := fun room level =>
    Derives library level room (ofLevel library room level)) ?_ ?_ room level
  · intro room hinner
    refine .factorWith ?_
    intro inner hin
    obtain ⟨deeper, rfl, rfl⟩ := inside?_eq_some_iff.mp hin
    exact ⟨Nat.succ_pos _, hinner deeper rfl⟩
  · intro room tier hoperand
    rw [ofLevel_series]
    exact hoperand.series

end Reading

end FormulaEngine
