import FormulaEngine.Proofs.Grammar.Locality

/-! What a reading asks of the library. It looks up names that stand at the cursor and nothing
else, and the cursor never leaves the tokens that there were. So two libraries that have the
same function, or both none, under each of these tokens are as good as one: whatever is read,
be it a tree or an error, is read with both. -/

namespace FormulaEngine

open Token

namespace Reading

variable {α β : Type} {tokens : List String}

/-- On cursors before these tokens two steps do the same, and they do not leave the tokens. -/
structure Alike (tokens : List String) (step step' : Step α) : Prop where
  eq : ∀ ⦃c : Cursor⦄, c.rest ⊆ tokens → step c = step' c
  within : ∀ ⦃c : Cursor⦄ ⦃a : α⦄ ⦃next : Cursor⦄, c.rest ⊆ tokens → step c = .ok (a, next) →
    next.rest ⊆ tokens

theorem advance_within {c : Cursor} (h : c.rest ⊆ tokens) : c.advance.rest ⊆ tokens :=
  fun _ htoken => h (List.mem_of_mem_tail htoken)

theorem Alike.bind {step step' : Step α} (h : Alike tokens step step') {c : Cursor}
    (hc : c.rest ⊆ tokens) {next next' : α × Cursor → Except Stop β}
    (hnext : ∀ a last, last.rest ⊆ tokens → next (a, last) = next' (a, last)) :
    step c >>= next = step' c >>= next' := by
  rw [← h.eq hc]
  cases hstep : step c with
  | error stop => rfl
  | ok read => exact hnext read.1 read.2 (h.within hc hstep)

section Rules

variable {φ : Type} {tier : Tier} {room : Nat} {operand operand' argument argument' : Reading φ}
  {inner? inner?' : Option (Reading φ)} {c : Cursor}

theorem seriesRest_congr (h : Alike tokens operand operand') (hc : c.rest ⊆ tokens)
    (rounds : List String) (left : Expr φ) :
    seriesRest tier operand rounds left c = seriesRest tier operand' rounds left c := by
  induction rounds generalizing left c with
  | nil => rfl
  | cons round rounds ih =>
    rw [seriesRest_cons, seriesRest_cons]
    cases c.operator? tier with
    | none => rfl
    | some op => exact h.bind (advance_within hc) fun right last hlast => ih hlast _

theorem series_congr (h : Alike tokens operand operand') (hc : c.rest ⊆ tokens) :
    series tier room operand c = series tier room operand' c := by
  rw [series_eq, series_eq]
  refine h.bind hc fun first last hlast => ?_
  rw [seriesRest_congr h hlast]

theorem argumentsRest_congr (h : Alike tokens argument argument') (hc : c.rest ⊆ tokens)
    (rounds : List String) (done : List (Expr φ)) :
    argumentsRest room argument rounds done c = argumentsRest room argument' rounds done c := by
  induction rounds generalizing done c with
  | nil => rfl
  | cons round rounds ih =>
    rw [argumentsRest_cons, argumentsRest_cons]
    refine h.bind hc fun tree next hnext => ?_
    rw [ih (advance_within hnext)]

theorem arguments_congr (h : Alike tokens argument argument') (hc : c.rest ⊆ tokens) :
    arguments room argument c = arguments room argument' c := by
  rw [arguments, arguments, argumentsRest_congr h hc]

theorem group_congr (h : Option.Rel (Alike tokens) inner? inner?') (hc : c.rest ⊆ tokens) :
    group room inner? c = group room inner?' c := by
  cases h with
  | none => rfl
  | some h => exact h.bind (advance_within hc) fun tree next _ => rfl

variable [Callable φ] {library library' : Library φ}

theorem callWith_congr
    (hlibrary : ∀ token ∈ tokens, library.get? token = library'.get? token)
    (h : Option.Rel (Alike tokens) inner? inner?') (hc : c.rest ⊆ tokens) :
    callWith library room inner? c = callWith library' room inner?' c := by
  unfold callWith
  cases hr : c.rest with
  | nil => rfl
  | cons name rest =>
    have hname : name ∈ tokens := hc (by rw [hr]; exact List.mem_cons_self ..)
    simp only [← hlibrary name hname]
    cases library.get? name with
    | none => rfl
    | some f =>
      cases h with
      | none => rfl
      | some h =>
        cases hpass : c.advance.pass '(' (room - 1) with
        | error stop => rfl
        | ok opened =>
          obtain ⟨rest, -, rfl⟩ := Cursor.pass_opening_eq_ok_iff.mp hpass
          have hopened : c.advance.advance.rest ⊆ tokens := advance_within (advance_within hc)
          change arguments _ _ _ >>= _ = arguments _ _ _ >>= _
          rw [arguments_congr h hopened]

theorem factorWith_congr
    (hlibrary : ∀ token ∈ tokens, library.get? token = library'.get? token)
    (h : Option.Rel (Alike tokens) inner? inner?') (hc : c.rest ⊆ tokens) :
    factorWith library room inner? c = factorWith library' room inner?' c := by
  unfold factorWith
  cases hr : c.rest with
  | nil => rfl
  | cons token rest =>
    have htoken : token ∈ tokens := hc (by rw [hr]; exact List.mem_cons_self ..)
    simp only [Library.contains, ← hlibrary token htoken, group_congr h hc,
      callWith_congr hlibrary h hc]

/-- What is inside a group or call is read alike if it is at every level below. -/
theorem alike_inside? (h : ∀ deeper, deeper + 1 = room →
    Alike tokens (expression library deeper) (expression library' deeper)) :
    Option.Rel (Alike tokens) (inside? library room) (inside? library' room) := by
  cases room with
  | zero => exact .none
  | succ deeper => exact .some (h deeper rfl)

/-- A reading goes the same way with libraries that agree on the tokens before it. -/
theorem alike_ofLevel (hlibrary : ∀ token ∈ tokens, library.get? token = library'.get? token)
    (room : Nat) (level : Level) :
    Alike tokens (ofLevel library room level) (ofLevel library' room level) := by
  have hwithin (room : Nat) (level : Level) ⦃c : Cursor⦄ ⦃tree : Expr φ⦄ ⦃next : Cursor⦄
      (hc : c.rest ⊆ tokens) (h : ofLevel library room level c = .ok (tree, next)) :
      next.rest ⊆ tokens := by
    obtain ⟨taken, hr, -⟩ := (localAt_ofLevel library room level c).reaches h
    rw [hr] at hc
    exact List.Subset.trans (List.subset_append_right taken next.rest) hc
  refine Level.induction
    (P := fun room level => Alike tokens (ofLevel library room level) (ofLevel library' room level))
    ?_ ?_ room level
  · intro room hinner
    refine ⟨fun c hc => ?_, hwithin room .factor⟩
    rw [ofLevel_factor_eq, ofLevel_factor_eq]
    exact factorWith_congr hlibrary (alike_inside? hinner) hc
  · intro room tier hoperand
    refine ⟨fun c hc => ?_, hwithin room (.series tier)⟩
    rw [ofLevel_series, ofLevel_series]
    exact series_congr hoperand hc

end Rules

end Reading

end FormulaEngine
