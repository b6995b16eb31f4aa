import FormulaEngine.Proofs.Grammar.Loops

/-! How a reading comes to stop. It stops at the token that begins an operand, before a group
or a call for which no level is left, or behind something complete that does not go on as it
should, which includes the name of a function without a parenthesis. From there the stop is
passed on through all that has been opened and joined. Whatever holds of every stop is shown
along these ways. -/

namespace FormulaEngine

open Token

variable {φ : Type} [Callable φ]

/-- The limit that a cause names, if it is that no level is left. -/
def Cause.limit? : Cause → Option Nat
  | .tooDeep limit => some limit
  | _ => none

/-- The name of a function. -/
def Token.NamesFunction (library : Library φ) (text : String) : Prop :=
  kind text = .name ∧ library.contains text = true

namespace Reading

/-- The ways in which the reading of a part stops, with the levels that are left where it
begins. Only in one of them the cause is that no level is left. -/
inductive Stopped (library : Library φ) : Part → Nat → Cursor → Stop → Prop
  /-- No operand begins here. -/
  | operand {room : Nat} {c : Cursor} {cause : Cause} (noLimit : cause.limit? = none) :
      Stopped library (.level .factor) room c ⟨cause, c, room⟩
  /-- A level would begin here. -/
  | tooDeep {c : Cursor} {token : String} {rest : List String} (tokens : c.rest = token :: rest)
      (opens : token = "(" ∨ NamesFunction library token) :
      Stopped library (.level .factor) 0 c ⟨.tooDeep nestingLimit, c, 0⟩
  /-- Something complete does not go on as it should. -/
  | complete {part : Part} {room : Nat} {c : Cursor} {stop : Stop}
      (d : Derivation library part false) (tokens : c.rest = d.tokens ++ stop.cursor.rest)
      (depth : d.depth ≤ room) (noLimit : stop.cause.limit? = none) :
      Stopped library part room c stop
  | functionName {room : Nat} {c : Cursor} {stop : Stop} {name : String}
      (tokens : c.rest = name :: stop.cursor.rest) (isFunction : NamesFunction library name)
      (noLimit : stop.cause.limit? = none) :
      Stopped library (.level .factor) (room + 1) c stop
  | last {tier : Tier} {room : Nat} {c : Cursor} {stop : Stop}
      (operand : Stopped library (.level tier.operand) room c stop) :
      Stopped library (.level (.series tier)) room c stop
  | join {tier : Tier} {room : Nat} {c next : Cursor} {stop : Stop} {tree : Expr φ} {op : Operator}
      (operand : ofLevel library room tier.operand c = .ok (tree, next))
      (operator : next.operator? tier = some op)
      (rest : Stopped library (.level (.series tier)) room next.advance stop) :
      Stopped library (.level (.series tier)) room c stop
  | group {room : Nat} {c : Cursor} {stop : Stop} {rest : List String}
      (tokens : c.rest = "(" :: rest)
      (inner : Stopped library (.level (.series .additive)) room c.advance stop) :
      Stopped library (.level .factor) (room + 1) c stop
  | call {room : Nat} {c : Cursor} {stop : Stop} {name : String} {rest : List String}
      (tokens : c.rest = name :: "(" :: rest) (isFunction : NamesFunction library name)
      (args : Stopped library .arguments room c.advance.advance stop) :
      Stopped library (.level .factor) (room + 1) c stop
  | someArguments {room : Nat} {c : Cursor} {stop : Stop}
      (list : Stopped library .argumentList room c stop) : Stopped library .arguments room c stop
  | one {room : Nat} {c : Cursor} {stop : Stop}
      (argument : Stopped library (.level (.series .additive)) room c stop) :
      Stopped library .argumentList room c stop
  | more {room : Nat} {c next : Cursor} {stop : Stop} {tree : Expr φ} {rest : List String}
      (argument : ofLevel library room (.series .additive) c = .ok (tree, next))
      (comma : next.rest = "," :: rest)
      (list : Stopped library .argumentList room next.advance stop) :
      Stopped library .argumentList room c stop

/-- Every stop of a reading of the level comes about in one of these ways. -/
def Stops (library : Library φ) (room : Nat) (level : Level) : Prop :=
  ∀ ⦃c : Cursor⦄ ⦃stop : Stop⦄, ofLevel library room level c = .error stop →
    Stopped library (.level level) room c stop

namespace Stops

variable {library : Library φ} {room : Nat} {tier : Tier}

/-- The loop over operands stops behind an operator. -/
theorem seriesRest (ho : Stops library room tier.operand) {left : Expr φ} {c : Cursor}
    {stop : Stop}
    (h : seriesRest tier (ofLevel library room tier.operand) c.rest left c = .error stop) :
    ∃ op, c.operator? tier = some op ∧
      Stopped library (.level (.series tier)) room c.advance stop := by
  have hs := bounded_ofLevel library room tier.operand
  induction c using hs.induction_operand tier generalizing left with
  | round c ih =>
    rw [seriesRest_eq hs] at h
    cases hop : c.operator? tier with
    | none =>
      rw [hop] at h
      cases h
    | some op =>
      rw [hop] at h
      refine ⟨op, rfl, ?_⟩
      obtain herror | ⟨⟨right, next⟩, hread, hrest⟩ := bind_eq_error_iff.mp h
      · exact (ho herror).last
      · obtain ⟨op', hop', hstopped⟩ := ih hop hread hrest
        exact .join hread hop' hstopped

theorem series (ho : Stops library room tier.operand) : Stops library room (.series tier) := by
  intro c stop h
  rw [ofLevel_series, series_eq] at h
  obtain herror | ⟨⟨first, next⟩, hfirst, h⟩ := bind_eq_error_iff.mp h
  · exact (ho herror).last
  obtain herror | ⟨⟨tree, last⟩, hrest, hended⟩ := bind_eq_error_iff.mp h
  · obtain ⟨op, hop, hstopped⟩ := ho.seriesRest herror
    exact .join hfirst hop hstopped
  · have hop := operator?_of_seriesRest (bounded_ofLevel library room _) hrest
    have hsign := startsWithSign_of_ended hended hop
    obtain ⟨x, hc, hx⟩ := derives_ofLevel library room _ hfirst _ rfl
    obtain ⟨d, hd, hdepth⟩ := (derives_ofLevel library room _).seriesRest _ hrest (Nat.le_refl _)
      x rfl hx hsign
    obtain ⟨token, rest, -, -, rfl⟩ := ended_eq_error_iff.mp hended
    exact .complete d (hc.trans hd.symm) hdepth rfl

/-- The loop over arguments. -/
theorem argumentsRest (ha : Stops library room (.series .additive)) {done : List (Expr φ)}
    {c : Cursor} {stop : Stop}
    (h : argumentsRest room (ofLevel library room (.series .additive)) c.rest done c =
      .error stop) : Stopped library .argumentList room c stop := by
  have hs := bounded_ofLevel library room (.series .additive)
  induction c using hs.induction_argument generalizing done with
  | round c ih =>
    rw [argumentsRest_eq hs] at h
    obtain herror | ⟨⟨tree, next⟩, hread, hnext⟩ := bind_eq_error_iff.mp h
    · exact (ha herror).one
    unfold nextArgument at hnext
    split at hnext
    next hk =>
      obtain ⟨rest, hr⟩ := Cursor.kind?_eq_comma_iff.mp hk
      exact .more hread hr (ih hread hk hnext)
    next => cases hnext
    next =>
      cases hnext
      obtain ⟨d, hc, hdepth⟩ :=
        derives_ofLevel library room _ hread false (startsWithSign_of_expression hread)
      exact (Stopped.complete d hc hdepth rfl).one

theorem arguments (ha : Stops library room (.series .additive)) {c : Cursor} {stop : Stop}
    (h : arguments room (ofLevel library room (.series .additive)) c = .error stop) :
    Stopped library .arguments room c stop := by
  unfold Reading.arguments at h
  split at h
  next => cases h
  next => exact (ha.argumentsRest h).someArguments

theorem group (hi : Stops library room (.series .additive)) {c : Cursor} {stop : Stop}
    {rest : List String} (hr : c.rest = "(" :: rest)
    (h : group (room + 1) (some (ofLevel library room (.series .additive))) c = .error stop) :
    Stopped library (.level .factor) (room + 1) c stop := by
  refine .group hr ?_
  obtain herror | ⟨⟨tree, next⟩, hread, h⟩ := bind_eq_error_iff.mp h
  · exact hi herror
  obtain herror | ⟨last, -, h⟩ := bind_eq_error_iff.mp h
  · obtain ⟨d, hc, hdepth⟩ :=
      derives_ofLevel library room _ hread false (startsWithSign_of_expression hread)
    obtain ⟨-, rfl⟩ := Cursor.pass_eq_error_iff.mp herror
    exact .complete d hc hdepth rfl
  · cases h

theorem call (hi : Stops library room (.series .additive)) {c : Cursor} {stop : Stop}
    {name : String} {rest : List String} (hr : c.rest = name :: rest)
    (hname : NamesFunction library name)
    (h : callWith library (room + 1) (some (ofLevel library room (.series .additive))) c =
      .error stop) : Stopped library (.level .factor) (room + 1) c stop := by
  obtain ⟨f, hf⟩ := Option.isSome_iff_exists.mp hname.2
  simp only [callWith, hr, hf] at h
  obtain herror | ⟨opened, hopened, h⟩ := bind_eq_error_iff.mp h
  · obtain ⟨-, rfl⟩ := Cursor.pass_eq_error_iff.mp herror
    have htokens : c.rest = name :: c.advance.rest := by
      rw [Cursor.advance_rest, hr, List.tail_cons]
    exact .functionName htokens hname rfl
  obtain ⟨rest', hr', rfl⟩ := Cursor.pass_opening_eq_ok_iff.mp hopened
  rw [Cursor.advance_rest, hr, List.tail_cons] at hr'
  subst hr'
  obtain herror | ⟨⟨args, last⟩, -, h⟩ := bind_eq_error_iff.mp h
  · exact .call hr hname (hi.arguments herror)
  · cases h

theorem factor (hi : ∀ inner, inner + 1 = room → Stops library inner (.series .additive)) :
    Stops library room .factor := by
  intro c stop h
  rw [ofLevel_factor_eq] at h
  unfold factorWith at h
  cases hr : c.rest with
  | nil =>
    simp only [hr] at h
    cases h
    exact .operand rfl
  | cons token rest =>
    simp only [hr] at h
    cases hk : kind token with
    | operator op =>
      simp only [hk] at h
      split at h
      next => cases h
      next =>
        cases h
        exact .operand rfl
    | closing | comma =>
      simp only [hk] at h
      cases h
      exact .operand rfl
    | numeral =>
      simp only [hk] at h
      cases h
    | opening =>
      simp only [hk] at h
      rw [kind_eq_opening_iff] at hk
      cases room with
      | zero =>
        cases h
        exact .tooDeep hr (.inl hk)
      | succ room => exact (hi room rfl).group (hk ▸ hr) h
    | name =>
      simp only [hk] at h
      split at h
      next hf =>
        have hname : NamesFunction library token := ⟨hk, hf⟩
        cases room with
        | zero =>
          obtain ⟨f, hf⟩ := Option.isSome_iff_exists.mp hf
          simp only [callWith, hr, hf] at h
          cases h
          exact .tooDeep hr (.inr hname)
        | succ room => exact (hi room rfl).call hr hname h
      next =>
        split at h
        next =>
          cases h
          exact .operand rfl
        next => cases h

end Stops

theorem stops_ofLevel (library : Library φ) (room : Nat) (level : Level) :
    Stops library room level :=
  Level.induction (P := Stops library) (fun _ => .factor) (fun _ _ => .series) room level

end Reading

end FormulaEngine
