import FormulaEngine.Proofs.Grammar.Stopping

/-! What a stopped reading has taken so far is the beginning of something derived. A missing
operand is completed by a numeral, a missing parenthesis by itself, and what is complete
already by nothing. The completion opens no level but those that the reading has opened,
so it is no deeper than the levels that were left. -/

namespace FormulaEngine

open Token

namespace Reading

variable {φ : Type} [Callable φ]

/-- The tokens from the one cursor to the other begin a derivation within the levels left. -/
def Viable (library : Library φ) (part : Part) (room : Nat) (c stopped : Cursor) : Prop :=
  ∃ (taken more : List String) (d : Derivation library part false),
    c.rest = taken ++ stopped.rest ∧ d.tokens = taken ++ more ∧ d.depth ≤ room

namespace Viable

variable {library : Library φ} {room : Nat} {tier : Tier} {c next stopped : Cursor}

/-- Where nothing has been taken a numeral can follow. -/
theorem operand (c : Cursor) : Viable library (.level .factor) room c c :=
  ⟨[], ["0"], .numeral "0" (by decide), rfl, rfl, Nat.zero_le _⟩

/-- What is complete is completed by nothing. -/
theorem complete {part : Part} (d : Derivation library part false)
    (hc : c.rest = d.tokens ++ stopped.rest) (hdepth : d.depth ≤ room) :
    Viable library part room c stopped :=
  ⟨d.tokens, [], d, hc, (List.append_nil _).symm, hdepth⟩

theorem last (h : Viable library (.level tier.operand) room c stopped) :
    Viable library (.level (.series tier)) room c stopped := by
  obtain ⟨taken, more, d, hc, hd, hdepth⟩ := h
  exact ⟨taken, more, .last d, hc, hd, hdepth⟩

/-- An operand has been read, and the operator of the tier behind it. -/
theorem join {tree : Expr φ} (hread : ofLevel library room tier.operand c = .ok (tree, next))
    {op : Operator} (hop : next.operator? tier = some op)
    (h : Viable library (.level (.series tier)) room next.advance stopped) :
    Viable library (.level (.series tier)) room c stopped := by
  obtain ⟨ht, rest, hr⟩ := Cursor.operator?_eq_some_iff.mp hop
  obtain ⟨operand, hc, hoperand⟩ := derives_ofLevel library room _ hread tier.isSign
    (by rw [hr, startsWithSign_token, ht])
  obtain ⟨taken, more, d, hnext, hd, hdepth⟩ := h
  rw [Cursor.advance_rest, hr, List.tail_cons] at hnext
  refine ⟨operand.tokens ++ op.token :: taken, more,
    .join operand op (Tier.mem_operators_iff.mpr ht) d, ?_, ?_, Nat.max_le.mpr ⟨hoperand, hdepth⟩⟩
  · simp [hc, hr, hnext]
  · simp [Derivation.tokens, hd]

theorem one (h : Viable library (.level (.series .additive)) room c stopped) :
    Viable library .argumentList room c stopped := by
  obtain ⟨taken, more, d, hc, hd, hdepth⟩ := h
  exact ⟨taken, more, .one d, hc, hd, hdepth⟩

/-- An argument has been read, and the comma behind it. -/
theorem more {tree : Expr φ}
    (hread : ofLevel library room (.series .additive) c = .ok (tree, next)) {rest : List String}
    (hr : next.rest = "," :: rest) (h : Viable library .argumentList room next.advance stopped) :
    Viable library .argumentList room c stopped := by
  obtain ⟨argument, hc, hargument⟩ := derives_ofLevel library room _ hread false
    (by rw [hr, startsWithSign_comma])
  obtain ⟨taken, more, d, hnext, hd, hdepth⟩ := h
  rw [Cursor.advance_rest, hr, List.tail_cons] at hnext
  refine ⟨argument.tokens ++ "," :: taken, more, .more argument d, ?_, ?_,
    Nat.max_le.mpr ⟨hargument, hdepth⟩⟩
  · simp [hc, hr, hnext]
  · simp [Derivation.tokens, hd]

theorem someArguments (h : Viable library .argumentList room c stopped) :
    Viable library .arguments room c stopped := by
  obtain ⟨taken, more, d, hc, hd, hdepth⟩ := h
  exact ⟨taken, more, .someArguments d, hc, hd, hdepth⟩

theorem group {rest : List String} (hr : c.rest = "(" :: rest)
    (h : Viable library (.level (.series .additive)) room c.advance stopped) :
    Viable library (.level .factor) (room + 1) c stopped := by
  obtain ⟨taken, more, d, hc, hd, hdepth⟩ := h
  rw [Cursor.advance_rest, hr, List.tail_cons] at hc
  refine ⟨"(" :: taken, more ++ [")"], .group d, ?_, ?_, Nat.succ_le_succ hdepth⟩
  · rw [hr, hc, List.cons_append]
  · simp [Derivation.tokens, hd]

section Call

variable {name : String} {rest : List String} (hname : NamesFunction library name)

include hname

/-- The name of a function has been read. -/
theorem functionName (hr : c.rest = name :: stopped.rest) :
    Viable library (.level .factor) (room + 1) c stopped := by
  obtain ⟨f, hf⟩ := Option.isSome_iff_exists.mp hname.2
  exact ⟨[name], ["(", ")"], .call name f hname.1 hf .noArguments, hr, rfl,
    Nat.succ_le_succ (Nat.zero_le _)⟩

theorem call (hr : c.rest = name :: "(" :: rest)
    (h : Viable library .arguments room c.advance.advance stopped) :
    Viable library (.level .factor) (room + 1) c stopped := by
  obtain ⟨f, hf⟩ := Option.isSome_iff_exists.mp hname.2
  obtain ⟨taken, more, d, hc, hd, hdepth⟩ := h
  simp only [Cursor.advance_rest, hr, List.tail_cons] at hc
  refine ⟨name :: "(" :: taken, more ++ [")"], .call name f hname.1 hf d, ?_, ?_,
    Nat.succ_le_succ hdepth⟩
  · rw [hr, hc, List.cons_append, List.cons_append]
  · simp [Derivation.tokens, hd]

end Call

end Viable

/-- However the reading of a part stops, what it has taken can be completed. -/
theorem Stopped.viable {library : Library φ} {part : Part} {room : Nat} {c : Cursor} {stop : Stop}
    (h : Stopped library part room c stop) : Viable library part room c stop.cursor := by
  induction h with
  | operand => exact .operand _
  | tooDeep => exact .operand _
  | complete d tokens depth => exact .complete d tokens depth
  | functionName tokens isFunction => exact .functionName isFunction tokens
  | last operand ih => exact ih.last
  | join operand operator rest ih => exact .join operand operator ih
  | group tokens inner ih => exact .group tokens ih
  | call tokens isFunction args ih => exact .call isFunction tokens ih
  | someArguments list ih => exact ih.someArguments
  | one argument ih => exact ih.one
  | more argument comma list ih => exact .more argument comma ih

end Reading

end FormulaEngine
