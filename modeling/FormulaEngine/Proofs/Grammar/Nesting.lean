import FormulaEngine.Proofs.Grammar.Derivation

/-! How deep a list of tokens is nested can be told without deriving it: by counting
parentheses from the left. What is derived closes all that it opens, so a list put
together from derived pieces is nested as deep as the deepest of them, and a pair of
parentheses around one adds a level. For the tokens of a derivation the count is the
depth of the derivation. -/

namespace FormulaEngine

open Token

/-- After any number of tokens, no more than so many parentheses are open. -/
def OpenAtMost (limit : Nat) (tokens : List String) : Prop :=
  ∀ n, (tokens.take n).count "(" ≤ (tokens.take n).count ")" + limit

/-- Only the beginnings that are no longer than the tokens count. -/
theorem openAtMost_iff_forall_lt {limit : Nat} {tokens : List String} :
    OpenAtMost limit tokens ↔ ∀ n < tokens.length + 1,
      (tokens.take n).count "(" ≤ (tokens.take n).count ")" + limit := by
  constructor
  · intro h n _
    exact h n
  · intro h n
    have hn := h (min n tokens.length) (by omega)
    rwa [← List.take_eq_take_min] at hn

instance (limit : Nat) (tokens : List String) : Decidable (OpenAtMost limit tokens) :=
  decidable_of_iff _ openAtMost_iff_forall_lt.symm

/-- As many parentheses are closed as are opened. -/
def Balanced (tokens : List String) : Prop := tokens.count "(" = tokens.count ")"

namespace Balanced

theorem nil : Balanced [] := rfl

/-- A token that is no parenthesis. -/
theorem singleton {token : String} (ho : kind token ≠ .opening) (hc : kind token ≠ .closing) :
    Balanced [token] := by
  have ho' : token ≠ "(" := fun h => ho (kind_eq_opening_iff.mpr h)
  have hc' : token ≠ ")" := fun h => hc (kind_eq_closing_iff.mpr h)
  rw [Balanced, List.count_singleton, List.count_singleton, if_neg (by simpa using ho'),
    if_neg (by simpa using hc')]

theorem append {xs ys : List String} (hx : Balanced xs) (hy : Balanced ys) :
    Balanced (xs ++ ys) := by
  rw [Balanced, List.count_append, List.count_append, hx, hy]

/-- Balanced tokens do not count for those behind them. -/
theorem count_append {xs ys : List String} {n : Nat} (hx : Balanced xs)
    (hy : ys.count "(" = ys.count ")" + n) :
    (xs ++ ys).count "(" = (xs ++ ys).count ")" + n := by
  rw [List.count_append, List.count_append, hy, hx, Nat.add_assoc]

theorem operator (op : Operator) : Balanced [op.token] := singleton (by simp) (by simp)

theorem numeral {token : String} (h : kind token = .numeral) : Balanced [token] :=
  singleton (by simp [h]) (by simp [h])

theorem name {token : String} (h : kind token = .name) : Balanced [token] :=
  singleton (by simp [h]) (by simp [h])

theorem comma : Balanced [","] := rfl

theorem parentheses {tokens : List String} (h : Balanced tokens) :
    Balanced ("(" :: (tokens ++ [")"])) := by
  unfold Balanced at h ⊢
  simp [h]

end Balanced

namespace OpenAtMost

variable {limit : Nat}

theorem nil : OpenAtMost limit [] := by
  intro n
  simp

/-- Balanced tokens leave nothing open for the tokens behind them. -/
theorem append_iff {xs ys : List String} (hx : Balanced xs) :
    OpenAtMost limit (xs ++ ys) ↔ OpenAtMost limit xs ∧ OpenAtMost limit ys := by
  constructor
  · intro h
    constructor
    · intro n
      have hn := h (min n xs.length)
      rwa [List.take_append_of_le_length (Nat.min_le_right ..), ← List.take_eq_take_min] at hn
    · intro n
      have hn := h (xs.length + n)
      rw [List.take_length_add_append, List.count_append, List.count_append] at hn
      unfold Balanced at hx
      omega
  · rintro ⟨hxs, hys⟩ n
    have hn := hxs n
    have hm := hys (n - xs.length)
    rw [List.take_append, List.count_append, List.count_append]
    rcases Nat.le_total n xs.length with hle | hle
    · rw [Nat.sub_eq_zero_of_le hle, List.take_zero]
      simpa using hn
    · rw [List.take_of_length_le hle]
      unfold Balanced at hx
      omega

theorem cons_iff {token : String} {rest : List String} (h : Balanced [token]) :
    OpenAtMost limit (token :: rest) ↔ OpenAtMost limit rest := by
  have htoken : OpenAtMost limit [token] := by
    intro n
    cases n with
    | zero => simp
    | succ n =>
      rw [List.take_succ_cons, List.take_nil, h]
      exact Nat.le_add_right ..
  rw [← List.singleton_append, append_iff h]
  exact and_iff_right htoken

/-- Behind a parenthesis one level less is left. -/
theorem opening_iff {rest : List String} :
    OpenAtMost limit ("(" :: rest) ↔ 0 < limit ∧ OpenAtMost (limit - 1) rest := by
  have hstep (n : Nat) : (("(" :: rest).take (n + 1)).count "(" = (rest.take n).count "(" + 1 ∧
      (("(" :: rest).take (n + 1)).count ")" = (rest.take n).count ")" := by
    rw [List.take_succ_cons]
    exact ⟨List.count_cons_self, List.count_cons_of_ne (by decide)⟩
  constructor
  · intro h
    have hone := h 1
    rw [(hstep 0).1, (hstep 0).2, List.take_zero, List.count_nil, List.count_nil] at hone
    refine ⟨by omega, ?_⟩
    intro n
    have hn := h (n + 1)
    rw [(hstep n).1, (hstep n).2] at hn
    omega
  · rintro ⟨hpos, h⟩ n
    cases n with
    | zero => simp
    | succ n =>
      have hn := h n
      rw [(hstep n).1, (hstep n).2]
      omega

theorem parentheses_iff {tokens : List String} (h : Balanced tokens) :
    OpenAtMost limit ("(" :: (tokens ++ [")"])) ↔
      0 < limit ∧ OpenAtMost (limit - 1) tokens := by
  have hclosing : OpenAtMost (limit - 1) [")"] := by
    intro n
    cases n <;> simp
  rw [opening_iff, append_iff h, and_iff_left hclosing]

end OpenAtMost

namespace Derivation

variable {φ : Type} [Callable φ] {library : Library φ}

theorem balanced {part : Part} {sign : Bool} (d : Derivation library part sign) :
    Balanced d.tokens := by
  induction d with
  | last operand ih => exact ih
  | join operand op isOfTier rest iho ihr => exact iho.append ((Balanced.operator op).append ihr)
  | numeral text isNumeral => exact .numeral isNumeral
  | var text isName => exact .name isName
  | zero => exact .nil
  | group inner ih => exact ih.parentheses
  | call text function isName isRegistered args ih =>
    exact (Balanced.name isName).append ih.parentheses
  | noArguments => exact .nil
  | someArguments list ih => exact ih
  | one argument ih => exact ih
  | more argument rest iha ihr => exact iha.append (Balanced.comma.append ihr)

/-- The depth of a derivation is how many parentheses of its tokens are open at most. -/
theorem depth_le_iff {part : Part} {sign : Bool} (d : Derivation library part sign)
    {limit : Nat} : d.depth ≤ limit ↔ OpenAtMost limit d.tokens := by
  induction d generalizing limit with
  | last operand ih => exact ih
  | join operand op isOfTier rest iho ihr =>
    rw [depth, tokens, OpenAtMost.append_iff operand.balanced,
      OpenAtMost.cons_iff (Balanced.operator op), Nat.max_le, iho, ihr]
  | numeral text isNumeral =>
    rw [depth, tokens, OpenAtMost.cons_iff (.numeral isNumeral)]
    exact iff_of_true (Nat.zero_le _) .nil
  | var text isName =>
    rw [depth, tokens, OpenAtMost.cons_iff (.name isName)]
    exact iff_of_true (Nat.zero_le _) .nil
  | zero => exact iff_of_true (Nat.zero_le _) .nil
  | group inner ih =>
    rw [depth, tokens, OpenAtMost.parentheses_iff inner.balanced, ← ih]
    omega
  | call text function isName isRegistered args ih =>
    rw [depth, tokens, OpenAtMost.cons_iff (.name isName),
      OpenAtMost.parentheses_iff args.balanced, ← ih]
    omega
  | noArguments => exact iff_of_true (Nat.zero_le _) .nil
  | someArguments list ih => exact ih
  | one argument ih => exact ih
  | more argument rest iha ihr =>
    rw [depth, tokens, OpenAtMost.append_iff argument.balanced,
      OpenAtMost.cons_iff Balanced.comma, Nat.max_le, iha, ihr]

end Derivation

end FormulaEngine
