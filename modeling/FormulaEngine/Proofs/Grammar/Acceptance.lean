import FormulaEngine.Grammar.Reader
import FormulaEngine.Library.Standard
import FormulaEngine.Proofs.Grammar.Soundness
import FormulaEngine.Proofs.Grammar.Unambiguity

/-! What a reader accepts as a whole expression: exactly the token lists of the
sentences that are no deeper than the nesting limit. The tree it gives is that of the
sentence, of which there is only one. -/

namespace FormulaEngine

open Token

variable {φ : Type} [Callable φ] {library : Library φ}

/-- A reader that succeeds goes on where the reading ended. -/
theorem Reader.read_eq_ok_iff {reader after : Reader φ} {phrase : Phrase} {tree : Expr φ} :
    reader.read phrase = (.ok tree, after) ↔
      ∃ last, Reading.ofPhrase reader.library reader.room phrase reader.cursor = .ok (tree, last) ∧
        after = { reader with cursor := last } := by
  unfold Reader.read
  cases Reading.ofPhrase reader.library reader.room phrase reader.cursor with
  | error stop => simp
  | ok read =>
    obtain ⟨tree', last⟩ := read
    constructor
    · rintro ⟨⟩
      exact ⟨last, rfl, rfl⟩
    · rintro ⟨_, ⟨⟩, rfl⟩
      rfl

/-- A reader that fails goes on where the reading stopped. -/
theorem Reader.read_eq_error_iff {reader after : Reader φ} {phrase : Phrase} {failure : Failure} :
    reader.read phrase = (.error failure, after) ↔
      ∃ stop, Reading.ofPhrase reader.library reader.room phrase reader.cursor = .error stop ∧
        failure = .atToken stop.cause reader.tokens (some stop.cursor.index) ∧
        after = { reader with cursor := stop.cursor, room := stop.room } := by
  unfold Reader.read
  cases Reading.ofPhrase reader.library reader.room phrase reader.cursor with
  | error stop => simp [eq_comm]
  | ok read => simp

/-- The tokens are read to their end as one expression. The table is the one known
beforehand, the later one is left behind. -/
def Accepts (library : Library φ) (tokens : List String) (table : Bindings) (tree : Expr φ)
    (later : Bindings) : Prop :=
  ∃ reader, (Reader.start library tokens table).read .expression = (.ok tree, reader) ∧
    reader.atEnd = true ∧ reader.cursor.bindings = later

/-- A reader begins with all its levels and reads the phrase from the first token on. -/
theorem accepts_iff {tokens : List String} {table later : Bindings} {tree : Expr φ} :
    Accepts library tokens table tree later ↔
      ∃ last : Cursor, Reading.expression library nestingLimit ⟨0, tokens, table⟩ =
        .ok (tree, last) ∧ last.rest = [] ∧ last.bindings = later := by
  have hphrase : Reading.ofPhrase library nestingLimit .expression =
      Reading.expression library nestingLimit := rfl
  unfold Accepts Reader.read
  simp only [Reader.start, hphrase]
  cases Reading.expression library nestingLimit ⟨0, tokens, table⟩ with
  | error stop => simp
  | ok read =>
    obtain ⟨tree', last⟩ := read
    constructor
    · rintro ⟨reader, hread, hend, hlater⟩
      cases hread
      exact ⟨last, rfl, List.isEmpty_iff.mp hend, hlater⟩
    · rintro ⟨_, hread, hend, hlater⟩
      cases hread
      exact ⟨_, rfl, List.isEmpty_iff.mpr hend, hlater⟩

/-- A reader fails where the reading stops. -/
theorem read_eq_error_iff {tokens : List String} {table : Bindings} {failure : Failure} :
    (∃ reader, (Reader.start library tokens table).read .expression = (.error failure, reader)) ↔
      ∃ stop : Stop, Reading.expression library nestingLimit ⟨0, tokens, table⟩ = .error stop ∧
        failure = .atToken stop.cause tokens (some stop.cursor.index) := by
  have hphrase : Reading.ofPhrase library nestingLimit .expression =
      Reading.expression library nestingLimit := rfl
  unfold Reader.read
  simp only [Reader.start, hphrase]
  cases Reading.expression library nestingLimit ⟨0, tokens, table⟩ with
  | error stop => simp [eq_comm]
  | ok read => simp

/-- Whatever an expression is read from, with the tokens that are left behind it. -/
theorem Reading.derived_of_expression {room index : Nat} {tokens : List String} {table : Bindings}
    {tree : Expr φ} {last : Cursor}
    (h : expression library room ⟨index, tokens, table⟩ = .ok (tree, last)) :
    ∃ d : Sentence library, tokens = d.tokens ++ last.rest ∧ d.depth ≤ room ∧
      (Level.series .additive).Fits false last.rest ∧ tree = d.tree last.bindings.indexOf index ∧
      last = d.behind index table last.rest := by
  have hlevel : ofLevel library room (.series .additive) ⟨index, tokens, table⟩ =
      .ok (tree, last) := h
  have hnext := mayPrecede_of_ofLevel hlevel
  have hsign := startsWithSign_eq_false hnext
  have hfits : (Level.series .additive).Fits false last.rest := ⟨nofun, hnext⟩
  obtain ⟨d, htokens, hdepth⟩ := derives_ofLevel library room (.series .additive) h false hsign
  have hread := d.isRead.levelRead room index table _ last.rest hdepth hfits (.refl _)
  obtain rfl : tokens = d.tokens ++ last.rest := htokens
  have heq := h.symm.trans hread
  injection heq with hpair
  obtain ⟨rfl, hlast⟩ := Prod.mk.inj hpair
  refine ⟨d, rfl, hdepth, hfits, ?_, hlast⟩
  rw [hlast]
  rfl

namespace Derivation

/-- Every sentence within the nesting limit is accepted. -/
theorem accepts (d : Sentence library) (hdepth : d.depth ≤ nestingLimit) (table : Bindings) :
    Accepts library d.tokens table (d.tree (table.internAll d.uses).indexOf 0)
      (table.internAll d.uses) := by
  have hread := d.isRead.levelRead nestingLimit 0 table _ [] hdepth (.nil _) (.refl _)
  rw [List.append_nil] at hread
  exact accepts_iff.mpr ⟨_, hread, rfl, rfl⟩

theorem tokens_injective {d d' : Sentence library} (h : d.tokens = d'.tokens) : d = d' :=
  eq_of_tokens_eq d d' (Level.Fits.nil _) h

end Derivation

namespace Accepts

variable {tokens : List String} {table later : Bindings} {tree : Expr φ}

theorem exists_sentence (h : Accepts library tokens table tree later) :
    ∃ d : Sentence library, d.tokens = tokens ∧ d.depth ≤ nestingLimit := by
  obtain ⟨last, hread, hend, -⟩ := accepts_iff.mp h
  have hsign : startsWithSign last.rest = false := by rw [hend]; rfl
  obtain ⟨d, htokens, hdepth⟩ :=
    Reading.derives_ofLevel library nestingLimit (.series .additive) hread false hsign
  rw [hend, List.append_nil] at htokens
  exact ⟨d, htokens.symm, hdepth⟩

/-- What is accepted does not depend on the variables known beforehand. -/
theorem withTable (h : Accepts library tokens table tree later) (table' : Bindings) :
    ∃ tree' later', Accepts library tokens table' tree' later' := by
  obtain ⟨d, rfl, hdepth⟩ := h.exists_sentence
  exact ⟨_, _, d.accepts hdepth table'⟩

theorem unique (h : Accepts library tokens table tree later) {tree' : Expr φ} {later' : Bindings}
    (h' : Accepts library tokens table tree' later') : tree = tree' ∧ later = later' := by
  obtain ⟨reader, hread, -, rfl⟩ := h
  obtain ⟨reader', hread', -, rfl⟩ := h'
  rw [hread] at hread'
  cases hread'
  exact ⟨rfl, rfl⟩

/-- The sentence behind an accepted list of tokens, with all that it tells. -/
theorem sentence (h : Accepts library tokens table tree later) :
    ∃ d : Sentence library, d.tokens = tokens ∧ d.depth ≤ nestingLimit ∧
      tree = d.tree later.indexOf 0 ∧ later = table.internAll d.uses := by
  obtain ⟨d, rfl, hdepth⟩ := h.exists_sentence
  obtain ⟨rfl, rfl⟩ := h.unique (d.accepts hdepth table)
  exact ⟨d, rfl, hdepth, rfl, rfl⟩

end Accepts

/-- A list of tokens is accepted exactly if it is derived within the nesting limit. The
derivation is then the only one of these tokens, the tree is the left fold that it
means, with every node but the unwritten zeros at its token, and its variables are
those of the table left behind, which is the table before with the names of the
derivation in it. -/
theorem accepts_iff_derived (library : Library φ) (table : Bindings) (tokens : List String) :
    ((∃ tree later, Accepts library tokens table tree later) ↔
      ∃ d : Sentence library, d.tokens = tokens ∧ d.depth ≤ nestingLimit) ∧
    ∀ tree later, Accepts library tokens table tree later →
      ∃ d : Sentence library, d.tokens = tokens ∧ d.depth ≤ nestingLimit ∧
        (∀ d' : Sentence library, d'.tokens = tokens → d' = d) ∧
        tree = d.tree later.indexOf 0 ∧ later = table.internAll d.uses := by
  constructor
  · constructor
    · rintro ⟨tree, later, h⟩
      exact h.exists_sentence
    · rintro ⟨d, rfl, hdepth⟩
      exact ⟨_, _, d.accepts hdepth table⟩
  · intro tree later h
    obtain ⟨d, htokens, hdepth, htree, hlater⟩ := h.sentence
    refine ⟨d, htokens, hdepth, ?_, htree, hlater⟩
    intro d' hd'
    exact Derivation.tokens_injective (hd'.trans htokens.symm)

/-- The zero before a sign is a term of its own. -/
theorem accepts_iff_derived_max :
    ∃ tree later, Accepts (.ofList [ElementaryFunction.max])
        ["-", "x", "*", "max", "(", "y", ",", "(", "2", ")", ")"] .empty tree later ∧
      ∃ d : Sentence (.ofList [ElementaryFunction.max]),
        d.tokens = ["-", "x", "*", "max", "(", "y", ",", "(", "2", ")", ")"] ∧
        tree = d.tree later.indexOf 0 := by
  have haccepts : Accepts (.ofList [ElementaryFunction.max])
      ["-", "x", "*", "max", "(", "y", ",", "(", "2", ")", ")"] .empty _ _ := ⟨_, rfl, rfl, rfl⟩
  obtain ⟨d, htokens, -, -, htree, -⟩ := (accepts_iff_derived _ _ _).2 _ _ haccepts
  exact ⟨_, _, haccepts, d, htokens, htree⟩

end FormulaEngine
