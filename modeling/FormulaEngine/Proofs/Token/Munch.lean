import FormulaEngine.Proofs.Token.Lexeme

/-! The tokens of a text are cut off by the longest match. Blanks are taken out first; then
the longest beginning that is a token is cut off, again and again. The scan decides with
each character whether to go on, which is the same because whatever a token begins with is
a token: where the pending token cannot go on by one character, it cannot go on at all. -/

namespace FormulaEngine

open Token

/-- The characters of a text but the blanks. -/
def unblanked (text : String) : List Char := text.toList.filter fun c => !isBlank c

namespace Token

/-- The longest token that characters begin with. -/
structure Longest (token cs : List Char) : Prop where
  ne_nil : token ≠ []
  begins : token <+: cs
  isLexeme : IsLexeme token
  longest : ∀ other, other ≠ [] → other <+: cs → IsLexeme other → other.length ≤ token.length

theorem Longest.unique {token other cs : List Char} (h : Longest token cs)
    (h' : Longest other cs) : token = other := by
  have hle := h.longest other h'.ne_nil h'.begins h'.isLexeme
  have hge := h'.longest token h.ne_nil h.begins h.isLexeme
  have hlength : token.length = other.length := Nat.le_antisymm hge hle
  rw [List.prefix_iff_eq_take.mp h.begins, List.prefix_iff_eq_take.mp h'.begins, hlength]

/-- The longest token is cut off until nothing is left. -/
inductive Munch : List Char → List String → Prop
  | nil : Munch [] []
  | cut {cs rest : List Char} {token : String} {tokens : List String}
      (isLongest : Longest token.toList cs) (isRest : cs = token.toList ++ rest)
      (munched : Munch rest tokens) : Munch cs (token :: tokens)

namespace Munch

variable {cs : List Char} {tokens tokens' : List String}

theorem unique (h : Munch cs tokens) (h' : Munch cs tokens') : tokens = tokens' := by
  induction h generalizing tokens' with
  | nil =>
    cases h' with
    | nil => rfl
    | cut isLongest => exact absurd (List.prefix_nil.mp isLongest.begins) isLongest.ne_nil
  | @cut cs rest token tokens isLongest isRest munched ih =>
    cases h' with
    | nil => exact absurd (List.prefix_nil.mp isLongest.begins) isLongest.ne_nil
    | @cut _ rest' token' tokens' isLongest' isRest' munched' =>
      obtain rfl := String.toList_inj.mp (isLongest.unique isLongest')
      obtain rfl := List.append_cancel_left (isRest.symm.trans isRest')
      rw [ih munched']

theorem flatMap_toList (h : Munch cs tokens) : tokens.flatMap String.toList = cs := by
  induction h with
  | nil => rfl
  | cut isLongest isRest munched ih => rw [List.flatMap_cons, ih, isRest]

theorem isLexeme (h : Munch cs tokens) {token : String} (ht : token ∈ tokens) :
    IsLexeme token.toList := by
  induction h with
  | nil => cases ht
  | cut isLongest isRest munched ih =>
    rcases List.mem_cons.mp ht with rfl | ht
    · exact isLongest.isLexeme
    · exact ih ht

end Munch

theorem IsLexeme.ne_nil {cs : List Char} (h : IsLexeme cs) : cs ≠ [] := by
  rintro rfl
  cases h with
  | numeral isNumeral => cases isNumeral
  | word isWord => exact isWord.ne_nil rfl

/-- A token that cannot go on by the next character is the longest one. -/
theorem longest_of_not_isLexeme {token rest : List Char} {c : Char} (h : IsLexeme token)
    (hno : ¬IsLexeme (token ++ [c])) : Longest token (token ++ c :: rest) where
  ne_nil := h.ne_nil
  begins := List.prefix_append _ _
  isLexeme := h
  longest other _ hother hlexeme := by
    by_contra hlt
    have hbegin : token ++ [c] <+: other := by
      refine List.prefix_of_prefix_length_le ?_ hother ?_
      · exact (List.prefix_append_right_inj token).mpr (List.prefix_append [c] rest)
      · rw [List.length_append, List.length_singleton]
        omega
    exact hno (hlexeme.beginning (by simp) hbegin)

theorem longest_self {token : List Char} (h : IsLexeme token) : Longest token token where
  ne_nil := h.ne_nil
  begins := List.prefix_refl _
  isLexeme := h
  longest _ _ hother _ := hother.length_le

namespace Scan

/-- Blanks may be taken out beforehand. -/
theorem foldl_step_filter (cs : List Char) (scan : Scan) :
    cs.foldl step scan = (cs.filter fun c => !isBlank c).foldl step scan := by
  induction cs generalizing scan with
  | nil => rfl
  | cons c cs ih =>
    rw [List.foldl_cons, ih]
    cases hblank : isBlank c with
    | true =>
      have hstep : step scan c = scan := if_pos hblank
      rw [hstep, List.filter_cons_of_neg (by simp [hblank])]
    | false => rw [List.filter_cons_of_pos (by simp [hblank]), List.foldl_cons]

/-- From a pending token on, what is still to be read is cut up together with it. -/
theorem munch_pending {cs : List Char} (hblank : ∀ c ∈ cs, isBlank c = false) {shape : Shape}
    {pending : String} (h : shape.Describes pending.toList) (completed : Array String) :
    ∃ tokens, (cs.foldl step ⟨completed, some (shape, pending)⟩).tokens =
        completed.toList ++ tokens ∧ Munch (pending.toList ++ cs) tokens := by
  induction cs generalizing shape pending completed with
  | nil =>
    refine ⟨[pending], by simp [tokens], ?_⟩
    rw [List.append_nil]
    exact .cut (longest_self h.isLexeme) (List.append_nil _).symm .nil
  | cons c cs ih =>
    obtain ⟨hc, hcs⟩ := List.forall_mem_cons.mp hblank
    rw [List.foldl_cons]
    cases hextend : shape.extend? c with
    | some next =>
      have hstep : step ⟨completed, some (shape, pending)⟩ c =
          ⟨completed, some (next, pending.push c)⟩ := by
        simp [step, hc, hextend]
      have hnext : next.Describes (pending.push c).toList := by
        rw [String.toList_push]
        exact h.extend hextend
      obtain ⟨tokens, htokens, hmunch⟩ := ih hcs hnext completed
      rw [String.toList_push, List.append_assoc, List.singleton_append] at hmunch
      exact ⟨tokens, hstep ▸ htokens, hmunch⟩
    | none =>
      have hstep : step ⟨completed, some (shape, pending)⟩ c =
          ⟨completed.push pending, some (.ofChar c, String.singleton c)⟩ := by
        simp [step, hc, hextend]
      obtain ⟨tokens, htokens, hmunch⟩ :=
        ih hcs (Shape.describes_singleton c) (completed.push pending)
      rw [String.toList_singleton, List.singleton_append] at hmunch
      refine ⟨pending :: tokens, ?_, ?_⟩
      · rw [hstep, htokens, Array.toList_push, List.append_assoc, List.singleton_append]
      · exact .cut (longest_of_not_isLexeme h.isLexeme (h.not_isLexeme hextend)) rfl hmunch

end Scan

end Token

/-- One character of a text, when it is asked of the whole pending token whether the
character continues it. The pending token is empty only at the beginning. -/
def continuePending : Array String × String → Char → Array String × String
  | (completed, pending), c =>
    if isBlank c then (completed, pending)
    else if continues pending c then (completed, pending.push c)
    else (completed.push pending, String.singleton c)

/-- The tokens of a text by way of the whole pending tokens. -/
def tokenizeByPending (text : String) : List String :=
  let (completed, pending) := text.toList.foldl continuePending (#[], "")
  (if pending.isEmpty then completed else completed.push pending).toList

namespace Token.Scan

/-- The same completed tokens, and the same pending one with its shape. -/
inductive Tracks : Scan → Array String × String → Prop
  | start : Tracks {} (#[], "")
  | pending {completed : Array String} {shape : Shape} {text : String}
      (describes : shape.Describes text.toList) :
      Tracks ⟨completed, some (shape, text)⟩ (completed, text)

theorem Tracks.step {scan : Scan} {state : Array String × String} (h : Tracks scan state)
    (c : Char) : Tracks (scan.step c) (continuePending state c) := by
  unfold Scan.step
  cases hblank : isBlank c with
  | true =>
    rw [if_pos rfl, continuePending, if_pos hblank]
    exact h
  | false =>
    have hfirst := Shape.describes_singleton c
    cases h with
    | start =>
      have hcontinues : continues "" c = true := rfl
      simp only [continuePending, hblank, hcontinues, Bool.false_eq_true, if_false, if_true]
      exact .pending hfirst
    | @pending completed shape text describes =>
      have hsome := describes.isSome_extend? c
      simp only [continuePending, hblank, ← hsome, Bool.false_eq_true, if_false]
      cases hextend : shape.extend? c with
      | none => exact .pending hfirst
      | some next =>
        refine .pending ?_
        rw [String.toList_push]
        exact describes.extend hextend

end Token.Scan

/-- The shapes of pending tokens are enough to cut up a text. -/
theorem tokenize_eq_tokenizeByPending (text : String) : tokenize text = tokenizeByPending text := by
  have htracks (cs : List Char) {scan : Scan} {state : Array String × String}
      (h : Scan.Tracks scan state) :
      Scan.Tracks (cs.foldl Scan.step scan) (cs.foldl continuePending state) := by
    induction cs generalizing scan state with
    | nil => exact h
    | cons c cs ih => exact ih (h.step c)
  rw [tokenize, tokenizeByPending, String.foldl_eq_foldl_toList]
  have hend := htracks text.toList .start
  generalize text.toList.foldl Scan.step {} = scan at hend
  generalize text.toList.foldl continuePending (#[], "") = state at hend
  cases hend with
  | start => rfl
  | @pending completed shape pending describes =>
    simp [Scan.tokens, describes.isEmpty_eq_false]

theorem munch_tokenize (text : String) : Munch (unblanked text) (tokenize text) := by
  have hblank : ∀ c ∈ unblanked text, isBlank c = false := by simp [unblanked]
  rw [tokenize, String.foldl_eq_foldl_toList, Scan.foldl_step_filter]
  change Munch _ (List.foldl Scan.step {} (unblanked text)).tokens
  cases hcs : unblanked text with
  | nil => exact .nil
  | cons c cs =>
    rw [hcs] at hblank
    obtain ⟨hc, hcs⟩ := List.forall_mem_cons.mp hblank
    have hstep : Scan.step {} c = ⟨#[], some (.ofChar c, String.singleton c)⟩ := by
      simp [Scan.step, hc]
    obtain ⟨tokens, htokens, hmunch⟩ := Scan.munch_pending hcs (Shape.describes_singleton c) #[]
    rw [List.foldl_cons, hstep, htokens]
    rw [String.toList_singleton] at hmunch
    exact hmunch

namespace Token

theorem isName_iff {token : String} : isName token = true ↔ token.toList ≠ [] ∧
    isNumeralChars token.toList = false ∧
    ∀ c ∈ token.toList, isSymbolChar c = false ∧ isBlank c = false := by
  simp only [isName, isNumeral, Bool.and_eq_true, Bool.not_eq_true', List.isEmpty_eq_false_iff,
    List.all_eq_true, ne_eq, and_assoc]

/-- A token without blanks is of exactly one of the three sorts. -/
theorem IsLexeme.count_sorts {token : String} (h : IsLexeme token.toList)
    (hblank : ∀ c ∈ token.toList, isBlank c = false) :
    [isSymbol token, isNumeral token, isName token].count true = 1 := by
  have hsorts (a b c : Bool) (ha : isSymbol token = a) (hb : isNumeral token = b)
      (hc : isName token = c) (hcount : [a, b, c].count true = 1) :
      [isSymbol token, isNumeral token, isName token].count true = 1 := by
    rw [ha, hb, hc, hcount]
  generalize hcs : token.toList = cs at h
  cases h with
  | @symbol c hc =>
    have hnumeral : isNumeral token = false := by
      rw [isNumeral, hcs]
      exact isNumeralChars_eq_false (List.mem_singleton_self c) (not_isDigit_of_symbol hc)
    refine hsorts true false false (isSymbol_iff.mpr ⟨c, hcs, hc⟩) hnumeral ?_ rfl
    rw [Bool.eq_false_iff, ne_eq, isName_iff, hcs]
    simp [hc]
  | numeral hn =>
    have hnumeral : isNumeral token = true := by rw [isNumeral, hcs, hn]
    refine hsorts false true false ?_ hnumeral ?_ rfl
    · rw [Bool.eq_false_iff, ne_eq, isSymbol_iff, hcs]
      rintro ⟨c, rfl, hc⟩
      exact not_isDigit_of_symbol hc ((isNumeralChars_iff.mp hn).1 c (List.mem_singleton_self c))
    · rw [Bool.eq_false_iff, ne_eq, isName_iff, hcs]
      simp [hn]
  | word hw =>
    have hnumeral := hw.noNumeral cs hw.ne_nil (List.prefix_refl cs)
    refine hsorts false false true ?_ (by rw [isNumeral, hcs, hnumeral]) ?_ rfl
    · rw [Bool.eq_false_iff, ne_eq, isSymbol_iff, hcs]
      rintro ⟨c, rfl, hc⟩
      simp [hw.noSymbol c (List.mem_singleton_self c)] at hc
    · rw [isName_iff, hcs]
      exact ⟨hw.ne_nil, hnumeral, fun c hc => ⟨hw.noSymbol c hc, hblank c (hcs ▸ hc)⟩⟩

end Token

/-- The tokens of a text are what repeated cutting off of the longest token makes of the
text without its blanks, and nothing else is. So they run together to that text, none of
them is empty, and each is a symbol, a numeral or a name, and only one of these. Asking of
the whole pending token whether a character continues it gives the same tokens. -/
theorem tokenize_eq_iff_munch (text : String) :
    (∀ tokens, tokenize text = tokens ↔ Munch (unblanked text) tokens) ∧
    (String.join (tokenize text)).toList = unblanked text ∧
    (∀ token ∈ tokenize text,
      token ≠ "" ∧ [isSymbol token, isNumeral token, isName token].count true = 1) ∧
    tokenize text = tokenizeByPending text := by
  have hmunch := munch_tokenize text
  refine ⟨fun tokens => ?_, ?_, ?_, tokenize_eq_tokenizeByPending text⟩
  · constructor
    · rintro rfl
      exact hmunch
    · exact hmunch.unique
  · rw [String.toList_join, hmunch.flatMap_toList]
  · intro token ht
    have hlexeme := hmunch.isLexeme ht
    refine ⟨?_, hlexeme.count_sorts fun c hc => ?_⟩
    · rintro rfl
      exact hlexeme.ne_nil rfl
    · have hmem : c ∈ unblanked text := by
        rw [← hmunch.flatMap_toList]
        exact List.mem_flatMap_of_mem ht hc
      simpa [unblanked] using (List.mem_filter.mp hmem).2

/-- A point goes with digits behind it, but a second one does not. -/
theorem tokenize_eq_iff_munch_points :
    ".3" ∈ tokenize "1.2 .3*..4" ∧ ".3" ≠ "" ∧
      [isSymbol ".3", isNumeral ".3", isName ".3"].count true = 1 := by
  have hmem : ".3" ∈ tokenize "1.2 .3*..4" := by
    rw [tokenize, String.foldl_eq_foldl_toList]
    decide
  exact ⟨hmem, (tokenize_eq_iff_munch "1.2 .3*..4").2.2.1 ".3" hmem⟩

end FormulaEngine
