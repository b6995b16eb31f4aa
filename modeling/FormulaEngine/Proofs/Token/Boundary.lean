import FormulaEngine.Proofs.Token.Munch
import Mathlib.Tactic.TFAE

/-! Which lists of texts are the tokens of some text. Each of them has to be a token, and where
two of them meet, the first one must not go on by the first character of the second. Symbols
never go on and are never gone on with. A word goes on with all other characters, so there must
be a symbol behind it. Between a numeral and the token behind it, it comes down to whether the
numeral with one more character is a numeral. Such a list can be run together, with blanks
anywhere, and is cut up again as it was. -/

namespace FormulaEngine

open Token

namespace Token

/-- Two tokens that are cut apart where the second follows on the first. -/
def Separate (t u : String) : Prop :=
  isSymbol t = true ∨ isSymbol u = true ∨
    isNumeral t = true ∧ ∀ c ∈ u.toList.head?, isNumeral (t.push c) = false

instance (t u : String) : Decidable (Separate t u) :=
  -- there may be an instance that tries all characters
  have : Decidable (∀ c ∈ u.toList.head?, isNumeral (t.push c) = false) :=
    u.toList.head?.decidableForallMem
  inferInstanceAs (Decidable (_ ∨ _ ∨ _ ∧ _))

/-- A second point begins a numeral of its own, if the first numeral has one already. -/
example : Separate "1.2" ".3" ∧ ¬Separate "12" ".3" := by decide

section Separate

variable {t u : String}

/-- A token that begins with a symbol is this symbol. -/
theorem IsLexeme.isSymbol_of_head {c : Char} (h : IsLexeme u.toList) (hc : c ∈ u.toList.head?)
    (hsymbol : isSymbolChar c = true) : isSymbol u = true := by
  obtain ⟨rest, hrest⟩ := List.head?_eq_some_iff.mp hc
  cases rest with
  | nil => exact isSymbol_iff.mpr ⟨c, hrest, hsymbol⟩
  | cons d rest =>
    have hlength : 1 < u.toList.length := by simp [hrest]
    exact absurd h (not_isLexeme_of_symbol (by simp [hrest]) hsymbol hlength)

theorem not_isLexeme_of_separate (hne : t.toList ≠ []) (h : Separate t u) {c : Char}
    (hc : c ∈ u.toList.head?) : ¬IsLexeme (t.toList ++ [c]) := by
  have hlength : 1 < (t.toList ++ [c]).length := by
    have := List.length_pos_of_ne_nil hne
    rw [List.length_append, List.length_singleton]
    omega
  obtain ht | hu | ⟨ht, hpush⟩ := h
  · obtain ⟨d, hd, hsymbol⟩ := isSymbol_iff.mp ht
    exact not_isLexeme_of_symbol (by simp [hd]) hsymbol hlength
  · obtain ⟨d, hd, hsymbol⟩ := isSymbol_iff.mp hu
    obtain rfl : d = c := by simpa [hd] using hc
    exact not_isLexeme_of_symbol (by simp) hsymbol hlength
  · have hlonger := hpush c hc
    rw [isNumeral, String.toList_push] at hlonger
    exact not_isLexeme_of_numeral ht hlonger

/-- Tokens are cut apart exactly if the first one does not go on into the second. -/
theorem separate_iff (ht : IsLexeme t.toList) (hu : IsLexeme u.toList) :
    Separate t u ↔ ∀ c ∈ u.toList.head?, ¬IsLexeme (t.toList ++ [c]) := by
  refine ⟨fun h c hc => not_isLexeme_of_separate ht.ne_nil h hc, fun hno => ?_⟩
  by_cases hsymbol : isSymbol u = true
  · exact .inr (.inl hsymbol)
  generalize hcs : t.toList = cs at ht hno
  cases ht with
  | @symbol c hc => exact .inl (isSymbol_iff.mpr ⟨c, hcs, hc⟩)
  | numeral hn =>
    refine .inr (.inr ⟨by rw [isNumeral, hcs, hn], fun c hc => ?_⟩)
    rw [Bool.eq_false_iff, isNumeral, String.toList_push, hcs]
    exact fun hlonger => hno c hc (.numeral hlonger)
  | word hw =>
    -- a word goes on with whatever is no symbol
    obtain ⟨c, rest, hrest⟩ := List.exists_cons_of_ne_nil hu.ne_nil
    have hhead : c ∈ u.toList.head? := by rw [hrest]; rfl
    have hc : isSymbolChar c = false := by
      rw [Bool.eq_false_iff]
      exact fun hc => hsymbol (hu.isSymbol_of_head hhead hc)
    cases hn : isNumeralChars (cs ++ [c]) with
    | true => exact absurd (.numeral hn) (hno c hhead)
    | false => exact absurd (.word (isWord_append hw.noNumeral hw.noSymbol hc hn)) (hno c hhead)

end Separate

/-- The tokens of a text: tokens without blanks, each cut apart from the next. -/
structure AreTokens (tokens : List String) : Prop where
  isLexeme : ∀ token ∈ tokens, IsLexeme token.toList
  noBlank : ∀ token ∈ tokens, ∀ c ∈ token.toList, isBlank c = false
  separate : tokens.IsChain Separate

namespace Munch

variable {cs : List Char} {tokens : List String}

/-- What is cut off does not go on into what is cut off next. -/
theorem separate (h : Munch cs tokens) : tokens.IsChain Separate := by
  induction h with
  | nil => exact .nil
  | @cut cs rest token tokens isLongest isRest munched ih =>
    cases munched with
    | nil => exact .singleton token
    | @cut _ rest' next tokens isLongest' isRest' munched' =>
      refine List.isChain_cons_cons.mpr ⟨?_, ih⟩
      refine (separate_iff isLongest.isLexeme isLongest'.isLexeme).mpr fun c hc hlexeme => ?_
      obtain ⟨more, hmore⟩ := List.head?_eq_some_iff.mp hc
      have hbegin : token.toList ++ [c] <+: cs := by
        refine ⟨more ++ rest', ?_⟩
        rw [isRest, isRest', hmore]
        simp
      have hle := isLongest.longest _ (by simp) hbegin hlexeme
      rw [List.length_append, List.length_singleton] at hle
      omega

/-- Tokens that are cut apart from each other are what is cut off from their characters. -/
theorem of_separate (hlexeme : ∀ token ∈ tokens, IsLexeme token.toList)
    (h : tokens.IsChain Separate) : Munch (tokens.flatMap String.toList) tokens := by
  induction tokens with
  | nil => exact .nil
  | cons token tokens ih =>
    obtain ⟨htoken, htokens⟩ := List.forall_mem_cons.mp hlexeme
    refine .cut ?_ List.flatMap_cons (ih htokens h.of_cons)
    cases tokens with
    | nil =>
      rw [List.flatMap_cons, List.flatMap_nil, List.append_nil]
      exact longest_self htoken
    | cons next tokens =>
      have hnext := htokens next (List.mem_cons_self ..)
      obtain ⟨c, more, hmore⟩ := List.exists_cons_of_ne_nil hnext.ne_nil
      have hseparate := (List.isChain_cons_cons.mp h).1
      have hno := (separate_iff htoken hnext).mp hseparate c (by rw [hmore]; rfl)
      rw [List.flatMap_cons, List.flatMap_cons, hmore, List.cons_append]
      exact longest_of_not_isLexeme htoken hno

end Munch

/-- The same characters with blanks put in anywhere. -/
inductive Spaced : List Char → List Char → Prop
  | nil : Spaced [] []
  | keep {cs ds : List Char} (c : Char) (rest : Spaced cs ds) : Spaced (c :: cs) (c :: ds)
  | blank {cs ds : List Char} {c : Char} (isBlank : isBlank c = true) (rest : Spaced cs ds) :
      Spaced cs (c :: ds)

theorem Spaced.refl (cs : List Char) : Spaced cs cs := by
  induction cs with
  | nil => exact .nil
  | cons c cs ih => exact .keep c ih

theorem Spaced.filter_eq {cs ds : List Char} (h : Spaced cs ds) :
    (ds.filter fun c => !isBlank c) = cs.filter fun c => !isBlank c := by
  induction h with
  | nil => rfl
  | keep c rest ih => rw [List.filter_cons, List.filter_cons, ih]
  | blank isBlank rest ih => rw [List.filter_cons_of_neg (by simp [isBlank]), ih]

end Token

/-- Texts have the same tokens exactly if they are the same but for blanks. -/
theorem tokenize_eq_tokenize_iff {text other : String} :
    tokenize text = tokenize other ↔ unblanked text = unblanked other := by
  constructor
  · intro h
    rw [← (munch_tokenize text).flatMap_toList, h, (munch_tokenize other).flatMap_toList]
  · intro h
    exact (h ▸ munch_tokenize text).unique (munch_tokenize other)

theorem areTokens_tokenize (text : String) : AreTokens (tokenize text) where
  isLexeme token ht := (munch_tokenize text).isLexeme ht
  noBlank token ht c hc := by
    have hmem : c ∈ unblanked text := by
      rw [← (munch_tokenize text).flatMap_toList]
      exact List.mem_flatMap_of_mem ht hc
    simpa using (List.mem_filter.mp hmem).2
  separate := (munch_tokenize text).separate

namespace Token.AreTokens

variable {tokens : List String}

/-- Run together, with blanks anywhere, tokens are cut up as they were. -/
theorem tokenize_eq (h : AreTokens tokens) {text : String}
    (hspaced : Spaced (String.join tokens).toList text.toList) : tokenize text = tokens := by
  have hchars : unblanked text = tokens.flatMap String.toList := by
    rw [unblanked, hspaced.filter_eq, String.toList_join, List.filter_eq_self]
    intro c hc
    obtain ⟨token, ht, hmem⟩ := List.mem_flatMap.mp hc
    rw [h.noBlank token ht c hmem]
    rfl
  exact (munch_tokenize text).unique (hchars ▸ Munch.of_separate h.isLexeme h.separate)

end Token.AreTokens

/-- The lists of tokens that texts have are those that are cut up again as they were when they
are run together, wherever blanks are put in, and these are the lists of tokens each of which
is cut apart from the next. So it takes more than blanks to tell two texts apart. -/
theorem tokenize_image :
    (∀ tokens : List String, [
      ∃ text, tokenize text = tokens,
      ∀ text, Spaced (String.join tokens).toList text.toList → tokenize text = tokens,
      AreTokens tokens].TFAE) ∧
    ∀ text other, tokenize text = tokenize other ↔ unblanked text = unblanked other := by
  refine ⟨fun tokens => ?_, fun text other => tokenize_eq_tokenize_iff⟩
  tfae_have 1 → 3
  | ⟨text, htext⟩ => htext ▸ areTokens_tokenize text
  tfae_have 3 → 2 := fun h text hspaced => h.tokenize_eq hspaced
  tfae_have 2 → 1 := fun h => ⟨String.join tokens, h _ (.refl _)⟩
  tfae_finish

end FormulaEngine
