import FormulaEngine.Proofs.Engine.Verdict
import FormulaEngine.Proofs.Token.Boundary

/-! Which names a formula can use. A name that begins with no numeral is a token by itself, and
a text of nothing else is read as this one variable. A name that begins with a numeral is none:
the numeral is cut off first, and what is left of the name cannot come behind it. -/

namespace FormulaEngine

open Token

/-- Some characters at the beginning are a numeral. -/
def BeginsWithNumeral (text : String) : Prop :=
  ∃ begin, begin <+: text.toList ∧ isNumeralChars begin = true

theorem tokenize_eq_singleton_iff {text : String} :
    tokenize text = [text] ↔
      IsLexeme text.toList ∧ ∀ c ∈ text.toList, isBlank c = false := by
  constructor
  · intro h
    have htokens := areTokens_tokenize text
    rw [h] at htokens
    exact ⟨htokens.isLexeme text (by simp), htokens.noBlank text (by simp)⟩
  · rintro ⟨hlexeme, hblank⟩
    have htokens : AreTokens [text] :=
      ⟨List.forall_mem_singleton.mpr hlexeme, List.forall_mem_singleton.mpr hblank, .singleton text⟩
    refine htokens.tokenize_eq ?_
    rw [String.toList_join, List.flatMap_cons, List.flatMap_nil, List.append_nil]
    exact .refl _

theorem isWord_iff {name : String} (h : isName name = true) :
    IsWord name.toList ↔ ¬BeginsWithNumeral name := by
  obtain ⟨hne, -, hall⟩ := isName_iff.mp h
  constructor
  · rintro hword ⟨begin, hbegin, hnumeral⟩
    have hne : begin ≠ [] := by
      rintro rfl
      cases hnumeral
    rw [hword.noNumeral begin hne hbegin] at hnumeral
    cases hnumeral
  · intro hno
    refine ⟨hne, fun c hc => (hall c hc).1, fun begin _ hbegin => ?_⟩
    rw [Bool.eq_false_iff]
    exact fun hnumeral => hno ⟨begin, hbegin, hnumeral⟩

/-- A name is a token of its own exactly if it begins with no numeral. -/
theorem tokenize_eq_name_iff {name : String} :
    (tokenize name = [name] ∧ isSymbol name = false ∧ isNumeral name = false) ↔
      isName name = true ∧ ¬BeginsWithNumeral name := by
  rw [tokenize_eq_singleton_iff]
  constructor
  · rintro ⟨⟨hlexeme, hblank⟩, hsymbol, hnumeral⟩
    have hcount := hlexeme.count_sorts hblank
    rw [hsymbol, hnumeral] at hcount
    have hname : isName name = true := by
      cases hname : isName name with
      | true => rfl
      | false => simp [hname] at hcount
    refine ⟨hname, (isWord_iff hname).mp ?_⟩
    generalize hcs : name.toList = cs at hlexeme
    cases hlexeme with
    | @symbol c hc =>
      rw [isSymbol_iff.mpr ⟨c, hcs, hc⟩] at hsymbol
      cases hsymbol
    | numeral hn =>
      rw [isNumeral, hcs, hn] at hnumeral
      cases hnumeral
    | word hw => exact hw
  · rintro ⟨hname, hno⟩
    have hword := (isWord_iff hname).mpr hno
    obtain ⟨-, hnumeral, hall⟩ := isName_iff.mp hname
    refine ⟨⟨.word hword, fun c hc => (hall c hc).2⟩, ?_, hnumeral⟩
    rw [Bool.eq_false_iff, ne_eq, isSymbol_iff]
    rintro ⟨c, hc, hsymbol⟩
    rw [hword.noSymbol c (by simp [hc])] at hsymbol
    cases hsymbol

/-- A text that is one of its tokens is the only one. -/
theorem tokenize_eq_of_mem {text : String} (h : text ∈ tokenize text) :
    tokenize text = [text] := by
  obtain ⟨before, after, htokens⟩ := List.append_of_mem h
  have hchars := congrArg List.length (munch_tokenize text).flatMap_toList
  have hle : (unblanked text).length ≤ text.toList.length := List.length_filter_le ..
  have hlexeme := (areTokens_tokenize text).isLexeme
  -- any other token would add a character to the text
  have hnone (others : List String) (hothers : ∀ token ∈ others, token ∈ tokenize text)
      (hlength : (others.flatMap String.toList).length = 0) : others = [] := by
    cases others with
    | nil => rfl
    | cons token rest =>
      have hpos := List.length_pos_of_ne_nil
        (hlexeme token (hothers token (List.mem_cons_self ..))).ne_nil
      rw [List.flatMap_cons, List.length_append] at hlength
      omega
  rw [htokens, List.flatMap_append, List.flatMap_cons, List.length_append, List.length_append]
    at hchars
  have hbefore := hnone before (fun token ht => by simp [htokens, ht]) (by omega)
  have hafter := hnone after (fun token ht => by simp [htokens, ht]) (by omega)
  rw [htokens, hbefore, hafter, List.nil_append]

/-- A name that begins with a numeral is cut behind a numeral. -/
theorem tokenize_of_beginsWithNumeral {name : String} (hname : isName name = true)
    (h : BeginsWithNumeral name) : ∃ numeral next rest,
      tokenize name = numeral :: next :: rest ∧ isNumeral numeral = true ∧
        isSymbol numeral = false ∧ isSymbol next = false := by
  obtain ⟨hne, hnumeral, hall⟩ := isName_iff.mp hname
  have hunblanked : unblanked name = name.toList :=
    List.filter_eq_self.mpr fun c hc => by rw [(hall c hc).2]; rfl
  have hchars := (munch_tokenize name).flatMap_toList
  have hseparate := (areTokens_tokenize name).separate
  have hsymbol : ∀ token ∈ tokenize name, isSymbol token = false := by
    intro token ht
    rw [Bool.eq_false_iff, ne_eq, isSymbol_iff]
    rintro ⟨c, hc, hsymbol⟩
    have hmem : c ∈ name.toList := by
      rw [← hunblanked, ← hchars]
      exact List.mem_flatMap_of_mem ht (by simp [hc])
    rw [(hall c hmem).1] at hsymbol
    cases hsymbol
  cases htokens : tokenize name with
  | nil =>
    rw [htokens, hunblanked] at hchars
    exact absurd hchars.symm hne
  | cons numeral rest =>
    rw [htokens] at hsymbol hseparate hchars
    obtain ⟨hfirst, hrest⟩ := List.forall_mem_cons.mp hsymbol
    cases rest with
    | nil =>
      rw [List.flatMap_cons, List.flatMap_nil, List.append_nil, hunblanked] at hchars
      obtain rfl := String.toList_inj.mp hchars
      exact absurd h (tokenize_eq_name_iff.mp ⟨htokens, hfirst, hnumeral⟩).2
    | cons next rest =>
      have hnext := hrest next (List.mem_cons_self ..)
      obtain hs | hs | ⟨hn, -⟩ := (List.isChain_cons_cons.mp hseparate).1
      · rw [hfirst] at hs
        cases hs
      · rw [hnext] at hs
        cases hs
      · exact ⟨numeral, next, rest, rfl, hn, hfirst, hnext⟩

section Parse

variable {φ : Type} [Callable φ]

/-- Behind a numeral there has to be a symbol. -/
theorem Reading.expression_of_numeral (library : Library φ) (room : Nat) {numeral next : String}
    (hnumeral : kind numeral = .numeral) (hnext : isSymbol next = false) (rest : List String)
    (table : Bindings) :
    expression library room ⟨0, numeral :: next :: rest, table⟩ =
      .error ⟨.unexpectedSymbol next .term, ⟨1, next :: rest, table⟩, room⟩ := by
  have hfactor : factor library room ⟨0, numeral :: next :: rest, table⟩ =
      .ok (.number (numeralValue numeral) (some 0), ⟨1, next :: rest, table⟩) :=
    factorWith_of_numeral hnumeral
  have hkind := kind_of_isSymbol_eq_false hnext
  have hend : Cursor.operator? ⟨1, next :: rest, table⟩ .multiplicative = none := by
    rw [Cursor.operator?, Cursor.kind?_cons, hkind]
    cases isNumeral next <;> rfl
  have hended (tree : Expr φ) : ended .multiplicative room tree ⟨1, next :: rest, table⟩ =
      .error ⟨.unexpectedSymbol next .term, ⟨1, next :: rest, table⟩, room⟩ := by
    refine ended_eq_error_iff.mpr ⟨next, rest, rfl, ?_, rfl⟩
    rw [hkind]
    cases isNumeral next <;> rfl
  have hterm : term library room ⟨0, numeral :: next :: rest, table⟩ =
      .error ⟨.unexpectedSymbol next .term, ⟨1, next :: rest, table⟩, room⟩ := by
    rw [term, series_eq, hfactor]
    change seriesRest _ _ _ _ _ >>= _ = _
    rw [seriesRest_of_end hend]
    exact hended _
  rw [expression_eq, series_eq, hterm]
  rfl

namespace Engine

variable {engine : Engine φ} {name : String}

/-- A name that no function has is read as a variable. -/
theorem parse_free (htokens : tokenize name = [name]) (hkind : kind name = .name)
    (hfree : engine.library.get? name = none) :
    engine.parse name = (.ok (), { engine with
      tokens := [name], bindings := ⟨[⟨name, none⟩]⟩, root := some (.var 0 (some 0)) }) := by
  let d : Sentence engine.library := .last (.last (.var name hkind hfree))
  have htable : Bindings.empty.internAll d.uses = ⟨[⟨name, none⟩]⟩ := rfl
  have htree : d.tree (Bindings.empty.internAll d.uses).indexOf 0 = .var 0 (some 0) := by
    have hindex : (Bindings.empty.internAll d.uses).indexOf name = 0 :=
      Bindings.indexOf_eq (Bindings.idOf?_intern .empty name)
    change Expr.var _ _ = _
    rw [hindex]
  have haccepts := d.accepts (Nat.zero_le _) .empty
  have hcheck : (d.tree (Bindings.empty.internAll d.uses).indexOf 0).check
      (Bindings.empty.internAll d.uses) [name] = .ok () := by
    rw [Expr.check_eq_ok_iff, Expr.forall_mem_labels_iff, htree, htable, Expr.sourceOrder_var]
    exact List.forall_mem_singleton.mpr rfl
  have hbuild : built engine.library (tokenize name) =
      .ok (.var 0 (some 0), ⟨[⟨name, none⟩]⟩) := by
    rw [htokens, ← htree, ← htable]
    exact built_eq_ok_iff.mpr ⟨haccepts, hcheck⟩
  rw [parse_of_built_ok hbuild, htokens]

/-- A text that is read as nothing but a variable of its own is a name. -/
theorem tokenize_of_parse (hok : (engine.parse name).1 = .ok ())
    (hnames : (engine.parse name).2.bindings.names = [name]) :
    tokenize name = [name] ∧ kind name = .name := by
  obtain ⟨root, hparse⟩ := parse_of_ok hok
  have hmem : name ∈ (engine.parse name).2.bindings.names := by
    rw [hnames]
    exact List.mem_singleton_self name
  rw [hparse] at hmem
  obtain hempty | hfree := Bindings.mem_names_internAll.mp hmem
  · cases hempty
  · obtain ⟨htoken, hkind, -⟩ := mem_freeNames.mp hfree
    exact ⟨tokenize_eq_of_mem htoken, hkind⟩

/-- A name that begins with a numeral cannot be parsed. -/
theorem parse_of_beginsWithNumeral (engine : Engine φ) (hname : isName name = true)
    (h : BeginsWithNumeral name) : ∃ numeral next rest,
      tokenize name = numeral :: next :: rest ∧ isNumeral numeral = true ∧
        (engine.parse name).1 =
          .error (.atToken (.unexpectedSymbol next .term) (tokenize name) (some 1)) := by
  obtain ⟨numeral, next, rest, htokens, hnumeral, hfirst, hnext⟩ :=
    tokenize_of_beginsWithNumeral hname h
  have hkind : kind numeral = .numeral := by
    rw [kind_of_isSymbol_eq_false hfirst, if_pos hnumeral]
  have hstop := Reading.expression_of_numeral engine.library nestingLimit hkind hnext rest .empty
  rw [← htokens] at hstop
  obtain ⟨reader, hread⟩ := read_eq_error_iff.mpr ⟨_, hstop, rfl⟩
  refine ⟨numeral, next, rest, htokens, hnumeral, ?_⟩
  rw [parse_fst, (verdict_built engine.library (tokenize name)).unread _ reader hread]

end Engine

/-- Exactly the names that begin with no numeral are tokens, and they are read as variables.
The others are cut behind a numeral, and what comes there stops the reading. -/
theorem Engine.parse_name_iff (φ : Type) [Callable φ] (name : String) :
    ((tokenize name = [name] ∧ isSymbol name = false ∧ isNumeral name = false) ↔
      isName name = true ∧ ¬BeginsWithNumeral name) ∧
    ((((ofFunctions ([] : List φ)).parse name).1 = .ok () ∧
        ((ofFunctions ([] : List φ)).parse name).2.bindings.names = [name]) ↔
      isName name = true ∧ ¬BeginsWithNumeral name) ∧
    (isName name = true → BeginsWithNumeral name → ∀ engine : Engine φ, ∃ numeral next rest,
      tokenize name = numeral :: next :: rest ∧ isNumeral numeral = true ∧
        (engine.parse name).1 =
          .error (.atToken (.unexpectedSymbol next .term) (tokenize name) (some 1))) := by
  refine ⟨tokenize_eq_name_iff, ?_, fun hname h engine =>
    engine.parse_of_beginsWithNumeral hname h⟩
  constructor
  · rintro ⟨hok, hnames⟩
    obtain ⟨htokens, hkind⟩ := tokenize_of_parse hok hnames
    exact tokenize_eq_name_iff.mp ⟨htokens, kind_eq_name_iff.mp hkind⟩
  · intro h
    obtain ⟨htokens, hkind⟩ := tokenize_eq_name_iff.mpr h
    rw [parse_free htokens (kind_eq_name_iff.mpr hkind) rfl]
    exact ⟨rfl, rfl⟩

/-- Of two points the second cannot be part of a numeral. -/
theorem Engine.parse_name_iff_points : isName "1.2.3" = true ∧ BeginsWithNumeral "1.2.3" ∧
    ∃ numeral next rest, tokenize "1.2.3" = numeral :: next :: rest ∧ isNumeral numeral = true ∧
      ((ofFunctions ElementaryFunction.all).parse "1.2.3").1 =
        .error (.atToken (.unexpectedSymbol next .term) (tokenize "1.2.3") (some 1)) := by
  have hname : isName "1.2.3" = true := by decide
  have hbegins : BeginsWithNumeral "1.2.3" := ⟨"1.2".toList, by decide, by decide⟩
  exact ⟨hname, hbegins, (parse_name_iff ElementaryFunction "1.2.3").2.2 hname hbegins _⟩

/-- A name need not be a token by itself, and then no formula can use it. -/
theorem Engine.parse_name_cut : isName "12abc" = true ∧ tokenize "12abc" = ["12", "abc"] ∧
    ((ofFunctions ([] : List ElementaryFunction)).parse "12abc").1 =
      .error (.atToken (.unexpectedSymbol "abc" .term) ["12", "abc"] (some 1)) ∧
    ¬∀ name, isName name = true ↔
      tokenize name = [name] ∧ isSymbol name = false ∧ isNumeral name = false := by
  have hname : isName "12abc" = true := by decide
  have htokens : tokenize "12abc" = ["12", "abc"] := by
    rw [tokenize, String.foldl_eq_foldl_toList]
    decide
  obtain ⟨_, _, _, hcut, -, hparse⟩ :=
    (ofFunctions ([] : List ElementaryFunction)).parse_of_beginsWithNumeral hname
      ⟨"12".toList, by decide, by decide⟩
  rw [htokens] at hcut hparse
  cases hcut
  refine ⟨hname, htokens, hparse, fun hall => ?_⟩
  have hone := congrArg List.length ((hall "12abc").mp hname).1
  rw [htokens] at hone
  cases hone

end Parse

end FormulaEngine
