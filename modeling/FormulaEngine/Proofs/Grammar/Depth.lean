import FormulaEngine.Proofs.Grammar.Acceptance
import FormulaEngine.Proofs.Grammar.Locality
import FormulaEngine.Proofs.Grammar.Nesting
import FormulaEngine.Proofs.Grammar.Viability

/-! The nesting limit is exact. A reading that has levels enough reads what any reading with
more levels reads, so what is derived is read unless it is nested too deep, and then the
levels are what it stops for. It stops where all levels are taken and one more would be
opened: at a parenthesis or at the name of a function. In what is derived every function name
has its parenthesis behind it, so the levels that were opened before can be counted in the
tokens, and the stop is at the first token that is one too many. -/

namespace FormulaEngine

open Token

namespace Reading

variable {α β φ : Type}

/-- The outcomes of one reading with fewer levels and with more. Whatever is read with more
levels is read with fewer, or these are too few. -/
def Narrower (fewer more : Except Stop α) : Prop :=
  ∀ ⦃read⦄, more = .ok read →
    fewer = .ok read ∨ ∃ stop, fewer = .error stop ∧ stop.cause = .tooDeep nestingLimit

namespace Narrower

theorem refl (x : Except Stop α) : Narrower x x := fun _ => .inl

theorem of_error (x : Except Stop α) (stop : Stop) : Narrower x (.error stop) := nofun

theorem bind {x y : Except Stop α} {f g : α → Except Stop β} (h : Narrower x y)
    (hnext : ∀ a, Narrower (f a) (g a)) : Narrower (x >>= f) (y >>= g) := by
  intro read hread
  obtain ⟨a, hy, hg⟩ := bind_eq_ok_iff.mp hread
  obtain hx | ⟨stop, hx, hcause⟩ := h hy
  · rw [hx]
    exact hnext a hg
  · exact .inr ⟨stop, bind_eq_error_iff.mpr (.inl hx), hcause⟩

variable {tier : Tier} {operand operand' : Reading φ} {room room' : Nat}

theorem pass (c : Cursor) (symbol : Char) :
    Narrower (c.pass symbol room) (c.pass symbol room') := by
  unfold Cursor.pass
  split
  · exact refl _
  · exact of_error _ _

theorem ended (tree : Expr φ) (last : Cursor) :
    Narrower (ended tier room tree last) (ended tier room' tree last) := by
  intro read hread
  rw [ended_eq_ok_iff] at hread ⊢
  exact .inl hread

section Loops

variable (ho : ∀ c, Narrower (operand c) (operand' c))

include ho

theorem seriesRest (rounds : List String) (left : Expr φ) (c : Cursor) :
    Narrower (seriesRest tier operand rounds left c) (seriesRest tier operand' rounds left c) := by
  induction rounds generalizing left c with
  | nil => exact refl _
  | cons round rounds ih =>
    rw [seriesRest_cons, seriesRest_cons]
    cases c.operator? tier with
    | none => exact refl _
    | some op => exact (ho _).bind fun read => ih _ read.2

theorem series (c : Cursor) :
    Narrower (series tier room operand c) (series tier room' operand' c) :=
  (ho c).bind fun first => (seriesRest ho _ first.1 first.2).bind fun read => ended read.1 read.2

theorem argumentsRest (rounds : List String) (done : List (Expr φ)) (c : Cursor) :
    Narrower (argumentsRest room operand rounds done c)
      (argumentsRest room' operand' rounds done c) := by
  induction rounds generalizing done c with
  | nil => exact of_error _ _
  | cons round rounds ih =>
    rw [argumentsRest_cons, argumentsRest_cons]
    refine (ho c).bind fun read => ?_
    split
    · exact ih _ _
    · exact refl _
    · exact of_error _ _

theorem arguments (c : Cursor) :
    Narrower (arguments room operand c) (arguments room' operand' c) := by
  unfold Reading.arguments
  split
  · exact refl _
  · exact argumentsRest ho _ _ c

end Loops

/-- What stands inside parentheses is read with fewer levels as well, or no level is left
for it. -/
def Inside (fewer? more? : Option (Reading φ)) : Prop :=
  fewer? = none ∨ ∃ fewer more, fewer? = some fewer ∧ more? = some more ∧
    ∀ c, Narrower (fewer c) (more c)

variable {inner? inner?' : Option (Reading φ)} (hi : Inside inner? inner?')

include hi

theorem group (c : Cursor) : Narrower (group room inner? c) (group room' inner?' c) := by
  obtain rfl | ⟨inner, inner', rfl, rfl, hinner⟩ := hi
  · exact fun read _ => .inr ⟨_, rfl, rfl⟩
  · exact (hinner _).bind fun read => (pass _ _).bind fun last => refl _

variable [Callable φ] (library : Library φ)

theorem callWith (c : Cursor) :
    Narrower (callWith library room inner? c) (callWith library room' inner?' c) := by
  unfold Reading.callWith
  cases c.rest with
  | nil => exact of_error _ _
  | cons name rest =>
    cases hf : library.get? name with
    | none =>
      simp only [hf]
      exact of_error _ _
    | some f =>
      simp only [hf]
      obtain rfl | ⟨inner, inner', rfl, rfl, hinner⟩ := hi
      · exact fun read _ => .inr ⟨_, rfl, rfl⟩
      · exact (pass _ _).bind fun opened => (arguments hinner opened).bind fun read => refl _

theorem factorWith (c : Cursor) :
    Narrower (factorWith library room inner? c) (factorWith library room' inner?' c) := by
  unfold Reading.factorWith
  cases c.rest with
  | nil => exact of_error _ _
  | cons token rest =>
    cases hk : kind token with
    | operator op =>
      simp only [hk]
      split
      · exact refl _
      · exact of_error _ _
    | closing | comma =>
      simp only [hk]
      exact of_error _ _
    | opening =>
      simp only [hk]
      exact group hi c
    | numeral =>
      simp only [hk]
      exact refl _
    | name =>
      simp only [hk]
      split
      · exact callWith hi library c
      · split
        · exact of_error _ _
        · exact refl _

end Narrower

/-- What any number of levels more reads, these levels read, or they are too few. -/
theorem narrower_ofLevel {φ : Type} [Callable φ] (library : Library φ) (room more : Nat)
    (level : Level) (c : Cursor) :
    Narrower (ofLevel library room level c) (ofLevel library (room + more) level c) := by
  refine Level.induction (P := fun room level => ∀ c,
    Narrower (ofLevel library room level c) (ofLevel library (room + more) level c)) ?_ ?_
    room level c
  · intro room hinner c
    rw [ofLevel_factor_eq, ofLevel_factor_eq]
    refine .factorWith ?_ library c
    cases room with
    | zero => exact .inl rfl
    | succ room =>
      rw [Nat.succ_add]
      exact .inr ⟨_, _, rfl, rfl, hinner room rfl⟩
  · intro room tier hoperand c
    rw [ofLevel_series, ofLevel_series]
    exact .series hoperand c

/-- A reading that has too few levels stops where all of them are taken, before a token that
opens one more. -/
theorem Stopped.full {φ : Type} [Callable φ] {library : Library φ} {part : Part} {room : Nat}
    {c : Cursor} {stop : Stop} (h : Stopped library part room c stop) {limit : Nat}
    (hlimit : stop.cause.limit? = some limit) : limit = nestingLimit ∧
      ∃ taken token rest, c.rest = taken ++ stop.cursor.rest ∧
        taken.count "(" = taken.count ")" + room ∧ stop.cursor.rest = token :: rest ∧
        (token = "(" ∨ NamesFunction library token) := by
  induction h with
  | operand noLimit | complete _ _ _ noLimit | functionName _ _ noLimit =>
    rw [hlimit] at noLimit
    cases noLimit
  | @tooDeep c token rest tokens opens =>
    cases hlimit
    exact ⟨rfl, [], token, rest, rfl, rfl, tokens, opens⟩
  | last _ ih | someArguments _ ih | one _ ih => exact ih hlimit
  | @join tier room c next stop tree op operand operator rest ih =>
    obtain ⟨hl, taken, token, after, htaken, hcount, hr, hopens⟩ := ih hlimit
    obtain ⟨ht, rest', hnext⟩ := Cursor.operator?_eq_some_iff.mp operator
    obtain ⟨d, hd, -⟩ := derives_ofLevel library room _ operand _ rfl
    rw [Cursor.advance_rest, hnext, List.tail_cons] at htaken
    refine ⟨hl, d.tokens ++ [op.token] ++ taken, token, after, ?_, ?_, hr, hopens⟩
    · simp [hd, hnext, htaken]
    · exact (d.balanced.append (.operator op)).count_append hcount
  | @more room c next stop tree rest argument comma list ih =>
    obtain ⟨hl, taken, token, after, htaken, hcount, hr, hopens⟩ := ih hlimit
    obtain ⟨d, hd, -⟩ := derives_ofLevel library room _ argument _ rfl
    rw [Cursor.advance_rest, comma, List.tail_cons] at htaken
    refine ⟨hl, d.tokens ++ [","] ++ taken, token, after, ?_, ?_, hr, hopens⟩
    · simp [hd, comma, htaken]
    · exact (d.balanced.append .comma).count_append hcount
  | @group room c stop rest tokens inner ih =>
    obtain ⟨hl, taken, token, after, htaken, hcount, hr, hopens⟩ := ih hlimit
    rw [Cursor.advance_rest, tokens, List.tail_cons] at htaken
    refine ⟨hl, "(" :: taken, token, after, ?_, ?_, hr, hopens⟩
    · rw [tokens, htaken, List.cons_append]
    · simp [hcount]
      omega
  | @call room c stop name rest tokens isFunction args ih =>
    obtain ⟨hl, taken, token, after, htaken, hcount, hr, hopens⟩ := ih hlimit
    simp only [Cursor.advance_rest, tokens, List.tail_cons] at htaken
    refine ⟨hl, [name] ++ "(" :: taken, token, after, ?_, ?_, hr, hopens⟩
    · rw [tokens, htaken]
      rfl
    · refine (Balanced.name isFunction.1).count_append ?_
      simp [hcount]
      omega

end Reading

variable {φ : Type} [Callable φ] {library : Library φ}

/-- Behind every function name stands a parenthesis. -/
def CallsOpen (library : Library φ) (tokens : List String) : Prop :=
  ∀ j name, tokens[j]? = some name → NamesFunction library name → tokens[j + 1]? = some "("

namespace CallsOpen

theorem nil : CallsOpen library [] := nofun

theorem cons {token : String} {rest : List String}
    (htoken : NamesFunction library token → rest.head? = some "(") (h : CallsOpen library rest) :
    CallsOpen library (token :: rest) := by
  intro j name hj hname
  cases j with
  | zero =>
    cases hj
    rw [List.getElem?_cons_succ, ← List.head?_eq_getElem?]
    exact htoken hname
  | succ j => exact h j name hj hname

theorem singleton {token : String} (htoken : ¬NamesFunction library token) :
    CallsOpen library [token] := cons (fun hname => absurd hname htoken) nil

theorem append {xs ys : List String} (hx : CallsOpen library xs) (hy : CallsOpen library ys) :
    CallsOpen library (xs ++ ys) := by
  intro j name hj hname
  rcases Nat.lt_or_ge j xs.length with hlt | hle
  · rw [List.getElem?_append_left hlt] at hj
    have hnext := hx j name hj hname
    rw [List.getElem?_append_left (List.getElem?_eq_some_iff.mp hnext).1, hnext]
  · rw [List.getElem?_append_right hle] at hj
    rw [List.getElem?_append_right (by omega), Nat.sub_add_comm hle]
    exact hy _ name hj hname

end CallsOpen

theorem not_namesFunction {token : String} (h : kind token ≠ .name) :
    ¬NamesFunction library token := fun hname => h hname.1

theorem Derivation.callsOpen {part : Part} {sign : Bool} (d : Derivation library part sign) :
    CallsOpen library d.tokens := by
  have hclosing : CallsOpen library [")"] := .singleton (not_namesFunction (by simp))
  have hopening : ¬NamesFunction library "(" := not_namesFunction (by simp)
  induction d with
  | last operand ih => exact ih
  | join operand op isOfTier rest iho ihr =>
    have hop : ¬NamesFunction library op.token := not_namesFunction (by simp)
    exact iho.append (.append (.singleton hop) ihr)
  | numeral text isNumeral => exact .singleton (not_namesFunction (by simp [isNumeral]))
  | var text isName isFree =>
    refine .singleton fun hname => ?_
    have hcontains := hname.2
    rw [Library.contains, isFree] at hcontains
    cases hcontains
  | zero => exact .nil
  | group inner ih => exact .append (.singleton hopening) (ih.append hclosing)
  | call text function isName isRegistered args ih =>
    exact .cons (fun _ => rfl) (.append (.singleton hopening) (ih.append hclosing))
  | noArguments => exact .nil
  | someArguments list ih => exact ih
  | one argument ih => exact ih
  | more argument rest iha ihr =>
    have hcomma : ¬NamesFunction library "," := not_namesFunction (by simp)
    exact iha.append (.append (.singleton hcomma) ihr)

/-- Before a parenthesis that opens, a level is left. -/
theorem OpenAtMost.lt_of_opening {limit : Nat} {tokens : List String} (h : OpenAtMost limit tokens)
    {j : Nat} (hj : tokens[j]? = some "(") :
    (tokens.take j).count "(" < (tokens.take j).count ")" + limit := by
  have hnext := h (j + 1)
  rw [List.take_add_one, hj, Option.toList_some, List.count_append, List.count_append,
    List.count_singleton_self, List.count_singleton, if_neg (by decide)] at hnext
  omega

/-- The token at an index opens a level. It is the name of a function, or a parenthesis that
does not belong to such a name. -/
def OpensLevel (library : Library φ) (tokens : List String) (i : Nat) : Prop :=
  ∃ token, tokens[i]? = some token ∧ (NamesFunction library token ∨
    token = "(" ∧ ∀ j name, j + 1 = i → tokens[j]? = some name → ¬NamesFunction library name)

/-- The token at an index is the first that opens a level beyond the limit. -/
structure OpensBeyond (library : Library φ) (limit : Nat) (tokens : List String) (i : Nat) :
    Prop where
  opens : OpensLevel library tokens i
  full : (tokens.take i).count "(" = (tokens.take i).count ")" + limit
  first : ∀ j < i, OpensLevel library tokens j →
    (tokens.take j).count "(" < (tokens.take j).count ")" + limit

/-- Before a level that is opened in what is derived, a level is left. -/
theorem Derivation.lt_of_opensLevel {d : Sentence library} {limit : Nat} (hdepth : d.depth ≤ limit)
    {j : Nat} (h : OpensLevel library d.tokens j) :
    (d.tokens.take j).count "(" < (d.tokens.take j).count ")" + limit := by
  have hopen := d.depth_le_iff.mp hdepth
  obtain ⟨token, htoken, hname | ⟨rfl, -⟩⟩ := h
  · -- the parenthesis behind the name is counted, the name is not
    have hlt := hopen.lt_of_opening (d.callsOpen j token htoken hname)
    have hbalanced := Balanced.name hname.1
    rw [List.take_add_one, htoken, Option.toList_some, List.count_append, List.count_append,
      hbalanced] at hlt
    omega
  · exact hopen.lt_of_opening htoken

theorem OpensLevel.congr {tokens tokens' : List String} {i : Nat}
    (h : OpensLevel library tokens i) (hsame : ∀ j ≤ i, tokens'[j]? = tokens[j]?) :
    OpensLevel library tokens' i := by
  obtain ⟨token, htoken, hopens⟩ := h
  refine ⟨token, (hsame i (Nat.le_refl i)).trans htoken, ?_⟩
  refine hopens.imp_right fun ⟨htoken, hbefore⟩ => ⟨htoken, fun j name hj hname => ?_⟩
  rw [hsame j (by omega)] at hname
  exact hbefore j name hj hname

section Stop

variable {tokens : List String} {table : Bindings} {stop : Stop}

/-- Where a reading has too few levels, the next token is the first that opens a level beyond
the limit: what has been taken begins something derived within the limit, in which a level
is left before each that is opened. -/
theorem Reading.opensBeyond_of_stop {limit : Nat}
    (h : expression library nestingLimit ⟨0, tokens, table⟩ = .error stop)
    (hlimit : stop.cause.limit? = some limit) :
    limit = nestingLimit ∧ OpensBeyond library nestingLimit tokens stop.cursor.index := by
  have hstopped := stops_ofLevel library nestingLimit (.series .additive) h
  obtain ⟨rfl, taken, token, rest, htaken, hfull, hr, hopens⟩ := hstopped.full hlimit
  obtain ⟨taken', more, d, htaken', hd, hdepth⟩ := hstopped.viable
  obtain ⟨hreach, -⟩ := (localAt_ofLevel library nestingLimit (.series .additive) _).stops h
  obtain ⟨htake, hdrop⟩ := hreach.take_drop
  have hlength := hreach.length_eq
  obtain rfl := List.append_cancel_right (htake.trans htaken)
  obtain rfl := List.append_cancel_right (htake.trans htaken')
  generalize stop.cursor.index = i at *
  replace hlength : (tokens.take i).length = i := by
    rw [List.length_take]
    omega
  have hsame : ∀ j < i, d.tokens[j]? = tokens[j]? := by
    intro j hj
    rw [hd, List.getElem?_append_left (by omega), List.getElem?_take_of_lt hj]
  have htakes : ∀ j ≤ i, d.tokens.take j = tokens.take j := by
    intro j hj
    rw [hd, List.take_append_of_le_length (by omega), List.take_take, Nat.min_eq_left hj]
  have htoken : tokens[i]? = some token := by
    rw [← List.head?_drop, ← hdrop, hr, List.head?_cons]
  refine ⟨rfl, ⟨token, htoken, ?_⟩, hfull, ?_⟩
  · obtain rfl | hname := hopens
    · refine .inr ⟨rfl, ?_⟩
      rintro j name rfl hj hname
      have hopening := d.callsOpen j name ((hsame j (by omega)).trans hj) hname
      have hlt := (d.depth_le_iff.mp hdepth).lt_of_opening hopening
      rw [htakes _ (Nat.le_refl _)] at hlt
      omega
    · exact .inl hname
  · intro j hj hlevel
    have hlt := d.lt_of_opensLevel hdepth (hlevel.congr fun k hk => hsame k (by omega))
    rwa [htakes j (Nat.le_of_lt hj)] at hlt

/-- A derivation that is too deep stops the reading for no other reason: with levels enough
it is read to its end. -/
theorem Derivation.stop_of_depth (d : Sentence library) (hdepth : nestingLimit < d.depth)
    (table : Bindings) : ∃ stop : Stop,
      Reading.expression library nestingLimit ⟨0, d.tokens, table⟩ = .error stop ∧
      stop.cause = .tooDeep nestingLimit := by
  obtain ⟨more, hmore⟩ := Nat.exists_eq_add_of_lt hdepth
  have hread := d.isRead.levelRead (nestingLimit + (more + 1)) 0 table _ [] (by omega) (.nil _)
    (.refl _)
  rw [List.append_nil] at hread
  obtain hok | hstop := Reading.narrower_ofLevel library nestingLimit (more + 1)
    (.series .additive) _ hread
  · have haccepts : Accepts library d.tokens table _ _ := accepts_iff.mpr ⟨_, hok, rfl, rfl⟩
    obtain ⟨d', htokens, hdepth'⟩ := haccepts.exists_sentence
    rw [tokens_injective htokens] at hdepth'
    omega
  · exact hstop

end Stop

/-- A formula is accepted exactly if nowhere more parentheses are open than there are levels.
Otherwise the first token is told that opens a level beyond the last. Whatever the tokens
are, too deep a nesting is told at no other. -/
theorem read_nesting (library : Library φ) (table : Bindings) :
    (∀ d : Sentence library,
      ((∃ tree later, Accepts library d.tokens table tree later) ↔
        OpenAtMost nestingLimit d.tokens) ∧
      (¬OpenAtMost nestingLimit d.tokens → ∃ i reader,
        (Reader.start library d.tokens table).read .expression =
          (.error (.atToken (.tooDeep nestingLimit) d.tokens (some i)), reader) ∧
        OpensBeyond library nestingLimit d.tokens i)) ∧
    ∀ tokens limit i reader, (Reader.start library tokens table).read .expression =
        (.error (.atToken (.tooDeep limit) tokens (some i)), reader) →
      limit = nestingLimit ∧ OpensBeyond library nestingLimit tokens i := by
  refine ⟨fun d => ⟨⟨?_, ?_⟩, ?_⟩, ?_⟩
  · rintro ⟨tree, later, haccepts⟩
    obtain ⟨d', htokens, hdepth⟩ := haccepts.exists_sentence
    rw [← htokens]
    exact d'.depth_le_iff.mp hdepth
  · intro hopen
    exact ⟨_, _, d.accepts (d.depth_le_iff.mpr hopen) table⟩
  · intro hopen
    rw [← d.depth_le_iff, Nat.not_le] at hopen
    obtain ⟨stop, hstop, hcause⟩ := d.stop_of_depth hopen table
    obtain ⟨reader, hread⟩ := read_eq_error_iff.mpr ⟨stop, hstop, rfl⟩
    rw [hcause] at hread
    exact ⟨_, reader, hread, (Reading.opensBeyond_of_stop hstop (congrArg Cause.limit? hcause)).2⟩
  · intro tokens limit i reader hread
    obtain ⟨stop, hstop, hfailure⟩ := read_eq_error_iff.mp ⟨reader, hread⟩
    obtain ⟨hcause, hlocation⟩ := Failure.located.inj hfailure
    obtain rfl : i = stop.cursor.index := Option.some.inj (congrArg Location.index hlocation)
    exact Reading.opensBeyond_of_stop hstop (congrArg Cause.limit? hcause.symm)

/-- A numeral in so many groups. -/
def Derivation.nested (library : Library φ) : Nat → Sentence library
  | 0 => .last (.last (.numeral "0" (by decide)))
  | levels + 1 => .last (.last (.group (nested library levels)))

theorem Derivation.depth_nested (library : Library φ) (levels : Nat) :
    (nested library levels).depth = levels := by
  induction levels with
  | zero => rfl
  | succ levels ih => exact congrArg (· + 1) ih

/-- One group more than there are levels. -/
theorem read_nesting_nested :
    ∃ i reader, (Reader.start (.ofList [ElementaryFunction.max])
        (Derivation.nested (.ofList [ElementaryFunction.max]) (nestingLimit + 1)).tokens
        .empty).read .expression =
          (.error (.atToken (.tooDeep nestingLimit) (Derivation.nested
            (.ofList [ElementaryFunction.max]) (nestingLimit + 1)).tokens (some i)), reader) ∧
      OpensBeyond (.ofList [ElementaryFunction.max]) nestingLimit (Derivation.nested
        (.ofList [ElementaryFunction.max]) (nestingLimit + 1)).tokens i := by
  refine ((read_nesting (.ofList [ElementaryFunction.max]) .empty).1 _).2 ?_
  rw [← Derivation.depth_le_iff, Derivation.depth_nested]
  exact Nat.not_succ_le_self nestingLimit

end FormulaEngine
