import FormulaEngine.Engine
import FormulaEngine.Proofs.Expr.Machine
import FormulaEngine.Proofs.Grammar.FreeNames
import FormulaEngine.Proofs.Grammar.Occurrence

/-! What an engine knows of a formula that it has parsed. The tree is valid, its
variables are all those of the table, and the functions that it calls are those of the
library at the time. Of the table this asks only how many variables there are, so it
does not change when values are bound. -/

namespace FormulaEngine

variable {φ : Type} [Callable φ] {library : Library φ}

/-- A tree that tokens were read as, with a library and with the table of its variables. -/
structure ReadFrom (library : Library φ) (table : Bindings) (tokens : List String)
    (root : Expr φ) : Prop where
  check : root.check table tokens = .ok ()
  /-- The variables of the tree are those of the table. -/
  ids : ∀ id, Label.var id ∈ root.labels ↔ id < table.size
  calls : root.CallsFrom library

/-- Whether a node is valid depends on the size of the table only. -/
theorem Label.fault?_congr {table later : Bindings} (h : table.size = later.size) (l : Label φ) :
    l.fault? table = l.fault? later := by
  cases l with
  | number | binary | call => rfl
  | var id => simp only [fault?, Bindings.isNone_get?_iff, h]

/-- The variables of a derivation are in the table that has its names. -/
theorem Derivation.lt_size_of_var {level : Level} {sign : Bool}
    (d : Derivation library (.level level) sign) {table : Bindings} {i id : Nat}
    (h : Label.var id ∈ (d.tree (table.internAll d.uses).indexOf i).labels) :
    id < (table.internAll d.uses).size := by
  rw [← Expr.mem_ids_iff, d.ids_tree, List.mem_map] at h
  obtain ⟨name, hn, rfl⟩ := h
  obtain ⟨id, hid⟩ := Bindings.idOf?_internAll table hn
  rw [Bindings.indexOf_eq hid]
  exact Bindings.lt_size_of_idOf? hid

namespace ReadFrom

variable {table later : Bindings} {tokens : List String} {root : Expr φ}

theorem of_size_eq (h : ReadFrom library table tokens root) (hsize : table.size = later.size) :
    ReadFrom library later tokens root := by
  refine ⟨?_, fun id => hsize ▸ h.ids id, h.calls⟩
  rw [Expr.check_eq_ok_iff]
  intro l hl
  rw [← l.fault?_congr hsize]
  exact Expr.check_eq_ok_iff.mp h.check l hl

/-- With all values bound the tree is ready to be evaluated. -/
theorem ready (h : ReadFrom library table tokens root)
    (hbound : ∀ v ∈ table.entries, v.hasValue = true) : root.Ready table := by
  refine ⟨Expr.check_eq_ok_iff.mp h.check, ?_⟩
  intro id hid
  have hlt : id < table.entries.length := (h.ids id).mp hid
  rw [Bindings.value?, Bindings.get?, List.getElem?_eq_getElem hlt]
  exact hbound _ (List.getElem_mem hlt)

/-- What is accepted and valid has been read. -/
theorem of_accepts (h : Accepts library tokens .empty root table)
    (hcheck : root.check table tokens = .ok ()) : ReadFrom library table tokens root := by
  obtain ⟨d, -, -, rfl, rfl⟩ := h.sentence
  refine ⟨hcheck, fun id => ⟨d.lt_size_of_var, fun hlt => ?_⟩, d.callsFrom_tree _ 0⟩
  rw [← Expr.mem_ids_iff, d.ids_tree, List.mem_map]
  rcases Bindings.lt_size_internAll hlt with h0 | ⟨name, hn, hid⟩
  · exact absurd h0 (Nat.not_lt_zero id)
  · exact ⟨name, hn, Bindings.indexOf_eq hid⟩

end ReadFrom

namespace Engine

variable {tokens : List String} {root : Expr φ} {table : Bindings}

omit [Callable φ] in
/-- A cleared engine has its functions and its last tokens, and is as if new otherwise. -/
theorem clear_eq (engine : Engine φ) : engine.clear =
    { library := engine.library, tokens := engine.tokens, bindings := .empty } := rfl

/-- The tree that tokens are read as when the table is clear, and its variables. -/
def built (library : Library φ) (tokens : List String) : Except Failure (Expr φ × Bindings) :=
  (build library tokens .empty).1.map fun root => (root, (build library tokens .empty).2)

/-- A tree that was read is checked, and then it is seen whether tokens are left over. -/
theorem built_of_read {reader : Reader φ}
    (h : (Reader.start library tokens .empty).read .expression = (.ok root, reader)) :
    built library tokens = root.check reader.cursor.bindings tokens >>= fun _ =>
      if reader.atEnd then .ok (root, reader.cursor.bindings)
      else .error (.atToken .trailingSymbols tokens (some reader.cursor.index)) := by
  simp only [built, build, h]
  cases root.check reader.cursor.bindings tokens with
  | error failure => rfl
  | ok _ => cases reader.atEnd <;> rfl

theorem built_of_unread {failure : Failure} {reader : Reader φ}
    (h : (Reader.start library tokens .empty).read .expression = (.error failure, reader)) :
    built library tokens = .error failure := by
  simp only [built, build, h]
  rfl

/-- Building succeeds exactly on accepted tokens with a valid tree. -/
theorem built_eq_ok_iff : built library tokens = .ok (root, table) ↔
    Accepts library tokens .empty root table ∧ root.check table tokens = .ok () := by
  unfold Accepts
  cases hread : (Reader.start library tokens .empty).read .expression with
  | mk result reader =>
    cases result with
    | error failure => simp [built_of_unread hread]
    | ok tree =>
      rw [built_of_read hread]
      simp only [Prod.mk.injEq, Except.ok.injEq]
      cases hcheck : tree.check reader.cursor.bindings tokens with
      | error failure =>
        refine iff_of_false nofun ?_
        rintro ⟨⟨_, ⟨rfl, rfl⟩, _, rfl⟩, hok⟩
        rw [hcheck] at hok
        cases hok
      | ok _ =>
        change (if reader.atEnd = true then _ else _) = _ ↔ _
        cases hend : reader.atEnd with
        | false =>
          refine iff_of_false nofun ?_
          rintro ⟨⟨_, ⟨rfl, rfl⟩, hend', _⟩, _⟩
          rw [hend] at hend'
          cases hend'
        | true =>
          simp only [if_true, Except.ok.injEq, Prod.mk.injEq]
          constructor
          · rintro ⟨rfl, rfl⟩
            exact ⟨⟨reader, ⟨rfl, rfl⟩, hend, rfl⟩, hcheck⟩
          · rintro ⟨⟨_, ⟨rfl, rfl⟩, _, rfl⟩, _⟩
            exact ⟨rfl, rfl⟩

section Parse

variable {engine : Engine φ} {text : String}

/-- A parse clears the engine first, so it builds with an empty table. -/
theorem parse_eq_of_build {result : Except Failure (Expr φ)}
    (h : build engine.library (tokenize text) .empty = (result, table)) :
    engine.parse text = match result with
      | .ok root =>
        (.ok (), { engine with tokens := tokenize text, bindings := table, root := some root })
      | .error failure => (.error failure,
        { engine with tokens := tokenize text, bindings := .empty, root := none }) := by
  cases result with
  | ok root => simp only [parse, clear_eq, h]
  | error failure => simp only [parse, clear_eq, h, Bindings.clear_eq_empty]

theorem parse_of_built_ok (h : built engine.library (tokenize text) = .ok (root, table)) :
    engine.parse text =
      (.ok (), { engine with tokens := tokenize text, bindings := table, root := some root }) := by
  cases hbuild : build engine.library (tokenize text) .empty with
  | mk result later =>
    rw [built, hbuild] at h
    cases result with
    | error failure => cases h
    | ok tree =>
      cases h
      exact parse_eq_of_build hbuild

theorem parse_of_built_error {failure : Failure}
    (h : built engine.library (tokenize text) = .error failure) :
    engine.parse text = (.error failure,
      { engine with tokens := tokenize text, bindings := .empty, root := none }) := by
  cases hbuild : build engine.library (tokenize text) .empty with
  | mk result later =>
    rw [built, hbuild] at h
    cases result with
    | ok tree => cases h
    | error failure =>
      cases h
      exact parse_eq_of_build hbuild

end Parse

/-- What parsing does to an engine: the tokens are those of the text in any case; a tree
that was read comes with its variables, and otherwise there is neither. -/
theorem parse_cases (engine : Engine φ) (text : String) :
    (∃ root bindings, ReadFrom engine.library bindings (tokenize text) root ∧
      engine.parse text =
        (.ok (), { engine with tokens := tokenize text, bindings, root := some root })) ∨
    ∃ failure, engine.parse text = (.error failure,
      { engine with tokens := tokenize text, bindings := .empty, root := none }) := by
  cases hbuild : built engine.library (tokenize text) with
  | ok read =>
    obtain ⟨root, bindings⟩ := read
    obtain ⟨haccepts, hcheck⟩ := built_eq_ok_iff.mp hbuild
    exact .inl ⟨root, bindings, .of_accepts haccepts hcheck, parse_of_built_ok hbuild⟩
  | error failure => exact .inr ⟨failure, parse_of_built_error hbuild⟩

theorem library_parse (engine : Engine φ) (text : String) :
    (engine.parse text).2.library = engine.library := by
  obtain ⟨root, bindings, -, hparse⟩ | ⟨failure, hparse⟩ := engine.parse_cases text
  · rw [hparse]
  · rw [hparse]

/-- A tree calls the functions that the library has when the text is read. -/
theorem callsFrom_parse {engine : Engine φ} {text : String} {root : Expr φ}
    (h : (engine.parse text).2.root = some root) : root.CallsFrom engine.library := by
  obtain ⟨root, bindings, hread, hparse⟩ | ⟨failure, hparse⟩ := engine.parse_cases text
  · rw [hparse] at h
    cases h
    exact hread.calls
  · rw [hparse] at h
    cases h

/-- A text that parses leaves its free names in the table, in the order of their first uses. -/
theorem parse_of_ok {engine : Engine φ} {text : String} (h : (engine.parse text).1 = .ok ()) :
    ∃ root, engine.parse text = (.ok (), { engine with
      tokens := tokenize text
      bindings := .internAll .empty (freeNames engine.library (tokenize text))
      root := some root }) := by
  cases hbuild : built engine.library (tokenize text) with
  | error failure =>
    rw [parse_of_built_error hbuild] at h
    cases h
  | ok read =>
    obtain ⟨root, table⟩ := read
    obtain rfl := (built_eq_ok_iff.mp hbuild).1.later_eq
    exact ⟨root, parse_of_built_ok hbuild⟩

/-- A table that was made by parsing has grown from the empty one. -/
theorem bindings_parse (engine : Engine φ) (text : String) :
    ∃ names, (engine.parse text).2.bindings = .internAll .empty names := by
  cases hbuild : built engine.library (tokenize text) with
  | error failure =>
    rw [parse_of_built_error hbuild]
    exact ⟨[], rfl⟩
  | ok read =>
    rw [parse_of_built_ok hbuild]
    exact ⟨_, (built_eq_ok_iff.mp hbuild).1.later_eq⟩

/-- No name is twice in the table of a text. -/
theorem nodup_parse (engine : Engine φ) (text : String) :
    (engine.parse text).2.bindings.names.Nodup := by
  obtain ⟨names, hbindings⟩ := engine.bindings_parse text
  rw [hbindings]
  exact Bindings.nodup_names_internAll Bindings.nodup_names_empty names

/-- The variables of a text that was just parsed have no values. -/
theorem value_eq_none_parse (engine : Engine φ) (text : String) :
    ∀ v ∈ (engine.parse text).2.bindings.entries, v.value = none := by
  obtain ⟨names, hbindings⟩ := engine.bindings_parse text
  have hempty : ∀ v ∈ Bindings.empty.entries, v.value = none := nofun
  rw [hbindings]
  exact Bindings.value_eq_none_internAll hempty names

end Engine

end FormulaEngine
