import FormulaEngine.Proofs.Bindings.FirstUses
import FormulaEngine.Proofs.Engine.Verdict

/-! The variables of a formula. They are the free names of its text, each once and in the order
of their first uses, and at first none has a value. A node of the tree knows its variable by an
index only. That index is the place which the name at the node has in this list, so wherever the
text uses a name the tree means the same variable, and no two names share one. -/

namespace FormulaEngine

open Token

variable {φ : Type} [Callable φ] {library : Library φ} {tokens : List String}

/-- The table has the free names of the tokens, and the tree refers to them by their places. -/
structure ListsVariables (library : Library φ) (tokens : List String) (table : Bindings)
    (root : Expr φ) : Prop where
  /-- Each name once, and no values. -/
  entries : table.entries = (freeNames library tokens).eraseDups.map fun name => ⟨name, none⟩
  mem_iff : ∀ name, name ∈ table.names ↔ name ∈ tokens ∧
    isSymbol name = false ∧ isNumeral name = false ∧ library.get? name = none
  /-- The names are in the order in which the tokens first have them. -/
  firstUses : table.names.Pairwise fun a b => tokens.idxOf a < tokens.idxOf b
  index : ∀ id position, (.var id, position) ∈ root.listed → ∃ i name,
    position = some i ∧ tokens[i]? = some name ∧ table.names.idxOf? name = some id
  shared : ∀ id i id' i', (.var id, some i) ∈ root.listed → (.var id', some i') ∈ root.listed →
    (id = id' ↔ tokens[i]? = tokens[i']?)

/-- A variable of a sentence stands at its name. -/
theorem Derivation.name_of_var {ids : String → Nat} {d : Sentence library} {i id : Nat}
    {position : Option Nat} (h : (.var id, position) ∈ (d.tree ids i).listed) :
    ∃ j name, position = some j ∧ (name, j) ∈ d.tokens.zipIdx i ∧ id = ids name ∧
      name ∈ freeNames library d.tokens := by
  obtain hzero | ⟨name, j, hname, hread, hposition⟩ := toldBy_of_mem_listed h
  · cases hzero
  · cases hread with
    | var isName isFree =>
      exact ⟨j, name, hposition, hname, rfl,
        mem_freeNames.mpr ⟨List.fst_mem_of_mem_zipIdx hname, isName, isFree⟩⟩

/-- Two places in a list that have names stand for the same index exactly if the names are the
same. -/
theorem index_eq_iff {names : List String} {name name' : String} {id id' : Nat}
    (h : names.idxOf? name = some id) (h' : names.idxOf? name' = some id') :
    id = id' ↔ name = name' := by
  constructor
  · rintro rfl
    obtain ⟨_, hname, -⟩ := List.idxOf?_eq_some_iff.mp h
    obtain ⟨_, hname', -⟩ := List.idxOf?_eq_some_iff.mp h'
    exact hname.symm.trans hname'
  · rintro rfl
    exact Option.some.inj (h.symm.trans h')

namespace Accepts

/-- What is accepted with an empty table leaves its free names in the table. -/
theorem listsVariables {root : Expr φ} {table : Bindings}
    (h : Accepts library tokens .empty root table) : ListsVariables library tokens table root := by
  have htable := h.later_eq
  obtain ⟨d, rfl, -, rfl, -⟩ := h.sentence
  have hnames : table.names = (freeNames library d.tokens).eraseDups := by
    rw [htable, Bindings.names_internAll, Bindings.newNames_empty]
    rfl
  have hindex : ∀ id position, (.var id, position) ∈ (d.tree table.indexOf 0).listed →
      ∃ i name, position = some i ∧ d.tokens[i]? = some name ∧
        table.names.idxOf? name = some id := by
    intro id position hnode
    obtain ⟨i, name, hposition, hname, rfl, hfree⟩ := Derivation.name_of_var hnode
    obtain ⟨id, hid⟩ := Bindings.idOf?_internAll .empty hfree
    rw [List.mk_mem_zipIdx_iff_getElem?] at hname
    rw [← htable] at hid
    refine ⟨i, name, hposition, hname, ?_⟩
    rw [Bindings.indexOf_eq hid, ← hid, htable, Bindings.idOf?_internAll_empty,
      ← Bindings.newNames_empty, Bindings.names_internAll]
    rfl
  refine ⟨?_, ?_, ?_, hindex, ?_⟩
  · rw [htable, Bindings.entries_internAll, Bindings.newNames_empty]
    rfl
  · intro name
    rw [hnames, List.mem_eraseDups, mem_freeNames, kind_eq_name_iff, and_assoc]
  · rw [hnames]
    exact pairwise_idxOf_eraseDups d.tokens _
  · intro id i id' i' hnode hnode'
    obtain ⟨_, name, ⟨⟩, hname, hid⟩ := hindex id _ hnode
    obtain ⟨_, name', ⟨⟩, hname', hid'⟩ := hindex id' _ hnode'
    rw [index_eq_iff hid hid', hname, hname', Option.some.injEq]

end Accepts

namespace Engine

/-- A text that parses leaves its free names behind as the variables, without repetitions, in
the order of their first uses and without values, and every use of a name in the tree refers to
it by its place among them. -/
theorem parse_variables (engine : Engine φ) (text : String)
    (h : (engine.parse text).1 = .ok ()) :
    ∃ root, (engine.parse text).2.root = some root ∧
      ListsVariables engine.library (tokenize text) (engine.parse text).2.bindings root := by
  cases hbuild : built engine.library (tokenize text) with
  | error failure =>
    rw [parse_of_built_error hbuild] at h
    cases h
  | ok read =>
    obtain ⟨root, table⟩ := read
    rw [parse_of_built_ok hbuild]
    exact ⟨root, rfl, (built_eq_ok_iff.mp hbuild).1.listsVariables⟩

/-- The name `max` is a variable where no function has it, and `x` is used twice. -/
theorem parse_variables_repeated :
    let engine := ofFunctions [ElementaryFunction.min]
    (engine.parse "x*max-min(x,y)").1 = .ok () ∧
      (engine.parse "x*max-min(x,y)").2.bindings.names = ["x", "max", "y"] := by
  intro engine
  have htokens : tokenize "x*max-min(x,y)" =
      ["x", "*", "max", "-", "min", "(", "x", ",", "y", ")"] := by
    rw [tokenize, String.foldl_eq_foldl_toList]
    decide
  let root : Expr ElementaryFunction :=
    .binary '-' (some 3) (.binary '*' (some 1) (.var 0 (some 0)) (.var 1 (some 2)))
      (.call .min (some 4) [.var 0 (some 6), .var 2 (some 8)])
  let table : Bindings := ⟨[⟨"x", none⟩, ⟨"max", none⟩, ⟨"y", none⟩]⟩
  have haccepts : Accepts engine.library (tokenize "x*max-min(x,y)") .empty root table := by
    rw [htokens]
    exact ⟨_, rfl, rfl, rfl⟩
  have hcheck : root.check table (tokenize "x*max-min(x,y)") = .ok () := by
    rw [Expr.check_eq_ok_iff, Expr.forall_mem_labels_iff]
    simp only [root, Expr.sourceOrder_binary, Expr.sourceOrder_var, Expr.sourceOrder_call,
      List.flatMap_cons, List.flatMap_nil, List.append_nil, List.nil_append,
      List.cons_append, List.forall_mem_cons]
    exact ⟨rfl, rfl, rfl, rfl, rfl, rfl, rfl, List.forall_mem_nil _⟩
  have hok : (engine.parse "x*max-min(x,y)").1 = .ok () := by
    rw [parse_fst, built_eq_ok_iff.mpr ⟨haccepts, hcheck⟩]
    rfl
  obtain ⟨_, -, hlists⟩ := parse_variables engine "x*max-min(x,y)" hok
  refine ⟨hok, ?_⟩
  rw [Bindings.names, hlists.entries, htokens]
  decide

end Engine

end FormulaEngine
