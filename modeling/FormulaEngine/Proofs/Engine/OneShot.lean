import FormulaEngine.Proofs.Engine.Assignment
import FormulaEngine.Proofs.Engine.Verdict

/-! Evaluation in one step. It parses the text with the standard functions, gives the variables
the values that a context has for them, and evaluates. What it does not do is to ask, like an
assignment, whether all variables have values now: the first that has none is told by evaluation
instead. Nothing else keeps the two apart, and of the context no more is seen than the variables
of the text. -/

namespace FormulaEngine

open Token

/-- The values of a context for some names, in any order. -/
structure Restricts (values : List (String × Float)) (context : String → Option Float)
    (names : List String) : Prop where
  nodup : (values.map (·.1)).Nodup
  mem_iff : ∀ name value, (name, value) ∈ values ↔ name ∈ names ∧ context name = some value

namespace Bindings

/-- Variables of these names with the values of a context. -/
def filled (names : List String) (context : String → Option Float) : Bindings :=
  ⟨names.map fun name => ⟨name, context name⟩⟩

theorem filled_congr {names : List String} {context context' : String → Option Float}
    (h : ∀ name ∈ names, context' name = context name) :
    filled names context' = filled names context := by
  refine congrArg Bindings.mk (List.map_congr_left fun name hname => ?_)
  rw [h name hname]

/-- A context that has values for all names leaves no variable without one. -/
theorem hasValue_filled {names : List String} {context : String → Option Float}
    (h : ∀ name ∈ names, (context name).isSome = true) :
    ∀ v ∈ (filled names context).entries, v.hasValue = true := by
  rw [filled, List.forall_mem_map]
  exact h

/-- Of the names that were interned, the first that the context lacks is the first variable
without a value. -/
theorem firstUnbound?_filled {before : List String} {name : String}
    {context : String → Option Float} (hbefore : ∀ other ∈ before, (context other).isSome = true)
    (hname : context name = none) (after : List String) :
    (filled (internAll .empty (before ++ name :: after)).names context).firstUnbound? =
      some ⟨name, none⟩ := by
  let known := internAll .empty before
  have hknown : ∀ other ∈ known.names, (context other).isSome = true := by
    intro other hother
    obtain hempty | hother := mem_names_internAll.mp hother
    · cases hempty
    · exact hbefore other hother
  have hnew : name ∉ known.names := by
    intro hmem
    simpa [hname] using hknown name hmem
  obtain ⟨added, hadded⟩ := within_internAll (known.intern name).2 after
  have hnames : (internAll .empty (before ++ name :: after)).names =
      known.names ++ name :: added.map (·.name) := by
    rw [internAll_append, internAll_cons, names, ← hadded, entries_intern_of_not_mem hnew]
    simp [names]
  have hentries : (filled (internAll .empty (before ++ name :: after)).names context).entries =
      (filled known.names context).entries ++
        ⟨name, none⟩ :: (filled (added.map (·.name)) context).entries := by
    rw [filled, hnames, List.map_append, List.map_cons, hname]
    rfl
  exact firstUnbound?_eq_some hentries (hasValue_filled hknown) rfl

end Bindings

namespace Restricts

variable {values : List (String × Float)} {context : String → Option Float} {names : List String}

/-- The values are there: those that a context has for the variables of a table. -/
theorem filterMap {table : Bindings} (hn : table.names.Nodup) (context : String → Option Float) :
    Restricts (table.entries.filterMap fun v => (context v.name).map (v.name, ·)) context
      table.names := by
  have hnames : (table.entries.filterMap fun v => (context v.name).map (v.name, ·)) =
      table.names.filterMap fun name => (context name).map (name, ·) := by
    rw [Bindings.names, List.filterMap_map]
    rfl
  rw [hnames]
  constructor
  · rw [List.map_filterMap]
    refine hn.filterMap ?_
    intro a b name ha hb
    simp only [Option.map_map, Option.mem_def, Option.map_eq_some_iff, Function.comp_apply,
      exists_and_right] at ha hb
    exact ha.2.trans hb.2.symm
  · intro name value
    simp [List.mem_filterMap]

theorem lastValue?_eq (h : Restricts values context names) {name : String} (hname : name ∈ names) :
    lastValue? values name = context name := by
  ext value
  rw [lastValue?_eq_some_iff h.nodup, h.mem_iff]
  exact and_iff_right hname

/-- The values of a context fill a table that had none. -/
theorem assigned_eq {table : Bindings} (h : Restricts values context table.names)
    (hunbound : ∀ v ∈ table.entries, v.value = none) :
    table.assigned values = .filled table.names context := by
  refine congrArg Bindings.mk ?_
  rw [Bindings.names, List.map_map]
  refine List.map_congr_left fun v hv => ?_
  have hname : v.name ∈ table.names := List.mem_map_of_mem hv
  rw [Variable.assigned, h.lastValue?_eq hname, hunbound v hv, Option.or_none]
  rfl

end Restricts

namespace Engine

variable {φ : Type}

/-- The engine with the values of a context bound to its variables. -/
def fill (engine : Engine φ) (context : String → Option Float) : Engine φ :=
  { engine with bindings := .filled engine.bindings.names context }

section Fill

variable {engine : Engine φ} {values : List (String × Float)} {context : String → Option Float}

theorem knows_of_restricts (h : Restricts values context engine.bindings.names) :
    engine.Knows values := fun entry hentry => ((h.mem_iff entry.1 entry.2).mp hentry).1

theorem bind_eq_fill (hn : engine.bindings.names.Nodup)
    (hunbound : ∀ v ∈ engine.bindings.entries, v.value = none)
    (h : Restricts values context engine.bindings.names) :
    engine.bind values = (.ok (), engine.fill context) := by
  rw [bind_of_known hn (knows_of_restricts h), h.assigned_eq hunbound]
  rfl

theorem assign_eq_fill (hn : engine.bindings.names.Nodup)
    (hunbound : ∀ v ∈ engine.bindings.entries, v.value = none)
    (h : Restricts values context engine.bindings.names) :
    engine.assign values =
      (completeness (.filled engine.bindings.names context), engine.fill context) := by
  rw [assign_of_known hn (knows_of_restricts h), h.assigned_eq hunbound]
  rfl

variable [Callable φ] {root : Expr φ}

/-- The first variable that the context lacks is told. -/
theorem evaluate_fill_of_missing (hroot : engine.root = some root) {v : Variable}
    (hv : (Bindings.filled engine.bindings.names context).firstUnbound? = some v) :
    (engine.fill context).evaluate = .error (.unset v.name) := by
  rw [evaluate, fill, hroot]
  simp only [hv]

theorem evaluate_fill_of_complete (hroot : engine.root = some root)
    (hall : ∀ name ∈ engine.bindings.names, (context name).isSome = true) :
    (engine.fill context).evaluate =
      .ok (root.evaluate (.filled engine.bindings.names context)) := by
  rw [evaluate, fill, hroot]
  simp only [Bindings.firstUnbound?_eq_none_iff.mpr (Bindings.hasValue_filled hall)]

/-- With a formula, evaluation fails for want of a value only. -/
theorem unset_of_evaluate_fill (hroot : engine.root = some root) {failure : Failure}
    (h : (engine.fill context).evaluate = .error failure) : ∃ name, failure = .unset name := by
  cases hmissing : (Bindings.filled engine.bindings.names context).firstUnbound? with
  | none =>
    have hall := Bindings.firstUnbound?_eq_none_iff.mp hmissing
    rw [Bindings.filled, List.forall_mem_map] at hall
    rw [evaluate_fill_of_complete hroot hall] at h
    cases h
  | some v =>
    rw [evaluate_fill_of_missing hroot hmissing] at h
    exact ⟨v.name, (Except.error.inj h).symm⟩

end Fill

/-- A text that does not parse fails at a place of its own. -/
theorem located_of_parse [Callable φ] {engine : Engine φ} {text : String} {failure : Failure}
    (h : (engine.parse text).1 = .error failure) :
    ∃ cause location, failure = .located cause location := by
  rw [parse_fst] at h
  obtain ⟨cause, i, hfailure, -⟩ := (verdict_built engine.library (tokenize text)).located h
  exact ⟨cause, _, hfailure⟩

end Engine

/-- A text parsed with the standard functions. -/
def parseStandard [PairFunctions] (text : String) :
    Except Failure Unit × Engine ElementaryFunction :=
  (Engine.ofFunctions ElementaryFunction.all).parse text

section Evaluate

variable [PairFunctions] {text : String} {context : String → Option Float}

theorem evaluate_of_error {failure : Failure} (h : (parseStandard text).1 = .error failure) :
    evaluate text context = .error failure := by
  rw [parseStandard] at h
  simp only [evaluate, h]

/-- Evaluation in one step is evaluation with the values of the context. -/
theorem evaluate_of_ok (h : (parseStandard text).1 = .ok ()) :
    evaluate text context = ((parseStandard text).2.fill context).evaluate := by
  rw [parseStandard] at h ⊢
  have hn := Engine.nodup_parse (.ofFunctions ElementaryFunction.all) text
  have hunbound := Engine.value_eq_none_parse (.ofFunctions ElementaryFunction.all) text
  have hbind := Engine.bind_eq_fill hn hunbound (.filterMap hn context)
  simp only [evaluate, h, hbind]

/-- A text that parses leaves its tree behind, and its free names without values. -/
theorem parseStandard_of_ok (h : (parseStandard text).1 = .ok ()) :
    ∃ root, (parseStandard text).2.root = some root ∧ (parseStandard text).2.bindings =
      .internAll .empty (freeNames (.ofList ElementaryFunction.all) (tokenize text)) := by
  obtain ⟨root, hparse⟩ := Engine.parse_of_ok h
  rw [parseStandard, hparse]
  exact ⟨root, rfl, rfl⟩

end Evaluate

/-- What comes of evaluation in one step. -/
structure OneShot [PairFunctions] (text : String) (context : String → Option Float) : Prop where
  /-- A text that does not parse fails as it does by itself. -/
  unparsed : ∀ failure, (parseStandard text).1 = .error failure →
    evaluate text context = .error failure
  /-- The variables are the free names of the text. -/
  names_iff : (parseStandard text).1 = .ok () → ∀ name,
    name ∈ (parseStandard text).2.bindings.names ↔
      name ∈ freeNames (.ofList ElementaryFunction.all) (tokenize text)
  /-- The first variable in the text that the context lacks is told. -/
  unset : (parseStandard text).1 = .ok () → ∀ before name after,
    freeNames (.ofList ElementaryFunction.all) (tokenize text) = before ++ name :: after →
    (∀ other ∈ before, (context other).isSome = true) → context name = none →
    evaluate text context = .error (.unset name)
  /-- If it lacks none, its values for the variables are assigned, in any order, and then the
  formula is evaluated. -/
  value : (parseStandard text).1 = .ok () →
    (∀ name ∈ freeNames (.ofList ElementaryFunction.all) (tokenize text),
      (context name).isSome = true) →
    ∀ values, Restricts values context (parseStandard text).2.bindings.names →
      ∃ value, ((parseStandard text).2.assign values).1 = .ok () ∧
        ((parseStandard text).2.assign values).2.evaluate = .ok value ∧
        evaluate text context = .ok value
  /-- No failure is one of assigning values, or of an engine without a formula. -/
  failed : ∀ failure, evaluate text context = .error failure →
    (∃ cause location, failure = .located cause location) ∨ ∃ name, failure = .unset name
  /-- Of the context nothing matters but the variables. -/
  irrelevant : ∀ context' : String → Option Float,
    (∀ name ∈ (parseStandard text).2.bindings.names, context' name = context name) →
    evaluate text context' = evaluate text context

/-- Evaluation in one step is parsing, assigning the values of the context and evaluating. -/
theorem evaluate_oneShot [PairFunctions] (text : String) (context : String → Option Float) :
    OneShot text context where
  unparsed failure h := evaluate_of_error h
  names_iff h name := by
    obtain ⟨root, -, hbindings⟩ := parseStandard_of_ok h
    rw [hbindings, Bindings.mem_names_internAll]
    exact or_iff_right List.not_mem_nil
  unset h before name after hnames hbefore hname := by
    obtain ⟨root, hroot, hbindings⟩ := parseStandard_of_ok h
    have hmissing := Bindings.firstUnbound?_filled hbefore hname after
    rw [← hnames, ← hbindings] at hmissing
    rw [evaluate_of_ok h, Engine.evaluate_fill_of_missing hroot hmissing]
  value h hall values hvalues := by
    obtain ⟨root, hroot, hbindings⟩ := parseStandard_of_ok h
    have hnames : ∀ name ∈ (parseStandard text).2.bindings.names, (context name).isSome = true := by
      intro name hname
      rw [hbindings, Bindings.mem_names_internAll] at hname
      exact hall name (hname.resolve_left List.not_mem_nil)
    have hassign : (parseStandard text).2.assign values = _ :=
      Engine.assign_eq_fill (Engine.nodup_parse _ text) (Engine.value_eq_none_parse _ text) hvalues
    have hvalue := Engine.evaluate_fill_of_complete hroot hnames
    rw [hassign, evaluate_of_ok h]
    exact ⟨_, Engine.completeness_eq_ok (Bindings.hasValue_filled hnames), hvalue, hvalue⟩
  failed failure h := by
    cases hparse : (parseStandard text).1 with
    | error failure' =>
      rw [evaluate_of_error hparse] at h
      obtain rfl := Except.error.inj h
      exact .inl (Engine.located_of_parse hparse)
    | ok _ =>
      obtain ⟨root, hroot, -⟩ := parseStandard_of_ok hparse
      rw [evaluate_of_ok hparse] at h
      exact .inr (Engine.unset_of_evaluate_fill hroot h)
  irrelevant context' hcontext := by
    cases h : (parseStandard text).1 with
    | error failure => rw [evaluate_of_error h, evaluate_of_error h]
    | ok _ =>
      rw [evaluate_of_ok h, evaluate_of_ok h, Engine.fill, Engine.fill,
        Bindings.filled_congr hcontext]

/-- The value of the first variable does not help. -/
theorem evaluate_oneShot_partial :
    evaluate "x*y" (fun name => if name = "x" then some 2 else none) = .error (.unset "y") := by
  have htokens : tokenize "x*y" = ["x", "*", "y"] := by
    rw [tokenize, String.foldl_eq_foldl_toList]
    decide
  let root : Expr ElementaryFunction := .binary '*' (some 1) (.var 0 (some 0)) (.var 1 (some 2))
  let table : Bindings := ⟨[⟨"x", none⟩, ⟨"y", none⟩]⟩
  have haccepts : Accepts (.ofList ElementaryFunction.all) ["x", "*", "y"] .empty root table :=
    ⟨_, rfl, rfl, rfl⟩
  have hcheck : root.check table ["x", "*", "y"] = .ok () := by
    rw [Expr.check_eq_ok_iff, Expr.forall_mem_labels_iff]
    simp only [root, Expr.sourceOrder_binary, Expr.sourceOrder_var, List.singleton_append]
    decide
  have hbuild := Engine.built_eq_ok_iff.mpr ⟨haccepts, hcheck⟩
  rw [← htokens] at hbuild
  have hparse : (parseStandard "x*y").1 = .ok () := by
    rw [parseStandard, Engine.parse_fst, Engine.ofFunctions, hbuild]
    rfl
  have hnames : freeNames (.ofList ElementaryFunction.all) (tokenize "x*y") = ["x", "y"] := by
    rw [htokens]
    decide
  exact (evaluate_oneShot "x*y" _).unset hparse ["x"] "y" [] hnames (by simp) (by decide)

end FormulaEngine
