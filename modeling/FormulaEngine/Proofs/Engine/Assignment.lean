import FormulaEngine.Proofs.Engine.Lifecycle
import FormulaEngine.Proofs.Grammar.SourceOrder

/-! Values that an engine is given by name. All names are looked up before any value is bound,
so a list with an unknown name changes nothing. Otherwise every value is kept, whether the
variables are complete with it or not. The indices by which values are bound stand for the
names because no engine ever has a table with a name twice. -/

namespace FormulaEngine

variable {φ : Type}

namespace Engine

section Resolve

variable {table : Bindings}

theorem resolve_cons {name : String} {id : Nat} (hid : table.idOf? name = some id) (value : Float)
    (rest : List (String × Float)) :
    resolve table ((name, value) :: rest) = (resolve table rest).map ((id, value) :: ·) := by
  rw [resolve, List.mapM_cons, resolve]
  simp only [hid]
  generalize rest.mapM (m := Except Failure) _ = bound
  cases bound with
  | error failure => rfl
  | ok bound => rfl

/-- If all names are known, every value comes with the index of its name. -/
theorem resolve_of_known {values : List (String × Float)}
    (hknown : ∀ entry ∈ values, entry.1 ∈ table.names) :
    resolve table values = .ok (values.map fun (name, value) => (table.indexOf name, value)) := by
  induction values with
  | nil => rfl
  | cons entry rest ih =>
    obtain ⟨name, value⟩ := entry
    obtain ⟨hname, hrest⟩ := List.forall_mem_cons.mp hknown
    obtain ⟨id, hid⟩ := Option.isSome_iff_exists.mp (Bindings.isSome_idOf?_iff.mpr hname)
    rw [resolve_cons hid, ih hrest]
    simp only [List.map_cons, Bindings.indexOf_eq hid]
    rfl

/-- The first name that is not known is told, whatever comes behind it. -/
theorem resolve_of_unknown {before : List (String × Float)}
    (hknown : ∀ entry ∈ before, entry.1 ∈ table.names) {name : String} (hname : name ∉ table.names)
    (value : Float) (after : List (String × Float)) :
    resolve table (before ++ (name, value) :: after) = .error (.unknownVariable name) := by
  induction before with
  | nil =>
    have hnone : table.idOf? name = none := by
      rw [← Option.not_isSome_iff_eq_none, Bindings.isSome_idOf?_iff]
      exact hname
    rw [List.nil_append, resolve, List.mapM_cons]
    simp only [hnone]
    rfl
  | cons entry rest ih =>
    obtain ⟨other, value'⟩ := entry
    obtain ⟨hother, hrest⟩ := List.forall_mem_cons.mp hknown
    obtain ⟨id, hid⟩ := Option.isSome_iff_exists.mp (Bindings.isSome_idOf?_iff.mpr hother)
    rw [List.cons_append, resolve_cons hid, ih hrest]
    rfl

end Resolve

/-- All names that values are given for are variables of the formula. -/
def Knows (engine : Engine φ) (values : List (String × Float)) : Prop :=
  ∀ entry ∈ values, entry.1 ∈ engine.bindings.names

/-- Whether all variables of a table have values, and the first that has none. -/
def completeness (table : Bindings) : Except Failure Unit :=
  match table.firstUnbound? with
  | some v => .error (.unassigned v.name)
  | none => .ok ()

theorem completeness_eq_unassigned {table : Bindings} {before after : List Variable} {v : Variable}
    (hentries : table.entries = before ++ v :: after) (hbefore : ∀ w ∈ before, w.hasValue = true)
    (hv : v.hasValue = false) : completeness table = .error (.unassigned v.name) := by
  rw [completeness, Bindings.firstUnbound?_eq_some hentries hbefore hv]

theorem completeness_eq_ok {table : Bindings} (h : ∀ v ∈ table.entries, v.hasValue = true) :
    completeness table = .ok () := by
  rw [completeness, Bindings.firstUnbound?_eq_none_iff.mpr h]

section Assign

variable {engine : Engine φ}

theorem assign_of_unknown {before : List (String × Float)} (hknown : engine.Knows before)
    {name : String} (hname : name ∉ engine.bindings.names) (value : Float)
    (after : List (String × Float)) :
    engine.assign (before ++ (name, value) :: after) =
      (.error (.unknownVariable name), engine) := by
  rw [assign, bind, resolve_of_unknown hknown hname]

theorem bind_of_known (hn : engine.bindings.names.Nodup) {values : List (String × Float)}
    (hknown : engine.Knows values) : engine.bind values =
      (.ok (), { engine with bindings := engine.bindings.assigned values }) := by
  rw [bind, resolve_of_known hknown]
  simp only [Bindings.foldl_bind_indexOf hn hknown]

theorem assign_of_known (hn : engine.bindings.names.Nodup) {values : List (String × Float)}
    (hknown : engine.Knows values) :
    engine.assign values = (completeness (engine.bindings.assigned values),
      { engine with bindings := engine.bindings.assigned values }) := by
  rw [assign, bind_of_known hn hknown, completeness]
  simp only
  cases (engine.bindings.assigned values).firstUnbound? with
  | none => rfl
  | some v => rfl

theorem assign_append (hn : engine.bindings.names.Nodup) {xs ys : List (String × Float)}
    (hx : engine.Knows xs) (hy : engine.Knows ys) :
    (engine.assign xs).2.assign ys = engine.assign (xs ++ ys) := by
  have hnames := Bindings.names_assigned engine.bindings xs
  have hnext : Knows { engine with bindings := engine.bindings.assigned xs } ys := by
    intro entry hentry
    rw [hnames]
    exact hy entry hentry
  have hall : engine.Knows (xs ++ ys) := List.forall_mem_append.mpr ⟨hx, hy⟩
  rw [assign_of_known hn hx, assign_of_known hn hall, assign_of_known (hnames ▸ hn) hnext,
    Bindings.assigned_append]

theorem assign_perm (hn : engine.bindings.names.Nodup) {xs ys : List (String × Float)}
    (hx : engine.Knows xs) (h : xs.Perm ys) (hnames : (xs.map (·.1)).Nodup) :
    engine.assign xs = engine.assign ys := by
  have hy : engine.Knows ys := fun entry hentry => hx entry (h.mem_iff.mpr hentry)
  rw [assign_of_known hn hx, assign_of_known hn hy, Bindings.assigned_perm _ h hnames]

end Assign

end Engine

/-- What assigning values does to an engine. -/
structure Engine.Assigns (engine : Engine φ) : Prop where
  /-- The first name that is no variable is told, and nothing is changed. -/
  unknown : ∀ before name value after, engine.Knows before → name ∉ engine.bindings.names →
    engine.assign (before ++ (name, value) :: after) = (.error (.unknownVariable name), engine)
  /-- Otherwise all variables that are named get the last value of their names. -/
  known : ∀ values, engine.Knows values →
    (engine.assign values).2 = { engine with bindings := engine.bindings.assigned values }
  /-- The first variable is told that has no value yet. -/
  unassigned : ∀ values, engine.Knows values → ∀ before v after,
    (engine.bindings.assigned values).entries = before ++ v :: after →
    (∀ w ∈ before, w.hasValue = true) → v.hasValue = false →
    (engine.assign values).1 = .error (.unassigned v.name)
  complete : ∀ values, engine.Knows values →
    (∀ v ∈ (engine.bindings.assigned values).entries, v.hasValue = true) →
    (engine.assign values).1 = .ok ()
  /-- One list of values after another is both as one. -/
  append : ∀ xs ys, engine.Knows xs → engine.Knows ys →
    (engine.assign xs).2.assign ys = engine.assign (xs ++ ys)
  /-- The order of values of different names does not matter. -/
  perm : ∀ xs ys, engine.Knows xs → xs.Perm ys → (xs.map (·.1)).Nodup →
    engine.assign xs = engine.assign ys

theorem Engine.assigns_of_nodup {engine : Engine φ} (hn : engine.bindings.names.Nodup) :
    engine.Assigns where
  unknown before name value after hknown hname := assign_of_unknown hknown hname value after
  known values hknown := by rw [assign_of_known hn hknown]
  unassigned values hknown before v after hentries hbefore hv := by
    rw [assign_of_known hn hknown]
    exact completeness_eq_unassigned hentries hbefore hv
  complete values hknown hbound := by
    rw [assign_of_known hn hknown]
    exact completeness_eq_ok hbound
  append xs ys hx hy := assign_append hn hx hy
  perm xs ys hx h hnames := assign_perm hn hx h hnames

section Session

variable [Callable φ]

namespace Session

theorem nodup_step {s : Session φ} (h : s.engine.bindings.names.Nodup) (operation : Operation φ) :
    (s.step operation).engine.bindings.names.Nodup := by
  cases operation with
  | register f => exact h
  | parse text => exact s.engine.nodup_parse text
  | assign values =>
    obtain ⟨bindings, hassign, hnames⟩ := s.engine.assign_eq values
    rw [step, hassign]
    exact hnames ▸ h
  | evaluate => exact h
  | clone => exact h

theorem nodup_run {s : Session φ} (h : s.engine.bindings.names.Nodup)
    (operations : List (Operation φ)) : (s.run operations).engine.bindings.names.Nodup := by
  induction operations generalizing s with
  | nil => exact h
  | cons operation rest ih => exact ih (nodup_step h operation)

/-- Whatever was done with an engine, values are assigned all or none, add up, and may come
in any order. -/
theorem assigns (functions : List φ) (operations : List (Operation φ)) :
    ((start functions).run operations).engine.Assigns :=
  Engine.assigns_of_nodup (nodup_run Bindings.nodup_names_empty operations)

/-- A name that is unknown keeps the value before it from being bound. -/
theorem assigns_sum :
    let engine := ((start [ElementaryFunction.max]).run [.parse "x+y", .assign [("y", 2)]]).engine
    engine.assign [("x", 1), ("z", 3)] = (.error (.unknownVariable "z"), engine) ∧
      (engine.assign [("x", 1), ("x", 3)]).1 = .ok () := by
  intro engine
  have htokens : tokenize "x+y" = ["x", "+", "y"] := by
    rw [tokenize, String.foldl_eq_foldl_toList]
    decide
  let root : Expr ElementaryFunction := .binary '+' (some 1) (.var 0 (some 0)) (.var 1 (some 2))
  let table : Bindings := ⟨[⟨"x", none⟩, ⟨"y", none⟩]⟩
  have haccepts : Accepts (.ofList [ElementaryFunction.max]) ["x", "+", "y"] .empty root table :=
    ⟨_, rfl, rfl, rfl⟩
  have hcheck : root.check table ["x", "+", "y"] = .ok () := by
    rw [Expr.check_eq_ok_iff, Expr.forall_mem_labels_iff]
    simp only [root, Expr.sourceOrder_binary, Expr.sourceOrder_var, List.singleton_append]
    decide
  have hbuild := Engine.built_eq_ok_iff.mpr ⟨haccepts, hcheck⟩
  rw [← htokens] at hbuild
  have hparse : (Engine.ofFunctions [ElementaryFunction.max]).parse "x+y" = (.ok (), _) :=
    Engine.parse_of_built_ok hbuild
  have hentries : engine.bindings.entries = [⟨"x", none⟩, ⟨"y", some 2⟩] := by
    simp only [engine, run, start, List.foldl_cons, List.foldl_nil, step, hparse]
    rfl
  have hnames : engine.bindings.names = ["x", "y"] := by
    rw [Bindings.names, hentries]
    rfl
  have hassigns : engine.Assigns :=
    assigns [ElementaryFunction.max] [.parse "x+y", .assign [("y", 2)]]
  have hx (value : Float) : engine.Knows [("x", value)] := by simp [Engine.Knows, hnames]
  have hz : "z" ∉ engine.bindings.names := by simp [hnames]
  refine ⟨hassigns.unknown [("x", 1)] "z" 3 [] (hx 1) hz, ?_⟩
  refine hassigns.complete [("x", 1), ("x", 3)] (by simp [Engine.Knows, hnames]) ?_
  simp only [Bindings.assigned, hentries]
  decide

end Session

end Session

end FormulaEngine
