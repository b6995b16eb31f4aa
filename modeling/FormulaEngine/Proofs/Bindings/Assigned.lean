import FormulaEngine.Proofs.Bindings.Interning
import Mathlib.Data.List.Basic
import Mathlib.Data.List.Nodup

/-! Values given by name. Binding goes by index and changes no name. In a table that has no
name twice, to bind at the index of a name is to give a value to this name and to no other
one. So values that are bound one after the other come to what the last value of each name
says, and neither where a list of them is cut nor, if no name is given twice, how it is
ordered makes a difference. -/

namespace FormulaEngine

/-- The value that is given last for a name. -/
def lastValue? (values : List (String × Float)) (name : String) : Option Float :=
  values.reverse.lookup name

theorem lastValue?_append (xs ys : List (String × Float)) (name : String) :
    lastValue? (xs ++ ys) name = (lastValue? ys name).or (lastValue? xs name) := by
  rw [lastValue?, List.reverse_append, List.lookup_append]
  rfl

theorem lastValue?_singleton_self (name : String) (value : Float) :
    lastValue? [(name, value)] name = some value := List.lookup_cons_self

theorem lastValue?_singleton_of_ne {name other : String} (h : other ≠ name) (value : Float) :
    lastValue? [(name, value)] other = none := by
  rw [lastValue?, List.lookup_eq_none_iff]
  simpa using h

/-- If no name is given twice, every value is the last one of its name. -/
theorem lastValue?_eq_some_iff {values : List (String × Float)} (h : (values.map (·.1)).Nodup)
    {name : String} {value : Float} :
    lastValue? values name = some value ↔ (name, value) ∈ values := by
  rw [lastValue?, List.lookup_eq_some_iff]
  constructor
  · rintro ⟨before, after, hvalues, -⟩
    rw [← List.mem_reverse, hvalues]
    exact List.mem_append_right _ (List.mem_cons_self ..)
  · intro hmem
    obtain ⟨before, after, rfl⟩ := List.append_of_mem hmem
    refine ⟨after.reverse, before.reverse, by simp, ?_⟩
    intro entry hentry
    rw [List.map_append, List.map_cons, List.nodup_append, List.nodup_cons] at h
    have hne : name ≠ entry.1 := by
      rintro rfl
      exact h.2.1.1 (List.mem_map.mpr ⟨entry, List.mem_reverse.mp hentry, rfl⟩)
    simpa using hne

theorem lastValue?_perm {xs ys : List (String × Float)} (h : xs.Perm ys)
    (hnames : (xs.map (·.1)).Nodup) (name : String) : lastValue? xs name = lastValue? ys name := by
  have hnames' : (ys.map (·.1)).Nodup := (h.map _).nodup_iff.mp hnames
  ext value
  rw [lastValue?_eq_some_iff hnames, lastValue?_eq_some_iff hnames', h.mem_iff]

/-- A variable with the value that is given for it, if there is one. -/
def Variable.assigned (v : Variable) (values : List (String × Float)) : Variable :=
  { v with value := (lastValue? values v.name).or v.value }

namespace Bindings

/-- A table with the values that are given for its variables. -/
def assigned (table : Bindings) (values : List (String × Float)) : Bindings :=
  ⟨table.entries.map (·.assigned values)⟩

theorem names_assigned (table : Bindings) (values : List (String × Float)) :
    (table.assigned values).names = table.names := List.map_map

/-- A list of values can be given in parts. -/
theorem assigned_append (table : Bindings) (xs ys : List (String × Float)) :
    table.assigned (xs ++ ys) = (table.assigned xs).assigned ys := by
  have hvariable (v : Variable) : v.assigned (xs ++ ys) = (v.assigned xs).assigned ys := by
    simp only [Variable.assigned, lastValue?_append, Option.or_assoc]
  simp only [assigned, List.map_map, Function.comp_def, hvariable]

theorem assigned_nil (table : Bindings) : table.assigned [] = table := by
  have hvariable (v : Variable) : v.assigned [] = v := rfl
  simp only [assigned, hvariable, List.map_id']

theorem assigned_perm (table : Bindings) {xs ys : List (String × Float)} (h : xs.Perm ys)
    (hnames : (xs.map (·.1)).Nodup) : table.assigned xs = table.assigned ys := by
  simp only [assigned, Variable.assigned, lastValue?_perm h hnames]

theorem names_bind (table : Bindings) (id : Nat) (value : Float) :
    (table.bind id value).names = table.names := by
  refine List.ext_getElem? fun i => ?_
  simp only [names, bind, List.getElem?_map, List.getElem?_modify]
  split
  · cases table.entries[i]? <;> rfl
  · cases table.entries[i]? <;> rfl

theorem names_foldl_bind (bound : List (Nat × Float)) (table : Bindings) :
    (bound.foldl (fun table (id, value) => table.bind id value) table).names = table.names := by
  induction bound generalizing table with
  | nil => rfl
  | cons entry rest ih =>
    obtain ⟨id, value⟩ := entry
    rw [List.foldl_cons, ih, names_bind]

theorem getElem?_names_of_idOf? {table : Bindings} {name : String} {id : Nat}
    (hid : table.idOf? name = some id) : table.names[id]? = some name := by
  rw [idOf?_eq] at hid
  obtain ⟨hlt, hname, -⟩ := List.findIdx?_eq_some_iff_getElem.mp hid
  rw [List.getElem?_eq_getElem hlt, of_decide_eq_true hname]

/-- To bind at the index of a name is to give a value to the name. -/
theorem bind_of_idOf? {table : Bindings} (hn : table.names.Nodup) {name : String} {id : Nat}
    (hid : table.idOf? name = some id) (value : Float) :
    table.bind id value = table.assigned [(name, value)] := by
  have hname := getElem?_names_of_idOf? hid
  refine congrArg Bindings.mk (List.ext_getElem? fun i => ?_)
  rw [List.getElem?_modify, List.getElem?_map]
  cases hv : table.entries[i]? with
  | none => simp
  | some v =>
    have hvname : table.names[i]? = some v.name := by rw [names, List.getElem?_map, hv]; rfl
    by_cases hi : id = i
    · subst hi
      obtain rfl : name = v.name := Option.some.inj (hname.symm.trans hvname)
      simp [Variable.assigned, lastValue?_singleton_self]
    · have hne : v.name ≠ name := by
        rintro rfl
        have hlt := (List.getElem?_eq_some_iff.mp hname).1
        exact hi ((List.getElem?_inj hlt hn).mp (hname.trans hvname.symm))
      simp [hi, Variable.assigned, lastValue?_singleton_of_ne hne]

/-- Values bound at the indices of their names are given to the names. -/
theorem foldl_bind_indexOf {table : Bindings} (hn : table.names.Nodup)
    {values : List (String × Float)} (hknown : ∀ entry ∈ values, entry.1 ∈ table.names) :
    (values.map fun (name, value) => (table.indexOf name, value)).foldl
      (fun table (id, value) => table.bind id value) table = table.assigned values := by
  -- the table changes from value to value, the indices do not
  suffices h : ∀ later : Bindings, later.names = table.names →
      (values.map fun (name, value) => (table.indexOf name, value)).foldl
        (fun table (id, value) => table.bind id value) later = later.assigned values by
    exact h table rfl
  induction values with
  | nil => exact fun later _ => later.assigned_nil.symm
  | cons entry rest ih =>
    intro later hlater
    obtain ⟨name, value⟩ := entry
    obtain ⟨hname, hrest⟩ := List.forall_mem_cons.mp hknown
    obtain ⟨id, hid⟩ := Option.isSome_iff_exists.mp (isSome_idOf?_iff.mpr hname)
    have hid' : later.idOf? name = some id := by rw [idOf?_eq, hlater, ← idOf?_eq, hid]
    have hnext := (names_assigned later [(name, value)]).trans hlater
    simp only [List.map_cons, List.foldl_cons, indexOf_eq hid]
    rw [bind_of_idOf? (hlater ▸ hn) hid', ih hrest _ hnext, ← assigned_append]
    rfl

/-- The first variable without a value is the one behind variables that have values. -/
theorem firstUnbound?_eq_some {table : Bindings} {before after : List Variable}
    {v : Variable} (hentries : table.entries = before ++ v :: after)
    (hbefore : ∀ w ∈ before, w.hasValue = true) (hv : v.hasValue = false) :
    table.firstUnbound? = some v := by
  rw [firstUnbound?, List.find?_eq_some_iff_append]
  refine ⟨by rw [hv]; rfl, before, after, hentries, fun w hw => ?_⟩
  rw [hbefore w hw]
  rfl

theorem firstUnbound?_eq_none_iff {table : Bindings} :
    table.firstUnbound? = none ↔ ∀ v ∈ table.entries, v.hasValue = true := by
  rw [firstUnbound?, List.find?_eq_none]
  simp only [Bool.not_eq_true', Bool.not_eq_false]

end Bindings

end FormulaEngine
