import FormulaEngine.Bindings

/-! Tables that grow. Interning only ever adds an entry at the end, so what a name
was given as its index stays its index in every later table. -/

namespace FormulaEngine.Bindings

/-- The table with all these names in it. -/
def internAll (table : Bindings) (names : List String) : Bindings :=
  names.foldl (fun table name => (table.intern name).2) table

@[simp] theorem internAll_nil (table : Bindings) : table.internAll [] = table := rfl

@[simp] theorem internAll_singleton (table : Bindings) (name : String) :
    table.internAll [name] = (table.intern name).2 := rfl

theorem internAll_cons (table : Bindings) (name : String) (rest : List String) :
    table.internAll (name :: rest) = (table.intern name).2.internAll rest := rfl

theorem internAll_append (table : Bindings) (xs ys : List String) :
    table.internAll (xs ++ ys) = (table.internAll xs).internAll ys := List.foldl_append

/-- The first table is the beginning of the second. -/
def Within (table later : Bindings) : Prop := table.entries <+: later.entries

theorem Within.refl (table : Bindings) : table.Within table := List.prefix_refl _

theorem Within.trans {a b c : Bindings} (hab : a.Within b) (hbc : b.Within c) : a.Within c :=
  List.IsPrefix.trans hab hbc

theorem within_intern (table : Bindings) (name : String) :
    table.Within (table.intern name).2 := by
  unfold intern
  split
  · exact .refl table
  · exact List.prefix_append _ _

theorem within_internAll (table : Bindings) (names : List String) :
    table.Within (table.internAll names) := by
  induction names generalizing table with
  | nil => exact .refl table
  | cons name rest ih => exact (table.within_intern name).trans (ih _)

theorem Within.idOf? {table later : Bindings} (h : table.Within later) {name : String} {id : Nat}
    (hid : table.idOf? name = some id) : later.idOf? name = some id := by
  obtain ⟨added, ha⟩ := h
  unfold Bindings.idOf? at hid ⊢
  rw [← ha, List.findIdx?_append, hid]
  rfl

theorem idOf?_intern (table : Bindings) (name : String) :
    (table.intern name).2.idOf? name = some (table.intern name).1 := by
  unfold intern
  split
  next id hid => exact hid
  next hid =>
    unfold idOf? at hid ⊢
    rw [List.findIdx?_append, hid]
    simp [List.findIdx?_cons, size]

/-- Every name that is interned has an index. -/
theorem idOf?_internAll (table : Bindings) {names : List String} {name : String}
    (h : name ∈ names) : ∃ id, (table.internAll names).idOf? name = some id := by
  obtain ⟨before, after, rfl⟩ := List.append_of_mem h
  refine ⟨((table.internAll before).intern name).1, ?_⟩
  rw [internAll_append]
  exact (within_internAll _ after).idOf? (idOf?_intern _ name)

theorem lt_size_of_idOf? {table : Bindings} {name : String} {id : Nat}
    (h : table.idOf? name = some id) : id < table.size :=
  (List.findIdx?_eq_some_iff_getElem.mp h).1

theorem lt_size_intern {table : Bindings} {name : String} {id : Nat}
    (h : id < (table.intern name).2.size) : id < table.size ∨ id = (table.intern name).1 := by
  unfold intern at h ⊢
  split at h
  next => exact .inl h
  next =>
    have hsize : id < table.size + 1 := by simpa [size] using h
    exact Nat.lt_succ_iff_lt_or_eq.mp hsize

/-- Interning makes room for its names only: every index was there before, or is that of
one of the names. -/
theorem lt_size_internAll {table : Bindings} {names : List String} {id : Nat}
    (h : id < (table.internAll names).size) :
    id < table.size ∨ ∃ name ∈ names, (table.internAll names).idOf? name = some id := by
  induction names generalizing table with
  | nil => exact .inl h
  | cons name rest ih =>
    rw [internAll_cons] at h ⊢
    rcases ih h with hlt | ⟨later, hl, hid⟩
    · rcases lt_size_intern hlt with hlt | rfl
      · exact .inl hlt
      · have hname := (within_internAll _ rest).idOf? (table.idOf?_intern name)
        exact .inr ⟨name, List.mem_cons_self .., hname⟩
    · exact .inr ⟨later, List.mem_cons_of_mem _ hl, hid⟩

/-- The names of the variables. -/
def names (table : Bindings) : List String := table.entries.map (·.name)

theorem length_names (table : Bindings) : table.names.length = table.size := List.length_map ..

/-- Which index a name has depends on the names only. -/
theorem idOf?_eq (table : Bindings) (name : String) :
    table.idOf? name = table.names.findIdx? (· = name) := by
  rw [names, List.findIdx?_map]
  rfl

theorem isSome_idOf?_iff {table : Bindings} {name : String} :
    (table.idOf? name).isSome = true ↔ name ∈ table.names := by
  rw [idOf?_eq, List.findIdx?_isSome, List.any_eq_true]
  simp

/-- A name that is not in the table is added at its end. -/
theorem entries_intern_of_not_mem {table : Bindings} {name : String} (h : name ∉ table.names) :
    (table.intern name).2.entries = table.entries ++ [⟨name, none⟩] := by
  have hnone : table.idOf? name = none := by
    rw [← Option.not_isSome_iff_eq_none, isSome_idOf?_iff]
    exact h
  rw [intern, hnone]

theorem intern_of_mem {table : Bindings} {name : String} (h : name ∈ table.names) :
    (table.intern name).2 = table := by
  obtain ⟨id, hid⟩ := Option.isSome_iff_exists.mp (isSome_idOf?_iff.mpr h)
  rw [intern, hid]

theorem mem_names_intern {table : Bindings} {name other : String} :
    other ∈ (table.intern name).2.names ↔ other ∈ table.names ∨ other = name := by
  by_cases h : name ∈ table.names
  · rw [intern_of_mem h]
    refine ⟨.inl, ?_⟩
    rintro (hother | rfl)
    · exact hother
    · exact h
  · rw [names, entries_intern_of_not_mem h, List.map_append, List.mem_append]
    exact or_congr_right List.mem_singleton

/-- The names in a table are those that it began with and those that were interned. -/
theorem mem_names_internAll {table : Bindings} {names : List String} {name : String} :
    name ∈ (table.internAll names).names ↔ name ∈ table.names ∨ name ∈ names := by
  induction names generalizing table with
  | nil => simp
  | cons first rest ih => rw [internAll_cons, ih, mem_names_intern, List.mem_cons, or_assoc]

/-- Interning binds no values. -/
theorem value_eq_none_internAll {table : Bindings} (h : ∀ v ∈ table.entries, v.value = none)
    (names : List String) : ∀ v ∈ (table.internAll names).entries, v.value = none := by
  induction names generalizing table with
  | nil => exact h
  | cons name rest ih =>
    have hnext : ∀ v ∈ (table.intern name).2.entries, v.value = none := by
      by_cases hname : name ∈ table.names
      · rw [intern_of_mem hname]
        exact h
      · rw [entries_intern_of_not_mem hname]
        exact List.forall_mem_append.mpr ⟨h, List.forall_mem_singleton.mpr rfl⟩
    exact ih hnext

theorem nodup_names_empty : Bindings.empty.names.Nodup := List.Pairwise.nil

/-- Interning makes no name a second time. -/
theorem nodup_names_intern {table : Bindings} (h : table.names.Nodup) (name : String) :
    (table.intern name).2.names.Nodup := by
  by_cases hname : name ∈ table.names
  · rw [intern_of_mem hname]
    exact h
  · rw [names, entries_intern_of_not_mem hname, List.map_append, List.nodup_append]
    refine ⟨h, List.pairwise_singleton _ _, ?_⟩
    intro a ha b hb
    rw [List.mem_singleton.mp hb]
    rintro rfl
    exact hname ha

theorem nodup_names_internAll {table : Bindings} (h : table.names.Nodup) (names : List String) :
    (table.internAll names).names.Nodup := by
  induction names generalizing table with
  | nil => exact h
  | cons name rest ih => exact ih (nodup_names_intern h name)

/-- The index of a name that is in the table, and zero for other names. -/
def indexOf (table : Bindings) (name : String) : Nat := (table.idOf? name).getD 0

theorem indexOf_eq {table : Bindings} {name : String} {id : Nat}
    (h : table.idOf? name = some id) : table.indexOf name = id := by
  rw [indexOf, h]
  rfl

end FormulaEngine.Bindings
