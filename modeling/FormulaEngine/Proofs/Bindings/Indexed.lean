import FormulaEngine.Proofs.Bindings.Assigned
import Mathlib.Logic.Function.Basic
import Std.Data.HashMap

/-! A table of variables with an index of its names. Trees know variables by their places only,
so the places that the index tells must be those where the variables are, after any number of
steps and in every copy of a table. The index then gives the answers that looking through the
variables gives, and the table with an index is as good as the one without. Nothing but clearing
a table, or putting another one in its place, takes a name from the place that it was given. -/

namespace FormulaEngine

/-- What can be asked of a table. -/
structure TableView where
  size : Nat
  idOf? : String → Option Nat
  get? : Nat → Option Variable
  firstUnbound? : Option Variable

namespace TableView

/-- What can be asked of a table without variables. -/
def empty : TableView := ⟨0, fun _ => none, fun _ => none, none⟩

/-- The names of a table and the places of its variables belong together. -/
structure Coherent (view : TableView) : Prop where
  idOf?_iff : ∀ name id, view.idOf? name = some id ↔ ∃ v, view.get? id = some v ∧ v.name = name
  isSome_get?_iff : ∀ id, (view.get? id).isSome = true ↔ id < view.size
  /-- No name is in two places. -/
  distinct : ∀ id id' v v', view.get? id = some v → view.get? id' = some v' →
    v.name = v'.name → id = id'
  /-- The first variable without a value has variables with values before it. -/
  firstUnbound?_iff : ∀ v, view.firstUnbound? = some v ↔ ∃ id, view.get? id = some v ∧
    v.value = none ∧ ∀ earlier < id, ∀ w, view.get? earlier = some w → w.value ≠ none
  firstUnbound?_eq_none_iff : view.firstUnbound? = none ↔
    ∀ id v, view.get? id = some v → v.value ≠ none

/-- One table is the other one with a name interned, which was given this place. -/
structure Interned (view : TableView) (name : String) (id : Nat) (later : TableView) : Prop where
  idOf? : later.idOf? name = some id
  /-- A name that the table has keeps its place, and nothing changes. -/
  known : ∀ place, view.idOf? name = some place → id = place ∧ later = view
  /-- A new name is put at the end without a value, and all others stay as they are. -/
  new : view.idOf? name = none → id = view.size ∧ later.size = view.size + 1 ∧
    later.get? id = some ⟨name, none⟩ ∧ (∀ other < view.size, later.get? other = view.get? other) ∧
    ∀ other, other ≠ name → later.idOf? other = view.idOf? other

/-- One table is the other one with a value bound in this place. -/
structure Bound (view : TableView) (id : Nat) (value : Float) (later : TableView) : Prop where
  size : later.size = view.size
  idOf? : later.idOf? = view.idOf?
  here : later.get? id = (view.get? id).map fun v => { v with value := some value }
  elsewhere : ∀ other, other ≠ id → later.get? other = view.get? other

end TableView

/-- The operations that tables of some kind have. -/
structure TableKind (τ : Type) where
  empty : τ
  intern : τ → String → Nat × τ
  bind : τ → Nat → Float → τ
  clear : τ → τ

/-- What is done with tables, each of which is kept in a slot of its own. -/
inductive TableStep where
  | intern (slot : Nat) (name : String)
  | bind (slot id : Nat) (value : Float)
  | clear (slot : Nat)
  /-- A copy of the table in one slot is put in another slot. -/
  | copy (source target : Nat)

namespace TableStep

/-- The step throws away the table of a slot. -/
def Resets (slot : Nat) : TableStep → Prop
  | .intern _ _ | .bind _ _ _ => False
  | .clear cleared => cleared = slot
  | .copy _ target => target = slot

instance (slot : Nat) (step : TableStep) : Decidable (step.Resets slot) := by
  cases step <;> unfold Resets <;> infer_instance

end TableStep

namespace TableKind

variable {τ σ : Type}

def step (kind : TableKind τ) (tables : Nat → τ) : TableStep → Nat → τ
  | .intern slot name => Function.update tables slot (kind.intern (tables slot) name).2
  | .bind slot id value => Function.update tables slot (kind.bind (tables slot) id value)
  | .clear slot => Function.update tables slot (kind.clear (tables slot))
  | .copy source target => Function.update tables target (tables source)

/-- The tables after some steps, all of them empty in the beginning. -/
def run (kind : TableKind τ) (steps : List TableStep) : Nat → τ :=
  steps.foldl kind.step fun _ => kind.empty

theorem run_append (kind : TableKind τ) (steps more : List TableStep) :
    kind.run (steps ++ more) = more.foldl kind.step (kind.run steps) := List.foldl_append

/-- The tables of two kinds correspond, and no operation changes that. -/
structure Related (kind : TableKind τ) (kind' : TableKind σ) (R : τ → σ → Prop) : Prop where
  empty : R kind.empty kind'.empty
  intern : ∀ {t u} name, R t u → R (kind.intern t name).2 (kind'.intern u name).2
  bind : ∀ {t u} id value, R t u → R (kind.bind t id value) (kind'.bind u id value)
  clear : ∀ {t u}, R t u → R (kind.clear t) (kind'.clear u)

variable {kind : TableKind τ} {kind' : TableKind σ} {R : τ → σ → Prop}

theorem Related.step (h : kind.Related kind' R) {tables : Nat → τ} {tables' : Nat → σ}
    (htables : ∀ slot, R (tables slot) (tables' slot)) (step : TableStep) (slot : Nat) :
    R (kind.step tables step slot) (kind'.step tables' step slot) := by
  have hupdate {changed : Nat} {t : τ} {u : σ} (ht : R t u) :
      R (Function.update tables changed t slot) (Function.update tables' changed u slot) := by
    by_cases hchanged : slot = changed
    · subst hchanged
      rwa [Function.update_self, Function.update_self]
    · rw [Function.update_of_ne hchanged, Function.update_of_ne hchanged]
      exact htables slot
  cases step with
  | intern changed name => exact hupdate (h.intern name (htables changed))
  | bind changed id value => exact hupdate (h.bind id value (htables changed))
  | clear changed => exact hupdate (h.clear (htables changed))
  | copy source target => exact hupdate (htables source)

theorem Related.run (h : kind.Related kind' R) (steps : List TableStep) (slot : Nat) :
    R (kind.run steps slot) (kind'.run steps slot) := by
  suffices hfold : ∀ (tables : Nat → τ) (tables' : Nat → σ),
      (∀ slot, R (tables slot) (tables' slot)) →
      R (steps.foldl kind.step tables slot) (steps.foldl kind'.step tables' slot) by
    exact hfold _ _ fun _ => h.empty
  induction steps with
  | nil => exact fun _ _ htables => htables slot
  | cons step rest ih => exact fun _ _ htables => ih _ _ (h.step htables step)

end TableKind

namespace Bindings

def kind : TableKind Bindings := ⟨.empty, intern, bind, clear⟩

def view (table : Bindings) : TableView :=
  ⟨table.size, table.idOf?, table.get?, table.firstUnbound?⟩

theorem getElem?_names (table : Bindings) (id : Nat) :
    table.names[id]? = (table.get? id).map (·.name) := List.getElem?_map

/-- In a table that has no name twice a name is where its index says and nowhere else. -/
theorem idOf?_eq_some_iff {table : Bindings} (h : table.names.Nodup) {name : String} {id : Nat} :
    table.idOf? name = some id ↔ table.names[id]? = some name := by
  refine ⟨getElem?_names_of_idOf?, fun hname => ?_⟩
  have hmem : name ∈ table.names := List.mem_of_getElem? hname
  obtain ⟨id', hid'⟩ := Option.isSome_iff_exists.mp (isSome_idOf?_iff.mpr hmem)
  have hname' := getElem?_names_of_idOf? hid'
  have hlt := (List.getElem?_eq_some_iff.mp hname).1
  rw [hid', (List.getElem?_inj hlt h).mp (hname.trans hname'.symm)]

theorem firstUnbound?_eq_some_iff {table : Bindings} {v : Variable} :
    table.firstUnbound? = some v ↔ ∃ id, table.get? id = some v ∧
      v.value = none ∧ ∀ earlier < id, ∀ w, table.get? earlier = some w → w.value ≠ none := by
  rw [firstUnbound?, List.find?_eq_some_iff_getElem]
  constructor
  · rintro ⟨hv, id, hid, rfl, hearlier⟩
    refine ⟨id, List.getElem?_eq_getElem hid, by simpa [Variable.hasValue] using hv, ?_⟩
    intro earlier hlt w hw
    obtain ⟨-, rfl⟩ := List.getElem?_eq_some_iff.mp hw
    simpa [Variable.hasValue, ← Option.isSome_iff_ne_none] using hearlier earlier hlt
  · rintro ⟨id, hv, hvalue, hearlier⟩
    obtain ⟨hid, rfl⟩ := List.getElem?_eq_some_iff.mp hv
    refine ⟨by simp [Variable.hasValue, hvalue], id, hid, rfl, fun earlier hlt => ?_⟩
    have hbound := hearlier earlier hlt _ (List.getElem?_eq_getElem (Nat.lt_trans hlt hid))
    simpa [Variable.hasValue, Option.isSome_iff_ne_none] using hbound

theorem coherent {table : Bindings} (h : table.names.Nodup) : table.view.Coherent where
  idOf?_iff name id := by
    change table.idOf? name = some id ↔ _
    rw [idOf?_eq_some_iff h, getElem?_names, Option.map_eq_some_iff]
    rfl
  isSome_get?_iff id := by
    change (table.entries[id]?).isSome = true ↔ id < table.entries.length
    simp
  distinct id id' v v' hv hv' hname := by
    have hid : table.names[id]? = some v.name := by
      rw [getElem?_names]
      exact congrArg _ hv
    have hid' : table.names[id']? = some v.name := by
      rw [getElem?_names, hname]
      exact congrArg _ hv'
    have hlt := (List.getElem?_eq_some_iff.mp hid).1
    exact (List.getElem?_inj hlt h).mp (hid.trans hid'.symm)
  firstUnbound?_iff v := firstUnbound?_eq_some_iff
  firstUnbound?_eq_none_iff := by
    change table.firstUnbound? = none ↔ _
    simp only [firstUnbound?_eq_none_iff, List.mem_iff_getElem?, Variable.hasValue,
      Option.isSome_iff_ne_none]
    exact ⟨fun h id v hv => h v ⟨id, hv⟩, fun h v ⟨id, hv⟩ => h id v hv⟩

/-- A new name is at the end, and the others are where they were. -/
theorem idOf?_append_new {table : Bindings} {name : String} (h : table.idOf? name = none)
    (other : String) : (⟨table.entries ++ [⟨name, none⟩]⟩ : Bindings).idOf? other =
      if name = other then some table.size else table.idOf? other := by
  rw [idOf?, List.findIdx?_append]
  split
  next heq =>
    subst heq
    rw [idOf?] at h
    simp [h, size]
  next hne => simp [hne, idOf?]

theorem interned (table : Bindings) (name : String) :
    table.view.Interned name (table.intern name).1 (table.intern name).2.view where
  idOf? := idOf?_intern table name
  known place hplace := by
    have hid : table.idOf? name = some place := hplace
    rw [intern, hid]
    exact ⟨rfl, rfl⟩
  new hnone := by
    have hid : table.idOf? name = none := hnone
    rw [intern, hid]
    refine ⟨rfl, List.length_append, List.getElem?_concat_length, fun other hlt => ?_, ?_⟩
    · exact List.getElem?_append_left hlt
    · intro other hother
      exact (idOf?_append_new hid other).trans (if_neg (Ne.symm hother))

theorem bound (table : Bindings) (id : Nat) (value : Float) :
    table.view.Bound id value (table.bind id value).view where
  size := List.length_modify ..
  idOf? := by
    funext name
    change (table.bind id value).idOf? name = table.idOf? name
    rw [idOf?_eq, names_bind, ← idOf?_eq]
  here := List.getElem?_modify_eq ..
  elsewhere other hother := by
    change (table.entries.modify id _)[other]? = table.entries[other]?
    simp [Ne.symm hother]

/-- Names keep their indices in a table that has more names behind them. -/
theorem idOf?_of_prefix {table later : Bindings} (h : table.names <+: later.names) {name : String}
    {id : Nat} (hid : table.idOf? name = some id) : later.idOf? name = some id := by
  obtain ⟨added, hadded⟩ := h
  rw [idOf?_eq] at hid ⊢
  rw [← hadded, List.findIdx?_append, hid]
  rfl

/-- What does not reset a slot leaves the names in its table, in their places. -/
theorem names_step (tables : Nat → Bindings) {step : TableStep} {slot : Nat}
    (h : ¬step.Resets slot) : (tables slot).names <+: (kind.step tables step slot).names := by
  have hother {changed : Nat} {t : Bindings} (hne : slot ≠ changed) :
      (tables slot).names <+: (Function.update tables changed t slot).names := by
    have hsame : Function.update tables changed t slot = tables slot := Function.update_of_ne hne ..
    exact hsame ▸ List.prefix_refl _
  have hupdate {changed : Nat} {t : Bindings} (ht : (tables changed).names <+: t.names) :
      (tables slot).names <+: (Function.update tables changed t slot).names := by
    by_cases hchanged : slot = changed
    · subst hchanged
      rwa [Function.update_self]
    · exact hother hchanged
  cases step with
  | intern changed name => exact hupdate ((within_intern _ name).map _)
  | bind changed id value =>
    have hsame : (kind.bind (tables changed) id value).names = (tables changed).names :=
      names_bind ..
    exact hupdate (hsame ▸ List.prefix_refl _)
  | clear changed => exact hother (Ne.symm h)
  | copy source target => exact hother (Ne.symm h)

theorem names_run (steps : List TableStep) {more : List TableStep} {slot : Nat}
    (h : ∀ step ∈ more, ¬step.Resets slot) :
    (kind.run steps slot).names <+: (kind.run (steps ++ more) slot).names := by
  rw [TableKind.run_append]
  generalize kind.run steps = tables
  induction more generalizing tables with
  | nil => exact List.prefix_refl _
  | cons step rest ih =>
    obtain ⟨hstep, hrest⟩ := List.forall_mem_cons.mp h
    exact (names_step tables hstep).trans (ih hrest _)

end Bindings

/-- A table of variables with the places of their names. -/
structure IndexedTable where
  entries : Array Variable := #[]
  index : Std.HashMap String Nat := {}

namespace IndexedTable

/-- A name that is in the index is not looked for among the variables. -/
def intern (table : IndexedTable) (name : String) : Nat × IndexedTable :=
  match table.index[name]? with
  | some id => (id, table)
  | none =>
    (table.entries.size,
      ⟨table.entries.push ⟨name, none⟩, table.index.insert name table.entries.size⟩)

def bind (table : IndexedTable) (id : Nat) (value : Float) : IndexedTable :=
  { table with entries := table.entries.modify id fun v => { v with value := some value } }

/-- The index is emptied with the variables, or it would tell places that are not there. -/
def clear (table : IndexedTable) : IndexedTable := { table with entries := #[], index := {} }

def kind : TableKind IndexedTable := ⟨{}, intern, bind, clear⟩

def view (table : IndexedTable) : TableView where
  size := table.entries.size
  idOf? name := table.index[name]?
  get? id := table.entries[id]?
  firstUnbound? := table.entries.find? (!·.hasValue)

/-- The variables are those of a table without an index, and the index tells where they are. -/
structure Represents (table : IndexedTable) (plain : Bindings) : Prop where
  entries : table.entries.toList = plain.entries
  index : ∀ name, table.index[name]? = plain.idOf? name

theorem Represents.view_eq {table : IndexedTable} {plain : Bindings} (h : table.Represents plain) :
    table.view = plain.view := by
  obtain ⟨hentries, hindex⟩ := h
  simp only [view, Bindings.view, TableView.mk.injEq]
  refine ⟨?_, funext hindex, ?_, ?_⟩
  · rw [Bindings.size, ← hentries, Array.length_toList]
  · funext id
    rw [Bindings.get?, ← hentries, Array.getElem?_toList]
  · rw [Bindings.firstUnbound?, ← hentries, Array.find?_toList]

theorem represents_empty : ({} : IndexedTable).Represents .empty where
  entries := rfl
  index _ := Std.HashMap.getElem?_empty

theorem Represents.intern {table : IndexedTable} {plain : Bindings} (h : table.Represents plain)
    (name : String) : (table.intern name).1 = (plain.intern name).1 ∧
      (table.intern name).2.Represents (plain.intern name).2 := by
  have hsize : table.entries.size = plain.size := congrArg TableView.size h.view_eq
  unfold IndexedTable.intern Bindings.intern
  rw [h.index]
  cases hid : plain.idOf? name with
  | some id => exact ⟨rfl, h⟩
  | none =>
    refine ⟨hsize, ?_, fun other => ?_⟩
    · rw [Array.toList_push, h.entries]
    · rw [Std.HashMap.getElem?_insert, h.index, hsize, Bindings.idOf?_append_new hid]
      simp only [beq_iff_eq]

theorem Represents.bind {table : IndexedTable} {plain : Bindings} (h : table.Represents plain)
    (id : Nat) (value : Float) : (table.bind id value).Represents (plain.bind id value) where
  entries := by
    rw [IndexedTable.bind, Array.toList_modify, h.entries, Bindings.bind]
  index name := by
    change table.index[name]? = _
    rw [h.index, Bindings.idOf?_eq, Bindings.idOf?_eq, Bindings.names_bind]

theorem represents_clear (table : IndexedTable) (plain : Bindings) :
    table.clear.Represents plain.clear := represents_empty

theorem view_clear (table : IndexedTable) : table.clear.view = .empty :=
  (table.represents_clear .empty).view_eq

/-- A table that represents another one, which has no name twice. -/
def Sound (table : IndexedTable) (plain : Bindings) : Prop :=
  table.Represents plain ∧ plain.names.Nodup

theorem related_sound : kind.Related Bindings.kind Sound where
  empty := ⟨represents_empty, Bindings.nodup_names_empty⟩
  intern name h := ⟨(h.1.intern name).2, Bindings.nodup_names_intern h.2 name⟩
  bind id value h := by
    refine ⟨h.1.bind id value, ?_⟩
    change (Bindings.bind _ id value).names.Nodup
    rw [Bindings.names_bind]
    exact h.2
  clear {table plain} _ := ⟨table.represents_clear plain, Bindings.nodup_names_empty⟩

theorem sound_run (steps : List TableStep) (slot : Nat) :
    (kind.run steps slot).Sound (Bindings.kind.run steps slot) := related_sound.run steps slot

/-- Whatever was done with some tables, each answers as the table without an index does. Names
and places belong together, interning and binding change what they should and nothing else,
clearing leaves no variable and no name, and a name keeps its place until its table is cleared or
replaced. -/
theorem run_view (steps : List TableStep) (slot : Nat) :
    let table := kind.run steps slot
    let plain := Bindings.kind.run steps slot
    table.view = plain.view ∧ table.view.Coherent ∧
    (∀ name, (table.intern name).1 = (plain.intern name).1 ∧
      table.view.Interned name (table.intern name).1 (table.intern name).2.view ∧
      (table.view.idOf? name ≠ none → (table.intern name).2 = table)) ∧
    (∀ id value, table.view.Bound id value (table.bind id value).view) ∧
    table.clear.view = .empty ∧
    ∀ more : List TableStep, (∀ step ∈ more, ¬step.Resets slot) → ∀ name id,
      table.view.idOf? name = some id →
      (kind.run (steps ++ more) slot).view.idOf? name = some id ∧
      ∃ v, (kind.run (steps ++ more) slot).view.get? id = some v ∧ v.name = name := by
  intro table plain
  obtain ⟨hrepresents, hnodup⟩ := sound_run steps slot
  refine ⟨hrepresents.view_eq, ?_, fun name => ⟨(hrepresents.intern name).1, ?_, ?_⟩, ?_,
    table.view_clear, ?_⟩
  · rw [hrepresents.view_eq]
    exact Bindings.coherent hnodup
  · rw [hrepresents.view_eq, (hrepresents.intern name).2.view_eq, (hrepresents.intern name).1]
    exact Bindings.interned _ name
  · intro hknown
    obtain ⟨id, hid⟩ := Option.ne_none_iff_exists'.mp hknown
    change table.index[name]? = some id at hid
    rw [intern, hid]
  · intro id value
    rw [hrepresents.view_eq, (hrepresents.bind id value).view_eq]
    exact Bindings.bound _ id value
  · intro more hmore name id hid
    obtain ⟨hlater, hnodup'⟩ := sound_run (steps ++ more) slot
    rw [hrepresents.view_eq] at hid
    have hid' : (Bindings.kind.run (steps ++ more) slot).idOf? name = some id :=
      Bindings.idOf?_of_prefix (Bindings.names_run steps hmore) hid
    rw [hlater.view_eq]
    exact ⟨hid', ((Bindings.coherent hnodup').idOf?_iff name id).mp hid'⟩

/-- A table is copied, filled up and put back, and its copy keeps what it had. -/
theorem run_view_copied :
    let steps : List TableStep := [.intern 0 "x", .intern 0 "y", .copy 0 1, .bind 1 1 2]
    let more : List TableStep := [.clear 0, .intern 0 "z", .intern 1 "z", .copy 1 0]
    (∀ step ∈ more, ¬step.Resets 1) ∧ (kind.run steps 1).view.idOf? "y" = some 1 ∧
    (kind.run (steps ++ more) 1).view.idOf? "y" = some 1 ∧
    ∃ v, (kind.run (steps ++ more) 1).view.get? 1 = some v ∧ v.name = "y" := by
  intro steps more
  have hmore : ∀ step ∈ more, ¬step.Resets 1 := by decide
  obtain ⟨hview, -, -, -, -, hstable⟩ := run_view steps 1
  have hid : (kind.run steps 1).view.idOf? "y" = some 1 := by
    rw [hview]
    rfl
  exact ⟨hmore, hid, hstable more hmore "y" 1 hid⟩

end IndexedTable

end FormulaEngine
