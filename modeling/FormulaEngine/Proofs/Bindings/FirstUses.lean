import FormulaEngine.Proofs.Bindings.Interning
import Mathlib.Data.List.Basic

/-! The entries that interning adds. Of a list of names a table takes those that it does not
have, each once and where the list has it first. So the entries of a table that began empty are
the names of the list without repetitions. -/

namespace FormulaEngine

/-- What is left of a list when repetitions are taken out is in the order of the first places,
also those in a longer list that some were chosen from. -/
theorem pairwise_idxOf_eraseDups (names : List String) (chosen : String → Bool) :
    (names.filter chosen).eraseDups.Pairwise fun a b => names.idxOf a < names.idxOf b := by
  induction names generalizing chosen with
  | nil => exact .nil
  | cons first rest ih =>
    -- a name other than the first is one place further back than in the rest
    have hshift (chosen : String → Bool) (hne : ∀ name, chosen name = true → first ≠ name) :
        (rest.filter chosen).eraseDups.Pairwise
          fun a b => (first :: rest).idxOf a < (first :: rest).idxOf b := by
      refine (ih chosen).imp_of_mem ?_
      intro a b ha hb hlt
      have ha' := hne a (List.mem_filter.mp (List.mem_eraseDups.mp ha)).2
      have hb' := hne b (List.mem_filter.mp (List.mem_eraseDups.mp hb)).2
      rw [List.idxOf_cons_ne _ ha', List.idxOf_cons_ne _ hb']
      omega
    cases hfirst : chosen first with
    | false =>
      rw [List.filter_cons_of_neg (by simp [hfirst])]
      refine hshift chosen ?_
      rintro name hname rfl
      rw [hfirst] at hname
      cases hname
    | true =>
      rw [List.filter_cons_of_pos hfirst, List.eraseDups_cons, List.filter_filter]
      have hne : ∀ name, (!name == first && chosen name) = true → first ≠ name := by
        rintro name hname rfl
        simp at hname
      refine List.pairwise_cons.mpr ⟨fun name hname => ?_, hshift _ hne⟩
      have hname := hne name (List.mem_filter.mp (List.mem_eraseDups.mp hname)).2
      rw [List.idxOf_cons_self, List.idxOf_cons_ne _ hname]
      exact Nat.succ_pos _

namespace Bindings

/-- The names of a list that a table does not have, each where it comes first. -/
def newNames (table : Bindings) (names : List String) : List String :=
  (names.filter (· ∉ table.names)).eraseDups

theorem mem_newNames {table : Bindings} {names : List String} {name : String} :
    name ∈ table.newNames names ↔ name ∈ names ∧ name ∉ table.names := by
  simp [newNames]

/-- Interning adds the new names and no values. -/
theorem entries_internAll (table : Bindings) (names : List String) :
    (table.internAll names).entries =
      table.entries ++ (table.newNames names).map fun name => ⟨name, none⟩ := by
  induction names generalizing table with
  | nil => exact (List.append_nil _).symm
  | cons first rest ih =>
    rw [internAll_cons, ih, newNames, newNames]
    by_cases hfirst : first ∈ table.names
    · rw [intern_of_mem hfirst, List.filter_cons_of_neg (by simpa using hfirst)]
    · have hrest : rest.filter (· ∉ (table.intern first).2.names) =
          (rest.filter (· ∉ table.names)).filter fun name => !name == first := by
        rw [List.filter_filter]
        refine List.filter_congr fun name _ => ?_
        rw [Bool.eq_iff_iff]
        simp [mem_names_intern, and_comm]
      rw [entries_intern_of_not_mem hfirst, List.filter_cons_of_pos (by simpa using hfirst),
        List.eraseDups_cons, hrest, List.map_cons, List.append_assoc]
      rfl

theorem names_internAll (table : Bindings) (names : List String) :
    (table.internAll names).names = table.names ++ table.newNames names := by
  rw [Bindings.names, entries_internAll, List.map_append, List.map_map]
  simp [Bindings.names, Function.comp_def]

/-- The new names of a part of some tokens are in the order in which the tokens have them. -/
theorem pairwise_newNames (table : Bindings) (tokens : List String) (chosen : String → Bool) :
    (table.newNames (tokens.filter chosen)).Pairwise
      fun a b => tokens.idxOf a < tokens.idxOf b := by
  rw [newNames, List.filter_filter]
  exact pairwise_idxOf_eraseDups tokens _

theorem newNames_empty (names : List String) : empty.newNames names = names.eraseDups := by
  have hall : names.filter (· ∉ empty.names) = names :=
    List.filter_eq_self.mpr fun name _ => decide_eq_true List.not_mem_nil
  rw [newNames, hall]

/-- In a table that began empty the index of a name is its place among the names. -/
theorem idOf?_internAll_empty (names : List String) (name : String) :
    (empty.internAll names).idOf? name = names.eraseDups.idxOf? name := by
  rw [idOf?_eq, names_internAll, newNames_empty]
  rfl

end Bindings

end FormulaEngine
