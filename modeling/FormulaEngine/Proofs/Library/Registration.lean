import FormulaEngine.Library.Standard
import FormulaEngine.Proofs.Text.ByteOrder
import Mathlib.Data.List.Induction
import Mathlib.Data.List.Nodup

/-! What a library has of the functions that were registered one after the other. Of each name it
has the last function, and it has the names in their order, each of them once. Nothing else is
left of the history, so two histories with the same last function of each name give the same
library: functions of different names may be registered in any order. -/

namespace FormulaEngine

variable {φ : Type} [Callable φ]

/-- The last function of exactly this name. -/
def lastNamed? (fs : List φ) (name : String) : Option φ := fs.findRev? (Callable.name · = name)

section LastNamed

theorem lastNamed?_append (fs gs : List φ) (name : String) :
    lastNamed? (fs ++ gs) name = (lastNamed? gs name).or (lastNamed? fs name) := by
  simp only [lastNamed?, List.findRev?_eq_find?_reverse, List.reverse_append, List.find?_append]

theorem lastNamed?_concat (fs : List φ) (f : φ) (name : String) : lastNamed? (fs ++ [f]) name =
    if Callable.name f = name then some f else lastNamed? fs name := by
  rw [lastNamed?_append]
  by_cases h : Callable.name f = name
  · simp [lastNamed?, List.findRev?, h]
  · simp [lastNamed?, List.findRev?, h]

theorem lastNamed?_eq_some_iff {fs : List φ} {name : String} {f : φ} :
    lastNamed? fs name = some f ↔ Callable.name f = name ∧
      ∃ before after, fs = before ++ f :: after ∧ ∀ g ∈ after, Callable.name g ≠ name := by
  rw [lastNamed?, List.findRev?_eq_find?_reverse, List.find?_eq_some_iff_append]
  simp only [decide_eq_true_eq, Bool.not_eq_true', decide_eq_false_iff_not]
  refine and_congr_right fun _ => ⟨?_, ?_⟩
  · rintro ⟨later, earlier, hreverse, hlater⟩
    refine ⟨earlier.reverse, later.reverse, ?_, fun g hg => hlater g (List.mem_reverse.mp hg)⟩
    rw [← List.reverse_eq_iff.mpr hreverse.symm]
    simp
  · rintro ⟨before, after, rfl, hafter⟩
    exact ⟨after.reverse, before.reverse, by simp, fun g hg => hafter g (List.mem_reverse.mp hg)⟩

theorem lastNamed?_eq_none_iff {fs : List φ} {name : String} :
    lastNamed? fs name = none ↔ ∀ f ∈ fs, Callable.name f ≠ name := by
  simp [lastNamed?]

theorem isSome_lastNamed?_iff {fs : List φ} {name : String} :
    (lastNamed? fs name).isSome = true ↔ ∃ f ∈ fs, Callable.name f = name := by
  simp [lastNamed?]

/-- The functions of other names make no difference. -/
theorem lastNamed?_filter (fs : List φ) (name : String) :
    lastNamed? (fs.filter (Callable.name · = name)) name = lastNamed? fs name := by
  simp only [lastNamed?, List.findRev?_eq_find?_reverse, ← List.filter_reverse, List.find?_filter,
    and_self, decide_eq_true_eq]

/-- It makes no difference in which order functions of different names are. -/
theorem lastNamed?_of_filter_eq {fs gs : List φ} (h : ∀ name,
    fs.filter (Callable.name · = name) = gs.filter (Callable.name · = name)) (name : String) :
    lastNamed? fs name = lastNamed? gs name := by
  rw [← lastNamed?_filter, h, lastNamed?_filter]

theorem lastNamed?_eq_some_iff_of_nodup {fs : List φ} (h : (fs.map Callable.name).Nodup)
    {name : String} {f : φ} : lastNamed? fs name = some f ↔ f ∈ fs ∧ Callable.name f = name := by
  rw [lastNamed?_eq_some_iff]
  constructor
  · rintro ⟨hname, before, after, rfl, -⟩
    exact ⟨List.mem_append_right _ (List.mem_cons_self ..), hname⟩
  · rintro ⟨hf, rfl⟩
    obtain ⟨before, after, rfl⟩ := List.append_of_mem hf
    refine ⟨rfl, before, after, rfl, fun g hg heq => ?_⟩
    rw [List.map_append, List.map_cons] at h
    have hmem : Callable.name g ∈ after.map Callable.name := List.mem_map_of_mem hg
    exact (List.nodup_cons.mp (List.nodup_append.mp h).2.1).1 (heq ▸ hmem)

/-- If no two functions have the same name, then it makes no difference how they are ordered. -/
theorem lastNamed?_of_perm {fs gs : List φ} (h : fs.Perm gs) (hnodup : (gs.map Callable.name).Nodup)
    (name : String) : lastNamed? fs name = lastNamed? gs name := by
  have hnodup' : (fs.map Callable.name).Nodup := (h.map _).nodup_iff.mpr hnodup
  ext f
  rw [lastNamed?_eq_some_iff_of_nodup hnodup, lastNamed?_eq_some_iff_of_nodup hnodup', h.mem_iff]

end LastNamed

/-- What can be asked of a library. -/
structure LibraryView (φ : Type) where
  get? : String → Option φ
  contains : String → Bool
  names : List String
  size : Nat

/-- What a library tells if these functions were registered, one after the other. -/
structure LibraryView.TellsOf (view : LibraryView φ) (history : List φ) : Prop where
  get? : ∀ name, view.get? name = lastNamed? history name
  get?_eq_some_iff : ∀ name f, view.get? name = some f ↔ Callable.name f = name ∧
    ∃ before after, history = before ++ f :: after ∧ ∀ g ∈ after, Callable.name g ≠ name
  get?_eq_none_iff : ∀ name, view.get? name = none ↔ ∀ f ∈ history, Callable.name f ≠ name
  contains_iff : ∀ name, view.contains name = true ↔ ∃ f ∈ history, Callable.name f = name
  /-- The names are in the order of their bytes, and no name is there twice. -/
  increasing : view.names.Pairwise fun a b => utf8Bytes a < utf8Bytes b
  mem_names_iff : ∀ name, name ∈ view.names ↔ ∃ f ∈ history, Callable.name f = name
  size : view.size = view.names.length

namespace Library

section Insert

theorem find?_insert_of_ne {f : φ} {name : String} (h : Callable.name f ≠ name)
    (functions : List φ) :
    (insert f functions).find? (Callable.name · = name) =
      functions.find? (Callable.name · = name) := by
  have hskip {g : φ} (hg : Callable.name g ≠ name) (rest : List φ) :
      (g :: rest).find? (Callable.name · = name) = rest.find? (Callable.name · = name) :=
    List.find?_cons_of_neg (by simpa using hg)
  induction functions with
  | nil => exact hskip h []
  | cons g rest ih =>
    unfold insert
    split
    next => exact hskip h (g :: rest)
    next =>
      split
      next heq => rw [hskip h, hskip (heq ▸ h)]
      next => rw [List.find?_cons, List.find?_cons, ih]

theorem find?_insert_self (f : φ) (functions : List φ) :
    (insert f functions).find? (Callable.name · = Callable.name f) = some f := by
  have hfirst (rest : List φ) :
      (f :: rest).find? (Callable.name · = Callable.name f) = some f :=
    List.find?_cons_of_pos (decide_eq_true rfl)
  induction functions with
  | nil => exact hfirst []
  | cons g rest ih =>
    unfold insert
    split
    next => exact hfirst _
    next =>
      split
      next => exact hfirst _
      next hne => rw [List.find?_cons_of_neg (by simpa using Ne.symm hne), ih]

theorem mem_insert {f g : φ} {functions : List φ} (h : g ∈ insert f functions) :
    g = f ∨ g ∈ functions := by
  induction functions with
  | nil => exact .inl (List.mem_singleton.mp h)
  | cons first rest ih =>
    rw [insert] at h
    split at h
    next => exact List.mem_cons.mp h
    next =>
      split at h
      next =>
        obtain rfl | h := List.mem_cons.mp h
        · exact .inl rfl
        · exact .inr (List.mem_cons_of_mem _ h)
      next =>
        obtain rfl | h := List.mem_cons.mp h
        · exact .inr (List.mem_cons_self ..)
        · exact (ih h).imp_right (List.mem_cons_of_mem _)

end Insert

/-- A function is registered under its own name and under no other one. -/
theorem get?_register_of_ne {f : φ} {name : String} (h : Callable.name f ≠ name)
    (library : Library φ) : (library.register f).get? name = library.get? name :=
  find?_insert_of_ne h library.functions

theorem get?_register (library : Library φ) (f : φ) (name : String) :
    (library.register f).get? name =
      if Callable.name f = name then some f else library.get? name := by
  split
  next h =>
    subst h
    exact find?_insert_self f library.functions
  next h => exact get?_register_of_ne h library

theorem mem_of_get? {library : Library φ} {name : String} {f : φ}
    (h : library.get? name = some f) : f ∈ library.functions := List.mem_of_find?_eq_some h

theorem name_of_get? {library : Library φ} {name : String} {f : φ}
    (h : library.get? name = some f) : Callable.name f = name := by
  have hname := List.find?_some h
  exact of_decide_eq_true hname

theorem ofList_append (history later : List φ) :
    ofList (history ++ later) = later.foldl register (ofList history) := List.foldl_append

theorem ofList_concat (history : List φ) (f : φ) :
    ofList (history ++ [f]) = (ofList history).register f := ofList_append history [f]

theorem get?_ofList (history : List φ) (name : String) :
    (ofList history).get? name = lastNamed? history name := by
  induction history using List.reverseRecOn with
  | nil => rfl
  | append_singleton history f ih =>
    rw [ofList_concat, get?_register, lastNamed?_concat, ih]

/-- The functions are in the order of their names, and no two have the same name. -/
def Ordered (library : Library φ) : Prop :=
  library.functions.Pairwise fun f g => Callable.name f < Callable.name g

theorem Ordered.register {library : Library φ} (h : library.Ordered) (f : φ) :
    (library.register f).Ordered := by
  obtain ⟨functions⟩ := library
  change (insert f functions).Pairwise _
  change functions.Pairwise _ at h
  induction functions with
  | nil => exact List.pairwise_singleton _ _
  | cons g rest ih =>
    obtain ⟨hg, hrest⟩ := List.pairwise_cons.mp h
    unfold insert
    split
    next hlt =>
      refine h.cons (List.forall_mem_cons.mpr ⟨hlt, fun k hk => hlt.trans (hg k hk)⟩)
    next hnlt =>
      split
      next heq => exact hrest.cons (heq ▸ hg)
      next hne =>
        have hgf : Callable.name g < Callable.name f :=
          lt_of_le_of_ne (not_lt.mp hnlt) (Ne.symm hne)
        refine (ih hrest).cons fun k hk => ?_
        obtain rfl | hk := mem_insert hk
        · exact hgf
        · exact hg k hk

theorem ordered_ofList (history : List φ) : (ofList history).Ordered := by
  induction history using List.reverseRecOn with
  | nil => exact List.Pairwise.nil
  | append_singleton history f ih =>
    rw [ofList_concat]
    exact ih.register f

namespace Ordered

variable {library other : Library φ}

theorem increasing (h : library.Ordered) : library.names.Pairwise (· < ·) := List.pairwise_map.mpr h

theorem nodup_names (h : library.Ordered) : library.names.Nodup := h.increasing.imp LT.lt.ne

theorem nodup (h : library.Ordered) : library.functions.Nodup := List.Nodup.of_map _ h.nodup_names

theorem mem_functions_iff (h : library.Ordered) {f : φ} :
    f ∈ library.functions ↔ library.get? (Callable.name f) = some f := by
  refine ⟨fun hf => ?_, mem_of_get?⟩
  have hsome : (library.get? (Callable.name f)).isSome = true :=
    List.find?_isSome.mpr ⟨f, hf, decide_eq_true rfl⟩
  obtain ⟨g, hg⟩ := Option.isSome_iff_exists.mp hsome
  have hname : Callable.name g = Callable.name f := name_of_get? hg
  rw [hg, List.inj_on_of_nodup_map h.nodup_names (mem_of_get? hg) hf hname]

/-- A library is determined by the functions that it has under each name. -/
theorem eq_of_get?_eq (h : library.Ordered) (h' : other.Ordered)
    (hget : ∀ name, library.get? name = other.get? name) : library = other := by
  have hmem (f : φ) : f ∈ library.functions ↔ f ∈ other.functions := by
    rw [h.mem_functions_iff, h'.mem_functions_iff, hget]
  have hperm : library.functions.Perm other.functions :=
    (List.perm_ext_iff_of_nodup h.nodup h'.nodup).mpr hmem
  have hfunctions : library.functions = other.functions :=
    hperm.eq_of_pairwise (fun f g _ _ hfg hgf => absurd hfg hgf.asymm) h h'
  exact congrArg Library.mk hfunctions

end Ordered

/-- Two histories give the same library just if they have the same last function of each name. -/
theorem ofList_eq_iff {history other : List φ} : ofList history = ofList other ↔
    ∀ name, lastNamed? history name = lastNamed? other name := by
  constructor
  · intro h name
    rw [← get?_ofList, ← get?_ofList, h]
  · intro h
    refine (ordered_ofList history).eq_of_get?_eq (ordered_ofList other) fun name => ?_
    rw [get?_ofList, get?_ofList, h]

/-- The standard functions may be registered in any order. -/
theorem ofList_perm_all [PairFunctions] {order : List ElementaryFunction}
    (h : order.Perm ElementaryFunction.all) : ofList order = standard := by
  have hnames : (ElementaryFunction.all.map ElementaryFunction.name).Nodup := by decide
  exact ofList_eq_iff.mpr (lastNamed?_of_perm h hnames)

def view (library : Library φ) : LibraryView φ :=
  ⟨library.get?, library.contains, library.names, library.size⟩

theorem mem_names_iff {library : Library φ} {name : String} :
    name ∈ library.names ↔ (library.get? name).isSome = true := by
  simp [names, get?]

theorem tellsOf_ofList (history : List φ) : (ofList history).view.TellsOf history where
  get? := get?_ofList history
  get?_eq_some_iff name f := by
    change (ofList history).get? name = some f ↔ _
    rw [get?_ofList, lastNamed?_eq_some_iff]
  get?_eq_none_iff name := by
    change (ofList history).get? name = none ↔ _
    rw [get?_ofList, lastNamed?_eq_none_iff]
  contains_iff name := by
    change ((ofList history).get? name).isSome = true ↔ _
    rw [get?_ofList, isSome_lastNamed?_iff]
  increasing := (ordered_ofList history).increasing.imp utf8Bytes_lt_iff.mpr
  mem_names_iff name := by
    change name ∈ (ofList history).names ↔ _
    rw [mem_names_iff, get?_ofList, isSome_lastNamed?_iff]
  size := (List.length_map _).symm

end Library

end FormulaEngine
