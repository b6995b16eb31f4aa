import FormulaEngine.Proofs.Engine.Invocation
import Mathlib.Data.List.Sort
import Std.Data.HashMap

/-! Libraries whose functions are shared. Every function that is registered is put at an address of
its own and stays there, and a table that is not ordered tells the address of each name. Trees and
hosts have addresses. Nothing tells such a library from a list of functions ordered by names: the
keys of the table come in any order, but sorting them leaves one list, and what an address stands
for does not change when another address is given to its name. -/

namespace FormulaEngine

section MapCalls

variable {φ ψ χ : Type}

/-- The tree with other functions in its calls. -/
def Expr.mapCalls (g : φ → ψ) (e : Expr φ) : Expr ψ :=
  e.fold {
    number := fun value p => pure (.number value p)
    var := fun id p => pure (.var id p)
    binary := fun op p left right => pure (.binary op p left right)
    call := fun f p args => pure (.call (g f) p args) }

namespace Expr

@[simp] theorem mapCalls_number (g : φ → ψ) (value : Constant) (p : Option Nat) :
    (number value p).mapCalls g = number value p := fold_number ..

@[simp] theorem mapCalls_var (g : φ → ψ) (id : Nat) (p : Option Nat) :
    (var id p).mapCalls g = var id p := fold_var ..

@[simp] theorem mapCalls_binary (g : φ → ψ) (op : Char) (p : Option Nat) (left right : Expr φ) :
    (binary op p left right).mapCalls g = binary op p (left.mapCalls g) (right.mapCalls g) :=
  fold_binary ..

@[simp] theorem mapCalls_call (g : φ → ψ) (f : φ) (p : Option Nat) (args : List (Expr φ)) :
    (call f p args).mapCalls g = call (g f) p (args.map (mapCalls g)) := fold_call ..

theorem mapCalls_mapCalls (g : φ → ψ) (g' : ψ → χ) (e : Expr φ) :
    (e.mapCalls g).mapCalls g' = e.mapCalls fun f => g' (g f) := by
  induction e with
  | number value p => simp only [mapCalls_number]
  | var id p => simp only [mapCalls_var]
  | binary op p left right ihl ihr => simp only [mapCalls_binary, ihl, ihr]
  | call f p args ih =>
    simp only [mapCalls_call, List.map_map]
    exact congrArg (call _ p) (List.map_congr_left ih)

/-- Only the functions that a tree calls make a difference. -/
theorem mapCalls_congr {g g' : φ → ψ} {e : Expr φ}
    (h : ∀ f argCount, Label.call f argCount ∈ e.labels → g f = g' f) :
    e.mapCalls g = e.mapCalls g' := by
  induction e with
  | number value p => simp only [mapCalls_number]
  | var id p => simp only [mapCalls_var]
  | binary op p left right ihl ihr =>
    have hleft := ihl fun f n hf => h f n (mem_labels_iff.mpr (.inr ⟨left, by simp [children], hf⟩))
    have hright := ihr fun f n hf =>
      h f n (mem_labels_iff.mpr (.inr ⟨right, by simp [children], hf⟩))
    rw [mapCalls_binary, mapCalls_binary, hleft, hright]
  | call f p args ih =>
    have hargs : args.map (mapCalls g) = args.map (mapCalls g') :=
      List.map_congr_left fun e he =>
        ih e he fun f n hf => h f n (mem_labels_iff.mpr (.inr ⟨e, he, hf⟩))
    rw [mapCalls_call, mapCalls_call, hargs, h f args.length (mem_labels_iff.mpr (.inl rfl))]

end Expr

end MapCalls

section Engine

variable {φ : Type} [Callable φ]

namespace Engine

/-- Registering changes the library and nothing else. -/
theorem foldl_register (engine : Engine φ) (later : List φ) : later.foldl register engine =
    { engine with library := later.foldl Library.register engine.library } := by
  induction later generalizing engine with
  | nil => rfl
  | cons f rest ih => exact ih (engine.register f)

omit [Callable φ] in
/-- What values do to an engine does not depend on its library. -/
theorem assign_with_library (engine : Engine φ) (library : Library φ)
    (values : List (String × Float)) : ({ engine with library }).assign values =
      ((engine.assign values).1, { (engine.assign values).2 with library }) := by
  unfold assign bind
  cases resolve engine.bindings values with
  | error failure => rfl
  | ok bound =>
    dsimp only
    split
    next => rfl
    next => rfl

/-- The formula of one engine is that of the other one, and it does the same. -/
structure KeepsFormula (engine later : Engine φ) : Prop where
  tokens : later.tokens = engine.tokens
  root : later.root = engine.root
  bindings : later.bindings = engine.bindings
  evaluate : later.evaluate = engine.evaluate
  assign : ∀ values, (later.assign values).1 = (engine.assign values).1 ∧
    (later.assign values).2.evaluate = (engine.assign values).2.evaluate

theorem keepsFormula_register (engine : Engine φ) (later : List φ) :
    engine.KeepsFormula (later.foldl register engine) := by
  rw [foldl_register]
  refine ⟨rfl, rfl, rfl, rfl, fun values => ?_⟩
  rw [assign_with_library]
  exact ⟨rfl, rfl⟩

end Engine

end Engine

/-- A library with the functions at their addresses, and the address of each name. -/
structure SharedLibrary (φ : Type) where
  cells : Array φ := #[]
  table : Std.HashMap String Nat := {}

namespace SharedLibrary

variable {φ : Type}

/-- The address of the function of exactly this name. -/
def address? (library : SharedLibrary φ) (name : String) : Option Nat := library.table[name]?

/-- The function at an address. -/
def function? (library : SharedLibrary φ) (address : Nat) : Option φ := library.cells[address]?

/-- The names, sorted by their bytes. -/
def names (library : SharedLibrary φ) : List String :=
  library.table.keys.mergeSort fun a b => utf8Bytes a ≤ utf8Bytes b

def view (library : SharedLibrary φ) : LibraryView φ where
  get? name := library.address? name >>= library.function?
  contains := library.table.contains
  names := library.names
  size := library.table.size

theorem sorted_names (library : SharedLibrary φ) :
    library.names.Pairwise fun a b => utf8Bytes a ≤ utf8Bytes b := by
  have htrans (a b c : String) (hab : decide (utf8Bytes a ≤ utf8Bytes b) = true)
      (hbc : decide (utf8Bytes b ≤ utf8Bytes c) = true) :
      decide (utf8Bytes a ≤ utf8Bytes c) = true := by
    rw [decide_eq_true_iff, utf8Bytes_le_iff] at hab hbc ⊢
    exact hab.trans hbc
  have htotal (a b : String) :
      (decide (utf8Bytes a ≤ utf8Bytes b) || decide (utf8Bytes b ≤ utf8Bytes a)) = true := by
    rw [Bool.or_eq_true, decide_eq_true_iff, decide_eq_true_iff, utf8Bytes_le_iff,
      utf8Bytes_le_iff]
    exact le_total a b
  exact (List.pairwise_mergeSort htrans htotal _).imp of_decide_eq_true

/-- A tree whose functions are told by their addresses. -/
def resolve (library : SharedLibrary φ) (e : Expr (Option Nat)) : Expr (Option φ) :=
  e.mapCalls (· >>= library.function?)

variable [Callable φ]

/-- The function is put where none was before, also if its name has one. -/
def register (library : SharedLibrary φ) (f : φ) : SharedLibrary φ :=
  ⟨library.cells.push f, library.table.insert (Callable.name f) library.cells.size⟩

def ofList (fs : List φ) : SharedLibrary φ := fs.foldl register {}

/-- A tree as it is held after reading, with addresses for its functions. -/
def link (library : SharedLibrary φ) (e : Expr φ) : Expr (Option Nat) :=
  e.mapCalls fun f => library.address? (Callable.name f)

section Register

variable (library : SharedLibrary φ) (f : φ)

theorem address?_register (name : String) : (library.register f).address? name =
    if Callable.name f = name then some library.cells.size else library.address? name := by
  simp [address?, register, Std.HashMap.getElem?_insert]

theorem function?_register : (library.register f).function? library.cells.size = some f :=
  Array.getElem?_push_size

variable {library f}

/-- What is at an address stays there. -/
theorem function?_register_of_eq_some {address : Nat} {g : φ}
    (h : library.function? address = some g) :
    (library.register f).function? address = some g := by
  have hlt : address < library.cells.size := (Array.getElem?_eq_some_iff.mp h).1
  rw [function?, register, Array.getElem?_push, if_neg hlt.ne]
  exact h

theorem function?_foldl_register (later : List φ) {address : Nat} {g : φ}
    (h : library.function? address = some g) :
    (later.foldl register library).function? address = some g := by
  induction later generalizing library with
  | nil => exact h
  | cons f rest ih => exact ih (function?_register_of_eq_some h)

end Register

/-- Each name has the address of the last function of that name. -/
def Holds (library : SharedLibrary φ) (history : List φ) : Prop :=
  ∀ name, (library.address? name).map library.function? = (lastNamed? history name).map some

theorem ofList_append (history later : List φ) :
    ofList (history ++ later) = later.foldl register (ofList history) := List.foldl_append

namespace Holds

variable {library : SharedLibrary φ} {history : List φ}

theorem empty : ({} : SharedLibrary φ).Holds [] := by
  intro name
  rw [address?, Std.HashMap.getElem?_empty]
  rfl

theorem function?_of_address? (h : library.Holds history) {name : String} {address : Nat}
    (haddress : library.address? name = some address) :
    ∃ f, lastNamed? history name = some f ∧ library.function? address = some f := by
  have hname := h name
  rw [haddress, Option.map_some, eq_comm, Option.map_eq_some_iff] at hname
  obtain ⟨f, hlast, hfunction⟩ := hname
  exact ⟨f, hlast, hfunction.symm⟩

theorem isSome_address? (h : library.Holds history) (name : String) :
    (library.address? name).isSome = (lastNamed? history name).isSome := by
  have hname := congrArg Option.isSome (h name)
  rwa [Option.isSome_map, Option.isSome_map] at hname

theorem get? (h : library.Holds history) (name : String) :
    library.view.get? name = lastNamed? history name := by
  change (library.address? name).bind library.function? = _
  cases haddress : library.address? name with
  | none =>
    have hnone := h.isSome_address? name
    rw [haddress, Option.isSome_none, eq_comm, Option.isSome_eq_false_iff,
      Option.isNone_iff_eq_none] at hnone
    exact hnone.symm
  | some address =>
    obtain ⟨f, hlast, hfunction⟩ := h.function?_of_address? haddress
    rw [Option.bind_some, hfunction, hlast]

theorem register (h : library.Holds history) (f : φ) :
    (library.register f).Holds (history ++ [f]) := by
  intro name
  rw [address?_register, lastNamed?_concat]
  split
  next => rw [Option.map_some, function?_register, Option.map_some]
  next =>
    -- the address of another name was taken before, so its function is still there
    rw [← h name]
    cases haddress : library.address? name with
    | none => rfl
    | some address =>
      obtain ⟨g, -, hfunction⟩ := h.function?_of_address? haddress
      rw [Option.map_some, Option.map_some, hfunction, function?_register_of_eq_some hfunction]

theorem ofList (history : List φ) : (ofList history).Holds history := by
  induction history using List.reverseRecOn with
  | nil => exact .empty
  | append_singleton history f ih =>
    rw [ofList_append]
    exact ih.register f

theorem mem_keys_iff (h : library.Holds history) {name : String} :
    name ∈ library.table.keys ↔ name ∈ (Library.ofList history).names := by
  rw [Std.HashMap.mem_keys, Std.HashMap.mem_iff_isSome_getElem?, Library.mem_names_iff,
    Library.get?_ofList, ← h.isSome_address?]
  rfl

theorem keys_perm (h : library.Holds history) :
    library.table.keys.Perm (Library.ofList history).names :=
  (List.perm_ext_iff_of_nodup Std.HashMap.nodup_keys
    (Library.ordered_ofList history).nodup_names).mpr fun _ => h.mem_keys_iff

/-- However the table lists its keys, and however they are sorted, the names come out. -/
theorem eq_names (h : library.Holds history) {listed : List String}
    (hlisted : listed.Perm library.table.keys)
    (hsorted : listed.Pairwise fun a b => utf8Bytes a ≤ utf8Bytes b) :
    listed = (Library.ofList history).names := by
  have hnames : (Library.ofList history).names.Pairwise fun a b => utf8Bytes a ≤ utf8Bytes b :=
    (Library.ordered_ofList history).increasing.imp fun hlt => utf8Bytes_le_iff.mpr hlt.le
  refine (hlisted.trans h.keys_perm).eq_of_pairwise (fun a b _ _ hab hba => ?_) hsorted hnames
  exact le_antisymm (utf8Bytes_le_iff.mp hab) (utf8Bytes_le_iff.mp hba)

theorem names_eq (h : library.Holds history) :
    library.names = (Library.ofList history).names :=
  h.eq_names (List.mergeSort_perm _ _) library.sorted_names

theorem view_eq (h : library.Holds history) : library.view = (Library.ofList history).view := by
  simp only [view, Library.view, LibraryView.mk.injEq]
  refine ⟨?_, ?_, h.names_eq, ?_⟩
  · funext name
    rw [Library.get?_ofList]
    exact h.get? name
  · funext name
    rw [Library.contains, Library.get?_ofList, ← h.isSome_address?]
    exact Std.HashMap.contains_eq_isSome_getElem?
  · rw [← Std.HashMap.length_keys, h.keys_perm.length_eq, Library.names, List.length_map,
      Library.size]

/-- The addresses in a tree that was read stand for the functions that it was read with. -/
theorem resolve_link (h : library.Holds history) (later : List φ) {root : Expr φ}
    (hroot : root.CallsFrom (Library.ofList history)) :
    (later.foldl SharedLibrary.register library).resolve (library.link root) =
      root.mapCalls some := by
  rw [resolve, link, Expr.mapCalls_mapCalls]
  refine Expr.mapCalls_congr fun f argCount hf => ?_
  have hlast : lastNamed? history (Callable.name f) = some f := by
    rw [← Library.get?_ofList]
    exact hroot f argCount hf
  have hsome : (library.address? (Callable.name f)).isSome = true := by
    rw [h.isSome_address?, hlast, Option.isSome_some]
  obtain ⟨address, haddress⟩ := Option.isSome_iff_exists.mp hsome
  obtain ⟨g, hlast', hfunction⟩ := h.function?_of_address? haddress
  obtain rfl : f = g := Option.some.inj (hlast.symm.trans hlast')
  rw [haddress]
  exact function?_foldl_register later hfunction

end Holds

/-- What holds of a library after these registrations, one after the other. -/
structure Laws (history : List φ) : Prop where
  /-- It answers as the list of functions does that is ordered by names. -/
  view : (ofList history).view = (Library.ofList history).view
  tells : (ofList history).view.TellsOf history
  /-- In whatever order the table lists its keys, and however they are sorted. -/
  listed : ∀ listed : List String, listed.Perm (ofList history).table.keys →
    (listed.Pairwise fun a b => utf8Bytes a ≤ utf8Bytes b) → listed = (ofList history).view.names
  /-- A function that was looked up stays what it is, whatever is registered later. -/
  kept : ∀ (later : List φ) (name : String) (address : Nat),
    (ofList history).address? name = some address →
    ∃ f, lastNamed? history name = some f ∧ (ofList history).function? address = some f ∧
      (ofList (history ++ later)).function? address = some f
  /-- So does a formula that was read, and so do the functions that its tree calls. -/
  formula : ∀ (later : List φ) (text : String),
    let engine := ((Engine.ofFunctions history).parse text).2
    let after := later.foldl Engine.register engine
    after.library = Library.ofList (history ++ later) ∧ engine.KeepsFormula after ∧
    ∀ root, engine.root = some root →
      (ofList (history ++ later)).resolve ((ofList history).link root) = root.mapCalls some
  /-- Only the last function of each name makes a difference. -/
  forgets : ∀ other : List φ, (∀ name, lastNamed? other name = lastNamed? history name) →
    (ofList other).view = (ofList history).view ∧
      Engine.ofFunctions other = Engine.ofFunctions history
  /-- So functions of different names may change places. -/
  reorders : ∀ other : List φ, (∀ name, other.filter (Callable.name · = name) =
      history.filter (Callable.name · = name)) →
    (ofList other).view = (ofList history).view ∧
      Engine.ofFunctions other = Engine.ofFunctions history

theorem laws (history : List φ) : Laws history := by
  have hholds := Holds.ofList history
  have hforgets (other : List φ) (h : ∀ name, lastNamed? other name = lastNamed? history name) :
      (ofList other).view = (ofList history).view ∧
        Engine.ofFunctions other = Engine.ofFunctions history := by
    have heq : Library.ofList other = Library.ofList history := Library.ofList_eq_iff.mpr h
    rw [(Holds.ofList other).view_eq, hholds.view_eq, Engine.ofFunctions, Engine.ofFunctions, heq]
    exact ⟨rfl, rfl⟩
  refine ⟨hholds.view_eq, ?_, ?_, ?_, ?_, hforgets, ?_⟩
  · rw [hholds.view_eq]
    exact Library.tellsOf_ofList history
  · intro listed hlisted hsorted
    rw [hholds.view_eq]
    exact hholds.eq_names hlisted hsorted
  · intro later name address haddress
    obtain ⟨f, hlast, hfunction⟩ := hholds.function?_of_address? haddress
    refine ⟨f, hlast, hfunction, ?_⟩
    rw [ofList_append]
    exact function?_foldl_register later hfunction
  · intro later text engine after
    have hlibrary : engine.library = Library.ofList history := Engine.library_parse _ text
    refine ⟨?_, engine.keepsFormula_register later, fun root hroot => ?_⟩
    · rw [Library.ofList_append, ← hlibrary]
      exact congrArg Engine.library (engine.foldl_register later)
    · rw [ofList_append]
      exact hholds.resolve_link later (Engine.callsFrom_parse hroot)
  · exact fun other h => hforgets other (lastNamed?_of_filter_eq h)

/-- These laws hold of every history of registrations, and the standard functions may be registered
in any order. -/
theorem laws_every_history :
    (∀ {φ : Type} [Callable φ] (history : List φ), Laws history) ∧
    ∀ [PairFunctions] (order : List ElementaryFunction), order.Perm ElementaryFunction.all →
      (ofList order).view = Library.standard.view ∧
        Engine.ofFunctions order = Engine.ofFunctions ElementaryFunction.all := by
  refine ⟨laws, ?_⟩
  intro _ order horder
  have hlibrary : Library.ofList order = Library.standard := Library.ofList_perm_all horder
  rw [(Holds.ofList order).view_eq, Engine.ofFunctions, hlibrary]
  exact ⟨rfl, rfl⟩

/-- A function is replaced by one that takes more arguments. What was looked up before, and a
formula that was read before, have the one with fewer. -/
theorem laws_every_history_replaced :
    let short : HostFunction := ⟨"f", 1, fun args => args.headD 0⟩
    let long : HostFunction := ⟨"f", 2, fun args => args.sum⟩
    let other : HostFunction := ⟨"a", 0, fun _ => 1⟩
    let root : Expr HostFunction := .call short (some 0) [.var 0 (some 2)]
    (ofList [short]).address? "f" = some 0 ∧
    (ofList [short, other, long]).function? 0 = some short ∧
    (ofList [short, other, long]).view.get? "f" = some long ∧
    ((Engine.ofFunctions [short]).parse "f(x)").2.root = some root ∧
    (ofList [short, other, long]).resolve ((ofList [short]).link root) = root.mapCalls some ∧
    (ofList [short, other, long]).table.keys.mergeSort = ["a", "f"] ∧
    (∀ name, lastNamed? [other, long] name = lastNamed? [short, other, long] name) ∧
    (ofList [other, long]).view = (ofList [short, other, long]).view ∧
    (∀ name, [other, short, long].filter (Callable.name · = name) =
      [short, other, long].filter (Callable.name · = name)) ∧
    (ofList [other, short, long]).view = (ofList [short, other, long]).view ∧
    (ofList ElementaryFunction.all.reverse).view = Library.standard.view := by
  intro short long other root
  have hall := laws_every_history.1 [short, other, long]
  have hshort := laws_every_history.1 [short]
  have haddress : (ofList [short]).address? "f" = some 0 := Std.HashMap.getElem?_insert_self
  obtain ⟨f, hlast, -, hkept⟩ := hshort.kept [other, long] "f" 0 haddress
  obtain rfl : short = f := Option.some.inj hlast
  have hget : (ofList [short, other, long]).view.get? "f" = some long := hall.tells.get? "f"
  have htokens : tokenize "f(x)" = ["f", "(", "x", ")"] := by
    rw [tokenize, String.foldl_eq_foldl_toList]
    decide
  let table : Bindings := ⟨[⟨"x", none⟩]⟩
  have hbuild : Engine.built (.ofList [short]) ["f", "(", "x", ")"] = .ok (root, table) := by
    have haccepts : Accepts (.ofList [short]) ["f", "(", "x", ")"] .empty root table :=
      ⟨_, rfl, rfl, rfl⟩
    refine Engine.built_eq_ok_iff.mpr ⟨haccepts, ?_⟩
    rw [Expr.check_eq_ok_iff, Expr.forall_mem_labels_iff]
    simp only [root, Expr.sourceOrder_call, Expr.sourceOrder_var, List.flatMap_cons,
      List.flatMap_nil, List.append_nil, List.forall_mem_cons]
    exact ⟨rfl, rfl, List.forall_mem_nil _⟩
  rw [← htokens] at hbuild
  have hparse : (Engine.ofFunctions [short]).parse "f(x)" = (.ok (), _) :=
    Engine.parse_of_built_ok hbuild
  have hroot : ((Engine.ofFunctions [short]).parse "f(x)").2.root = some root := by
    rw [hparse]
  obtain ⟨-, -, hresolve⟩ := hshort.formula [other, long] "f(x)"
  have hlisted : (ofList [short, other, long]).table.keys.mergeSort = ["a", "f"] := by
    refine (hall.listed _ (List.mergeSort_perm _ _) ?_).trans ?_
    · exact (List.pairwise_mergeSort' (· ≤ ·) _).imp utf8Bytes_le_iff.mpr
    · rw [hall.view]
      decide
  have hlasts (name : String) :
      lastNamed? [other, long] name = lastNamed? ([short] ++ [other, long]) name := by
    rw [lastNamed?_append]
    by_cases h : "f" = name
    · subst h
      rfl
    · rw [lastNamed?_eq_none_iff.mpr (List.forall_mem_singleton.mpr h), Option.or_none]
  have hfilters (name : String) : [other, short, long].filter (Callable.name · = name) =
      [short, other, long].filter (Callable.name · = name) := by
    by_cases h : "f" = name
    · subst h
      rfl
    · simp [List.filter_cons, short, long, other, Callable.name, h]
  refine ⟨haddress, hkept, hget, hroot, hresolve root hroot, hlisted, hlasts,
    (hall.forgets _ hlasts).1, hfilters, (hall.reorders _ hfilters).1, ?_⟩
  exact (laws_every_history.2 _ (List.reverse_perm _)).1

end SharedLibrary

end FormulaEngine
