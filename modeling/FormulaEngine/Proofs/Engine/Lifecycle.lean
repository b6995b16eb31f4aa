import FormulaEngine.Proofs.Bindings.Assigned
import FormulaEngine.Proofs.Engine.Parsing
import FormulaEngine.Proofs.Library.Registration

/-! The life of an engine. Between its making and any later moment an engine may be
given functions, texts and values, in any order and with or without success. Whether it
holds a formula, and which, is decided by the last text and the functions that were
registered before it; registering and binding change neither the tree nor the number of
its variables. -/

namespace FormulaEngine

variable {φ : Type}

namespace Engine

theorem bind_eq (engine : Engine φ) (values : List (String × Float)) :
    ∃ bindings, (engine.bind values).2 = { engine with bindings } ∧
      bindings.names = engine.bindings.names := by
  unfold bind
  cases resolve engine.bindings values with
  | error failure => exact ⟨_, rfl, rfl⟩
  | ok bound => exact ⟨_, rfl, Bindings.names_foldl_bind bound engine.bindings⟩

/-- What is bound stays bound if variables are left without a value. -/
theorem assign_snd (engine : Engine φ) (values : List (String × Float)) :
    (engine.assign values).2 = (engine.bind values).2 := by
  unfold assign
  split
  next failure same h => rw [h]
  next bound h =>
    rw [h]
    split
    next => rfl
    next => rfl

/-- Assigning values changes nothing but the values, whether it succeeds or not. -/
theorem assign_eq (engine : Engine φ) (values : List (String × Float)) :
    ∃ bindings, (engine.assign values).2 = { engine with bindings } ∧
      bindings.names = engine.bindings.names := by
  rw [assign_snd]
  exact engine.bind_eq values

/-- A copy is the same engine. -/
theorem clone_eq (engine : Engine φ) : engine.clone = engine := by
  have hroot : engine.root.map (·.relocate id) = engine.root := by
    simp only [Expr.relocate_id, Option.map_id']
  rw [clone, hroot]

end Engine

/-- What can be done with an engine. -/
inductive Operation (φ : Type) where
  | register (f : φ)
  | parse (text : String)
  | assign (values : List (String × Float))
  | evaluate
  /-- To go on with a copy. -/
  | clone

/-- A text that was parsed, with the library of that time and what came of it. -/
structure Attempt (φ : Type) where
  text : String
  library : Library φ
  outcome : Except Failure Unit

/-- An engine, and the last text that it was given. -/
structure Session (φ : Type) where
  engine : Engine φ
  last : Option (Attempt φ) := none

namespace Session

variable [Callable φ]

/-- An engine that was just made with these functions. -/
def start (functions : List φ) : Session φ := { engine := .ofFunctions functions }

/-- One operation, whatever comes of it. Evaluation gives no engine back. -/
def step (s : Session φ) : Operation φ → Session φ
  | .register f => { s with engine := s.engine.register f }
  | .parse text =>
    let (outcome, engine) := s.engine.parse text
    ⟨engine, some ⟨text, s.engine.library, outcome⟩⟩
  | .assign values => { s with engine := (s.engine.assign values).2 }
  | .evaluate => s
  | .clone => { s with engine := s.engine.clone }

/-- Operations one after the other. -/
def run (s : Session φ) (operations : List (Operation φ)) : Session φ := operations.foldl step s

/-- There was a text, and the last one was parsed with success. -/
def Parsed (s : Session φ) : Prop := ∃ attempt, s.last = some attempt ∧ attempt.outcome = .ok ()

/-- What holds of an engine at any time. -/
structure Valid (s : Session φ) : Prop where
  tokens : s.engine.tokens = s.last.elim [] (tokenize ·.text)
  present_iff : s.engine.root.isSome = true ↔ s.Parsed
  absent : s.engine.root = none → s.engine.bindings = .empty
  present : ∀ root, s.engine.root = some root → ∃ attempt, s.last = some attempt ∧
    ReadFrom attempt.library s.engine.bindings s.engine.tokens root

theorem valid_start (functions : List φ) : (start functions).Valid where
  tokens := rfl
  present_iff := iff_of_false nofun nofun
  absent _ := rfl
  present := nofun

theorem Valid.parse {s : Session φ} (text : String) : (s.step (.parse text)).Valid := by
  rcases s.engine.parse_cases text with ⟨root, bindings, hread, hparse⟩ | ⟨failure, hparse⟩
  · have hstep : s.step (.parse text) = ⟨⟨s.engine.library, tokenize text, bindings, some root⟩,
        some ⟨text, s.engine.library, .ok ()⟩⟩ := by
      rw [Session.step, hparse]
    rw [hstep]
    refine ⟨rfl, iff_of_true rfl ⟨_, rfl, rfl⟩, nofun, ?_⟩
    rintro _ ⟨⟩
    exact ⟨_, rfl, hread⟩
  · have hstep : s.step (.parse text) = ⟨⟨s.engine.library, tokenize text, .empty, none⟩,
        some ⟨text, s.engine.library, .error failure⟩⟩ := by
      rw [Session.step, hparse]
    rw [hstep]
    refine ⟨rfl, iff_of_false nofun ?_, fun _ => rfl, nofun⟩
    rintro ⟨_, ⟨⟩, ⟨⟩⟩

theorem Valid.assign {s : Session φ} (h : s.Valid) (values : List (String × Float)) :
    (s.step (.assign values)).Valid := by
  obtain ⟨bindings, hassign, hnames⟩ := s.engine.assign_eq values
  have hsize : bindings.size = s.engine.bindings.size := by
    rw [← Bindings.length_names, hnames, Bindings.length_names]
  have hstep : s.step (.assign values) = ⟨{ s.engine with bindings }, s.last⟩ := by
    rw [Session.step, hassign]
  rw [hstep]
  refine ⟨h.tokens, h.present_iff, ?_, ?_⟩
  · intro hroot
    rw [h.absent hroot] at hsize
    exact congrArg Bindings.mk (List.eq_nil_of_length_eq_zero hsize)
  · intro root hroot
    obtain ⟨attempt, hlast, hread⟩ := h.present root hroot
    exact ⟨attempt, hlast, hread.of_size_eq hsize.symm⟩

/-- No operation breaks what holds of an engine. -/
theorem Valid.step {s : Session φ} (h : s.Valid) (operation : Operation φ) :
    (s.step operation).Valid := by
  cases operation with
  | register f => exact ⟨h.tokens, h.present_iff, h.absent, h.present⟩
  | parse text => exact .parse text
  | assign values => exact h.assign values
  | evaluate => exact h
  | clone =>
    rw [Session.step, Engine.clone_eq]
    exact h

theorem Valid.run {s : Session φ} (h : s.Valid) (operations : List (Operation φ)) :
    (s.run operations).Valid := by
  induction operations generalizing s with
  | nil => exact h
  | cons operation rest ih => exact ih (h.step operation)

/-- The functions that operations register, in their order. -/
def registered (operations : List (Operation φ)) : List φ :=
  operations.filterMap fun
    | .register f => some f
    | _ => none

/-- What is known of the last text belongs to the last of the operations that parse. -/
structure Traces (functions : List φ) (operations : List (Operation φ)) (s : Session φ) :
    Prop where
  library : s.engine.library = .ofList (functions ++ registered operations)
  unread : s.last = none → ∀ text, .parse text ∉ operations
  /-- The library of that time had the functions that were registered before. -/
  last : ∀ attempt, s.last = some attempt → ∃ before after,
    operations = before ++ .parse attempt.text :: after ∧ (∀ text, .parse text ∉ after) ∧
    attempt.library = .ofList (functions ++ registered before) ∧
    attempt.outcome = (((start functions).run before).engine.parse attempt.text).1

section Traces

variable {functions : List φ} {operations : List (Operation φ)}

/-- What does not parse leaves the last text as it was. -/
theorem Traces.keep {s later : Session φ} {operation : Operation φ}
    (h : s.Traces functions operations) (hlast : later.last = s.last)
    (hlibrary : later.engine.library =
      .ofList (functions ++ registered (operations ++ [operation])))
    (hoperation : ∀ text, operation ≠ .parse text) :
    later.Traces functions (operations ++ [operation]) := by
  have hmore {earlier : List (Operation φ)} (hearlier : ∀ text, .parse text ∉ earlier)
      (text : String) : .parse text ∉ earlier ++ [operation] := by
    rw [List.mem_append, List.mem_singleton, not_or]
    exact ⟨hearlier text, (hoperation text).symm⟩
  refine ⟨hlibrary, fun hnone => hmore (h.unread (hlast ▸ hnone)), fun attempt hattempt => ?_⟩
  obtain ⟨before, after, rfl, hafter, hold⟩ := h.last attempt (hlast ▸ hattempt)
  exact ⟨before, after ++ [operation], List.append_assoc .., hmore hafter, hold⟩

theorem Traces.step (h : ((start functions).run operations).Traces functions operations)
    (operation : Operation φ) :
    (((start functions).run operations).step operation).Traces functions
      (operations ++ [operation]) := by
  have hregistered : registered (operations ++ [operation]) =
      registered operations ++ registered [operation] := List.filterMap_append
  have hother (hnone : registered [operation] = []) :
      ((start functions).run operations).engine.library =
        .ofList (functions ++ registered (operations ++ [operation])) := by
    rw [hregistered, hnone, List.append_nil, h.library]
  cases operation with
  | register f =>
    refine h.keep rfl ?_ nofun
    rw [hregistered, ← List.append_assoc]
    exact (congrArg (Library.register · f) h.library).trans (Library.ofList_concat ..).symm
  | parse text =>
    have hlibrary := ((start functions).run operations).engine.library_parse text
    refine ⟨hlibrary.trans (hother rfl), nofun, ?_⟩
    rintro _ ⟨⟩
    exact ⟨operations, [], rfl, fun _ => List.not_mem_nil, h.library, rfl⟩
  | assign values =>
    obtain ⟨bindings, hassign, -⟩ := ((start functions).run operations).engine.assign_eq values
    refine h.keep rfl ?_ nofun
    rw [Session.step, hassign]
    exact hother rfl
  | evaluate => exact h.keep rfl (hother rfl) nofun
  | clone => exact h.keep rfl (hother rfl) nofun

theorem traces_run (functions : List φ) (operations : List (Operation φ)) :
    ((start functions).run operations).Traces functions operations := by
  induction operations using List.reverseRecOn with
  | nil => exact ⟨congrArg _ (List.append_nil _).symm, fun _ _ => List.not_mem_nil, nofun⟩
  | append_singleton operations operation ih =>
    rw [run, List.foldl_concat]
    exact ih.step operation

omit [Callable φ] in
theorem mem_registered_iff {f : φ} : f ∈ registered operations ↔ .register f ∈ operations := by
  rw [registered, List.mem_filterMap]
  constructor
  · rintro ⟨operation, hoperation, hf⟩
    cases operation with
    | register g =>
      obtain rfl := Option.some.inj hf
      exact hoperation
    | parse | assign | evaluate | clone => cases hf
  · exact fun h => ⟨_, h, rfl⟩

/-- A function that the last text found was registered before. -/
theorem Traces.mem_of_get? {s : Session φ} (h : s.Traces functions operations)
    {attempt : Attempt φ} (hlast : s.last = some attempt) {name : String} {f : φ}
    (hget : attempt.library.get? name = some f) : f ∈ functions ∨ .register f ∈ operations := by
  obtain ⟨before, after, rfl, -, hlibrary, -⟩ := h.last attempt hlast
  rw [hlibrary, Library.get?_ofList] at hget
  obtain ⟨-, earlier, later, hhistory, -⟩ := lastNamed?_eq_some_iff.mp hget
  have hf : f ∈ functions ++ registered before := hhistory ▸ List.mem_append_cons_self
  refine (List.mem_append.mp hf).imp_right fun hf => ?_
  exact List.mem_append_left _ (mem_registered_iff.mp hf)

end Traces

/-- What evaluation tells at any time. -/
structure Evaluates (s : Session φ) : Prop where
  notParsed_iff : s.engine.evaluate = .error .notParsed ↔ ¬s.Parsed
  /-- The first variable without a value is named. -/
  unset : s.Parsed → ∀ before v after, s.engine.bindings.entries = before ++ v :: after →
    (∀ w ∈ before, w.hasValue = true) → v.hasValue = false →
    s.engine.evaluate = .error (.unset v.name)
  /-- No node fails to have a value. -/
  value : s.Parsed → (∀ v ∈ s.engine.bindings.entries, v.hasValue = true) →
    ∃ root value, s.engine.root = some root ∧
      root.computed? s.engine.bindings = some value ∧ s.engine.evaluate = .ok value
  unchanged : s.step .evaluate = s

theorem Valid.evaluates {s : Session φ} (h : s.Valid) : s.Evaluates := by
  have hroot : s.Parsed → ∃ root, s.engine.root = some root :=
    fun hp => Option.isSome_iff_exists.mp (h.present_iff.mpr hp)
  refine ⟨?_, ?_, ?_, rfl⟩
  · constructor
    · intro hevaluate hp
      obtain ⟨root, hroot⟩ := hroot hp
      rw [Engine.evaluate, hroot] at hevaluate
      cases hunbound : s.engine.bindings.firstUnbound? with
      | none => simp [hunbound] at hevaluate
      | some v => simp [hunbound] at hevaluate
    · intro hp
      have hnone : s.engine.root = none := by
        rw [← Option.not_isSome_iff_eq_none, h.present_iff]
        exact hp
      rw [Engine.evaluate, hnone]
  · intro hp before v after hentries hbefore hv
    obtain ⟨root, hroot⟩ := hroot hp
    rw [Engine.evaluate, hroot]
    simp only [Bindings.firstUnbound?_eq_some hentries hbefore hv]
  · intro hp hbound
    obtain ⟨root, hroot⟩ := hroot hp
    obtain ⟨attempt, -, hread⟩ := h.present root hroot
    refine ⟨root, _, hroot, (hread.ready hbound).computed?_eq, ?_⟩
    rw [Engine.evaluate, hroot]
    simp only [Bindings.firstUnbound?_eq_none_iff.mpr hbound]

/-- Whatever was done with an engine, in whatever order and with whatever success, it is as
the last text left it, and evaluation tells so. The functions that a formula calls are those that
were registered before its text. -/
theorem lifecycle (functions : List φ) (operations : List (Operation φ)) :
    ((start functions).run operations).Valid ∧ ((start functions).run operations).Evaluates ∧
      ((start functions).run operations).Traces functions operations := by
  have hvalid := (valid_start functions).run operations
  exact ⟨hvalid, hvalid.evaluates, traces_run functions operations⟩

end Session

end FormulaEngine
