import FormulaEngine.Expr.Description
import FormulaEngine.Library.Standard
import FormulaEngine.Proofs.Expr.Traversal

/-! The description of a tree. It is written from one stack on which trees and the text between
them wait in one order, those of the innermost node on top. So a bracket that closes a node, and
a comma behind it, are written when everything in the node has been, however deep that is. What a
stack means is the texts that its pieces stand for, one after the other, and no step of the
writing changes it. Hence the text is the one that recursion gives. -/

namespace FormulaEngine.Expr

variable {φ : Type}

/-- The description of a tree by recursion. -/
def described [Callable φ] : Expr φ → String
  | number value p => "Number(" ++ Layout.marked.text value.toFloat ++ ", " ++ positionText p ++ ")"
  | var id p => s!"Variable(#{id}, " ++ positionText p ++ ")"
  | binary op p left right =>
    "BinaryOp(" ++ Text.quoted op ++ ", " ++ positionText p ++ ", " ++ described left ++ ", " ++
      described right ++ ")"
  | call f p args =>
    "Call(" ++ Callable.name f ++ ", " ++ positionText p ++ ", [" ++
      ", ".intercalate (args.map described) ++ "])"

section Pieces

/-- The pieces that follow the beginning of a node, in the order in which they are pushed. An
argument has a comma on top of it unless it is the first one. -/
def pushedPieces : Expr φ → List (Piece φ)
  | number _ _ | var _ _ => []
  | binary _ _ left right => [.text ")", .tree right, .text ", ", .tree left]
  | call _ _ args =>
    .text "])" :: args.zipIdx.reverse.flatMap fun (arg, i) =>
      if 0 < i then [.tree arg, .text ", "] else [.tree arg]

theorem separated_cons_cons (first second : Expr φ) (rest : List (Expr φ)) :
    separated (first :: second :: rest) =
      .tree first :: .text ", " :: separated (second :: rest) := rfl

theorem separated_cons (first : Expr φ) (rest : List (Expr φ)) :
    separated (first :: rest) = .tree first :: rest.flatMap fun arg => [.text ", ", .tree arg] := by
  induction rest generalizing first with
  | nil => rfl
  | cons second rest ih =>
    rw [separated_cons_cons, ih, List.flatMap_cons]
    rfl

/-- Which commas are written is decided by the places of the arguments. -/
theorem flatMap_zipIdx_eq_separated (args : List (Expr φ)) :
    (args.zipIdx.flatMap fun (arg, i) =>
      if 0 < i then [Piece.text ", ", .tree arg] else [.tree arg]) = separated args := by
  have hlater (rest : List (Expr φ)) (n : Nat) : ((rest.zipIdx (n + 1)).flatMap fun (arg, i) =>
      if 0 < i then [Piece.text ", ", .tree arg] else [.tree arg]) =
        rest.flatMap fun arg => [.text ", ", .tree arg] := by
    induction rest generalizing n with
    | nil => rfl
    | cons arg rest ih =>
      rw [List.zipIdx_cons, List.flatMap_cons, List.flatMap_cons, ih]
      rfl
  cases args with
  | nil => rfl
  | cons first rest =>
    rw [List.zipIdx_cons, List.flatMap_cons, hlater, separated_cons]
    rfl

/-- The same pieces from left to right. -/
def following : Expr φ → List (Piece φ)
  | number _ _ | var _ _ => []
  | binary _ _ left right => [.tree left, .text ", ", .tree right, .text ")"]
  | call _ _ args => separated args ++ [.text "])"]

theorem reverse_pushedPieces (e : Expr φ) : e.pushedPieces.reverse = e.following := by
  cases e with
  | number | var | binary => rfl
  | call f p args =>
    rw [pushedPieces, List.reverse_cons, List.reverse_flatMap, List.reverse_reverse, following,
      ← flatMap_zipIdx_eq_separated]
    congr 2
    funext entry
    rw [Function.comp_apply, apply_ite List.reverse]
    rfl

/-- Pushed in their order, the pieces of a node come off the stack from left to right. -/
theorem pushAll_pushedPieces (e : Expr φ) (stack : List (Piece φ)) :
    pushAll e.pushedPieces stack = e.following ++ stack := by
  rw [pushAll_eq, reverse_pushedPieces]

theorem opening_snd [Callable φ] (e : Expr φ) : e.opening.2 = e.following := by
  cases e <;> rfl

theorem costOfAll_following_lt (e : Expr φ) : costOfAll e.following < (Piece.tree e).cost := by
  -- any functions will do, what follows a node tells nothing of them
  let _ : Callable φ := ⟨fun _ => "", fun _ => 0, fun _ _ => 0⟩
  rw [← opening_snd]
  exact costOfAll_opening_lt e

end Pieces

section Parts

variable [Callable φ]

/-- The texts that a tree is written with, from left to right. -/
def parts : Expr φ → List String
  | number value p => [(number value p : Expr φ).opening.1]
  | var id p => [(var id p : Expr φ).opening.1]
  | binary op p left right =>
    (binary op p left right).opening.1 :: (parts left ++ ", " :: (parts right ++ [")"]))
  | call f p args =>
    (call f p args).opening.1 :: (((args.map parts).intersperse [", "]).flatten ++ ["])"])

/-- The texts that a piece stands for. -/
def Piece.parts : Piece φ → List String
  | text s => [s]
  | tree e => e.parts

theorem flatMap_separated (args : List (Expr φ)) :
    (separated args).flatMap Piece.parts = ((args.map parts).intersperse [", "]).flatten := by
  induction args with
  | nil => rfl
  | cons first rest ih =>
    cases rest with
    | nil => rfl
    | cons second rest =>
      rw [separated_cons_cons, List.flatMap_cons, List.flatMap_cons, ih]
      rfl

/-- A node stands for its beginning and the pieces behind it. -/
theorem parts_eq (e : Expr φ) : e.parts = e.opening.1 :: e.opening.2.flatMap Piece.parts := by
  cases e with
  | number value p =>
    rw [parts]
    rfl
  | var id p =>
    rw [parts]
    rfl
  | binary op p left right =>
    rw [parts]
    simp [opening, Piece.parts]
  | call f p args =>
    rw [parts, ← flatMap_separated]
    simp [opening, Piece.parts]

theorem join_separated {args : List (Expr φ)} (h : ∀ e ∈ args, String.join e.parts = e.described) :
    String.join ((separated args).flatMap Piece.parts) =
      ", ".intercalate (args.map described) := by
  induction args with
  | nil => rfl
  | cons first rest ih =>
    obtain ⟨hfirst, hrest⟩ := List.forall_mem_cons.mp h
    cases rest with
    | nil => simp [separated, Piece.parts, hfirst]
    | cons second rest =>
      rw [separated_cons_cons, List.flatMap_cons, List.flatMap_cons, String.join_append,
        String.join_append, ih hrest]
      simp [Piece.parts, hfirst, String.append_assoc]

/-- The texts of a tree run together are its description. -/
theorem join_parts (e : Expr φ) : String.join e.parts = e.described := by
  induction e with
  | number value p => simp [parts, opening, described]
  | var id p => simp [parts, opening, described]
  | binary op p left right ihl ihr =>
    simp [parts, opening, described, ihl, ihr, String.append_assoc]
  | call f p args ih =>
    rw [parts, ← flatMap_separated, String.join_cons, String.join_append, join_separated ih]
    simp [opening, described, String.append_assoc]

end Parts

section Write

variable [Callable φ] {m : Type → Type} [Monad m] (emit : String → m Unit)

/-- Writes the pieces on a stack, with whatever writing a text does. -/
def writeStack (stack : List (Piece φ)) : m Unit :=
  match stack with
  | [] => pure ()
  | .text s :: stack => do
    emit s
    writeStack stack
  | .tree e :: stack => do
    emit e.opening.1
    writeStack (pushAll e.pushedPieces stack)
termination_by costOfAll stack
decreasing_by
  · simp [costOfAll, Piece.cost]
  · have := costOfAll_following_lt e
    rw [pushAll_pushedPieces, costOfAll_append, costOfAll]
    omega

/-- What is on the stack is written from the top to the bottom. -/
theorem writeStack_eq_forM (stack : List (Piece φ)) :
    writeStack emit stack = forM (stack.flatMap Piece.parts) emit := by
  induction stack using writeStack.induct with
  | case1 => simp [writeStack]
  | case2 s stack ih =>
    rw [writeStack, ih]
    rfl
  | case3 e stack ih =>
    rw [writeStack, ih, pushAll_pushedPieces, List.flatMap_append, List.flatMap_cons, Piece.parts,
      parts_eq, opening_snd, List.cons_append, List.forM_cons]

theorem write_eq_append (pieces : List (Piece φ)) (written : String) :
    write pieces written = written ++ String.join (pieces.flatMap Piece.parts) := by
  induction pieces, written using write.induct with
  | case1 written => simp [write]
  | case2 written s rest ih =>
    rw [write, ih]
    simp [Piece.parts, String.append_assoc]
  | case3 written e rest ih =>
    rw [write, ih]
    simp [Piece.parts, parts_eq e, String.append_assoc]

theorem run_forM_append (texts : List String) (written : String) :
    (forM texts fun s => modify (· ++ s) : StateM String Unit).run written =
      ((), written ++ String.join texts) := by
  induction texts generalizing written with
  | nil =>
    rw [String.join_nil, String.append_empty]
    rfl
  | cons s texts ih =>
    rw [List.forM_cons, StateT.run_bind]
    change (forM texts fun s => modify (· ++ s) : StateM String Unit).run (written ++ s) = _
    rw [ih, String.join_cons, String.append_assoc]

end Write

variable [Callable φ]

/-- A tree is written from left to right as recursion lists its texts, whatever writing a text
does, so nothing more is written after a writing that fails. Run together the texts are the
description, in which arguments have a comma between each two, and so none if there are less than
two. -/
theorem description_eq_recursion (e : Expr φ) :
    (∀ {m : Type → Type} [Monad m] (emit : String → m Unit),
      writeStack emit [.tree e] = forM e.parts emit) ∧
    (writeStack (fun s => modify (· ++ s)) [.tree e] : StateM String Unit).run "" =
      ((), e.described) ∧
    e.description = e.described ∧
    (∀ f p, (call f p [] : Expr φ).described =
      "Call(" ++ Callable.name f ++ ", " ++ positionText p ++ ", [])") ∧
    ∀ f p, (call f p [e]).described =
      "Call(" ++ Callable.name f ++ ", " ++ positionText p ++ ", [" ++ e.described ++ "])" := by
  have hparts {m : Type → Type} [Monad m] (emit : String → m Unit) :
      writeStack emit [.tree e] = forM e.parts emit := by
    rw [writeStack_eq_forM, List.flatMap_singleton, Piece.parts]
  refine ⟨hparts, ?_, ?_, fun f p => ?_, fun f p => ?_⟩
  · rw [hparts, run_forM_append, join_parts, String.empty_append]
  · rw [description, write_eq_append, List.flatMap_singleton, Piece.parts, join_parts,
      String.empty_append]
  · rw [described, List.map_nil, String.intercalate_nil]
    simp [String.append_assoc]
  · rw [described, List.map_singleton, String.intercalate_singleton]

/-- Brackets that close one behind the other, and a comma behind them. -/
example : (call ElementaryFunction.max (some 0) [call .sqrt (some 2) [var 0 (some 4)],
      binary '*' (some 8) (var 1 (some 7)) (var 0 none)]).description =
    "Call(max, Some(0), [Call(sqrt, Some(2), [Variable(#0, Some(4))]), " ++
      "BinaryOp('*', Some(8), Variable(#1, Some(7)), Variable(#0, None))])" := by
  decide +kernel

end FormulaEngine.Expr
