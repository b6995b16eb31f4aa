import FormulaEngine.Expr.Listing
import FormulaEngine.Proofs.Expr.Shape

/-! The listing of a tree as text. It is written node by node, with a line break before every line
but the first, and comes out as the lines of the recursive listing with line breaks between them.
A line begins with two spaces for each level and no title begins with a space, so the depth of a
node can be read off its line. If no name in the tree contains a line break, the text can be cut
into its lines again, and it determines the shape of the tree. -/

namespace FormulaEngine

namespace Layout

theorem isDigit_of_mem_significantDigits {d : Decimal} {c : Char}
    (h : c ∈ (significantDigits d).1) : c.isDigit = true := by
  have hkept : c ∈ (Nat.toDigits 10 d.coefficient).reverse.dropWhile (· = '0') :=
    List.mem_reverse.mp h
  have hdigits : c ∈ Nat.toDigits 10 d.coefficient :=
    List.mem_reverse.mp ((List.dropWhile_sublist _).subset hkept)
  exact Nat.isDigit_of_mem_toDigits (by decide) (by decide) hdigits

theorem eq_of_mem_zeros {n : Nat} {c : Char} (h : c ∈ zeros n) : c = '0' :=
  List.eq_of_mem_replicate h

theorem mem_writeOut {digits : List Char} {exponent : Int} {c : Char}
    (h : c ∈ writeOut false digits exponent) : c = '0' ∨ c = '.' ∨ c ∈ digits := by
  simp only [writeOut, Bool.false_eq_true, if_false, List.append_nil] at h
  -- zero, a whole number, one below one, and one with a point among its digits
  split_ifs at h with hnone hwhole hfraction
  · exact .inl (List.mem_singleton.mp h)
  · obtain h | h := List.mem_append.mp h
    · exact .inr (.inr h)
    · exact .inl (eq_of_mem_zeros h)
  · simp only [List.cons_append, List.nil_append, List.mem_cons, List.mem_append] at h
    obtain h | h | h | h := h
    · exact .inl h
    · exact .inr (.inl h)
    · exact .inl (eq_of_mem_zeros h)
    · exact .inr (.inr h)
  · simp only [List.mem_append, List.mem_cons] at h
    obtain h | h | h := h
    · exact .inr (.inr (List.mem_of_mem_take h))
    · exact .inr (.inl h)
    · exact .inr (.inr (List.mem_of_mem_drop h))

/-- A number in a listing is written with digits, a point and a minus sign, or it has a name. -/
theorem mem_text_plain {x : Float} {c : Char} (h : c ∈ (plain.text x).toList) :
    c.isDigit = true ∨ c ∈ "-.NaNinf".toList := by
  have hname : "NaN".toList ⊆ "-.NaNinf".toList := by decide
  have hsign : "-".toList ⊆ "-.NaNinf".toList := by decide
  have hinf : "inf".toList ⊆ "-.NaNinf".toList := by decide
  simp only [text, signed, plain, Bool.or_true, if_true] at h
  split at h
  · exact .inr (hname h)
  · rw [String.toList_append] at h
    obtain h | h := List.mem_append.mp h
    · split at h
      · exact .inr (hsign h)
      · cases h
    · split at h
      · exact .inr (hinf h)
      · rw [String.toList_ofList] at h
        obtain rfl | rfl | h := mem_writeOut h
        · exact .inl (by decide)
        · exact .inr (by decide)
        · exact .inl (isDigit_of_mem_significantDigits h)

theorem not_mem_text_plain {x : Float} : '\n' ∉ (plain.text x).toList := by
  intro h
  obtain h | h := mem_text_plain h
  · exact absurd h (by decide)
  · exact absurd h (by decide)

end Layout

theorem not_mem_toDigits (n : Nat) : '\n' ∉ Nat.toDigits 10 n :=
  fun h => absurd (Nat.isDigit_of_mem_toDigits (by decide) (by decide) h) (by decide)

variable {φ : Type} [Callable φ] (table : Bindings)

section Line

/-- A line of the listing is a title behind two spaces for each level. -/
def indented (depth : Nat) (title : String) : String :=
  String.ofList (List.replicate (2 * depth) ' ') ++ title

theorem pushn_empty (c : Char) (n : Nat) : "".pushn c n = String.ofList (List.replicate n c) := by
  rw [String.pushn_eq_repeat_push]
  induction n with
  | zero => rfl
  | succ n ih =>
    rw [Nat.repeat, ih, ← String.toList_inj, String.toList_push, String.toList_ofList,
      String.toList_ofList, List.replicate_succ']

theorem Entry.line_eq (entry : Entry φ) :
    entry.line table = indented entry.depth (entry.label.title table) := by
  rw [Entry.line, indented, pushn_empty]

/-- The depth of a node by its line. -/
def lineDepth (line : String) : Nat := (line.toList.takeWhile (· = ' ')).length / 2

theorem Label.head?_title (label : Label φ) : (label.title table).toList.head? ≠ some ' ' := by
  cases label with
  | number value => simp [title]
  | var id =>
    rw [title]
    split <;> simp [toString]
  | binary op => simp [title]
  | call f argCount => simp [title]

theorem lineDepth_indented (depth : Nat) {title : String} (h : title.toList.head? ≠ some ' ') :
    lineDepth (indented depth title) = depth := by
  have htitle : title.toList.takeWhile (· = ' ') = [] := by
    cases hs : title.toList with
    | nil => rfl
    | cons c cs =>
      rw [hs] at h
      exact List.takeWhile_cons_of_neg (by simpa using h)
  rw [lineDepth, indented, String.toList_append, String.toList_ofList,
    List.takeWhile_append_of_pos (by simp +contextual), htitle, List.append_nil,
    List.length_replicate, Nat.mul_div_cancel_left depth (by decide)]

/-- No operator and no name that a line tells contains a line break. -/
def Label.Unbroken : Label φ → Prop
  | .number _ => True
  | .var id => ∀ v ∈ table.get? id, '\n' ∉ v.name.toList
  | .binary op => op ≠ '\n'
  | .call f _ => '\n' ∉ (Callable.name f).toList

theorem Label.Unbroken.not_mem_title {label : Label φ} (h : label.Unbroken table) :
    '\n' ∉ (label.title table).toList := by
  cases label with
  | number value => simp [title, Layout.not_mem_text_plain]
  | var id =>
    rw [title]
    split
    next name value hv =>
      have hname : '\n' ∉ name.toList := h _ hv
      simp [hname, Layout.not_mem_text_plain]
    next name hv =>
      have hname : '\n' ∉ name.toList := h _ hv
      simp [hname]
    next => simp [toString, not_mem_toDigits]
  | binary op =>
    have hop : '\n' ≠ op := Ne.symm h
    simp [title, hop]
  | call f argCount =>
    have hname : '\n' ∉ (Callable.name f).toList := h
    simp [title, hname, toString, not_mem_toDigits]

theorem not_mem_indented {depth : Nat} {title : String} (h : '\n' ∉ title.toList) :
    '\n' ∉ (indented depth title).toList := by
  rw [indented, String.toList_append, String.toList_ofList, List.mem_append, List.mem_replicate]
  exact fun hmem => hmem.elim (fun hspace => absurd hspace.2 (by decide)) h

end Line

namespace Expr

/-- No operator and no name in the tree contains a line break. -/
def Unbroken (e : Expr φ) : Prop := ∀ label ∈ e.labels, label.Unbroken table

/-- The lines of a tree whose root is at a depth: the line of the root, and then those of its
children from left to right, one level deeper. -/
def lines (depth : Nat) : Expr φ → List String
  | number value _ => [indented depth ("Number " ++ Layout.plain.text value.toFloat)]
  | var id _ =>
    [indented depth (match table.get? id with
      | some ⟨name, some value⟩ => "Variable " ++ name ++ " = " ++ Layout.plain.text value
      | some ⟨name, none⟩ => "Variable " ++ name ++ " (unset)"
      | none => s!"Variable #{id} (dangling)")]
  | binary op _ left right =>
    indented depth ("BinaryOp " ++ op.toString) ::
      (lines (depth + 1) left ++ lines (depth + 1) right)
  | call f _ args =>
    indented depth ("Call " ++ Callable.name f ++ s!"/{Callable.arity f}") ::
      args.flatMap (lines (depth + 1))

theorem lines_eq (depth : Nat) (e : Expr φ) : e.lines table depth =
    indented depth (e.label.title table) :: e.children.flatMap (lines table (depth + 1)) := by
  cases e with
  | number | call => simp [lines, label, Label.title, children]
  | var id p =>
    rw [lines]
    rfl
  | binary => simp [lines, label, Label.title, children]

/-- Every node has a line, with its title at its depth. -/
theorem lines_eq_map_nodes (depth : Nat) (e : Expr φ) : e.lines table depth =
    (e.nodes depth).map fun node => indented node.1 (node.2.label.title table) :=
  eq_map_nodes (lines_eq table) depth e

theorem listingText_eq_intercalate (e : Expr φ) :
    e.listingText table = "\n".intercalate (e.lines table 0) := by
  rw [listingText, outline_eq_map_nodes, List.map_map, lines_eq_map_nodes]
  congr 1
  exact List.map_congr_left fun node _ => Entry.line_eq table _

section Writing

/-- What has been written, and whether no line has been begun yet. -/
structure Page where
  first : Bool := true
  text : String := ""

/-- The page on which some lines stand. -/
def Page.ofLines (lines : List String) : Page := ⟨lines.isEmpty, "\n".intercalate lines⟩

def Page.write (s : String) : StateM Page Unit :=
  modify fun page => { page with text := page.text ++ s }

/-- Writes what is said of a node. -/
def writeTitle : Expr φ → StateM Page Unit
  | number value _ => Page.write ("Number " ++ Layout.plain.text value.toFloat)
  | var id _ =>
    match table.get? id with
    | some v =>
      match v.value with
      | some value => Page.write ("Variable " ++ v.name ++ " = " ++ Layout.plain.text value)
      | none => Page.write ("Variable " ++ v.name ++ " (unset)")
    | none => Page.write s!"Variable #{id} (dangling)"
  | binary op _ _ _ => Page.write ("BinaryOp " ++ op.toString)
  | call f _ _ => Page.write ("Call " ++ Callable.name f ++ s!"/{Callable.arity f}")

/-- Writes the line of a node. -/
def writeLine (node : Nat × Expr φ) : StateM Page Unit := do
  unless (← get).first do
    Page.write "\n"
  modify fun page => { page with first := false }
  Page.write ("".pushn ' ' (2 * node.1))
  writeTitle table node.2

theorem writeTitle_eq (e : Expr φ) : writeTitle table e = Page.write (e.label.title table) := by
  cases e with
  | number | binary | call => rfl
  | var id p =>
    rw [writeTitle, label, Label.title]
    cases table.get? id with
    | none => rfl
    | some v =>
      obtain ⟨name, value⟩ := v
      cases value <;> rfl

/-- A line is written behind those that stand on the page. -/
theorem run_writeLine (node : Nat × Expr φ) (lines : List String) :
    (writeLine table node).run (Page.ofLines lines) =
      ((), Page.ofLines (lines ++ [indented node.1 (node.2.label.title table)])) := by
  rw [writeLine, writeTitle_eq, pushn_empty]
  cases lines with
  | nil => rfl
  | cons line lines =>
    have htext (s t : String) : "\n".intercalate (line :: lines ++ [s ++ t]) =
        "\n".intercalate (line :: lines) ++ "\n" ++ s ++ t := by
      rw [String.intercalate_append_of_ne_nil (by simp) (by simp), String.intercalate_singleton,
        String.append_assoc, String.append_assoc, String.append_assoc]
    rw [indented, Page.ofLines, Page.ofLines, htext]
    rfl

theorem run_forM_writeLine (nodes : List (Nat × Expr φ)) (lines : List String) :
    (forM nodes (writeLine table)).run (Page.ofLines lines) =
      ((), Page.ofLines
        (lines ++ nodes.map fun node => indented node.1 (node.2.label.title table))) := by
  induction nodes generalizing lines with
  | nil =>
    rw [List.map_nil, List.append_nil]
    rfl
  | cons node nodes ih =>
    rw [List.forM_cons, StateT.run_bind, run_writeLine]
    change (forM nodes (writeLine table)).run _ = _
    rw [ih, List.map_cons, List.append_assoc, List.singleton_append]

/-- The text that a walk over the tree writes on an empty page. -/
def written (e : Expr φ) : String :=
  ((walkStack (writeLine table) [(0, e)]).run {}).2.text

theorem written_eq_intercalate (e : Expr φ) :
    e.written table = "\n".intercalate (e.lines table 0) := by
  rw [written, walkStack_eq_forM, List.flatMap_singleton, lines_eq_map_nodes]
  -- nothing has been written yet, so no line stands on the page
  change ((forM (e.nodes 0) (writeLine table)).run (Page.ofLines [])).2.text = _
  rw [run_forM_writeLine, List.nil_append]
  rfl

end Writing

section Reading

variable {table} {e : Expr φ}

theorem Unbroken.not_mem_line (h : e.Unbroken table) :
    ∀ line ∈ e.lines table 0, '\n' ∉ line.toList := by
  intro line hline
  rw [lines_eq_map_nodes] at hline
  obtain ⟨node, hnode, rfl⟩ := List.mem_map.mp hline
  have hlabel : node.2.label ∈ e.labels := by
    rw [labels_eq_map_nodes]
    exact List.mem_map_of_mem hnode
  exact not_mem_indented (Label.Unbroken.not_mem_title table (h _ hlabel))

/-- Cut at the line breaks, the text falls into the lines. -/
theorem Unbroken.split_listingText (h : e.Unbroken table) :
    ((e.listingText table).split '\n').toList.map (·.copy) = e.lines table 0 := by
  have hnonempty : e.lines table 0 ≠ [] := by
    rw [lines_eq]
    exact List.cons_ne_nil _ _
  have hsplit := String.toList_split_intercalate h.not_mem_line
  rw [if_neg hnonempty] at hsplit
  rw [listingText_eq_intercalate]
  exact hsplit

/-- The depths of the nodes by their lines. -/
theorem map_lineDepth_lines : (e.lines table 0).map lineDepth = (e.nodes 0).map (·.1) := by
  rw [lines_eq_map_nodes, List.map_map]
  exact List.map_congr_left fun node _ =>
    lineDepth_indented node.1 (Label.head?_title table node.2.label)

/-- The shape of a tree can be read off the text. -/
theorem Unbroken.shape_eq {ψ : Type} [Callable ψ] {table' : Bindings} {e' : Expr ψ}
    (h : e.Unbroken table) (h' : e'.Unbroken table')
    (htext : e.listingText table = e'.listingText table') : e.shape = e'.shape := by
  have hlines : e.lines table 0 = e'.lines table' 0 := by
    rw [← h.split_listingText, htext, h'.split_listingText]
  apply shape_eq_of_depths_eq
  rw [← map_lineDepth_lines, hlines, map_lineDepth_lines]

end Reading

/-- Writing a tree node by node gives the lines of the recursive listing with line breaks between
them. There is a line for each node, and unless a name contains a line break the text falls into
these lines again. Then trees with the same text have the same shape, whatever the tables. -/
theorem listingText_lines (e : Expr φ) :
    e.written table = e.listingText table ∧
    e.listingText table = "\n".intercalate (e.lines table 0) ∧
    (e.lines table 0).length = e.size ∧
    (e.Unbroken table →
      ((e.listingText table).split '\n').toList.map (·.copy) = e.lines table 0) ∧
    ∀ (ψ : Type) [Callable ψ] (table' : Bindings) (e' : Expr ψ), e.Unbroken table →
      e'.Unbroken table' → e.listingText table = e'.listingText table' → e.shape = e'.shape := by
  refine ⟨?_, listingText_eq_intercalate table e, ?_, fun h => h.split_listingText,
    fun ψ _ table' e' h h' => h.shape_eq h'⟩
  · rw [written_eq_intercalate, listingText_eq_intercalate]
  · rw [lines_eq_map_nodes, List.length_map, length_nodes]

/-- The larger one of a variable and its sum with a variable that no table has. -/
def larger (id : Nat) : Expr ElementaryFunction :=
  .call .max none [.var id none, .binary '+' none (.var id none) (.var 9 none)]

section Larger

variable {table : Bindings} {id : Nat} (hid : table.get? id = some ⟨"y", none⟩)
  (hdangling : table.get? 9 = none)

include hid hdangling

theorem lines_larger : (larger id).lines table 0 =
    ["Call max/2", "  Variable y (unset)", "  BinaryOp +", "    Variable y (unset)",
      "    Variable #9 (dangling)"] := by
  simp [larger, lines, hid, hdangling]
  decide

theorem unbroken_larger : (larger id).Unbroken table := by
  rw [Unbroken, labels_eq_map_nodes]
  simp [larger, nodes, label, Label.Unbroken, hid, hdangling]
  decide

end Larger

/-- The same variable at different places of two tables. -/
theorem listingText_lines_larger :
    (larger 0).Unbroken ⟨[⟨"y", none⟩]⟩ ∧ (larger 1).Unbroken ⟨[⟨"x", none⟩, ⟨"y", none⟩]⟩ ∧
    (((larger 0).listingText ⟨[⟨"y", none⟩]⟩).split '\n').toList.map (·.copy) =
      ["Call max/2", "  Variable y (unset)", "  BinaryOp +", "    Variable y (unset)",
        "    Variable #9 (dangling)"] ∧
    (larger 0).listingText ⟨[⟨"y", none⟩]⟩ =
      (larger 1).listingText ⟨[⟨"x", none⟩, ⟨"y", none⟩]⟩ ∧
    (larger 0).shape = (larger 1).shape := by
  have hlone : (larger 0).Unbroken ⟨[⟨"y", none⟩]⟩ := unbroken_larger rfl rfl
  have hpaired : (larger 1).Unbroken ⟨[⟨"x", none⟩, ⟨"y", none⟩]⟩ := unbroken_larger rfl rfl
  obtain ⟨-, htext, -, hsplit, hshape⟩ := listingText_lines ⟨[⟨"y", none⟩]⟩ (larger 0)
  obtain ⟨-, htext', -⟩ := listingText_lines ⟨[⟨"x", none⟩, ⟨"y", none⟩]⟩ (larger 1)
  have hsame : (larger 0).listingText ⟨[⟨"y", none⟩]⟩ =
      (larger 1).listingText ⟨[⟨"x", none⟩, ⟨"y", none⟩]⟩ := by
    rw [htext, htext', lines_larger rfl rfl, lines_larger rfl rfl]
  refine ⟨hlone, hpaired, ?_, hsame, hshape _ _ _ hlone hpaired hsame⟩
  rw [hsplit hlone, lines_larger rfl rfl]

end Expr

end FormulaEngine
