import Mathlib
import Opcodes.Rule.Parser

/-!
# Table texts one after the other

The number of a line goes into its rule and its fault and decides nothing, so lines that stand
further down are read alike, with all numbers moved. A text behind another and a newline adds its
lines to those of the first: joined texts give the rules of the first and then those of the second,
moved by the number of lines before them.
-/
set_option autoImplicit false

namespace Opcodes

namespace Text

theorem lines_append_newline (as bs : List Char) :
    lines (as ++ '\n' :: bs) = pieces '\n' as ++ lines bs := by
  simp only [lines, pieces_append, List.getLast?_append_of_ne_nil _ (pieces_ne_nil '\n' bs)]
  split
  · exact List.dropLast_append_of_ne_nil (pieces_ne_nil '\n' bs)
  · rfl

/-- The pieces between newlines are the lines, but for an empty piece at the end. -/
theorem pieces_eq_lines_or (cs : List Char) :
    pieces '\n' cs = lines cs ∨ pieces '\n' cs = lines cs ++ [[]] := by
  unfold lines
  dsimp only
  split
  · rename_i last
    exact .inr (List.dropLast_append_getLast? _ last).symm
  · exact .inl rfl

theorem pieces_eq_singleton {sep : Char} {cs : List Char} (h : sep ∉ cs) : pieces sep cs = [cs] := by
  induction cs with
  | nil => rfl
  | cons c cs ih =>
    rw [List.mem_cons, not_or] at h
    rw [pieces_cons, ih h.2, extendPieces, if_neg (Ne.symm h.1)]
    rfl

/-- The lines of a text that is made of lines are those lines. -/
theorem lines_flatMap {css : List (List Char)} (h : ∀ cs ∈ css, '\n' ∉ cs) :
    lines (css.flatMap (· ++ ['\n'])) = css := by
  induction css with
  | nil => rfl
  | cons cs css ih =>
    obtain ⟨head, tail⟩ := List.forall_mem_cons.1 h
    rw [List.flatMap_cons, List.append_assoc, List.singleton_append, lines_append_newline, ih tail,
      pieces_eq_singleton head, List.singleton_append]

end Text

/-- The fault, `k` lines further down. -/
def TableFault.shift (k : Nat) (f : TableFault) : TableFault := { f with line := f.line + k }

namespace Rule

/-- The rule, `k` lines further down. -/
def shift (k : Nat) (r : Rule) : Rule := { r with line := r.line + k }

theorem parse_add (line k : Nat) (cs : List Char) :
    parse (line + k) cs = (parse line cs).map (shift k) := by
  unfold parse
  cases Text.words cs with
  | nil => rfl
  | cons operator tokens =>
    cases draft : tokens.foldlM Draft.add ⟨[], []⟩ with
    | error cause => simp [draft, bind, Except.bind, Except.map]
    | ok d =>
      simp only [draft, bind, Except.bind]
      split <;> rfl

theorem parseLines_cons (line : Nat) (cs : List Char) (rest : List (List Char)) :
    parseLines line (cs :: rest) =
      if isSkipped (Text.trim cs) then parseLines (line + 1) rest
      else match parse line (Text.trim cs) with
        | .error cause => .error ⟨line, String.ofList (Text.trim cs), cause⟩
        | .ok rule => (parseLines (line + 1) rest).map (rule :: ·) := rfl

/-- Lines further down give the same rules or the same fault, further down. -/
theorem parseLines_add (line k : Nat) (css : List (List Char)) :
    parseLines (line + k) css =
      ((parseLines line css).map (List.map (shift k))).mapError (TableFault.shift k) := by
  induction css generalizing line with
  | nil => rfl
  | cons cs rest ih =>
    rw [parseLines_cons, parseLines_cons, parse_add, Nat.add_right_comm, ih]
    split
    · rfl
    · cases parse line (Text.trim cs) with
      | error cause => rfl
      | ok rule => cases parseLines (line + 1) rest <;> rfl

theorem parseLines_append (line : Nat) (as bs : List (List Char)) :
    parseLines line (as ++ bs) = parseLines line as >>= fun rules =>
      (parseLines (line + as.length) bs).map (rules ++ ·) := by
  induction as generalizing line with
  | nil =>
    rw [List.nil_append, List.length_nil, Nat.add_zero, parseLines]
    cases parseLines line bs <;> rfl
  | cons cs rest ih =>
    rw [List.cons_append, parseLines_cons, parseLines_cons, ih, List.length_cons,
      show line + 1 + rest.length = line + (rest.length + 1) by omega]
    split
    · rfl
    · cases parse line (Text.trim cs) with
      | error cause => rfl
      | ok rule =>
        cases parseLines (line + 1) rest with
        | error fault => rfl
        | ok rules => cases parseLines (line + (rest.length + 1)) bs <;> rfl

/-- An empty piece at the end of a text gives no rule. -/
theorem parseLines_pieces (line : Nat) (cs : List Char) :
    parseLines line (Text.pieces '\n' cs) = parseLines line (Text.lines cs) := by
  rcases Text.pieces_eq_lines_or cs with same | more
  · rw [same]
  · rw [more, parseLines_append]
    cases parseLines line (Text.lines cs) with
    | error fault => rfl
    | ok rules => exact congrArg Except.ok (List.append_nil rules)

/-- A text behind another and a newline is read as if it stood alone, as many lines further down as
the first has pieces. -/
theorem parseTable_append_newline (a b : String) :
    parseTable (a ++ "\n" ++ b) = parseTable a >>= fun rules =>
      (((parseTable b).map (List.map (shift (Text.pieces '\n' a.toList).length))).mapError
        (TableFault.shift (Text.pieces '\n' a.toList).length)).map (rules ++ ·) := by
  have joined : (a ++ "\n" ++ b).toList = a.toList ++ '\n' :: b.toList := by simp
  rw [parseTable, joined, Text.lines_append_newline, parseLines_append, parseLines_pieces,
    parseLines_add]
  rfl

/-- The rule without its place in a table. -/
def unnumbered (r : Rule) : Rule := { r with line := 0 }

variable {a b : String} {as bs : List Rule}

/-- Joined texts have the rules of both. -/
theorem exists_parseTable_append_newline (ha : parseTable a = .ok as) (hb : parseTable b = .ok bs) :
    ∃ rules, parseTable (a ++ "\n" ++ b) = .ok rules ∧
      rules.map unnumbered = (as ++ bs).map unnumbered := by
  refine ⟨as ++ bs.map (shift (Text.pieces '\n' a.toList).length), ?_, ?_⟩
  · rw [parseTable_append_newline, ha, hb]
    rfl
  · rw [List.map_append, List.map_append, List.map_map]
    rfl

end Rule

end Opcodes
