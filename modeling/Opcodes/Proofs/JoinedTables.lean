import Opcodes.Command
import Opcodes.Proofs.Rv32

/-!
# Tables that are read together

The fragments of a selection and the further tables of a command are read as one text, with a
newline between each two. `Rule.placed` says how many lines stand in front of each of them. What is
read is the rules of the texts one after another, or the fault of the first that has one; every line
number is that of the text itself, moved by the lines in front of it, and so leads back to it.
-/
set_option autoImplicit false

namespace Opcodes

namespace Text

/-- A text has one piece more than it has separators. -/
theorem length_pieces (sep : Char) (cs : List Char) :
    (pieces sep cs).length = cs.count sep + 1 := by
  induction cs with
  | nil => rfl
  | cons c cs ih =>
    rw [pieces_cons, extendPieces, List.count_cons]
    split
    · rename_i here
      rw [List.length_cons, ih, if_pos (by simpa using here)]
    · rename_i other
      rw [List.length_cons, List.length_tail, ih, if_neg (by simpa using other)]
      omega

end Text

namespace Rule

/-- The lines that a text and the newline behind it take up. -/
def extent (text : String) : Nat := text.toList.count '\n' + 1

/-- The rules of a table, or its fault, with `k` lines in front of it. -/
def parseBehind (k : Nat) (text : String) : Except TableFault (List Rule) :=
  ((parseTable text).map (List.map (shift k))).mapError (TableFault.shift k)

/-- Texts and the number of lines in front of each, `k` of them in front of the first. -/
def placed (k : Nat) : List String → List (Nat × String)
  | [] => []
  | text :: texts => (k, text) :: placed (k + extent text) texts

theorem parseBehind_append_newline (k : Nat) (a b : String) :
    parseBehind k (a ++ "\n" ++ b) = parseBehind k a >>= fun rules =>
      (parseBehind (k + extent a) b).map (rules ++ ·) := by
  unfold parseBehind extent
  rw [parseTable_append_newline, Text.length_pieces]
  cases parseTable a with
  | error fault => rfl
  | ok rules =>
    cases parseTable b with
    | error fault =>
      simp only [bind, Except.bind, Except.map, Except.mapError, TableFault.shift]
      congr 2
      omega
    | ok more =>
      simp only [bind, Except.bind, Except.map, Except.mapError, List.map_append, List.map_map]
      congr 3
      funext r
      simp only [Function.comp_apply, shift, Rule.mk.injEq, true_and]
      omega

theorem parseBehind_intercalate (k : Nat) (texts : List String) :
    parseBehind k (String.intercalate "\n" texts) =
      ((placed k texts).mapM fun part => parseBehind part.1 part.2).map List.flatten := by
  induction texts generalizing k with
  | nil => rfl
  | cons a texts ih =>
    rw [placed, List.mapM_cons]
    cases texts with
    | nil =>
      rw [String.intercalate_singleton]
      dsimp only
      cases parseBehind k a with
      | error fault => rfl
      | ok rules => exact congrArg Except.ok (List.append_nil rules).symm
    | cons b texts =>
      rw [String.intercalate_cons_cons, parseBehind_append_newline, ih]
      dsimp only
      cases parseBehind k a with
      | error fault => rfl
      | ok rules =>
        cases (placed (k + extent a) (b :: texts)).mapM fun part => parseBehind part.1 part.2 <;> rfl

theorem parseBehind_zero (text : String) : parseBehind 0 text = parseTable text := by
  unfold parseBehind
  cases parseTable text with
  | error fault => rfl
  | ok rules => exact congrArg Except.ok (List.map_id rules)

end Rule

namespace Command

/-- Further tables are joined to a text as the parts of the text are joined. -/
theorem appendTables_intercalate (first : String) (texts : List String) (tables : List File) :
    appendTables (String.intercalate "\n" (first :: texts)) tables =
      (tables.mapM readText).map fun more => String.intercalate "\n" (first :: texts ++ more) := by
  induction tables generalizing texts with
  | nil => simp [appendTables, Except.map, pure, Except.pure]
  | cons file tables ih =>
    unfold appendTables at ih ⊢
    rw [List.foldlM_cons, List.mapM_cons]
    cases readText file with
    | error e => rfl
    | ok text =>
      have joined : String.intercalate "\n" (first :: texts) ++ "\n" ++ text =
          String.intercalate "\n" (first :: (texts ++ [text])) := by
        rw [← List.cons_append, String.intercalate_append_of_ne_nil (by simp) (by simp),
          String.intercalate_singleton]
      show List.foldlM _ (String.intercalate "\n" (first :: texts) ++ "\n" ++ text) tables = _
      rw [joined, ih]
      cases tables.mapM readText with
      | error e => rfl
      | ok more => simp [bind, Except.bind, Except.map, pure, Except.pure]

/-- The fragments of a selection, and then the further tables. -/
theorem appendTables_source (e : Extensions) (tables : List File) :
    appendTables e.source tables = (tables.mapM readText).map fun more =>
      String.intercalate "\n" ((e.union .base).toList.map Extension.text ++ more) := by
  obtain ⟨first, rest, fragments⟩ := List.exists_cons_of_ne_nil (List.ne_nil_of_mem e.base_mem_toList)
  rw [Extensions.source, fragments, List.map_cons, appendTables_intercalate]

end Command

namespace Rule

/-- A text behind another and a newline is read as if it stood alone, as many lines further down as
the first has newlines and one more. So of texts that are joined each gives its own rules, or its own
fault, with the lines in front of it counted in. That is how a command joins the fragments of its
selection, or an empty text in their place, and its further tables. -/
theorem parseTable_joined :
    (∀ a b : String, parseTable (a ++ "\n" ++ b) =
      match parseTable a, parseTable b with
      | .error fault, _ => .error fault
      | .ok _, .error fault => .error (fault.shift (a.toList.count '\n' + 1))
      | .ok rules, .ok more => .ok (rules ++ more.map (shift (a.toList.count '\n' + 1)))) ∧
    (∀ texts : List String, parseTable (String.intercalate "\n" texts) =
      ((placed 0 texts).mapM fun part => parseBehind part.1 part.2).map List.flatten) ∧
    (∀ (e : Extensions) (tables : List Command.File), Command.appendTables e.source tables =
      (tables.mapM Command.readText).map fun more =>
        String.intercalate "\n" ((e.union .base).toList.map Extension.text ++ more)) ∧
    ∀ tables : List Command.File, Command.appendTables "" tables =
      (tables.mapM Command.readText).map fun more => String.intercalate "\n" ("" :: more) := by
  refine ⟨fun a b => ?_, fun texts => ?_, Command.appendTables_source, fun tables => ?_⟩
  · rw [parseTable_append_newline, Text.length_pieces]
    cases parseTable a with
    | error fault => rfl
    | ok rules => cases parseTable b <;> rfl
  · rw [← parseBehind_zero, parseBehind_intercalate]
  · have joined := Command.appendTables_intercalate "" [] tables
    rwa [String.intercalate_singleton] at joined

example : parseTable ("low 0=1\n" ++ "\n" ++ "high 1=2") =
    .error ⟨3, "high 1=2", .valueTooWide 2 1⟩ := by decide +kernel

end Rule

end Opcodes
