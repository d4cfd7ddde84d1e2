import Opcodes.Proofs.Census
import Opcodes.Proofs.Diagnostics

/-!
# Repeated rules

A rule that is a spelling of one before it comes to a leaf that such a spelling has, so the merge
counts it and stays as it is in all else (`Forest.ofRules_append_repeats`). A table is made of the
trees of a merge, so spellings of its rules can be put behind them as often as one likes: the table
does not change, down to the lines and the operands of its entries.
-/
set_option autoImplicit false

namespace Opcodes

namespace Rule

variable {rules more : List Rule} {rule : Rule} {text : String}

/-- Each of the later rules is a spelling of one in front. -/
def Repeats (rules more : List Rule) : Prop := ∀ b ∈ more, ∃ a ∈ rules, a.same b = true

instance (rules more : List Rule) : Decidable (Repeats rules more) :=
  inferInstanceAs (Decidable (∀ b ∈ more, ∃ a ∈ rules, _))

theorem repeats_append_singleton_iff :
    Repeats rules (more ++ [rule]) ↔ Repeats rules more ∧ ∃ a ∈ rules, a.same rule = true := by
  simp only [Repeats, List.forall_mem_append, List.forall_mem_singleton]

/-- A rule that only stands further down is the same rule. -/
theorem same_shift (k : Nat) (r : Rule) : r.same (r.shift k) = true :=
  same_iff.2 ⟨rfl, rfl, rfl, .refl _⟩

theorem repeats_map_shift (k : Nat) (rules : List Rule) : Repeats rules (rules.map (shift k)) :=
  List.forall_mem_map.2 fun r mem => ⟨r, mem, same_shift k r⟩

/-- A newline at the end of a text adds no rule. -/
theorem parseTable_newline (text : String) : parseTable (text ++ "\n") = parseTable text := by
  have joined := parseTable_append_newline text ""
  rw [String.append_empty] at joined
  rw [joined]
  cases parseTable text with
  | error fault => rfl
  | ok rules => exact congrArg Except.ok (List.append_nil rules)

end Rule

namespace Forest

variable {rules more : List Rule} {rule : Rule} {leaf occupant : Leaf}

/-- The step: a rule whose leaf has a spelling of it is counted and nothing else. -/
theorem add_of_same (f : Forest)
    (found : f.find? leaf.rule.mask leaf.rule.pattern = some occupant)
    (same : occupant.rule.same leaf.rule = true) :
    f.add leaf = { f with duplicates := f.duplicates + 1 } := by
  have step := f.added leaf
  generalize f.add leaf = g at step ⊢
  cases step with
  | planted fresh =>
    rw [find?, fresh] at found
    cases found
  | inserted t tree vacant =>
    rw [find?, tree, Option.bind_some, vacant] at found
    cases found
  | repeated => rfl
  | refused other found' differs =>
    rw [found, Option.some.injEq] at found'
    rw [← found', same] at differs
    cases differs

/-- Without a conflict, the leaf of a rule of the list has a spelling of it, and so of all its
spellings. -/
theorem exists_find?_same (clear : Rule.Clear rules) {a : Rule} (mem : a ∈ rules)
    (same : a.same rule = true) : ∃ occupant : Leaf,
      (ofRules rules).find? rule.mask rule.pattern = some occupant ∧
        occupant.rule.same rule = true := by
  obtain ⟨occupant, first, rivals⟩ := exists_first mem
  have same' := Rule.same_trans (clear _ first.mem a mem rivals) same
  obtain ⟨-, mask, pattern, -⟩ := Rule.same_iff.1 same'
  refine ⟨occupant, find?_ofRules_eq_some_iff.2 ⟨first, mask, ?_⟩, same'⟩
  rw [← pattern]
  exact occupant.rule.matches_pattern

/-- The run: repeated rules are counted and change nothing else. -/
theorem ofRules_append_repeats (clear : Rule.Clear rules) (repeats : Rule.Repeats rules more) :
    ofRules (rules ++ more) =
      { ofRules rules with duplicates := (ofRules rules).duplicates + more.length } := by
  induction more using List.reverseRecOn with
  | nil => rw [List.append_nil, List.length_nil, Nat.add_zero]
  | append_singleton more rule ih =>
    obtain ⟨front, a, mem, same⟩ := Rule.repeats_append_singleton_iff.1 repeats
    obtain ⟨occupant, found, same'⟩ := exists_find?_same clear mem same
    rw [← List.append_assoc, ofRules_append_singleton, ih front, add_of_same _ found same',
      List.length_append, List.length_singleton, Nat.add_assoc]

end Forest

namespace Table

variable {registry : Registry} {rules more : List Rule} {t : Table} {a b : String}

/-- A build sees nothing of repeated rules. -/
theorem ofRules_append_repeats (clear : Rule.Clear rules) (repeats : Rule.Repeats rules more) :
    ofRules registry (rules ++ more) = ofRules registry rules := by
  rw [ofRules, Forest.ofRules_append_repeats clear repeats]
  rfl

/-- A text behind another and a newline changes nothing if it has the same rules. -/
theorem ofText_append_newline_of_eq (ok : ofText registry a = .ok t)
    (eq : Rule.parseTable b = Rule.parseTable a) : ofText registry (a ++ "\n" ++ b) = .ok t := by
  obtain ⟨rules, parsed, ok⟩ := ofText_eq_ok_iff.1 ok
  refine ofText_eq_ok_iff.2
    ⟨rules ++ rules.map (Rule.shift (Text.pieces '\n' a.toList).length), ?_, ?_⟩
  · rw [Rule.parseTable_append_newline, eq, parsed]
    rfl
  · rw [ofRules_append_repeats (built_of_ofRules ok).clear (Rule.repeats_map_shift _ rules), ok]

/-- Rules that repeat those of a list that builds are absorbed: with them behind it the list builds
the same table, and the merge counts each of them as a duplicate. In particular a text that builds a
table can be followed by itself, on a new line. -/
theorem ofRules_append_of_repeats (ok : ofRules registry rules = .ok t)
    (repeats : ∀ b ∈ more, ∃ a ∈ rules, a.same b = true) :
    ofRules registry (rules ++ more) = .ok t ∧
    (Forest.ofRules (rules ++ more)).duplicates =
      (Forest.ofRules rules).duplicates + more.length ∧
    ∀ text, Rule.parseTable text = .ok rules →
      ofText registry (text ++ "\n" ++ text) = .ok t ∧
      ∀ body, text = body ++ "\n" → ofText registry (text ++ text) = .ok t := by
  have clear := (built_of_ofRules ok).clear
  refine ⟨?_, ?_, fun text parsed => ?_⟩
  · rw [ofRules_append_repeats clear repeats, ok]
  · rw [Forest.ofRules_append_repeats clear repeats]
  · have built : ofText registry text = .ok t := ofText_eq_ok_iff.2 ⟨rules, parsed, ok⟩
    refine ⟨ofText_append_newline_of_eq built rfl, ?_⟩
    rintro body rfl
    refine ofText_append_newline_of_eq ?_ (Rule.parseTable_newline body)
    exact ofText_eq_ok_iff.2 ⟨rules, (Rule.parseTable_newline body).symm.trans parsed, ok⟩

/-- The rules of `nopRules` again, the one with its operands in another order, the other in two
ranges. -/
def nopSpellings : List Rule := [
  ⟨"addi", [.imm12, .rd, .rs1], [⟨⟨6, 0⟩, 0x13⟩, ⟨⟨14, 12⟩, 0⟩], 7⟩,
  ⟨"nop", [], [⟨⟨31, 16⟩, 0⟩, ⟨⟨15, 0⟩, 0x13⟩], 8⟩]

def nopText : String := "addi rd rs1 imm12 14..12=0 6..0=0x13\nnop 31..7=0 6..0=0x13\nnop 31..0=0x13"

theorem ofRules_append_nopSpellings : ∃ t, ofRules .riscv nopRules = .ok t ∧
    (∀ b ∈ nopSpellings, ∃ a ∈ nopRules, a.same b = true) ∧
    ofRules .riscv (nopRules ++ nopSpellings) = .ok t ∧
    (Forest.ofRules (nopRules ++ nopSpellings)).duplicates = 3 ∧
    ofText .riscv (nopText ++ "\n" ++ (nopText ++ "\n")) = .ok t := by
  obtain ⟨t, ok⟩ := exists_ofRules_nopRules
  have repeats : ∀ b ∈ nopSpellings, ∃ a ∈ nopRules, a.same b = true := by decide +kernel
  obtain ⟨absorbed, counted, twice⟩ := ofRules_append_of_repeats ok repeats
  have once : (Forest.ofRules nopRules).duplicates = 1 := by decide +kernel
  have parsed : Rule.parseTable (nopText ++ "\n") = .ok nopRules := by decide +kernel
  rw [once] at counted
  exact ⟨t, ok, repeats, absorbed, counted, (twice _ parsed).2 nopText rfl⟩

end Table

end Opcodes
