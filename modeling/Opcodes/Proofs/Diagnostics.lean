import Opcodes.Proofs.Constraints
import Opcodes.Proofs.Census
import Opcodes.Proofs.Outcome
import Opcodes.Proofs.Winner

/-!
# The lines that diagnostics point at

A line of a text states a rule or none (`Rule.onLine?`), and the rules that are read are those of
the lines, in order. So what is said of places in the list of rules can be said of lines: the first
rule with an encoding is on the first line with it (`Rule.Foremost`). Entries, ambiguities and
conflicts name such lines.
-/
set_option autoImplicit false

namespace Opcodes

open Text

namespace Rule

variable {text : String} {rules : List Rule} {r s : Rule} {n i j : Nat} {css : List (List Char)}

/-- The rule that a line states, if it does, given the number of the line. -/
def ofLine? (n : Nat) (cs : List Char) : Option Rule :=
  if isSkipped (trim cs) then none else (parse n (trim cs)).toOption

/-- The rule on line `n` of a text, the first line being 1. -/
def onLine? (text : String) : Nat → Option Rule
  | 0 => none
  | n + 1 => (lines text.toList)[n]?.bind (ofLine? (n + 1))

/-- The rule stands on the first line of the text whose rule has its mask and its pattern. -/
structure Foremost (text : String) (r : Rule) : Prop where
  on : onLine? text r.line = some r
  first : ∀ n s, onLine? text n = some s → s.mask = r.mask → s.pattern = r.pattern → r.line ≤ n

/-! ## The rules of a text by their lines -/

theorem line_of_parse {cs : List Char} (ok : parse n cs = .ok r) : r.line = n := by
  rw [parse] at ok
  split at ok
  · cases ok
  · obtain ⟨draft, -, ok⟩ := bind_eq_ok_iff.1 ok
    split at ok
    · cases ok
    · cases ok
      rfl

theorem line_of_ofLine? {cs : List Char} (states : ofLine? n cs = some r) : r.line = n := by
  rw [ofLine?] at states
  split at states
  · cases states
  · cases parsed : parse n (trim cs) with
    | error cause =>
      rw [parsed] at states
      cases states
    | ok rule =>
      rw [parsed] at states
      cases states
      exact line_of_parse parsed

/-- The rules that are read are those that the lines state, in order. -/
theorem filterMap_ofLine? (ok : parseLines n css = .ok rules) :
    (css.zipIdx n).filterMap (fun line => ofLine? line.2 line.1) = rules := by
  induction css generalizing n rules with
  | nil =>
    cases ok
    rfl
  | cons cs css ih =>
    rw [parseLines_cons] at ok
    rw [List.zipIdx_cons, List.filterMap_cons, ofLine?]
    split at ok
    · rename_i skipped
      rw [if_pos skipped]
      exact ih ok
    · rename_i speaks
      rw [if_neg speaks]
      split at ok
      · cases ok
      · rename_i rule parsed
        cases rest : parseLines (n + 1) css with
        | error fault =>
          rw [rest] at ok
          cases ok
        | ok rules' =>
          rw [rest] at ok
          cases ok
          rw [parsed, ih rest]
          rfl

theorem pairwise_line (ok : parseTable text = .ok rules) :
    rules.Pairwise fun a b => a.line < b.line := by
  rw [← filterMap_ofLine? ok, List.pairwise_filterMap]
  refine (pairwise_zipIdx _ _).imp fun {l l'} less a ha b hb => ?_
  rwa [line_of_ofLine? ha, line_of_ofLine? hb]

theorem onLine?_of_pos (positive : 1 ≤ n) :
    onLine? text n = (lines text.toList)[n - 1]?.bind (ofLine? n) := by
  cases n with
  | zero => omega
  | succ n => rfl

/-- A line states a rule just when the rule is read and has the line's number. -/
theorem onLine?_eq_some_iff (ok : parseTable text = .ok rules) :
    onLine? text n = some r ↔ r ∈ rules ∧ r.line = n := by
  rw [← filterMap_ofLine? ok, List.mem_filterMap]
  constructor
  · intro on
    have positive : 1 ≤ n := Nat.one_le_iff_ne_zero.2 fun zero => by
      rw [zero] at on
      cases on
    rw [onLine?_of_pos positive] at on
    obtain ⟨cs, place, states⟩ := Option.bind_eq_some_iff.1 on
    exact ⟨⟨(cs, n), List.mem_zipIdx_iff_le_and_getElem?_sub.2 ⟨positive, place⟩, states⟩,
      line_of_ofLine? states⟩
  · rintro ⟨⟨⟨cs, i⟩, mem, states⟩, rfl⟩
    obtain rfl := line_of_ofLine? states
    obtain ⟨positive, place⟩ := List.mem_zipIdx_iff_le_and_getElem?_sub.1 mem
    rw [onLine?_of_pos positive]
    exact Option.bind_eq_some_iff.2 ⟨cs, place, states⟩

/-- Rules further down the list stand on later lines. -/
theorem line_lt_of_lt (ok : parseTable text = .ok rules) (hi : rules[i]? = some r)
    (hj : rules[j]? = some s) (lt : i < j) : r.line < s.line := by
  obtain ⟨hi', rfl⟩ := List.getElem?_eq_some_iff.1 hi
  obtain ⟨hj', rfl⟩ := List.getElem?_eq_some_iff.1 hj
  exact List.pairwise_iff_getElem.1 (pairwise_line ok) i j hi' hj' lt

/-- The first rule of the list with an encoding stands on the first line that states a rule with
it. -/
theorem foremost_of_first (ok : parseTable text = .ok rules) {leaf : Leaf} (first : leaf.First rules) :
    leaf.rule.Foremost text := by
  have wellFormed := wellFormed_of_parseTable ok
  refine ⟨(onLine?_eq_some_iff ok).2 ⟨first.mem, rfl⟩, fun n s on mask pattern => ?_⟩
  obtain ⟨mem, rfl⟩ := (onLine?_eq_some_iff ok).1 on
  obtain ⟨j, place⟩ := List.mem_iff_getElem?.1 mem
  have rivals : s.Rivals leaf.rule := ⟨mask, by
    rw [(wellFormed s mem).encoding_eq, (wellFormed _ first.mem).encoding_eq, pattern]⟩
  rcases Nat.lt_or_eq_of_le (first.first j s place rivals) with lt | rfl
  · exact Nat.le_of_lt (line_lt_of_lt ok first.place place lt)
  · rw [first.place] at place
    cases place
    exact Nat.le_refl _

end Rule

/-- What a conflict says of a text: two of its lines spell different rules for one encoding. -/
structure Conflict.TrueOf (text : String) (c : Conflict) : Prop where
  first : c.first.Foremost text
  second : Rule.onLine? text c.second.line = some c.second
  order : c.first.line < c.second.line
  mask : c.first.mask = c.second.mask
  pattern_first : c.first.pattern = c.pattern
  pattern_second : c.second.pattern = c.pattern
  differ : c.first.operator ≠ c.second.operator ∨
    ¬∀ name, name ∈ c.first.operands ↔ name ∈ c.second.operands
  ranges : Word.MaximalRuns c.first.mask c.ranges

/-- An encounter of rules that are read from a text and differ makes a conflict that is true of it. -/
theorem Encounter.Occurs.trueOf {text : String} {rules : List Rule} {e : Encounter}
    (occurs : e.Occurs rules) (differ : e.repeats = false) (ok : Rule.parseTable text = .ok rules) :
    e.conflict.TrueOf text := by
  have wellFormed := Rule.wellFormed_of_parseTable ok
  have mem := List.mem_of_getElem? occurs.place
  have first := wellFormed _ occurs.first.mem
  have second := wellFormed _ mem
  have mask := occurs.rivals.1
  have pattern : e.occupant.rule.pattern = e.late.rule.pattern := by
    rw [← first.encoding_eq, ← second.encoding_eq, occurs.rivals.2]
  refine ⟨Rule.foremost_of_first ok occurs.first, (Rule.onLine?_eq_some_iff ok).2 ⟨mem, rfl⟩,
    Rule.line_lt_of_lt ok occurs.first.place occurs.place occurs.late, mask, pattern, rfl, ?_, ?_⟩
  · by_contra alike
    rw [not_or, not_not, not_not] at alike
    have perm := (List.perm_ext_iff_of_nodup first.sound.operands second.sound.operands).2 alike.2
    have repeats : e.repeats = true := Rule.same_iff.2 ⟨alike.1, mask, pattern, perm⟩
    rw [repeats] at differ
    cases differ
  · show Word.MaximalRuns e.occupant.rule.mask (Word.runs e.late.rule.mask)
    rw [mask]
    exact Word.maximalRuns_runs _

namespace Table

variable {registry : Registry} {rules : List Rule} {text : String} {t : Table}
  {conflicts : List Conflict}

theorem ofText_eq_ok_iff : ofText registry text = .ok t ↔
    ∃ rules, Rule.parseTable text = .ok rules ∧ ofRules registry rules = .ok t := by
  rw [ofText, bind_eq_ok_iff]
  cases Rule.parseTable text <;> simp [Except.mapError]

theorem ofText_eq_conflicts_iff : ofText registry text = .error (.conflicts conflicts) ↔
    ∃ rules, Rule.parseTable text = .ok rules ∧
      (Forest.ofRules rules).conflicts = conflicts ∧ conflicts ≠ [] := by
  simp only [← @ofRules_eq_conflicts_iff registry]
  rw [ofText, bind_eq_error_iff]
  cases Rule.parseTable text <;> simp [Except.mapError]

/-- Of a text that makes a table, every entry names the first line that states a rule with its mask
and its pattern, and has that rule's operator and operands; an ambiguity names the lines of the two
entries that clash. Of a text that does not for its conflicts, every conflict names two lines with
different rules for one encoding, the first of all with it and a later one. -/
theorem ofText_lines (registry : Registry) (text : String) :
    (∀ t, ofText registry text = .ok t →
      (∀ g ∈ t.groups, ∀ e ∈ g.entries, ∃ r : Rule, r.Foremost text ∧ r.line = e.line ∧
        r.mask = g.mask ∧ r.pattern = e.pattern ∧ r.operator = e.operator ∧
        r.operands = e.operands) ∧
      ∀ x ∈ t.ambiguities, ∃ g h, t.Clash g x.winner h x.shadowed) ∧
    ∀ conflicts, ofText registry text = .error (.conflicts conflicts) →
      ∀ c ∈ conflicts, c.TrueOf text := by
  refine ⟨fun t built => ?_, fun conflicts failed c mem => ?_⟩
  · obtain ⟨rules, ok, built⟩ := ofText_eq_ok_iff.1 built
    have built := built_of_ofRules built
    refine ⟨fun g hg e he => ?_, fun x mem => ?_⟩
    · obtain ⟨leaf, first, mask, layout, -, rfl⟩ := (built.entries g hg e).1 he
      have wellFormed := Rule.wellFormed_of_parseTable ok _ first.mem
      exact ⟨leaf.rule, Rule.foremost_of_first ok first, rfl, mask, wellFormed.encoding_eq.symm,
        rfl, rfl⟩
    · obtain ⟨g, h, clash, -⟩ := exists_clash_of_mem_ambiguities built.ordered mem
      exact ⟨g, h, clash⟩
  · obtain ⟨rules, ok, rfl, -⟩ := ofText_eq_conflicts_iff.1 failed
    rw [(Forest.tallied_ofRules rules).conflicts, List.mem_map] at mem
    obtain ⟨e, mem, rfl⟩ := mem
    obtain ⟨mem, differ⟩ := List.mem_filter.1 mem
    exact (Forest.mem_encounters_iff.1 mem).trueOf (by simpa using differ) ok

/-- A comment, a rule, another spelling of it, and a rule over other bits. -/
def respelledText : String := "# twice\nstay 3..0=1\nstay 3..2=0 1..0=1\nhigh 7..4=2"

/-- Two rules for one encoding. -/
def disputedText : String := "stay 3..0=1\n\nleave 3..0=1"

theorem ofText_lines_respelledText : ∃ t x, ofText .riscv respelledText = .ok t ∧
    x ∈ t.ambiguities ∧ x.winner.line = 4 ∧ x.shadowed.line = 2 ∧
    (∃ r : Rule, r.Foremost respelledText ∧ r.line = 2 ∧ r.operator = "stay") ∧
    (∃ g h, t.Clash g x.winner h x.shadowed) ∧
    ∃ c, ofText .riscv disputedText = .error (.conflicts [c]) ∧ c.first.line = 1 ∧
      c.second.line = 3 ∧ c.TrueOf disputedText := by
  have built : ofText .riscv respelledText = .ok
      ⟨[⟨0xF0, [⟨0x20, "high", [], [], 2, 4⟩]⟩, ⟨0x0F, [⟨0x01, "stay", [], [], 2, 2⟩]⟩]⟩ := by
    decide +kernel
  have failed : ofText .riscv disputedText = .error (.conflicts
      [⟨⟨"stay", [], [⟨⟨3, 0⟩, 1⟩], 1⟩, ⟨"leave", [], [⟨⟨3, 0⟩, 1⟩], 3⟩⟩]) := by
    decide +kernel
  obtain ⟨entries, ambiguities⟩ := (ofText_lines .riscv respelledText).1 _ built
  obtain ⟨r, foremost, line, -, -, operator, -⟩ :=
    entries _ (List.mem_cons_of_mem _ List.mem_cons_self) _ List.mem_cons_self
  refine ⟨_, ⟨_, _, 0x21⟩, built, List.mem_cons_self, rfl, rfl, ⟨r, foremost, line, operator⟩,
    ambiguities _ List.mem_cons_self, _, failed, rfl, rfl, ?_⟩
  exact (ofText_lines .riscv disputedText).2 _ failed _ List.mem_cons_self

end Table

end Opcodes
