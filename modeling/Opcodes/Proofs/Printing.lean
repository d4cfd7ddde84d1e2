import Opcodes.Proofs.Parsing

/-!
# Writing a table

Rules that are listed in lines are read back from the text of these lines, each with the number of
its line. `Rule.write` is one way to state a rule, for each radix of its values, so every
well-formed rule can be stated and is read back from what is written.
-/
set_option autoImplicit false

namespace Opcodes

namespace Text

variable {tokens css : List (List Char)}

theorem pieces_intercalate {sep : Char} (plain : ∀ cs ∈ css, sep ∉ cs) (nonempty : css ≠ []) :
    pieces sep ([sep].intercalate css) = css := by
  induction css with
  | nil => exact absurd rfl nonempty
  | cons cs css ih =>
    obtain ⟨head, tail⟩ := List.forall_mem_cons.1 plain
    cases css with
    | nil => rw [List.intercalate_singleton, pieces_eq_singleton head]
    | cons cs' css =>
      have rest := ih tail (List.cons_ne_nil _ _)
      rw [List.intercalate_cons_cons, List.append_assoc, List.singleton_append, pieces_append, rest,
        pieces_eq_singleton head, List.singleton_append]

/-- Tokens with one space between any two. -/
theorem laid_intercalate (isToken : ∀ token ∈ tokens, Token token) :
    Laid tokens ([' '].intercalate tokens) := by
  induction tokens with
  | nil => exact List.forall_mem_nil _
  | cons token tokens ih =>
    obtain ⟨head, tail⟩ := List.forall_mem_cons.1 isToken
    have rest := ih tail
    cases tokens with
    | nil =>
      have alone := Laid.token_append head (by simp) rest
      rw [List.intercalate_nil, List.append_nil] at alone
      rwa [List.intercalate_singleton]
    | cons next tokens =>
      have behind := rest.prepend (List.forall_mem_singleton.2 rfl : Blanks [' '])
      rw [List.intercalate_cons_cons, List.append_assoc]
      exact behind.token_append head (by simp [isBlank, blankRanges])

theorem not_mem_intercalate {c : Char} {sep : List Char} (absent : c ∉ sep)
    (plain : ∀ token ∈ tokens, c ∉ token) : c ∉ sep.intercalate tokens := by
  induction tokens with
  | nil => exact List.not_mem_nil
  | cons token tokens ih =>
    obtain ⟨head, tail⟩ := List.forall_mem_cons.1 plain
    cases tokens with
    | nil => rwa [List.intercalate_singleton]
    | cons next tokens =>
      rw [List.intercalate_cons_cons, List.mem_append, List.mem_append, not_or, not_or]
      exact ⟨⟨head, absent⟩, ih tail⟩

end Text

theorem OperandName.token_text (n : OperandName) : Text.Token n.text.toList := by
  cases n <;> decide +kernel

namespace Numeral

variable {radix bound n : Nat} {cs : List Char} {c : Char}

/-- No blank is a digit. -/
theorem digit?_eq_none_of_isBlank (blank : Text.isBlank c = true) : digit? radix c = none := by
  have outside : ∀ a b : Char, (∀ p ∈ Text.blankRanges, p.2 < a.toNat ∨ b.toNat < p.1) →
      ¬(a ≤ c ∧ c ≤ b) := by
    intro a b apart between
    obtain ⟨p, mem, inside⟩ := List.any_eq_true.1 blank
    simp only [Bool.and_eq_true, decide_eq_true_eq] at inside
    have low : a.toNat ≤ c.toNat := between.1
    have high : c.toNat ≤ b.toNat := between.2
    have := apart p mem
    omega
  rw [digit?, if_neg (outside _ _ (by decide)), if_neg (outside _ _ (by decide)),
    if_neg (outside _ _ (by decide))]
  rfl

theorem isBlank_of_spells (spells : Spells radix bound cs n) :
    ∀ c ∈ cs, Text.isBlank c = false := by
  intro c mem
  by_contra blank
  rw [Bool.not_eq_false] at blank
  have ne : c ≠ '+' := by
    rintro rfl
    exact absurd blank (by decide)
  exact not_mem_of_spells (digit?_eq_none_of_isBlank blank) ne spells mem

/-- A written number has no blank. -/
theorem isBlank_write {mark : List Char} (mem : (radix, mark) ∈ marks) (n : Nat) :
    ∀ c ∈ write radix mark n, Text.isBlank c = false := by
  obtain ⟨radix_gt, radix_le⟩ := radix_of_mem_marks mem
  have plain : ∀ p ∈ marks, ∀ c ∈ p.2, Text.isBlank c = false := by
    simp [marks, Text.isBlank, Text.blankRanges]
  have number := spells_toDigits radix_gt radix_le (Nat.lt_succ_self n)
  exact List.forall_mem_append.2 ⟨plain _ mem, isBlank_of_spells number⟩

end Numeral

namespace BitRange

variable {r : BitRange} {cs : List Char}

theorem isBlank_of_spelled (spelled : Spelled cs r) : ∀ c ∈ cs, Text.isBlank c = false := by
  cases spelled with
  | position number => exact Numeral.isBlank_of_spells number
  | ends high low =>
    refine List.forall_mem_append.2 ⟨Numeral.isBlank_of_spells high, ?_⟩
    exact List.forall_mem_cons.2 ⟨by decide, List.forall_mem_cons.2 ⟨by decide,
      Numeral.isBlank_of_spells low⟩⟩

theorem text_toList (r : BitRange) :
    r.text.toList = Nat.toDigits 10 r.hi ++ '.' :: '.' :: Nat.toDigits 10 r.lo := by
  simp [text, toString, Nat.repr]

/-- The text of a range is read as the range. -/
theorem spelled_shortText (inWord : r.InWord) : Spelled r.shortText.toList r := by
  have position : ∀ {n}, n < 32 → Numeral.Spells 10 Numeral.bound32 (Nat.toDigits 10 n) n :=
    fun below => Numeral.spells_toDigits (by decide) (by decide) (below.trans (by decide))
  obtain ⟨hi, lo⟩ := r
  obtain ⟨ordered, inside⟩ := inWord
  dsimp only at ordered inside
  rw [shortText]
  split
  · rename_i same
    dsimp only at same
    subst same
    have alone : s!"{hi}".toList = Nat.toDigits 10 hi := by simp [toString, Nat.repr]
    rw [alone]
    exact .position (position inside)
  · rw [text_toList]
    exact .ends (position inside) (position (ordered.trans_lt inside))

end BitRange

namespace FixedBits

variable {radix : Nat} {mark : List Char} {c : FixedBits}

/-- The constraint with its value in one of the radices. -/
def write (radix : Nat) (mark : List Char) (c : FixedBits) : List Char :=
  c.range.shortText.toList ++ '=' :: Numeral.write radix mark c.value.toNat

theorem spelled_write (mem : (radix, mark) ∈ Numeral.marks) (fits : c.Fits) :
    c.Spelled (c.write radix mark) := by
  have below : c.value.toNat < Numeral.bound64 := c.value.isLt.trans (by decide)
  exact ⟨_, _, rfl, BitRange.spelled_shortText fits.1, Numeral.literal_write mem below⟩

theorem token_write (mem : (radix, mark) ∈ Numeral.marks) (fits : c.Fits) :
    Text.Token (c.write radix mark) := by
  have range := BitRange.isBlank_of_spelled (BitRange.spelled_shortText fits.1)
  have value := Numeral.isBlank_write mem c.value.toNat
  refine ⟨by simp [write], List.forall_mem_append.2 ⟨range, ?_⟩⟩
  exact List.forall_mem_cons.2 ⟨by decide, value⟩

end FixedBits

namespace Rule

open Text

variable {radix : Nat} {mark : List Char} {r : Rule} {rules : List Rule} {n : Nat}

/-- The tokens of a rule, operands first. -/
def writtenTokens (radix : Nat) (mark : List Char) (r : Rule) : List (List Char) :=
  r.operands.map (fun n => n.text.toList) ++ r.constraints.map (FixedBits.write radix mark)

/-- The rule on a line, with a space between any two tokens. -/
def write (radix : Nat) (mark : List Char) (r : Rule) : List Char :=
  [' '].intercalate (r.operator.toList :: r.writtenTokens radix mark)

theorem tokens_operands (ns : List OperandName) : Tokens ns [] (ns.map fun n => n.text.toList) := by
  induction ns with
  | nil => exact .nil
  | cons n ns ih => exact .operand n ih

theorem tokens_constraints (mem : (radix, mark) ∈ Numeral.marks) {cs : List FixedBits}
    (fits : ∀ c ∈ cs, c.Fits) : Tokens [] cs (cs.map (FixedBits.write radix mark)) := by
  induction cs with
  | nil => exact .nil
  | cons c cs ih =>
    obtain ⟨head, tail⟩ := List.forall_mem_cons.1 fits
    exact .constraint (FixedBits.spelled_write mem head) (ih tail)

theorem tokens_writtenTokens (mem : (radix, mark) ∈ Numeral.marks) (wellFormed : r.WellFormed) :
    Tokens r.operands r.constraints (r.writtenTokens radix mark) := by
  have joined := (tokens_operands r.operands).append (tokens_constraints mem wellFormed.sound.fits)
  rwa [List.append_nil, List.nil_append] at joined

theorem token_of_mem_writtenTokens (mem : (radix, mark) ∈ Numeral.marks)
    (wellFormed : r.WellFormed) : ∀ token ∈ r.operator.toList :: r.writtenTokens radix mark, Token token := by
  refine List.forall_mem_cons.2 ⟨wellFormed.operator, List.forall_mem_append.2 ⟨?_, ?_⟩⟩
  · exact List.forall_mem_map.2 fun n _ => n.token_text
  · intro token written
    obtain ⟨c, among, rfl⟩ := List.mem_map.1 written
    exact FixedBits.token_write mem (wellFormed.sound.fits c among)

/-- Every well-formed rule can be stated, with values in each of the radices. -/
theorem written_write (mem : (radix, mark) ∈ Numeral.marks) (wellFormed : r.WellFormed) :
    r.Written (r.write radix mark) :=
  ⟨_, laid_intercalate (token_of_mem_writtenTokens mem wellFormed),
    tokens_writtenTokens mem wellFormed⟩

theorem newline_not_mem_write (mem : (radix, mark) ∈ Numeral.marks) (wellFormed : r.WellFormed) :
    '\n' ∉ r.write radix mark := by
  refine not_mem_intercalate (by decide) fun token among newline => ?_
  exact absurd ((token_of_mem_writtenTokens mem wellFormed token among).2 _ newline) (by decide)

/-! ## Reading back -/

theorem parseTable_intercalate {css : List (List Char)} (plain : ∀ cs ∈ css, '\n' ∉ cs) :
    parseTable (String.intercalate "\n" (css.map String.ofList)) = parseLines 1 css := by
  by_cases nonempty : css = []
  case pos =>
    subst nonempty
    rfl
  have joined : (String.intercalate "\n" (css.map String.ofList)).toList =
      ['\n'].intercalate css := by
    simp [String.toList_intercalate]
  rw [parseTable, joined, ← parseLines_pieces, pieces_intercalate plain nonempty]

/-- The rules of a text, written with the numbers of consecutive lines. -/
def numbered : Nat → List Rule → List Rule
  | _, [] => []
  | n, r :: rules => { r with line := n } :: numbered (n + 1) rules

theorem listed_write (mem : (radix, mark) ∈ Numeral.marks) (wellFormed : ∀ r ∈ rules, r.WellFormed)
    (n : Nat) : Listed n (numbered n rules) (rules.map (write radix mark)) := by
  induction rules generalizing n with
  | nil => exact .nil
  | cons r rules ih =>
    obtain ⟨head, tail⟩ := List.forall_mem_cons.1 wellFormed
    have stated := written_write mem (head.renumber n)
    exact .rule stated (ih tail (n + 1))

theorem wellFormed_numbered (wellFormed : ∀ r ∈ rules, r.WellFormed) (n : Nat) :
    ∀ r ∈ numbered n rules, r.WellFormed := by
  induction rules generalizing n with
  | nil => exact List.forall_mem_nil _
  | cons r rules ih =>
    obtain ⟨head, tail⟩ := List.forall_mem_cons.1 wellFormed
    exact List.forall_mem_cons.2 ⟨head.renumber n, ih tail (n + 1)⟩

/-- Well-formed rules are read back from the table that is written for them. -/
theorem parseTable_write (mem : (radix, mark) ∈ Numeral.marks)
    (wellFormed : ∀ r ∈ rules, r.WellFormed) :
    parseTable (String.intercalate "\n" ((rules.map (write radix mark)).map String.ofList)) =
      .ok (numbered 1 rules) := by
  have plain : ∀ cs ∈ rules.map (write radix mark), '\n' ∉ cs :=
    List.forall_mem_map.2 fun r among => newline_not_mem_write mem (wellFormed r among)
  rw [parseTable_intercalate plain,
    parseLines_of_listed (listed_write mem wellFormed 1) (wellFormed_numbered wellFormed 1)]

/-- Well-formed rules are read from every text that lists them, each with the number of its line,
and they can be listed: one on each line, with values in any of the radices. -/
theorem parseTable_of_wellFormed (wellFormed : ∀ r ∈ rules, r.WellFormed) :
    (∀ css, Listed 1 rules css → (∀ cs ∈ css, '\n' ∉ cs) →
      parseTable (String.intercalate "\n" (css.map String.ofList)) = .ok rules) ∧
    ∀ radix mark, (radix, mark) ∈ Numeral.marks →
      parseTable (String.intercalate "\n" ((rules.map (write radix mark)).map String.ofList)) =
        .ok (numbered 1 rules) := by
  refine ⟨fun css listed plain => ?_, fun radix mark mem => parseTable_write mem wellFormed⟩
  rw [parseTable_intercalate plain, parseLines_of_listed listed wellFormed]

/-- Two rules between blank lines and comments. -/
def mixedLines : List (List Char) :=
  ["# operands and constraints mixed".toList,
   "addi 14..12=0x0 rd\t6..0=0b001_0011 rs1 imm12".toList, "  ".toList,
   "\t# every radix".toList, "  c.nop 15..13=0 01..+0=0o1  12=0B0 11..2=0 \r".toList, "".toList]

/-- The rules that these lines state. -/
def mixedRules : List Rule :=
  [⟨"addi", [.rd, .rs1, .imm12], [⟨⟨14, 12⟩, 0⟩, ⟨⟨6, 0⟩, 0x13⟩], 2⟩,
   ⟨"c.nop", [], [⟨⟨15, 13⟩, 0⟩, ⟨⟨1, 0⟩, 1⟩, ⟨⟨12, 12⟩, 0⟩, ⟨⟨11, 2⟩, 0⟩], 5⟩]

/-- The rules as they are written, with hexadecimal values. -/
def mixedText : String :=
  "addi rd rs1 imm12 14..12=0x0 6..0=0x13\nc.nop 15..13=0x0 1..0=0x1 12=0x0 11..2=0x0"

theorem parseTable_mixedLines : (∀ r ∈ mixedRules, r.WellFormed) ∧
    Listed 1 mixedRules mixedLines ∧ (∀ cs ∈ mixedLines, '\n' ∉ cs) ∧
      parseTable (String.intercalate "\n" (mixedLines.map String.ofList)) = .ok mixedRules ∧
      parseTable mixedText = .ok (numbered 1 mixedRules) := by
  have addi : Written ⟨"addi", [.rd, .rs1, .imm12], [⟨⟨14, 12⟩, 0⟩, ⟨⟨6, 0⟩, 0x13⟩], 2⟩
      "addi 14..12=0x0 rd\t6..0=0b001_0011 rs1 imm12".toList := by
    refine ⟨["14..12=0x0".toList, OperandName.rd.text.toList, "6..0=0b001_0011".toList,
      OperandName.rs1.text.toList, OperandName.imm12.text.toList], by decide +kernel, ?_⟩
    exact .constraint (by decide +kernel) (.operand _ (.constraint (by decide +kernel)
      (.operand _ (.operand _ .nil))))
  have nop : Written ⟨"c.nop", [],
      [⟨⟨15, 13⟩, 0⟩, ⟨⟨1, 0⟩, 1⟩, ⟨⟨12, 12⟩, 0⟩, ⟨⟨11, 2⟩, 0⟩], 5⟩
      "  c.nop 15..13=0 01..+0=0o1  12=0B0 11..2=0 \r".toList := by
    refine ⟨["15..13=0".toList, "01..+0=0o1".toList, "12=0B0".toList, "11..2=0".toList],
      by decide +kernel, ?_⟩
    exact .constraint (by decide +kernel) (.constraint (by decide +kernel)
      (.constraint (by decide +kernel) (.constraint (by decide +kernel) .nil)))
  have listed : Listed 1 mixedRules mixedLines := by
    refine .silent ?_ (.rule addi (.silent ?_ (.silent ?_ (.rule nop (.silent ?_ .nil)))))
    all_goals decide +kernel
  have wellFormed : ∀ r ∈ mixedRules, r.WellFormed := by
    intro r mem
    simp only [mixedRules, List.mem_cons, List.not_mem_nil, or_false] at mem
    rcases mem with rfl | rfl
    · exact ⟨by decide +kernel, by decide +kernel, ⟨by decide, by decide, by decide⟩, by decide⟩
    · exact ⟨by decide +kernel, by decide +kernel, ⟨by decide, by decide, by decide⟩, by decide⟩
  have plain : ∀ cs ∈ mixedLines, '\n' ∉ cs := by decide +kernel
  obtain ⟨read, readWritten⟩ := parseTable_of_wellFormed wellFormed
  have written : String.intercalate "\n"
      ((mixedRules.map (write 16 ['0', 'x'])).map String.ofList) = mixedText := by decide +kernel
  exact ⟨wellFormed, listed, plain, read _ listed plain,
    written ▸ readWritten 16 ['0', 'x'] (by decide)⟩

end Rule

end Opcodes
