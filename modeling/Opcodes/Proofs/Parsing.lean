import Opcodes.Proofs.Grammar
import Opcodes.Proofs.TableText

/-!
# Tables as they are written

`Rule.Written r cs` says that a line states a rule, however its tokens are spaced, mixed and
spelled, and `Rule.Listed n rules css` that lines, counted from `n`, state rules in order, with
blank lines and comments anywhere between them. A table is read just when well-formed rules are
listed in it; otherwise its fault is that of the first line that states none
(`parseTable_outcome`).
-/
set_option autoImplicit false

namespace Opcodes.Rule

open Text

variable {r : Rule} {rules : List Rule} {cs : List Char} {css : List (List Char)} {line n : Nat}
  {cause : LineFault} {fault : TableFault}

/-- The rule can be stated on a line. -/
structure WellFormed (r : Rule) : Prop where
  operator : Token r.operator.toList
  /-- A line that starts like this would be a comment. -/
  uncommented : r.operator.toList.head? ≠ some '#'
  sound : Draft.Sound ⟨r.operands, r.constraints⟩
  constrained : r.constraints ≠ []

/-- Nothing but its number ties a rule to a line. -/
theorem WellFormed.renumber (wellFormed : r.WellFormed) (n : Nat) :
    WellFormed { r with line := n } :=
  ⟨wellFormed.operator, wellFormed.uncommented, wellFormed.sound, wellFormed.constrained⟩

/-- The line is the operator and then the tokens of operands and constraints. -/
def Written (r : Rule) (cs : List Char) : Prop :=
  ∃ tokens, Laid (r.operator.toList :: tokens) cs ∧ Tokens r.operands r.constraints tokens

/-- A line that keeps no table from being read. -/
def Legible (cs : List Char) : Prop := Silent cs ∨ ∃ r : Rule, r.WellFormed ∧ r.Written cs

/-- The cause why a line states no rule: the leftmost token that offends, or no constraint. -/
inductive Refused (cs : List Char) : LineFault → Prop
  | token {operator token : List Char} {good rest : List (List Char)} {d : Draft}
      {cause : LineFault} (laid : Laid (operator :: (good ++ token :: rest)) cs)
      (read : Tokens d.operands d.constraints good) (sound : d.Sound)
      (offends : d.Offends token cause) : Refused cs cause
  | unconstrained {operator : List Char} {tokens : List (List Char)} {ns : List OperandName}
      (laid : Laid (operator :: tokens) cs) (read : Tokens ns [] tokens) (nodup : ns.Nodup) :
      Refused cs .unconstrained

/-- The lines, the first of which has the number `n`, state the rules in order. -/
inductive Listed : Nat → List Rule → List (List Char) → Prop
  | nil {n : Nat} : Listed n [] []
  | silent {n : Nat} {rules : List Rule} {cs : List Char} {css : List (List Char)}
      (silent : Silent cs) (rest : Listed (n + 1) rules css) : Listed n rules (cs :: css)
  | rule {r : Rule} {rules : List Rule} {cs : List Char} {css : List (List Char)}
      (written : r.Written cs) (rest : Listed (r.line + 1) rules css) :
      Listed r.line (r :: rules) (cs :: css)

/-- The fault of the first line that is not legible, with the line's number and text. -/
def FirstFault (n : Nat) (css : List (List Char)) (fault : TableFault) : Prop :=
  ∃ before cs after, css = before ++ cs :: after ∧ (∀ cs ∈ before, Legible cs) ∧ ¬Silent cs ∧
    fault.line = n + before.length ∧ fault.text = String.ofList (trim cs) ∧ Refused cs fault.cause

/-! ## One line -/

theorem parse_trim (line : Nat) (cs : List Char) : parse line (trim cs) = parse line cs := by
  unfold parse
  rw [words_trim]

theorem Written.not_silent (written : r.Written cs) (wellFormed : r.WellFormed) : ¬Silent cs := by
  obtain ⟨tokens, ⟨gap, rest, rfl, blanks, -⟩, -⟩ := written
  obtain ⟨⟨nonempty, plain⟩, uncommented, -⟩ := wellFormed
  rw [← isSkipped_trim_iff, isSkipped, head?_trim, List.dropWhile_append_of_pos blanks]
  cases operator : r.operator.toList with
  | nil => exact absurd operator nonempty
  | cons c operator' =>
    rw [operator] at plain uncommented
    have first : ((c :: operator') ++ rest).dropWhile isBlank = (c :: operator') ++ rest :=
      List.dropWhile_cons_of_neg (by simp [plain c List.mem_cons_self])
    rw [first]
    simpa using uncommented

theorem parse_of_written (written : r.Written cs) (wellFormed : r.WellFormed) :
    parse r.line cs = .ok r := by
  obtain ⟨tokens, laid, read⟩ := written
  have folded : tokens.foldlM Draft.add ⟨[], []⟩ = .ok ⟨r.operands, r.constraints⟩ :=
    Draft.foldlM_add read wellFormed.sound
  rw [parse, words_eq_of_laid laid]
  simp only [folded, bind, Except.bind, if_neg wellFormed.constrained, String.ofList_toList]

theorem parse_of_refused (refused : Refused cs cause) (line : Nat) :
    parse line cs = .error cause := by
  cases refused with
  | @token operator token good rest d _ laid read sound offends =>
    have sound : (Draft.append ⟨[], []⟩ d.operands d.constraints).Sound := sound
    have folded : (good ++ token :: rest).foldlM Draft.add ⟨[], []⟩ = .error cause :=
      Draft.foldlM_add_of_offends read sound offends rest
    rw [parse, words_eq_of_laid laid]
    simp only [folded, bind, Except.bind]
  | @unconstrained operator tokens ns laid read nodup =>
    have sound : Draft.Sound ⟨ns, []⟩ := ⟨nodup, List.forall_mem_nil _, .nil⟩
    have folded : tokens.foldlM Draft.add ⟨[], []⟩ = .ok ⟨ns, []⟩ := Draft.foldlM_add read sound
    rw [parse, words_eq_of_laid laid]
    simp only [folded, bind, Except.bind, if_pos]

/-- A line that says something states a rule or is refused. -/
theorem legible_or_refused (speaks : ¬Silent cs) : Legible cs ∨ ∃ cause, Refused cs cause := by
  have laid := laid_words cs
  cases found : words cs with
  | nil =>
    rw [found] at laid
    exact absurd (Or.inl laid) speaks
  | cons operator tokens =>
    rw [found] at laid
    have empty : Draft.Sound ⟨[], []⟩ := ⟨.nil, List.forall_mem_nil _, .nil⟩
    rcases Draft.reads_or_offends empty tokens with ⟨ns, constraints, read, sound⟩ |
      ⟨good, token, rest, ns, constraints, cause, rfl, read, sound, offends⟩
    · by_cases constrained : constraints = []
      case pos =>
        subst constrained
        exact .inr ⟨_, .unconstrained laid read sound.operands⟩
      obtain ⟨gap, rest, split, blanks, isToken, -⟩ := laid
      have uncommented : operator.head? ≠ some '#' := by
        intro comment
        obtain ⟨operator', rfl⟩ := List.head?_eq_some_iff.1 comment
        exact speaks (.inr ⟨gap, operator' ++ rest, split, blanks⟩)
      refine .inl (.inr ⟨⟨String.ofList operator, ns, constraints, 0⟩, ?_, tokens, ?_, read⟩)
      · rw [← String.toList_ofList (l := operator)] at isToken uncommented
        exact ⟨isToken, uncommented, sound, constrained⟩
      · rw [String.toList_ofList, ← found]
        exact laid_words cs
    · exact .inr ⟨cause, .token laid read sound offends⟩

/-! ## All lines of a table -/

theorem parseLines_of_listed (listed : Listed n rules css)
    (wellFormed : ∀ r ∈ rules, r.WellFormed) : parseLines n css = .ok rules := by
  induction listed with
  | nil => rfl
  | silent silent _ ih =>
    rw [parseLines_cons, if_pos (isSkipped_trim_iff.2 silent), ih wellFormed]
  | @rule r rules cs css written _ ih =>
    obtain ⟨head, tail⟩ := List.forall_mem_cons.1 wellFormed
    have speaks := isSkipped_trim_iff.not.2 (written.not_silent head)
    rw [parseLines_cons, if_neg speaks, parse_trim, parse_of_written written head, ih tail]
    rfl

/-- Rules can be listed as long as all lines are legible. -/
theorem exists_listed_iff : (∃ rules, (∀ r ∈ rules, r.WellFormed) ∧ Listed n rules css) ↔
    ∀ cs ∈ css, Legible cs := by
  induction css generalizing n with
  | nil => exact iff_of_true ⟨[], List.forall_mem_nil _, .nil⟩ (List.forall_mem_nil _)
  | cons cs css ih =>
    rw [List.forall_mem_cons]
    constructor
    · rintro ⟨rules, wellFormed, listed⟩
      cases listed with
      | silent silent rest => exact ⟨.inl silent, ih.1 ⟨rules, wellFormed, rest⟩⟩
      | @rule r rules _ _ written rest =>
        obtain ⟨head, tail⟩ := List.forall_mem_cons.1 wellFormed
        exact ⟨.inr ⟨r, head, written⟩, ih.1 ⟨rules, tail, rest⟩⟩
    · rintro ⟨legible, rest⟩
      obtain ⟨rules, wellFormed, listed⟩ := ih.2 rest
      rcases legible with silent | ⟨r, head, written⟩
      · exact ⟨rules, wellFormed, .silent silent listed⟩
      · have stated : Written { r with line := n } cs := written
        exact ⟨_, List.forall_mem_cons.2 ⟨head.renumber n, wellFormed⟩, .rule stated listed⟩

theorem parseLines_of_firstFault (first : FirstFault n css fault) :
    parseLines n css = .error fault := by
  obtain ⟨before, cs, after, rfl, legible, speaks, line, text, refused⟩ := first
  obtain ⟨rules, wellFormed, listed⟩ := exists_listed_iff.2 legible
  have here : parseLines (n + before.length) (cs :: after) = .error fault := by
    rw [parseLines_cons, if_neg (isSkipped_trim_iff.not.2 speaks), parse_trim,
      parse_of_refused refused, ← line, ← text]
  rw [parseLines_append, parseLines_of_listed listed wellFormed, here]
  rfl

theorem FirstFault.cons (first : FirstFault (n + 1) css fault) (legible : Legible cs) :
    FirstFault n (cs :: css) fault := by
  obtain ⟨before, bad, after, rfl, rest, speaks, line, text, refused⟩ := first
  refine ⟨cs :: before, bad, after, rfl, List.forall_mem_cons.2 ⟨legible, rest⟩, speaks, ?_, text,
    refused⟩
  rw [line, List.length_cons]
  omega

/-- Either all lines are legible or there is a first fault. -/
theorem legible_or_firstFault (n : Nat) (css : List (List Char)) :
    (∀ cs ∈ css, Legible cs) ∨ ∃ fault, FirstFault n css fault := by
  induction css generalizing n with
  | nil => exact .inl (List.forall_mem_nil _)
  | cons cs css ih =>
    by_cases legible : Legible cs
    · rcases ih (n + 1) with rest | ⟨fault, first⟩
      · exact .inl (List.forall_mem_cons.2 ⟨legible, rest⟩)
      · exact .inr ⟨fault, first.cons legible⟩
    · have speaks : ¬Silent cs := fun silent => legible (.inl silent)
      obtain ⟨cause, refused⟩ := (legible_or_refused speaks).resolve_left legible
      exact .inr ⟨⟨n, String.ofList (trim cs), cause⟩, [], cs, css, rfl, List.forall_mem_nil _,
        speaks, rfl, rfl, refused⟩

theorem parseLines_eq_ok_iff :
    parseLines n css = .ok rules ↔ (∀ r ∈ rules, r.WellFormed) ∧ Listed n rules css := by
  constructor
  · intro parsed
    rcases legible_or_firstFault n css with legible | ⟨fault, first⟩
    · obtain ⟨rules', wellFormed, listed⟩ := exists_listed_iff.2 legible
      rw [parseLines_of_listed listed wellFormed] at parsed
      cases parsed
      exact ⟨wellFormed, listed⟩
    · rw [parseLines_of_firstFault first] at parsed
      cases parsed
  · rintro ⟨wellFormed, listed⟩
    exact parseLines_of_listed listed wellFormed

theorem parseLines_eq_error_iff : parseLines n css = .error fault ↔ FirstFault n css fault := by
  refine ⟨fun failed => ?_, parseLines_of_firstFault⟩
  rcases legible_or_firstFault n css with legible | ⟨fault', first⟩
  · obtain ⟨rules, wellFormed, listed⟩ := exists_listed_iff.2 legible
    rw [parseLines_of_listed listed wellFormed] at failed
    cases failed
  · rw [parseLines_of_firstFault first] at failed
    cases failed
    exact first

/-- A table is read just when every line that says something states a rule, and then the rules are
listed in it. Otherwise its fault is that of the first line that states none. -/
theorem parseTable_outcome (text : String) :
    ((∃ rules, parseTable text = .ok rules) ↔ ∀ cs ∈ lines text.toList, Legible cs) ∧
      (∀ rules, parseTable text = .ok rules ↔
        (∀ r ∈ rules, r.WellFormed) ∧ Listed 1 rules (lines text.toList)) ∧
      ∀ fault, parseTable text = .error fault ↔ FirstFault 1 (lines text.toList) fault := by
  refine ⟨?_, fun _ => parseLines_eq_ok_iff, fun _ => parseLines_eq_error_iff⟩
  simp only [parseTable, parseLines_eq_ok_iff, exists_listed_iff]

end Opcodes.Rule
