import Opcodes.Proofs.Outcome
import Opcodes.Proofs.Sweep
import Opcodes.Proofs.TableText
import Opcodes.Rv32.Extensions

/-!
# The shipped tables

The rules of a selection are those of its fragments, one fragment after the other, with other line
numbers. All that is needed of them is `Rule.Sound`, which is evaluated once for the fragments
together and holds of each selection because it holds of sublists and does not look at line numbers.
So every selection has a table, its instructions are lossless and delimit themselves, and a sweep
gives back what is assembled of them.
-/
set_option autoImplicit false

namespace Opcodes

namespace Rule

theorem lossless_unnumbered_iff {rule : Rule} {layout : Layout} :
    rule.unnumbered.Lossless layout ↔ rule.Lossless layout :=
  ⟨fun h => ⟨h.1, h.2⟩, fun h => ⟨h.1, h.2⟩⟩

theorem tellsLength_unnumbered_iff {rule : Rule} {layout : Layout} :
    rule.unnumbered.TellsLength layout ↔ rule.TellsLength layout :=
  ⟨fun h => ⟨h.1, h.2⟩, fun h => ⟨h.1, h.2⟩⟩

/-- The rules have usable layouts, say all of their encodings, and share no operator and no
encoding. -/
structure Sound (rules : List Rule) : Prop where
  distinct : rules.Pairwise fun a b => a.operator ≠ b.operator ∧ ¬a.Rivals b
  usable : ∀ rule ∈ rules, ∃ layout, Registry.riscv.find? rule.operands = some layout ∧
    (∀ f ∈ layout, f.fault? = none) ∧ rule.Lossless layout ∧ rule.TellsLength layout

instance (rules : List Rule) : Decidable (Sound rules) :=
  decidable_of_iff (rules.Pairwise (fun a b => a.operator ≠ b.operator ∧ ¬a.Rivals b) ∧
    ∀ rule ∈ rules, ∃ layout, Registry.riscv.find? rule.operands = some layout ∧
      (∀ f ∈ layout, f.fault? = none) ∧ rule.Lossless layout ∧ rule.TellsLength layout)
    ⟨fun h => ⟨h.1, h.2⟩, fun h => ⟨h.1, h.2⟩⟩

namespace Sound

variable {rules rules' : List Rule}

theorem sublist (sound : Sound rules) (sub : rules'.Sublist rules) : Sound rules' :=
  ⟨sound.distinct.sublist sub, fun rule mem => sound.usable rule (sub.subset mem)⟩

/-- Line numbers do not count. -/
theorem map_unnumbered_iff : Sound (rules.map unnumbered) ↔ Sound rules := by
  have distinct : ((rules.map unnumbered).Pairwise fun a b => a.operator ≠ b.operator ∧ ¬a.Rivals b) ↔
      rules.Pairwise fun a b => a.operator ≠ b.operator ∧ ¬a.Rivals b := List.pairwise_map
  constructor
  · intro sound
    refine ⟨distinct.1 sound.distinct, fun rule mem => ?_⟩
    obtain ⟨layout, known, faultless, lossless, tells⟩ :=
      sound.usable rule.unnumbered (List.mem_map_of_mem mem)
    exact ⟨layout, known, faultless, lossless_unnumbered_iff.1 lossless,
      tellsLength_unnumbered_iff.1 tells⟩
  · intro sound
    refine ⟨distinct.2 sound.distinct, fun copy listed => ?_⟩
    obtain ⟨rule, mem, rfl⟩ := List.mem_map.1 listed
    obtain ⟨layout, known, faultless, lossless, tells⟩ := sound.usable rule mem
    exact ⟨layout, known, faultless, lossless_unnumbered_iff.2 lossless,
      tellsLength_unnumbered_iff.2 tells⟩

/-- Rules with one operator or with one encoding are the same. -/
theorem same_of_or (sound : Sound rules) {a b : Rule} (ha : a ∈ rules) (hb : b ∈ rules)
    (h : a.operator = b.operator ∨ a.Rivals b) : a.same b = true := by
  by_cases eq : a = b
  · rw [eq]
    exact same_refl b
  · have symm : Std.Symm fun a b : Rule => a.operator ≠ b.operator ∧ ¬a.Rivals b :=
      ⟨fun _ _ h => ⟨Ne.symm h.1, fun rivals => h.2 rivals.symm⟩⟩
    obtain ⟨operator, rivals⟩ := sound.distinct.forall ha hb eq
    exact absurd h (not_or.2 ⟨operator, rivals⟩)

theorem exists_table (sound : Sound rules) : ∃ t, Table.ofRules .riscv rules = .ok t := by
  refine Table.exists_ofRules_iff.2 ⟨fun a ha b hb rivals => sound.same_of_or ha hb (.inr rivals),
    fun rule mem => ?_⟩
  obtain ⟨layout, known, faultless, -⟩ := sound.usable rule mem
  exact ⟨layout, known, faultless⟩

/-- The layout that a rule resolves to is the one that is sound. -/
theorem of_soundLayout (sound : Sound rules) {rule : Rule} (mem : rule ∈ rules) {layout : Layout}
    (resolved : Registry.riscv.soundLayout rule = .ok layout) :
    rule.Lossless layout ∧ rule.TellsLength layout := by
  obtain ⟨layout', known, -, properties⟩ := sound.usable rule mem
  rw [(Registry.soundLayout_eq_ok_iff.1 resolved).1, Option.some.injEq] at known
  rwa [known]

end Sound

/-- A rule that matches the word, and is outranked by none that does, reads the instruction off it. -/
def Yields (rules : List Rule) (w : Word) (i : Instruction) : Prop :=
  ∃ rule ∈ rules, rule.Matches w ∧ (∀ r ∈ rules, r.Matches w → ¬r.mask.Outranks rule.mask) ∧
    ∃ layout, Registry.riscv.find? rule.operands = some layout ∧
      (Entry.ofRule rule.encoding rule layout).instruction w = i

instance (rules : List Rule) (w : Word) (i : Instruction) : Decidable (Yields rules w i) :=
  inferInstanceAs (Decidable (∃ rule ∈ rules, _ ∧ _ ∧ ∃ layout, _ = some layout ∧ _))

theorem yields_map_unnumbered_iff {rules : List Rule} {w : Word} {i : Instruction} :
    Yields (rules.map unnumbered) w i ↔ Yields rules w i := by
  constructor
  · rintro ⟨_, listed, hit, top, layout, known, rfl⟩
    obtain ⟨rule, mem, rfl⟩ := List.mem_map.1 listed
    exact ⟨rule, mem, hit, fun r mem' hit' => top r.unnumbered (List.mem_map_of_mem mem') hit',
      layout, known, rfl⟩
  · rintro ⟨rule, mem, hit, top, layout, known, rfl⟩
    refine ⟨rule.unnumbered, List.mem_map_of_mem mem, hit, fun _ listed hit' => ?_,
      layout, known, rfl⟩
    obtain ⟨r, mem', rfl⟩ := List.mem_map.1 listed
    exact top r mem' hit'

end Rule

/-- What a table decodes is what its rules yield. -/
theorem Table.Built.decode_eq_instruction_iff {rules : List Rule} {t : Table} {w : Word}
    {i : Instruction} (built : Built .riscv rules t) :
    t.decode w = .instruction i ↔ Rule.Yields rules w i := by
  constructor
  · intro decoded
    obtain ⟨g, e, found, rfl⟩ := Table.decode_eq_instruction_iff.1 decoded
    obtain ⟨leaf, decides, -, layout, resolved, rfl⟩ := built.decides_of_find? found
    exact ⟨leaf.rule, List.mem_of_getElem? decides.place, decides.hit,
      fun r mem hit => Rule.not_outranks_iff.2 (decides.greatest r mem hit), layout,
      (Registry.soundLayout_eq_ok_iff.1 resolved).1, rfl⟩
  · rintro ⟨rule, mem, hit, top, layout, known, rfl⟩
    obtain ⟨layout', resolved⟩ := built.resolved rule mem
    have same := (Registry.soundLayout_eq_ok_iff.1 resolved).1
    rw [known, Option.some.injEq] at same
    subst same
    exact built.decode_eq mem hit top resolved

namespace Extension

/-- The rules of the fragment. -/
def rules (e : Extension) : List Rule := (Rule.parseTable e.text).toOption.getD []

/-- The characters of the lines of a fragment. A text in quotes is checked against its characters at
once; `String.toList` would have to decode it. -/
def spelling : (e : Extension) →
    { css : List (List Char) // List.Forall₂ (fun l cs => l = String.ofList cs) e.lines css }
  | base | multiply | float | controlRegister | compressed => by
    constructor
    dsimp only [lines, Rv32.baseLines, Rv32.multiplyLines, Rv32.floatLines,
      Rv32.controlRegisterLines, Rv32.compressedLines]
    repeat' constructor

theorem map_toList_of_spelled {ls : List String} {css : List (List Char)}
    (h : List.Forall₂ (fun l cs => l = String.ofList cs) ls css) : ls.map String.toList = css := by
  induction h with
  | nil => rfl
  | cons head _ ih => rw [List.map_cons, ih, head, String.toList_ofList]

/-- No line of a fragment has a newline in it, and every fragment can be read. -/
theorem spelling_readable (e : Extension) : (∀ cs ∈ (spelling e).1, '\n' ∉ cs) ∧
    (Rule.parseLines 1 (spelling e).1).isOk = true := by
  cases e <;> decide +kernel

theorem lines_text (e : Extension) : Text.lines e.text.toList = (spelling e).1 := by
  have joined : e.text.toList = (e.lines.map String.toList).flatMap (· ++ ['\n']) := by
    simp [text, String.toList_join, List.flatMap_map]
  rw [joined, map_toList_of_spelled (spelling e).2, Text.lines_flatMap e.spelling_readable.1]

theorem rules_eq (e : Extension) :
    e.rules = (Rule.parseLines 1 (spelling e).1).toOption.getD [] := by
  rw [rules, Rule.parseTable, lines_text]

theorem parseTable_text (e : Extension) : Rule.parseTable e.text = .ok e.rules := by
  have readable := e.spelling_readable.2
  rw [rules_eq, Rule.parseTable, lines_text]
  cases read : Rule.parseLines 1 (spelling e).1 with
  | ok rules => rfl
  | error fault =>
    rw [read] at readable
    cases readable

/-- All fragments together are sound. -/
theorem sound_rules : Rule.Sound (all.flatMap rules) := by
  rw [funext rules_eq]
  decide +kernel

end Extension

namespace Extensions

/-- The rules of the fragments of a selection. -/
def rules (a : Extensions) : List Rule := (a.union base).toList.flatMap Extension.rules

theorem sound_rules (a : Extensions) : Rule.Sound a.rules :=
  Extension.sound_rules.sublist (List.filter_sublist.flatMap _)

theorem exists_parseTable_texts {es : List Extension} (ne : es ≠ []) :
    ∃ rules, Rule.parseTable (String.intercalate "\n" (es.map Extension.text)) = .ok rules ∧
      rules.map Rule.unnumbered = (es.flatMap Extension.rules).map Rule.unnumbered := by
  induction es with
  | nil => exact absurd rfl ne
  | cons e es ih =>
    cases es with
    | nil =>
      rw [List.map_singleton, String.intercalate_singleton, List.flatMap_singleton]
      exact ⟨e.rules, e.parseTable_text, rfl⟩
    | cons e' es =>
      obtain ⟨rest, parsed, same⟩ := ih (List.cons_ne_nil _ _)
      obtain ⟨rules, joined, both⟩ := Rule.exists_parseTable_append_newline e.parseTable_text parsed
      refine ⟨rules, ?_, ?_⟩
      · rw [List.map_cons, List.map_cons, String.intercalate_cons_cons]
        exact joined
      · rw [both, List.map_append, same, ← List.map_append]
        rfl

/-- The base is in every selection. -/
theorem base_mem_toList (a : Extensions) : Extension.base ∈ (a.union base).toList := by
  refine List.mem_filter.2 ⟨by decide, Word.covers_iff.2 fun i bit => ?_⟩
  have shared : base.bits = Extension.base.bit := by decide
  rw [union, BitVec.getLsbD_or, shared, bit, Bool.or_true]

/-- The text of a selection has the rules of its fragments, with line numbers of its own. -/
theorem exists_parseTable_source (a : Extensions) : ∃ rules, Rule.parseTable a.source = .ok rules ∧
    rules.map Rule.unnumbered = a.rules.map Rule.unnumbered :=
  exists_parseTable_texts (List.ne_nil_of_mem a.base_mem_toList)

/-- The table of a selection, built from the rules that the text of the selection has. -/
structure Builds (a : Extensions) (rules : List Rule) (t : Table) : Prop where
  rules_eq : rules.map Rule.unnumbered = a.rules.map Rule.unnumbered
  sound : Rule.Sound rules
  built : Table.Built .riscv rules t

variable {a : Extensions} {rules : List Rule} {t : Table} {w : Word}

theorem ofText_source (parsed : Rule.parseTable a.source = .ok rules) :
    Table.ofText .riscv a.source = Table.ofRules .riscv rules := by
  rw [Table.ofText, parsed]
  rfl

theorem sound_of_map_unnumbered (same : rules.map Rule.unnumbered = a.rules.map Rule.unnumbered) :
    Rule.Sound rules := by
  rw [← Rule.Sound.map_unnumbered_iff, same, Rule.Sound.map_unnumbered_iff]
  exact a.sound_rules

/-- Every selection has a table. -/
theorem exists_table (a : Extensions) : ∃ t, Table.ofText .riscv a.source = .ok t := by
  obtain ⟨rules, parsed, same⟩ := a.exists_parseTable_source
  rw [ofText_source parsed]
  exact (sound_of_map_unnumbered same).exists_table

theorem exists_builds (ok : Table.ofText .riscv a.source = .ok t) : ∃ rules, a.Builds rules t := by
  obtain ⟨rules, parsed, same⟩ := a.exists_parseTable_source
  rw [ofText_source parsed] at ok
  exact ⟨rules, same, sound_of_map_unnumbered same, Table.built_of_ofRules ok⟩

/-- The rules of the fragments tell what the table decodes. -/
theorem decode_eq_instruction_iff (ok : Table.ofText .riscv a.source = .ok t) {i : Instruction} :
    t.decode w = .instruction i ↔ Rule.Yields a.rules w i := by
  obtain ⟨rules, builds⟩ := exists_builds ok
  rw [builds.built.decode_eq_instruction_iff, ← Rule.yields_map_unnumbered_iff, builds.rules_eq,
    Rule.yields_map_unnumbered_iff]

/-- The shipped tables lose nothing: an operator and its operands stand for one encoding. -/
theorem exists_table_lossless (a : Extensions) : ∃ t, Table.ofText .riscv a.source = .ok t ∧
    ∀ v w i j, t.decode v = .instruction i → t.decode w = .instruction j →
      i.operator = j.operator → i.operands = j.operands →
      i.length = j.length ∧ ∀ k < 8 * i.length, v.getLsbD k = w.getLsbD k := by
  obtain ⟨t, ok⟩ := a.exists_table
  obtain ⟨rules, builds⟩ := exists_builds ok
  have lossless : ∀ rule ∈ rules, ∀ layout, Registry.riscv.soundLayout rule = .ok layout →
      rule.Lossless layout := fun rule mem layout resolved =>
    (builds.sound.of_soundLayout mem resolved).1
  have operators : ∀ a ∈ rules, ∀ b ∈ rules, a.operator = b.operator → a.same b = true :=
    fun a ha b hb operator => builds.sound.same_of_or ha hb (.inl operator)
  exact ⟨t, ok, fun v w i j hv hw operator operands =>
    builds.built.agree_of_operands_eq lossless operators hv hw operator operands⟩

theorem decode_nop_rv32gc : ∃ t, Table.ofText .riscv rv32gc.source = .ok t ∧
    t.decode 0x00000001 = .instruction ⟨0x00000001, "c.nop", [], 2⟩ ∧
    t.decode 0xFFFF0001 = .instruction ⟨0xFFFF0001, "c.nop", [], 2⟩ ∧
    ∀ k < 16, (0x00000001 : Word).getLsbD k = (0xFFFF0001 : Word).getLsbD k := by
  obtain ⟨t, ok, lossless⟩ := exists_table_lossless rv32gc
  have yields : Rule.Yields rv32gc.rules 0x00000001 ⟨0x00000001, "c.nop", [], 2⟩ ∧
      Rule.Yields rv32gc.rules 0xFFFF0001 ⟨0xFFFF0001, "c.nop", [], 2⟩ := by
    rw [Extensions.rules, funext Extension.rules_eq]
    decide +kernel
  have low := (decode_eq_instruction_iff ok).2 yields.1
  have high := (decode_eq_instruction_iff ok).2 yields.2
  exact ⟨t, ok, low, high, (lossless _ _ _ _ low high rfl rfl).2⟩

open Table (Code)

/-- A program of a selection, laid out in one segment, is swept code by code, whatever the step over
illegal words is. -/
theorem exists_table_sweep (a : Extensions) : ∃ t, Table.ofText .riscv a.source = .ok t ∧
    ∀ (cs : List t.Code) (name : String) (base : Word) (illegalStep : Nat),
      base.toNat + (Code.assemble cs).length < 0x100000000 →
      Code.Listed base cs (Listing.sweep t [⟨name, base, (Code.assemble cs).toArray⟩] base
        (base + BitVec.ofNat 32 (Code.assemble cs).length) illegalStep) := by
  obtain ⟨t, ok⟩ := a.exists_table
  obtain ⟨rules, builds⟩ := exists_builds ok
  have delimiting : t.SelfDelimiting := builds.built.selfDelimiting fun rule mem layout resolved =>
    (builds.sound.of_soundLayout mem resolved).2
  exact ⟨t, ok, fun cs name base illegalStep fits =>
    Code.listed_sweep delimiting cs (Image.holds_segment name fits) illegalStep⟩

/-- A mixed program: an addition, a no-op of two bytes and a return. -/
theorem sweep_rv32gc : ∃ t, Table.ofText .riscv rv32gc.source = .ok t ∧
    ∃ cs : List t.Code, cs.map Code.word = [0x00500093, 0x0001, 0x8082] ∧
      cs.map (fun c => (c.instruction.operator, c.instruction.length)) =
        [("addi", 4), ("c.nop", 2), ("c.jr", 2)] ∧
      Code.assemble cs = [0x93, 0x00, 0x50, 0x00, 0x01, 0x00, 0x82, 0x80] ∧
      Code.Listed 0x100 cs (Listing.sweep t
        [⟨"segment0", 0x100, #[0x93, 0x00, 0x50, 0x00, 0x01, 0x00, 0x82, 0x80]⟩] 0x100 0x108 2) := by
  obtain ⟨t, ok, sweep⟩ := exists_table_sweep rv32gc
  have yields :
      Rule.Yields rv32gc.rules 0x00500093
        ⟨0x00500093, "addi", [⟨.rd, 1⟩, ⟨.rs1, 0⟩, ⟨.imm, 5⟩], 4⟩ ∧
      Rule.Yields rv32gc.rules 0x0001 ⟨0x0001, "c.nop", [], 2⟩ ∧
      Rule.Yields rv32gc.rules 0x8082 ⟨0x8082, "c.jr", [⟨.rs1, 1⟩], 2⟩ := by
    rw [Extensions.rules, funext Extension.rules_eq]
    decide +kernel
  obtain ⟨addi, nop, jr⟩ := yields
  let cs : List t.Code := [⟨_, _, (decode_eq_instruction_iff ok).2 addi⟩,
    ⟨_, _, (decode_eq_instruction_iff ok).2 nop⟩, ⟨_, _, (decode_eq_instruction_iff ok).2 jr⟩]
  have bytes : Code.assemble cs = [0x93, 0x00, 0x50, 0x00, 0x01, 0x00, 0x82, 0x80] := by
    change Word.lowBytes 0x00500093 4 ++ (Word.lowBytes 0x0001 2 ++ (Word.lowBytes 0x8082 2 ++ [])) = _
    decide
  have listed := sweep cs "segment0" 0x100 2 (by rw [bytes]; decide)
  rw [bytes] at listed
  exact ⟨t, ok, cs, rfl, rfl, bytes, listed⟩

end Extensions

end Opcodes
