import Opcodes.Proofs.Rv32

/-!
# The fragments of the shipped tables

A bit that two rules fix to different values keeps them from matching one word. Any two rules of
different fragments have such a bit, and so have any two rules outside the compressed fragment. So
what a selection decodes is what one of its fragments decodes on its own, and a larger selection
decodes all of it alike.
-/
set_option autoImplicit false

namespace Opcodes

namespace Rule

variable {a b : Rule} {w : Word} {i : Instruction}

/-- No word matches both. -/
def Disjoint (a b : Rule) : Prop := ∀ w, ¬(a.Matches w ∧ b.Matches w)

/-- Rules are disjoint just when they fix some bit to different values. -/
theorem disjoint_iff :
    a.Disjoint b ↔ (a.encoding ^^^ b.encoding) &&& (a.mask &&& b.mask) ≠ 0 := by
  constructor
  · intro disjoint agree
    have ha := Word.or_and_eq_left a.covers_encoding b.covers_encoding agree
    have hb := Word.or_and_eq_right a.covers_encoding b.covers_encoding agree
    exact disjoint _ ⟨ha, hb⟩
  · rintro differ w ⟨ha, hb⟩
    exact differ (Word.xor_and_eq_zero_of_common ha hb)

instance (a b : Rule) : Decidable (Disjoint a b) := decidable_of_iff _ disjoint_iff.symm

theorem Disjoint.symm (h : Disjoint a b) : Disjoint b a := fun w both => h w both.symm

/-- A word matches at most one of disjoint rules. -/
theorem countP_matches_le_one {rules : List Rule} (disjoint : rules.Pairwise Disjoint) (w : Word) :
    rules.countP (·.Matches w) ≤ 1 := by
  induction rules with
  | nil => exact Nat.zero_le _
  | cons r rules ih =>
    obtain ⟨head, tail⟩ := List.pairwise_cons.1 disjoint
    by_cases hit : r.Matches w
    · have others : rules.countP (·.Matches w) = 0 := by
        rw [List.countP_eq_zero]
        intro s mem other
        exact head s mem w ⟨hit, of_decide_eq_true other⟩
      rw [List.countP_cons, others]
      split <;> omega
    · rw [List.countP_cons_of_neg (by simpa using hit)]
      exact ih tail

/-- Of lists that share no word, one alone decides what all of them yield. -/
theorem yields_flatMap_iff {ι : Type} {es : List ι} {rules : ι → List Rule}
    (apart : ∀ e e', e ≠ e' → ∀ r ∈ rules e, ∀ r' ∈ rules e', r.Disjoint r') :
    Yields (es.flatMap rules) w i ↔ ∃ e ∈ es, Yields (rules e) w i := by
  constructor
  · rintro ⟨rule, mem, hit, top, read⟩
    obtain ⟨e, he, mem⟩ := List.mem_flatMap.1 mem
    exact ⟨e, he, rule, mem, hit, fun r hr => top r (List.mem_flatMap.2 ⟨e, he, hr⟩), read⟩
  · rintro ⟨e, he, rule, mem, hit, top, read⟩
    refine ⟨rule, List.mem_flatMap.2 ⟨e, he, mem⟩, hit, fun r hr hit' => ?_, read⟩
    obtain ⟨e', -, hr⟩ := List.mem_flatMap.1 hr
    by_cases same : e' = e
    · exact top r (same ▸ hr) hit'
    · exact absurd ⟨hit', hit⟩ (apart e' e same r hr rule mem w)

end Rule

namespace Extension

variable {e e' : Extension} {t t' : Table} {w : Word} {i : Instruction} {r r' : Rule}

theorem disjoint_of_ne (ne : e ≠ e') (hr : r ∈ e.rules) (hr' : r' ∈ e'.rules) : r.Disjoint r' := by
  have disjoint : all.Pairwise fun e e' => ∀ r ∈ e.rules, ∀ r' ∈ e'.rules, r.Disjoint r' := by
    simp only [rules_eq]
    decide +kernel
  have symm : Std.Symm fun e e' : Extension =>
      ∀ r ∈ e.rules, ∀ r' ∈ e'.rules, r.Disjoint r' :=
    ⟨fun _ _ h r hr r' hr' => (h r' hr' r hr).symm⟩
  exact disjoint.forall e.mem_all e'.mem_all ne r hr r' hr'

theorem pairwise_disjoint_uncompressed :
    ((all.filter (· ≠ compressed)).flatMap rules).Pairwise Rule.Disjoint := by
  rw [funext rules_eq]
  decide +kernel

/-- A fragment is a table text by itself. -/
theorem exists_table (e : Extension) : ∃ t, Table.ofText .riscv e.text = .ok t := by
  have sound : Rule.Sound e.rules :=
    Extension.sound_rules.sublist (List.sublist_flatten_of_mem (List.mem_map_of_mem e.mem_all))
  obtain ⟨t, ok⟩ := sound.exists_table
  exact ⟨t, by rw [Table.ofText, parseTable_text]; exact ok⟩

theorem decode_eq_instruction_iff (ok : Table.ofText .riscv e.text = .ok t) :
    t.decode w = .instruction i ↔ Rule.Yields e.rules w i := by
  rw [Table.ofText, parseTable_text] at ok
  exact (Table.built_of_ofRules ok).decode_eq_instruction_iff

/-- One fragment alone has an instruction for a word. -/
theorem eq_of_yields {i' : Instruction} (h : Rule.Yields e.rules w i)
    (h' : Rule.Yields e'.rules w i') : e = e' := by
  obtain ⟨r, mem, hit, -⟩ := h
  obtain ⟨r', mem', hit', -⟩ := h'
  by_contra ne
  exact disjoint_of_ne ne mem mem' w ⟨hit, hit'⟩

end Extension

namespace Extensions

variable {a b : Extensions} {w : Word} {i : Instruction}

theorem yields_rules_iff :
    Rule.Yields a.rules w i ↔ ∃ e ∈ (a.union base).toList, Rule.Yields e.rules w i :=
  Rule.yields_flatMap_iff fun _ _ ne _ hr _ hr' => Extension.disjoint_of_ne ne hr hr'

/-- The base is selected, and apart from it what the selection contains. -/
theorem mem_toList_union_base {e : Extension} :
    e ∈ (a.union base).toList ↔ e = .base ∨ a.contains e = true := by
  by_cases he : e = .base
  · simp only [he, a.base_mem_toList, true_or]
  · have apart : base.bits &&& e.bit = 0#32 := by
      cases e with
      | base => exact absurd rfl he
      | multiply | float | controlRegister | compressed => decide
    rw [toList, List.mem_filter, and_iff_right e.mem_all, or_iff_right he, contains, contains,
      union, Word.covers, Word.covers, BitVec.and_or_distrib_right, apart, BitVec.or_zero]

/-- The fragments are independent of each other. Rules of two fragments never match one word, and
outside the compressed fragment no two rules do. So a selection decodes what one of its fragments
decodes by itself, one fragment alone decodes a word, and a larger selection decodes it alike. -/
theorem exists_table_fragments (a : Extensions) :
    ∃ (t : Table) (fragment : Extension → Table),
      Table.ofText .riscv a.source = .ok t ∧
      (∀ e, Rule.parseTable e.text = .ok e.rules ∧
        Table.ofText .riscv e.text = .ok (fragment e)) ∧
      (∀ w (e e' : Extension), ∀ r ∈ e.rules, ∀ r' ∈ e'.rules,
        r.Matches w → r'.Matches w → e = e') ∧
      (∀ w, ((Extension.all.filter (· ≠ .compressed)).flatMap Extension.rules).countP
        (·.Matches w) ≤ 1) ∧
      (∀ w i, t.decode w = .instruction i ↔
        ∃ e, (e = .base ∨ a.contains e = true) ∧ (fragment e).decode w = .instruction i) ∧
      (∀ w e e' i i', (fragment e).decode w = .instruction i →
        (fragment e').decode w = .instruction i' → e = e') ∧
      ∀ b : Extensions, (∀ e, a.contains e = true → b.contains e = true) →
        ∃ u, Table.ofText .riscv b.source = .ok u ∧
          ∀ w i, t.decode w = .instruction i → u.decode w = .instruction i := by
  obtain ⟨t, ok⟩ := a.exists_table
  choose fragment built using Extension.exists_table
  refine ⟨t, fragment, ok, fun e => ⟨e.parseTable_text, built e⟩, ?_, ?_, ?_, ?_, ?_⟩
  · intro w e e' r mem r' mem' hit hit'
    by_contra ne
    exact Extension.disjoint_of_ne ne mem mem' w ⟨hit, hit'⟩
  · exact Rule.countP_matches_le_one Extension.pairwise_disjoint_uncompressed
  · intro w i
    simp only [decode_eq_instruction_iff ok, yields_rules_iff, mem_toList_union_base,
      Extension.decode_eq_instruction_iff (built _)]
  · intro w e e' i i' decoded decoded'
    rw [Extension.decode_eq_instruction_iff (built _)] at decoded decoded'
    exact Extension.eq_of_yields decoded decoded'
  · intro b larger
    obtain ⟨u, ok'⟩ := b.exists_table
    refine ⟨u, ok', fun w i decoded => ?_⟩
    rw [decode_eq_instruction_iff ok, yields_rules_iff] at decoded
    obtain ⟨e, selected, yields⟩ := decoded
    rw [decode_eq_instruction_iff ok', yields_rules_iff]
    exact ⟨e, mem_toList_union_base.2 ((mem_toList_union_base.1 selected).imp_right (larger e)),
      yields⟩

/-- A multiplication is decoded by its own fragment alone, and alike in the full table. -/
theorem decode_mul_fragments : ∃ (t u : Table) (fragment : Extension → Table),
    Table.ofText .riscv (ofList [.multiply]).source = .ok t ∧
    Table.ofText .riscv rv32gc.source = .ok u ∧
    (fragment .multiply).decode 0x02208033 =
      .instruction ⟨0x02208033, "mul", [⟨.rd, 0⟩, ⟨.rs1, 1⟩, ⟨.rs2, 2⟩], 4⟩ ∧
    t.decode 0x02208033 =
      .instruction ⟨0x02208033, "mul", [⟨.rd, 0⟩, ⟨.rs1, 1⟩, ⟨.rs2, 2⟩], 4⟩ ∧
    u.decode 0x02208033 =
      .instruction ⟨0x02208033, "mul", [⟨.rd, 0⟩, ⟨.rs1, 1⟩, ⟨.rs2, 2⟩], 4⟩ ∧
    (∀ e i, (fragment e).decode 0x02208033 = .instruction i → e = .multiply) ∧
    ∀ e : Extension, ∀ r ∈ e.rules, r.Matches 0x02208033 → e = .multiply := by
  obtain ⟨t, fragment, ok, built, apart, -, decode_iff, unique, grows⟩ :=
    exists_table_fragments (ofList [.multiply])
  obtain ⟨u, ok', alike⟩ := grows rv32gc fun e _ => by cases e <;> decide
  have yields : Rule.Yields Extension.multiply.rules 0x02208033
      ⟨0x02208033, "mul", [⟨.rd, 0⟩, ⟨.rs1, 1⟩, ⟨.rs2, 2⟩], 4⟩ := by
    rw [Extension.rules_eq]
    decide +kernel
  have own := (Extension.decode_eq_instruction_iff (built .multiply).2).2 yields
  have decoded := (decode_iff _ _).2 ⟨.multiply, .inr (by decide), own⟩
  obtain ⟨r, mem, hit, -⟩ := yields
  exact ⟨t, u, fragment, ok, ok', own, decoded, alike _ _ decoded,
    fun e i other => unique _ _ _ _ _ other own,
    fun e r' mem' hit' => apart _ _ _ r' mem' r mem hit' hit⟩

end Extensions

end Opcodes
