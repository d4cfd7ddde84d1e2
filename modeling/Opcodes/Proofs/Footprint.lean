import Opcodes.Proofs.FieldValue
import Opcodes.Proofs.Reference

/-!
# The bits that an entry looks at

A word is put to an entry twice: under the mask, to find the entry, and under the bits of its layout,
to gather the values. Both are the footprint of the entry, and words that agree on it are the same to
the entry. The length of an encoding is two bytes just when its footprint lies in the lower half of
the word, so a short entry tells nothing of the upper half.
-/
set_option autoImplicit false

namespace Opcodes

namespace Word

variable {v w mask : Word}

/-- Words with one lower half agree on every mask that lies in it. -/
theorem and_eq_and_of_setWidth_eq (low : mask >>> 16 = 0)
    (agree : v.setWidth 16 = w.setWidth 16) : v &&& mask = w &&& mask := by
  rw [and_eq_and_iff]
  intro i bit
  have inside : i < 16 := ushiftRight_eq_zero_iff.1 low i bit
  have half := congrArg (BitVec.getLsbD · i) agree
  simpa only [BitVec.getLsbD_setWidth, inside, decide_true, Bool.true_and] using half

/-- A union lies in the lower half just when both parts do. -/
theorem or_ushiftRight_eq_zero_iff : (v ||| w) >>> 16 = 0 ↔ v >>> 16 = 0 ∧ w >>> 16 = 0 := by
  simp only [ushiftRight_eq_zero_iff, BitVec.getLsbD_or, Bool.or_eq_true, or_imp, forall_and]

end Word

/-- The fields of a layout read nothing but its bits. -/
theorem Layout.extract_congr {l : Layout} {v w : Word} (agree : v &&& l.bits = w &&& l.bits)
    {f : FieldLayout} (mem : f ∈ l) : f.extract v = f.extract w := by
  apply f.extract_congr
  intro i reads
  by_cases inside : i < 32
  · exact Word.and_eq_and_iff.1 agree i ((l.getLsbD_bits_iff i).2 ⟨inside, f, mem, reads⟩)
  · rw [BitVec.getLsbD_of_ge v i (Nat.not_lt.1 inside), BitVec.getLsbD_of_ge w i (Nat.not_lt.1 inside)]

/-- Words that agree on the bits of the layout give one instruction, but for the word itself. -/
theorem Entry.instruction_congr {e : Entry} {v w : Word}
    (agree : v &&& e.layout.bits = w &&& e.layout.bits) :
    e.instruction v = { e.instruction w with word := v } := by
  have values : e.layout.map (fun f => (⟨f.field, f.extract v⟩ : Operand)) =
      e.layout.map fun f => ⟨f.field, f.extract w⟩ := by
    apply List.map_congr_left
    intro f mem
    rw [Layout.extract_congr agree mem]
  rw [Entry.instruction, Entry.instruction, values]

namespace Table

variable {registry : Registry} {rules : List Rule} {t : Table} {g : Group} {e : Entry}

/-- The length of an entry says whether it looks at the upper half. -/
theorem Built.length_eq_two_iff (built : Built registry rules t) (hg : g ∈ t.groups)
    (he : e ∈ g.entries) : e.length = 2 ↔ g.mask >>> 16 = 0 ∧ e.layout.bits >>> 16 = 0 := by
  obtain ⟨leaf, -, mask, layout, -, rfl⟩ := (built.entries g hg e).1 he
  rw [← Word.or_ushiftRight_eq_zero_iff, ← mask, Entry.ofRule, Entry.encodedLength]
  split <;> simp_all

/-- An entry of a table looks at its footprint and nowhere else. Its group finds it for the words
with its pattern under the mask. Two words that agree on the mask and on the bits of the layout both
find it or both do not, and it reads the same operator, operands and length from both. An entry of
two bytes reads no more than the lower half of a word. -/
theorem find?_instruction_congr (ok : ofRules registry rules = .ok t) (hg : g ∈ t.groups)
    (he : e ∈ g.entries) :
    (∀ w, g.find? w = some e ↔ w &&& g.mask = e.pattern) ∧
    (∀ v w, v &&& g.mask = w &&& g.mask → v &&& e.layout.bits = w &&& e.layout.bits →
      (g.find? v = some e ↔ g.find? w = some e) ∧
      e.instruction v = { e.instruction w with word := v }) ∧
    (e.length = 2 ↔ g.mask >>> 16 = 0 ∧ e.layout.bits >>> 16 = 0) ∧
    (e.length = 2 → ∀ v w : Word, v.setWidth 16 = w.setWidth 16 →
      (g.find? v = some e ↔ g.find? w = some e) ∧
      e.instruction v = { e.instruction w with word := v }) := by
  have built := built_of_ofRules ok
  have find_iff : ∀ w, g.find? w = some e ↔ w &&& g.mask = e.pattern := by
    intro w
    rw [(built.ordered.groups g hg).find?_eq_some_iff, and_iff_right he, Entry.Hits]
  have same : ∀ v w, v &&& g.mask = w &&& g.mask → v &&& e.layout.bits = w &&& e.layout.bits →
      (g.find? v = some e ↔ g.find? w = some e) ∧
      e.instruction v = { e.instruction w with word := v } := by
    intro v w fixed read
    refine ⟨?_, Entry.instruction_congr read⟩
    rw [find_iff, find_iff, fixed]
  have length_iff := built.length_eq_two_iff hg he
  refine ⟨find_iff, same, length_iff, fun short v w agree => ?_⟩
  obtain ⟨mask, bits⟩ := length_iff.1 short
  exact same v w (Word.and_eq_and_of_setWidth_eq mask agree)
    (Word.and_eq_and_of_setWidth_eq bits agree)

/-- A jump to a register, with two bytes and one operand. -/
def jumpRules : List Rule := [⟨"c.jr", [.rs1N0], [⟨⟨15, 12⟩, 8⟩, ⟨⟨6, 0⟩, 2⟩], 1⟩]

def jumpEntry : Entry :=
  ⟨0x8002, "c.jr", [.rs1N0], [⟨.rs1, [⟨⟨11, 7⟩, 0⟩], 5, .register⟩], 2, 1⟩

/-- The lower half says return, whatever stands above it. -/
theorem find?_instruction_jumpRules : ofRules .riscv jumpRules = .ok ⟨[⟨0xF07F, [jumpEntry]⟩]⟩ ∧
    jumpEntry.length = 2 ∧ (0xFFFF8082 : Word).setWidth 16 = (0x00008082 : Word).setWidth 16 ∧
    Group.find? ⟨0xF07F, [jumpEntry]⟩ 0xFFFF8082 = some jumpEntry ∧
    jumpEntry.instruction 0xFFFF8082 = ⟨0xFFFF8082, "c.jr", [⟨.rs1, 1⟩], 2⟩ := by
  have ok : ofRules .riscv jumpRules = .ok ⟨[⟨0xF07F, [jumpEntry]⟩]⟩ := by decide +kernel
  have agree : (0xFFFF8082 : Word).setWidth 16 = (0x00008082 : Word).setWidth 16 := by decide
  obtain ⟨find_iff, -, -, low⟩ :=
    find?_instruction_congr ok List.mem_cons_self (List.mem_singleton_self jumpEntry)
  obtain ⟨found, read⟩ := low rfl 0xFFFF8082 0x00008082 agree
  refine ⟨ok, rfl, agree, found.2 ((find_iff _).2 (by decide)), ?_⟩
  rw [read]
  decide +kernel

end Table

end Opcodes
