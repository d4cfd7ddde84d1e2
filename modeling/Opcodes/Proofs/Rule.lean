import Opcodes.Proofs.Masks
import Opcodes.Rule

/-!
# Rules as sets of words

What decoding may use of a rule: the words it matches are those that agree with its pattern on its
mask, and two spellings of one rule match the same words and name the same operands.
-/
set_option autoImplicit false

namespace Opcodes.Rule

variable {a b c r : Rule}

theorem matches_iff {w : Word} : r.Matches w ↔ r.pattern &&& r.mask = w &&& r.mask := eq_comm

theorem matches_pattern (r : Rule) : r.Matches r.pattern := rfl

theorem covers_encoding (r : Rule) : Word.covers r.mask r.encoding = true :=
  Word.and_eq_self_iff.1 (Word.and_and_self _ _)

theorem same_iff : a.same b = true ↔
    a.operator = b.operator ∧ a.mask = b.mask ∧ a.pattern = b.pattern ∧
      a.operands.Perm b.operands := by
  simp only [same, Bool.and_eq_true, beq_iff_eq, and_assoc, sortedOperands,
    OperandName.sort_eq_sort_iff]

theorem same_refl (a : Rule) : a.same a = true := same_iff.2 ⟨rfl, rfl, rfl, .refl _⟩

theorem same_symm (h : a.same b = true) : b.same a = true := by
  obtain ⟨operator, mask, pattern, operands⟩ := same_iff.1 h
  exact same_iff.2 ⟨operator.symm, mask.symm, pattern.symm, operands.symm⟩

theorem same_trans (hab : a.same b = true) (hbc : b.same c = true) : a.same c = true := by
  obtain ⟨operator, mask, pattern, operands⟩ := same_iff.1 hab
  obtain ⟨operator', mask', pattern', operands'⟩ := same_iff.1 hbc
  exact same_iff.2 ⟨operator.trans operator', mask.trans mask', pattern.trans pattern',
    operands.trans operands'⟩

/-- Rules that claim the same words, whatever they call them. -/
def Rivals (a b : Rule) : Prop := a.mask = b.mask ∧ a.encoding = b.encoding

instance (a b : Rule) : Decidable (Rivals a b) := inferInstanceAs (Decidable (_ ∧ _))

theorem Rivals.refl (a : Rule) : Rivals a a := ⟨rfl, rfl⟩

theorem Rivals.symm (h : Rivals a b) : Rivals b a := ⟨h.1.symm, h.2.symm⟩

theorem Rivals.trans (hab : Rivals a b) (hbc : Rivals b c) : Rivals a c :=
  ⟨hab.1.trans hbc.1, hab.2.trans hbc.2⟩

/-- Spellings of one rule are rivals. -/
theorem rivals_of_same (same : a.same b = true) : Rivals a b := by
  obtain ⟨-, mask, pattern, -⟩ := same_iff.1 same
  exact ⟨mask, by rw [encoding, encoding, mask, pattern]⟩

/-- Two rules with one mask are rivals as soon as one word matches both. -/
theorem rivals_of_matches {w : Word} (mask : a.mask = b.mask) (ha : a.Matches w)
    (hb : b.Matches w) : Rivals a b :=
  ⟨mask, by rw [← show w &&& a.mask = a.encoding from ha, mask, show w &&& b.mask = _ from hb]⟩

theorem Rivals.matches_iff {w : Word} (h : Rivals a b) : a.Matches w ↔ b.Matches w := by
  rw [Matches, Matches, h.1, h.2]

end Opcodes.Rule
