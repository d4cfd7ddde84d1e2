import Opcodes.Proofs.Masks
import Opcodes.Layout

/-!
# The bits that a layout reads

`Layout.Reads` counts a bit as read when a slice covers it; `bits` is the mask of these bits. A
layout without a fault has its slices in the word, so nothing that it reads is lost in the mask.
-/
set_option autoImplicit false

namespace Opcodes

theorem Slice.inWord_of_fault? {width : Nat} {s : Slice} (h : s.fault? width = none) :
    s.source.InWord := by
  by_contra outside
  simp [fault?, outside] at h

theorem FieldLayout.inWord_of_fault? {f : FieldLayout} (h : f.fault? = none) {s : Slice}
    (mem : s ∈ f.slices) : s.source.InWord := by
  rw [fault?] at h
  split at h
  · cases h
  · exact Slice.inWord_of_fault? (List.findSome?_eq_none_iff.1 h s mem)

namespace Layout

variable {l : Layout}

/-- A slice of a field covers the bit. -/
def Reads (l : Layout) (i : Nat) : Prop :=
  ∃ f ∈ l, ∃ s ∈ f.slices, s.source.lo ≤ i ∧ i ≤ s.source.hi

theorem fault?_eq_none_iff : l.fault? = none ↔ ∀ f ∈ l, f.fault? = none := by
  rw [fault?, List.findSome?_eq_none_iff]
  simp only [Option.map_eq_none_iff]

theorem lt_of_reads (h : l.fault? = none) {i : Nat} (reads : l.Reads i) : i < 32 := by
  obtain ⟨f, hf, s, hs, -, hi⟩ := reads
  have inWord := FieldLayout.inWord_of_fault? (fault?_eq_none_iff.1 h f hf) hs
  exact Nat.lt_of_le_of_lt hi inWord.2

theorem getLsbD_bits_iff (l : Layout) (i : Nat) :
    l.bits.getLsbD i = true ↔ i < 32 ∧ l.Reads i := by
  rw [bits, Word.getLsbD_union]
  simp only [List.any_map, List.any_eq_true, Function.comp_apply, FieldLayout.bits,
    Word.getLsbD_union, BitRange.getLsbD_mask, Bool.and_eq_true, decide_eq_true_eq, Reads]
  constructor
  · intro h
    obtain ⟨f, hf, s, hs, lt, bounds⟩ := h
    exact ⟨lt, f, hf, s, hs, bounds⟩
  · intro h
    obtain ⟨lt, f, hf, s, hs, bounds⟩ := h
    exact ⟨f, hf, s, hs, lt, bounds⟩

end Layout

namespace Word

theorem ushiftRight_eq_zero_iff {w : Word} {n : Nat} :
    w >>> n = 0 ↔ ∀ i, w.getLsbD i = true → i < n := by
  constructor
  · intro h i hi
    by_contra above
    have bit := congrArg (BitVec.getLsbD · (i - n)) h
    simp only [BitVec.getLsbD_ushiftRight, Nat.add_sub_cancel' (Nat.le_of_not_lt above), hi] at bit
    simp at bit
  · intro h
    apply BitVec.eq_of_getLsbD_eq
    intro i _
    rw [BitVec.getLsbD_ushiftRight]
    by_contra bit
    have := h (n + i) (by simpa using bit)
    omega

end Word

end Opcodes
