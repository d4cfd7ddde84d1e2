import Opcodes.Proofs.Layout

/-!
# What the value of a field says of a word

A field reads the bits under its slices and no other. A field without a fault puts each of them
into a number of its width, and the number can be read back from the value. So where no two slices
share a place in that number, the value tells every bit that the field reads.
-/
set_option autoImplicit false

namespace Opcodes

variable {v w : Word}

namespace Slice

/-- The slice takes the bit of the word. -/
def Reads (s : Slice) (i : Nat) : Prop := s.source.lo ≤ i ∧ i ≤ s.source.hi

/-- The slices go to different places. -/
def Apart (s t : Slice) : Prop :=
  s.target + s.source.width ≤ t.target ∨ t.target + t.source.width ≤ s.target

instance (s t : Slice) : Decidable (Apart s t) := inferInstanceAs (Decidable (_ ∨ _))

theorem Apart.symm {s t : Slice} (h : Apart s t) : Apart t s := Or.symm h

theorem fault?_eq_none_iff {s : Slice} {width : Nat} :
    s.fault? width = none ↔ s.source.InWord ∧ s.target + s.source.width ≤ width := by
  unfold fault?
  by_cases inWord : s.source.InWord
  · rw [if_neg (not_not.2 inWord)]
    split
    · rename_i overrun
      simp only [reduceCtorEq, inWord, true_and, false_iff]
      omega
    · rename_i inside
      simp only [inWord, true_and, true_iff]
      omega
  · simp [inWord]

/-- A slice moves a bit of its source by the distance to its target. -/
theorem getLsbD_gather (s : Slice) (w : Word) (j : Nat) :
    (s.gather w).getLsbD j = (decide (j < 32) && decide (s.target ≤ j) &&
      decide (s.source.lo + (j - s.target) ≤ s.source.hi) &&
      w.getLsbD (s.source.lo + (j - s.target))) := by
  rw [gather, BitVec.getLsbD_shiftLeft, BitRange.getLsbD_read]
  by_cases below : j < s.target
  · simp [below]
  · simp [below, Nat.not_lt.1 below, Bool.and_assoc]

end Slice

namespace FieldLayout

variable {f : FieldLayout}

/-- A slice of the field takes the bit of the word. -/
def Reads (f : FieldLayout) (i : Nat) : Prop := ∃ s ∈ f.slices, s.Reads i

/-- No two slices share a place in the value. -/
def Injective (f : FieldLayout) : Prop := f.slices.Pairwise Slice.Apart

instance (f : FieldLayout) : Decidable f.Injective := inferInstanceAs (Decidable (List.Pairwise _ _))

theorem fault?_eq_none_iff : f.fault? = none ↔ (1 ≤ f.width ∧ f.width ≤ 32) ∧
    ∀ s ∈ f.slices, s.source.InWord ∧ s.target + s.source.width ≤ f.width := by
  unfold fault?
  split
  · rename_i outside
    simp only [reduceCtorEq, false_iff]
    omega
  · rename_i inside
    rw [List.findSome?_eq_none_iff]
    simp only [Slice.fault?_eq_none_iff]
    exact (and_iff_right (by omega)).symm

theorem getLsbD_gather (f : FieldLayout) (w : Word) (j : Nat) :
    (f.gather w).getLsbD j = f.slices.any fun s => (s.gather w).getLsbD j := by
  rw [gather, Word.getLsbD_union, List.any_map]
  rfl

/-- The gathered bits lie below the width. -/
theorem lt_width_of_getLsbD_gather (sound : f.fault? = none) {j : Nat}
    (bit : (f.gather w).getLsbD j = true) : j < f.width := by
  rw [getLsbD_gather, List.any_eq_true] at bit
  obtain ⟨s, mem, bit⟩ := bit
  obtain ⟨inWord, inside⟩ := (fault?_eq_none_iff.1 sound).2 s mem
  simp only [Slice.getLsbD_gather, Bool.and_eq_true, decide_eq_true_eq] at bit
  simp only [BitRange.width] at inside
  omega

/-- The value tells the gathered bits. -/
theorem extract_eq_extract_iff (sound : f.fault? = none) :
    f.extract v = f.extract w ↔ f.gather v = f.gather w := by
  constructor
  · intro h
    unfold extract at h
    cases reading : f.reading with
    | signed =>
      simp only [reading, BitVec.toInt_inj] at h
      apply BitVec.eq_of_getLsbD_eq
      intro j _
      by_cases inside : j < f.width
      · have bit := congrArg (BitVec.getLsbD · j) h
        simpa [BitVec.getLsbD_setWidth, inside] using bit
      · rw [Bool.eq_false_iff.2 fun bit => inside (lt_width_of_getLsbD_gather sound bit),
          Bool.eq_false_iff.2 fun bit => inside (lt_width_of_getLsbD_gather sound bit)]
    | unsigned | register | compressedRegister =>
      simp only [reading] at h
      exact BitVec.eq_of_toNat_eq (by omega)
  · intro h
    rw [extract, extract, h]

/-- The value depends on nothing but the bits that the field reads. -/
theorem extract_congr (agree : ∀ i, f.Reads i → v.getLsbD i = w.getLsbD i) :
    f.extract v = f.extract w := by
  have gathered : f.gather v = f.gather w := by
    unfold gather
    congr 1
    apply List.map_congr_left
    intro s mem
    rw [Slice.gather, Slice.gather,
      s.source.read_eq_read_iff.2 fun i lo hi => agree i ⟨s, mem, lo, hi⟩]
  rw [extract, extract, gathered]

/-- A bit that the field reads stands at its place in the gathered number, and there alone. -/
theorem getLsbD_gather_target (sound : f.fault? = none) (injective : f.Injective) {s : Slice}
    (mem : s ∈ f.slices) {i : Nat} (reads : s.Reads i) :
    (f.gather w).getLsbD (s.target + (i - s.source.lo)) = w.getLsbD i := by
  obtain ⟨widths, slices⟩ := fault?_eq_none_iff.1 sound
  obtain ⟨lo, hi⟩ := reads
  have inside := (slices s mem).2
  unfold BitRange.width at inside
  have own : (s.gather w).getLsbD (s.target + (i - s.source.lo)) = w.getLsbD i := by
    rw [Slice.getLsbD_gather, Nat.add_sub_cancel_left, Nat.add_sub_cancel' lo]
    simp only [Bool.and_eq_right_iff_imp, Bool.and_eq_true, decide_eq_true_eq]
    omega
  rw [getLsbD_gather, Bool.eq_iff_iff, List.any_eq_true]
  constructor
  · rintro ⟨t, mem', bit⟩
    by_cases eq : t = s
    · rwa [eq, own] at bit
    · -- another slice would share the place
      have symm : Std.Symm Slice.Apart := ⟨fun _ _ => Slice.Apart.symm⟩
      have apart := injective.forall mem' mem eq
      simp only [Slice.getLsbD_gather, Bool.and_eq_true, decide_eq_true_eq] at bit
      unfold Slice.Apart BitRange.width at apart
      omega
  · intro bit
    exact ⟨s, mem, own.trans bit⟩

/-- Words with one value agree on the bits that the field reads. -/
theorem agree_of_extract_eq (sound : f.fault? = none) (injective : f.Injective)
    (eq : f.extract v = f.extract w) {i : Nat} (reads : f.Reads i) : v.getLsbD i = w.getLsbD i := by
  obtain ⟨s, mem, reads⟩ := reads
  rw [← getLsbD_gather_target sound injective mem reads,
    ← getLsbD_gather_target sound injective mem reads, (extract_eq_extract_iff sound).1 eq]

end FieldLayout

/-- Words with the same values in all fields agree on the bits that the layout reads. -/
theorem Layout.agree_of_extract_eq {l : Layout} (sound : l.fault? = none)
    (injective : ∀ f ∈ l, f.Injective) (eq : ∀ f ∈ l, f.extract v = f.extract w) {i : Nat}
    (reads : l.Reads i) : v.getLsbD i = w.getLsbD i := by
  obtain ⟨f, mem, reads⟩ := reads
  exact f.agree_of_extract_eq (fault?_eq_none_iff.1 sound f mem) (injective f mem) (eq f mem) reads

end Opcodes
