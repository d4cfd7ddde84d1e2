import Opcodes.Proofs.Constraints
import Opcodes.Proofs.Extraction
import Opcodes.Layout.Riscv

/-!
# Putting a value into a word

`FieldLayout.scatter` puts the bits of a value where the slices of a field take them from. A word
holds a value (`FieldLayout.Holds`) when each slice has the bits of the value that it stands for,
and everything is said by this: what is scattered is held, what is held is extracted, what is
extracted is held, and to scatter what is held changes nothing. So `scatter` and `extract` undo each
other for every field without a fault whose slices keep apart in the word and in the value.
-/
set_option autoImplicit false

namespace Opcodes

namespace Word

variable {w : Word} {width : Nat} {x : Int}

/-- The lower bits of a number in two's complement. -/
theorem setWidth_ofInt (bound : width ≤ 32) (x : Int) :
    (BitVec.ofInt 32 x).setWidth width = BitVec.ofInt width x := by
  have divides : ((2 ^ width : Nat) : Int) ∣ ((2 ^ 32 : Nat) : Int) :=
    Int.natCast_dvd_natCast.2 (Nat.pow_dvd_pow 2 bound)
  have nonneg : 0 ≤ x % ((2 ^ 32 : Nat) : Int) := Int.emod_nonneg _ (by decide)
  apply BitVec.eq_of_toNat_eq
  rw [BitVec.toNat_setWidth, BitVec.toNat_ofInt, BitVec.toNat_ofInt,
    ← Int.emod_emod_of_dvd x divides, Int.toNat_emod nonneg (Int.natCast_nonneg _),
    Int.toNat_natCast]

/-- A number without a bit from `width` on is the one that has its lower bits. -/
theorem toNat_eq_iff_setWidth_eq (below : w.toNat < 2 ^ width) : (w.toNat : Int) = x ↔
    (0 ≤ x ∧ x < 2 ^ width) ∧ w.setWidth width = BitVec.ofInt width x := by
  constructor
  · rintro rfl
    rw [BitVec.ofInt_natCast, BitVec.ofNat_toNat]
    exact ⟨⟨Int.natCast_nonneg _, by exact_mod_cast below⟩, rfl⟩
  · rintro ⟨⟨nonneg, above⟩, same⟩
    have low : w.toNat = x.toNat := by
      have numbers := congrArg BitVec.toNat same
      rwa [BitVec.toNat_setWidth, Nat.mod_eq_of_lt below, BitVec.toNat_ofInt,
        Int.emod_eq_of_lt nonneg (by exact_mod_cast above)] at numbers
    rw [low, Int.toNat_of_nonneg nonneg]

end Word

namespace Reading

/-- The bits that are gathered for a value, in two's complement. -/
def code : Reading → Int → Word
  | compressedRegister, x => BitVec.ofInt 32 (x - 8)
  | signed, x | unsigned, x | register, x => BitVec.ofInt 32 x

/-- The value is that of some number of `width` bits. -/
def InRange (width : Nat) (x : Int) : Reading → Prop
  | signed => -2 ^ (width - 1) ≤ x ∧ x < 2 ^ (width - 1)
  | unsigned | register => 0 ≤ x ∧ x < 2 ^ width
  | compressedRegister => 8 ≤ x ∧ x < 2 ^ width + 8

instance (width : Nat) (x : Int) : (r : Reading) → Decidable (InRange width x r)
  | .signed | .unsigned | .register | .compressedRegister => inferInstanceAs (Decidable (_ ∧ _))

end Reading

namespace Slice

variable {s : Slice} {code w : Word} {i : Nat}

instance (s : Slice) (i : Nat) : Decidable (s.Reads i) := inferInstanceAs (Decidable (_ ∧ _))

/-- The places of the gathered number that the slice fills. -/
def destination (s : Slice) : BitRange := ⟨s.target + (s.source.hi - s.source.lo), s.target⟩

/-- The word with the slice's bits replaced by those that it fills in a number. -/
def scatter (s : Slice) (code w : Word) : Word :=
  w &&& ~~~s.source.mask ||| s.source.place (s.destination.read code)

theorem width_destination (order : s.source.lo ≤ s.source.hi) :
    s.destination.width = s.source.width := by
  unfold destination BitRange.width
  dsimp only
  omega

/-- What the slice takes from a number fits its range of the word. -/
theorem fits_destination (order : s.source.lo ≤ s.source.hi) (code : Word) :
    s.source.Fits (s.destination.read code) := by
  intro i bit
  have inside := s.destination.fits_read code i bit
  unfold destination at inside
  dsimp only at inside
  omega

/-- A slice of the word changes to the bits that it stands for, and no other bit changes. -/
theorem getLsbD_scatter (inWord : s.source.InWord) : (s.scatter code w).getLsbD i =
    if s.Reads i then code.getLsbD (s.target + (i - s.source.lo)) else w.getLsbD i := by
  obtain ⟨order, bound⟩ := inWord
  rw [scatter, BitVec.getLsbD_or, BitVec.getLsbD_and, BitVec.getLsbD_not]
  split
  · rename_i reads
    obtain ⟨lo, hi⟩ := reads
    have masked : s.source.mask.getLsbD i = true := by
      rw [BitRange.getLsbD_mask]
      simp only [Bool.and_eq_true, decide_eq_true_eq]
      omega
    have near : s.target + (i - s.source.lo) ≤ s.target + (s.source.hi - s.source.lo) := by omega
    rw [masked, BitRange.getLsbD_place, BitRange.getLsbD_read, destination]
    simp [lo, near, show i < 32 by omega]
  · rename_i outside
    have unmasked : s.source.mask.getLsbD i = false := by
      rw [Bool.eq_false_iff, BitRange.getLsbD_mask]
      simp only [ne_eq, Bool.and_eq_true, decide_eq_true_eq]
      exact fun inside => outside inside.2
    have clear : (s.source.place (s.destination.read code)).getLsbD i = false :=
      Bool.eq_false_iff.2 fun bit =>
        outside (BitRange.bounds_of_getLsbD_place (fits_destination order code) bit)
    rw [unmasked, clear, Bool.or_false]
    by_cases small : i < 32
    · simp [small]
    · rw [BitVec.getLsbD_of_ge w i (by omega), Bool.false_and]

/-- What stands in a slice is what it fills in a number, said bit by bit. -/
theorem read_eq_iff (order : s.source.lo ≤ s.source.hi) :
    s.source.read w = s.destination.read code ↔
      ∀ i, s.Reads i → w.getLsbD i = code.getLsbD (s.target + (i - s.source.lo)) := by
  constructor
  · rintro same i ⟨lo, hi⟩
    have bit := congrArg (BitVec.getLsbD · (i - s.source.lo)) same
    have near : s.target + (i - s.source.lo) ≤ s.target + (s.source.hi - s.source.lo) := by omega
    simp only [BitRange.getLsbD_read, destination, Nat.add_sub_cancel' lo, hi, near, decide_true,
      Bool.true_and] at bit
    exact bit
  · intro bits
    apply BitVec.eq_of_getLsbD_eq
    intro j _
    rw [BitRange.getLsbD_read, BitRange.getLsbD_read, destination]
    by_cases inside : s.source.lo + j ≤ s.source.hi
    · have near : s.target + j ≤ s.target + (s.source.hi - s.source.lo) := by omega
      have bit := bits (s.source.lo + j) ⟨Nat.le_add_right _ _, inside⟩
      rw [Nat.add_sub_cancel_left] at bit
      simp only [inside, near, decide_true, Bool.true_and, bit]
    · have far : ¬s.target + j ≤ s.target + (s.source.hi - s.source.lo) := by omega
      simp only [inside, far, decide_false, Bool.false_and]

/-- To put into a slice what stands there changes nothing. -/
theorem scatter_eq_self (inWord : s.source.InWord)
    (same : s.source.read w = s.destination.read code) : s.scatter code w = w := by
  apply BitVec.eq_of_getLsbD_eq
  intro i _
  rw [getLsbD_scatter inWord]
  split
  · rename_i reads
    exact ((read_eq_iff inWord.1).1 same i reads).symm
  · rfl

end Slice

namespace FieldLayout

variable {f : FieldLayout} {w : Word} {x : Int} {i : Nat}

/-- Some word has the value: it is in range and has no bit where no slice goes. -/
structure Represents (f : FieldLayout) (x : Int) : Prop where
  inRange : f.reading.InRange f.width x
  covered : ∀ j < f.width, (f.reading.code x).getLsbD j = true →
    ∃ s ∈ f.slices, s.target ≤ j ∧ j < s.target + s.source.width

/-- No bit of the word is in two slices. -/
def Separate (f : FieldLayout) : Prop := f.slices.Pairwise fun s t => s.source.Separate t.source

instance (f : FieldLayout) : Decidable f.Separate := inferInstanceAs (Decidable (List.Pairwise _ _))

/-- The word with the bits of a value in the slices. -/
def scatter (f : FieldLayout) (w : Word) (x : Int) : Word :=
  f.slices.foldl (fun w s => s.scatter (f.reading.code x) w) w

/-- Every slice of the word has the bits of the value that it stands for. -/
def Holds (f : FieldLayout) (x : Int) (w : Word) : Prop :=
  ∀ s ∈ f.slices, s.source.read w = s.destination.read (f.reading.code x)

/-! ## A held value is the one that is extracted -/

/-- What is extracted is in range, and its code has the gathered bits below the width. -/
theorem extract_eq_iff (sound : f.fault? = none) : f.extract w = x ↔
    f.reading.InRange f.width x ∧
      (f.gather w).setWidth f.width = (f.reading.code x).setWidth f.width := by
  obtain ⟨⟨positive, bound⟩, -⟩ := fault?_eq_none_iff.1 sound
  have below : (f.gather w).toNat < 2 ^ f.width := by
    rw [toNat_gather sound]
    exact raw_lt sound
  unfold extract
  cases f.reading with
  | signed =>
    simp only [Reading.InRange, Reading.code, Word.setWidth_ofInt bound]
    constructor
    · rintro rfl
      exact ⟨⟨BitVec.le_toInt _, BitVec.toInt_lt⟩, BitVec.ofInt_toInt.symm⟩
    · rintro ⟨⟨low, high⟩, same⟩
      rw [same, BitVec.toInt_ofInt_eq_self positive low high]
  | unsigned | register =>
    simp only [Reading.InRange, Reading.code, Word.setWidth_ofInt bound]
    exact Word.toNat_eq_iff_setWidth_eq below
  | compressedRegister =>
    simp only [Reading.InRange, Reading.code, Word.setWidth_ofInt bound]
    rw [← eq_sub_iff_add_eq, Word.toNat_eq_iff_setWidth_eq below]
    refine and_congr_left fun _ => ?_
    omega

/-- A word that holds a value has it. -/
theorem extract_of_holds (sound : f.fault? = none) (represents : f.Represents x)
    (holds : f.Holds x w) : f.extract w = x := by
  obtain ⟨⟨-, bound⟩, slices⟩ := fault?_eq_none_iff.1 sound
  refine (extract_eq_iff sound).2 ⟨represents.inRange, BitVec.eq_of_getLsbD_eq fun j small => ?_⟩
  -- where a slice goes, it brings the bit of the value
  have brings : ∀ s ∈ f.slices, s.target ≤ j → j < s.target + s.source.width →
      (s.gather w).getLsbD j = (f.reading.code x).getLsbD j := by
    intro s mem low high
    obtain ⟨inWord, fits⟩ := slices s mem
    unfold BitRange.width at high
    have reads : s.Reads (s.source.lo + (j - s.target)) := by
      unfold Slice.Reads
      omega
    have bit := (Slice.read_eq_iff inWord.1).1 (holds s mem) _ reads
    rw [Nat.add_sub_cancel_left, Nat.add_sub_cancel' low] at bit
    rw [Slice.getLsbD_gather, bit]
    simp [low, reads.2, show j < 32 by omega]
  rw [BitVec.getLsbD_setWidth, BitVec.getLsbD_setWidth, getLsbD_gather]
  congr 1
  rw [Bool.eq_iff_iff, List.any_eq_true]
  constructor
  · rintro ⟨s, mem, bit⟩
    have inside := bit
    simp only [Slice.getLsbD_gather, Bool.and_eq_true, decide_eq_true_eq] at inside
    rwa [brings s mem (by omega) (by unfold BitRange.width; omega)] at bit
  · intro bit
    obtain ⟨s, mem, low, high⟩ := represents.covered j small bit
    exact ⟨s, mem, (brings s mem low high).trans bit⟩

/-- Every word holds the value that is extracted from it. -/
theorem holds_extract (sound : f.fault? = none) (injective : f.Injective) (w : Word) :
    f.Holds (f.extract w) w := by
  intro s mem
  obtain ⟨inWord, fits⟩ := (fault?_eq_none_iff.1 sound).2 s mem
  refine (Slice.read_eq_iff inWord.1).2 fun i reads => ?_
  have small : s.target + (i - s.source.lo) < f.width := by
    obtain ⟨lo, hi⟩ := reads
    unfold BitRange.width at fits
    omega
  have bit := congrArg (BitVec.getLsbD · (s.target + (i - s.source.lo)))
    ((extract_eq_iff sound).1 (rfl : f.extract w = f.extract w)).2
  simp only [BitVec.getLsbD_setWidth, small, decide_true, Bool.true_and] at bit
  rw [← bit, getLsbD_gather_target sound injective mem reads]

/-- What is extracted is a value that some word has. -/
theorem represents_extract (sound : f.fault? = none) (w : Word) : f.Represents (f.extract w) := by
  obtain ⟨inRange, same⟩ := (extract_eq_iff sound).1 (rfl : f.extract w = f.extract w)
  refine ⟨inRange, fun j small bit => ?_⟩
  have gathered := congrArg (BitVec.getLsbD · j) same
  simp only [BitVec.getLsbD_setWidth, small, decide_true, Bool.true_and, bit, getLsbD_gather,
    List.any_eq_true, Slice.getLsbD_gather, Bool.and_eq_true, decide_eq_true_eq] at gathered
  obtain ⟨s, mem, ⟨⟨-, low⟩, high⟩, -⟩ := gathered
  refine ⟨s, mem, low, ?_⟩
  unfold BitRange.width
  omega

/-! ## What is scattered is held -/

section Run

variable {code : Word} {ss : List Slice}

/-- A bit in no slice stays. -/
theorem getLsbD_foldl_scatter (inWord : ∀ s ∈ ss, s.source.InWord) (outside : ∀ s ∈ ss, ¬s.Reads i)
    (w : Word) : (ss.foldl (fun w s => s.scatter code w) w).getLsbD i = w.getLsbD i := by
  induction ss generalizing w with
  | nil => rfl
  | cons s ss ih =>
    obtain ⟨head, tail⟩ := List.forall_mem_cons.1 inWord
    obtain ⟨out, outs⟩ := List.forall_mem_cons.1 outside
    rw [List.foldl_cons, ih tail outs, Slice.getLsbD_scatter head, if_neg out]

/-- Each slice gets its bits, and the later ones leave them. -/
theorem read_foldl_scatter (inWord : ∀ s ∈ ss, s.source.InWord)
    (separate : ss.Pairwise fun s t => s.source.Separate t.source) (w : Word) {s : Slice}
    (mem : s ∈ ss) :
    s.source.read (ss.foldl (fun w s => s.scatter code w) w) = s.destination.read code := by
  induction ss generalizing w with
  | nil => cases mem
  | cons t ss ih =>
    obtain ⟨head, tail⟩ := List.forall_mem_cons.1 inWord
    obtain ⟨apart, separate⟩ := List.pairwise_cons.1 separate
    rw [List.foldl_cons]
    obtain rfl | mem := List.mem_cons.1 mem
    · refine (Slice.read_eq_iff head.1).2 fun i reads => ?_
      have outside : ∀ t ∈ ss, ¬t.Reads i := by
        intro t mem reads'
        have clear := apart t mem
        unfold BitRange.Separate at clear
        unfold Slice.Reads at reads reads'
        omega
      rw [getLsbD_foldl_scatter tail outside, Slice.getLsbD_scatter head, if_pos reads]
    · exact ih tail separate _ mem

/-- To put in what stands there changes nothing. -/
theorem foldl_scatter_eq_self (inWord : ∀ s ∈ ss, s.source.InWord)
    (same : ∀ s ∈ ss, s.source.read w = s.destination.read code) :
    ss.foldl (fun w s => s.scatter code w) w = w := by
  induction ss with
  | nil => rfl
  | cons s ss ih =>
    obtain ⟨head, tail⟩ := List.forall_mem_cons.1 inWord
    obtain ⟨first, rest⟩ := List.forall_mem_cons.1 same
    rw [List.foldl_cons, Slice.scatter_eq_self head first, ih tail rest]

end Run

/-- A word holds the value that is put in. -/
theorem holds_scatter (sound : f.fault? = none) (separate : f.Separate) (w : Word) (x : Int) :
    f.Holds x (f.scatter w x) := fun _ mem =>
  read_foldl_scatter (fun _ mem => inWord_of_fault? sound mem) separate w mem

/-- Only bits of the field change. -/
theorem getLsbD_scatter (sound : f.fault? = none) (outside : f.bits.getLsbD i = false) :
    (f.scatter w x).getLsbD i = w.getLsbD i := by
  by_cases small : i < 32
  · refine getLsbD_foldl_scatter (fun _ mem => inWord_of_fault? sound mem) ?_ w
    intro s mem reads
    rw [bits, Word.getLsbD_union, List.any_map, List.any_eq_false] at outside
    refine outside s mem ?_
    rw [Function.comp_apply, BitRange.getLsbD_mask]
    simp only [Bool.and_eq_true, decide_eq_true_eq]
    exact ⟨small, reads⟩
  · rw [BitVec.getLsbD_of_ge _ _ (by omega), BitVec.getLsbD_of_ge _ _ (by omega)]

/-- To put a value into a word and to extract it undo each other. A value that the field can
represent comes back, and no bit outside the field changes; and what was extracted from a word can
be put back without a change. -/
theorem scatter_extract_inverse (sound : f.fault? = none) (separate : f.Separate)
    (injective : f.Injective) :
    (∀ w x, f.Represents x → f.extract (f.scatter w x) = x ∧
      ∀ i, f.bits.getLsbD i = false → (f.scatter w x).getLsbD i = w.getLsbD i) ∧
    ∀ w, f.Represents (f.extract w) ∧ f.scatter w (f.extract w) = w := by
  refine ⟨fun w x represents => ⟨?_, fun i => getLsbD_scatter sound⟩, fun w => ⟨?_, ?_⟩⟩
  · exact extract_of_holds sound represents (holds_scatter sound separate w x)
  · exact represents_extract sound w
  · exact foldl_scatter_eq_self (fun _ mem => inWord_of_fault? sound mem)
      (holds_extract sound injective w)

/-- Every field of the formats is without a fault, and its slices keep apart. -/
theorem separate_layouts : ∀ p ∈ Riscv.layouts, ∀ f ∈ p.2,
    f.fault? = none ∧ f.Separate ∧ f.Injective := by
  decide

/-- The offset of a branch, put into a branch to itself. -/
theorem scatter_extract_immB : Riscv.immB.Represents (-2) ∧
    Riscv.immB.scatter 0x63 (-2) = 0xFE000FE3 ∧
    Riscv.immB.extract (Riscv.immB.scatter 0x63 (-2)) = -2 ∧
    Riscv.immB.scatter 0x63 (Riscv.immB.extract 0x63) = 0x63 := by
  have represents : Riscv.immB.Represents (-2) := ⟨by decide, by decide⟩
  obtain ⟨sound, separate, injective⟩ := separate_layouts
    ([.bimm12Hi, .bimm12Lo, .rs1, .rs2], [Riscv.rs1, Riscv.rs2, Riscv.immB])
    (by decide) Riscv.immB (by decide)
  obtain ⟨values, words⟩ := scatter_extract_inverse sound separate injective
  exact ⟨represents, by decide, (values 0x63 (-2) represents).1, (words 0x63).2⟩

end FieldLayout

end Opcodes
