import Opcodes.Layout.Riscv
import Opcodes.Rv32.Encoders
import Opcodes.Proofs.Assembly

/-!
# The fields of the RISC-V formats

Which values the fields of the formats can represent, and how each value stands in the word, written
as the encoders write it. A register field represents the numbers that it has room for, an immediate
those in range that have zeros below its lowest slice.
-/
set_option autoImplicit false

namespace Opcodes

namespace Word

/-- To multiply by a power of two is to shift. -/
theorem ofInt_mul_two_pow (x : Int) (k : Nat) :
    BitVec.ofInt 32 (x * 2 ^ k) = BitVec.ofInt 32 x <<< k := by
  have power : BitVec.ofInt 32 (2 ^ k) = BitVec.twoPow 32 k := by
    apply BitVec.eq_of_toNat_eq
    rw [show (2 ^ k : Int) = ((2 ^ k : Nat) : Int) by push_cast; rfl, BitVec.ofInt_natCast,
      BitVec.toNat_ofNat, BitVec.toNat_twoPow]
  rw [BitVec.ofInt_mul, power, BitVec.mul_twoPow_eq_shiftLeft]

/-- A multiple of a power of two has zeros below it. -/
theorem getLsbD_ofInt_of_dvd {x : Int} {m j : Nat} (divides : 2 ^ m ∣ x) (low : j < m) :
    (BitVec.ofInt 32 x).getLsbD j = false := by
  obtain ⟨k, rfl⟩ := divides
  rw [Int.mul_comm, ofInt_mul_two_pow, BitVec.getLsbD_shiftLeft]
  simp [low]

theorem read_ofInt_mul_two_pow (x : Int) {hi lo k : Nat} (inside : hi + k < 32) :
    (⟨hi + k, lo + k⟩ : BitRange).read (BitVec.ofInt 32 (x * 2 ^ k)) =
      (⟨hi, lo⟩ : BitRange).read (BitVec.ofInt 32 x) := by
  apply BitVec.eq_of_getLsbD_eq
  intro i _
  rw [ofInt_mul_two_pow, BitRange.getLsbD_read, BitRange.getLsbD_read, BitVec.getLsbD_shiftLeft]
  by_cases under : lo + i ≤ hi
  · have place : lo + k + i - k = lo + i := by omega
    simp [under, place, show lo + k + i ≤ hi + k by omega, show lo + k + i < 32 by omega,
      show ¬lo + k + i < k by omega]
  · simp [under, show ¬lo + k + i ≤ hi + k by omega]

/-- The lower bits of a small number are all of it. -/
theorem read_of_lt {w : Word} {hi : Nat} (small : w.toNat < 2 ^ (hi + 1)) :
    (⟨hi, 0⟩ : BitRange).read w = w := by
  apply BitVec.eq_of_toNat_eq
  rw [BitRange.toNat_read, BitRange.width, Nat.pow_zero, Nat.div_one]
  exact Nat.mod_eq_of_lt small

theorem ofInt_toNat (w : Word) : BitVec.ofInt 32 w.toNat = w := by
  rw [BitVec.ofInt_natCast, BitVec.ofNat_toNat, BitVec.setWidth_eq]

/-- The bits of a number below 2 ^ 20 are those of its sign extension. -/
theorem read_ofInt_toInt {w : Word} (small : w.toNat < 2 ^ 20) :
    (⟨19, 0⟩ : BitRange).read (BitVec.ofInt 32 (w.setWidth 20).toInt) = w := by
  have low : (BitVec.ofInt 32 (w.setWidth 20).toInt).setWidth 20 = w.setWidth 20 := by
    rw [setWidth_ofInt (by decide), BitVec.ofInt_toInt]
  refine Eq.trans ?_ (read_of_lt small)
  refine (BitRange.read_eq_read_iff _).2 fun i _ inside => ?_
  have bit := congrArg (BitVec.getLsbD · i) low
  simpa [BitVec.getLsbD_setWidth, show i < 20 from Nat.lt_succ_of_le inside] using bit

end Word

namespace FieldLayout

variable {f : FieldLayout} {x : Int}

/-- A value in range is represented if it has zeros up to some place and slices fill the others. -/
theorem represents_of_low {m : Nat} (inRange : f.reading.InRange f.width x)
    (low : ∀ j < m, (f.reading.code x).getLsbD j = false)
    (filled : ∀ j < f.width, m ≤ j → ∃ s ∈ f.slices, s.target ≤ j ∧ j < s.target + s.source.width) :
    f.Represents x := by
  refine ⟨inRange, fun j inside bit => filled j inside ?_⟩
  by_contra below
  rw [low j (Nat.lt_of_not_le below)] at bit
  cases bit

end FieldLayout

namespace Riscv

open Rv32

variable {field : Field} {hi lo width m : Nat} {slices : List Slice} {n : Word} {x : Int}

/-! ## Values that fields represent -/

theorem represents_register (small : n.toNat < 32) (size : hi = lo + 4) :
    (register field hi lo).Represents n.toNat := by
  subst size
  refine FieldLayout.represents_of_low (m := 0) ⟨Int.natCast_nonneg _, ?_⟩ ?_ ?_
  · exact_mod_cast small
  · exact fun j below => absurd below (Nat.not_lt_zero j)
  · intro j inside _
    refine ⟨slice (lo + 4) lo 0, List.mem_singleton_self _, Nat.zero_le j, ?_⟩
    change j < 5 at inside
    change j < 0 + (lo + 4 + 1 - lo)
    omega

theorem represents_compressedRegister (low : 8 ≤ n.toNat) (high : n.toNat < 16)
    (size : hi = lo + 2) : (compressedRegister field hi lo).Represents n.toNat := by
  subst size
  refine FieldLayout.represents_of_low (m := 0) ⟨?_, ?_⟩ ?_ ?_
  · exact_mod_cast low
  · exact_mod_cast high
  · exact fun j below => absurd below (Nat.not_lt_zero j)
  · intro j inside _
    refine ⟨slice (lo + 2) lo 0, List.mem_singleton_self _, Nat.zero_le j, ?_⟩
    change j < 3 at inside
    change j < 0 + (lo + 2 + 1 - lo)
    omega

theorem represents_signedImm (m : Nat) (low : -2 ^ (width - 1) ≤ x) (high : x < 2 ^ (width - 1))
    (divides : 2 ^ m ∣ x)
    (filled : ∀ j < width, m ≤ j → ∃ s ∈ slices, s.target ≤ j ∧ j < s.target + s.source.width) :
    (signedImm width slices).Represents x :=
  FieldLayout.represents_of_low ⟨low, high⟩ (fun _ => Word.getLsbD_ofInt_of_dvd divides) filled

theorem represents_unsignedImm (m : Nat) (small : n.toNat < 2 ^ width) (divides : 2 ^ m ∣ n.toNat)
    (filled : ∀ j < width, m ≤ j → ∃ s ∈ slices, s.target ≤ j ∧ j < s.target + s.source.width) :
    (unsignedImm width slices).Represents n.toNat := by
  have divides : (2 ^ m : Int) ∣ n.toNat := by exact_mod_cast divides
  refine FieldLayout.represents_of_low ⟨Int.natCast_nonneg _, ?_⟩
    (fun _ => Word.getLsbD_ofInt_of_dvd divides) filled
  exact_mod_cast small

/-! ## Values in the word -/

theorem bits_eq_read (v : Word) (order : lo ≤ hi) (narrow : hi - lo < 31) :
    bits v hi lo = (⟨hi, lo⟩ : BitRange).read v := by
  have ones : ∀ k < 31, (1 : Word) <<< (k + 1) - 1 = Word.ones (k + 1) := by decide
  rw [bits, BitRange.read, BitRange.width, ones _ narrow, Nat.sub_add_comm order]

/-- The bits of a multiple of a power of two are those of the factor. -/
theorem bits_ofInt_mul_two_pow (x : Int) {k : Nat} (order : lo ≤ hi) (narrow : hi - lo < 31)
    (inside : hi + k < 32) : bits (BitVec.ofInt 32 (x * 2 ^ k)) (hi + k) (lo + k) =
      bits (BitVec.ofInt 32 x) hi lo := by
  rw [bits_eq_read _ (Nat.add_le_add_right order k) (by omega), bits_eq_read _ order narrow,
    Word.read_ofInt_mul_two_pow x inside]

theorem bit_eq_bits (v : Word) (i : Nat) : bit v i = bits v i i := by
  have one : (1 : Word) <<< (i - i + 1) - 1 = 1 := by
    rw [Nat.sub_self]
    decide
  rw [bit, bits, one]

/-- A value stands in the word slice by slice. -/
theorem placed_eq {f : FieldLayout} (narrow : ∀ s ∈ f.slices, s.source.hi - s.source.lo < 31) :
    f.placed x = Word.union (f.slices.map fun s =>
      bits (f.reading.code x) s.destination.hi s.destination.lo <<< s.source.lo) := by
  rw [FieldLayout.placed, FieldLayout.fixed, List.map_map]
  congr 1
  refine List.map_congr_left fun s mem => ?_
  have order : s.destination.lo ≤ s.destination.hi := Nat.le_add_right _ _
  have size : s.destination.hi - s.destination.lo = s.source.hi - s.source.lo :=
    Nat.add_sub_cancel_left _ _
  rw [bits_eq_read _ order (size ▸ narrow s mem)]
  rfl

theorem placed_register (small : n.toNat < 32) (size : hi = lo + 4) :
    (register field hi lo).placed n.toNat = n <<< lo := by
  subst size
  have value : bits (BitVec.ofInt 32 n.toNat) (0 + (lo + 4 - lo)) 0 = n := by
    rw [Word.ofInt_toNat, Nat.add_sub_cancel_left, bits_eq_read n (by decide) (by decide)]
    exact Word.read_of_lt small
  rw [placed_eq (by simp [register, slice])]
  change bits (BitVec.ofInt 32 n.toNat) (0 + (lo + 4 - lo)) 0 <<< lo ||| 0#32 = n <<< lo
  rw [value, BitVec.or_zero]

theorem placed_compressedRegister (low : 8 ≤ n.toNat) (high : n.toNat < 16) (size : hi = lo + 2) :
    (compressedRegister field hi lo).placed n.toNat = (n - 8) <<< lo := by
  subst size
  have number : (n - 8).toNat = n.toNat - 8 := BitVec.toNat_sub_of_le low
  have small : (n - 8).toNat < 8 := by omega
  have value : bits (BitVec.ofInt 32 (n.toNat - 8)) (0 + (lo + 2 - lo)) 0 = n - 8 := by
    rw [show (n.toNat : Int) - 8 = (n - 8).toNat by omega, Word.ofInt_toNat,
      Nat.add_sub_cancel_left, bits_eq_read _ (by decide) (by decide)]
    exact Word.read_of_lt small
  rw [placed_eq (by simp [compressedRegister, slice])]
  change bits (BitVec.ofInt 32 (n.toNat - 8)) (0 + (lo + 2 - lo)) 0 <<< lo ||| 0#32 = (n - 8) <<< lo
  rw [value, BitVec.or_zero]

end Riscv

end Opcodes
