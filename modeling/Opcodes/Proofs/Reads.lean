import Opcodes.Proofs.Truncation

/-!
# Reads of an image, byte by byte

A segment has the addresses from its base on, counted as numbers, so a segment that runs past the top
of the address space does not come back at the bottom. The byte at an address is that of the first
segment that has it. Reads of two and four bytes are put together from the bytes at the addresses
that follow each other modulo the size of the address space, whatever segments these come from, and a
fetch gives what is there of a word. Main statement: `reads_of_bytes`.
-/
set_option autoImplicit false

namespace Opcodes

/-- Bits put in front of others count for the upper part of the number. -/
theorem toNat_append_eq {m n : Nat} (high : BitVec m) (low : BitVec n) :
    (high ++ low).toNat = low.toNat + 2 ^ n * high.toNat := by
  rw [BitVec.toNat_append, ← Nat.shiftLeft_add_eq_or_of_lt low.isLt, Nat.shiftLeft_eq,
    Nat.mul_comm, Nat.add_comm]

theorem toNat_append_bytes (low high : Byte) : (high ++ low).toNat = littleEndian [low, high] :=
  toNat_append_eq high low

theorem toNat_append_halves {low high : BitVec 16} {b₀ b₁ b₂ b₃ : Byte}
    (lower : low.toNat = littleEndian [b₀, b₁]) (upper : high.toNat = littleEndian [b₂, b₃]) :
    (high ++ low).toNat = littleEndian [b₀, b₁, b₂, b₃] := by
  calc (high ++ low).toNat
    _ = low.toNat + 2 ^ 16 * high.toNat := toNat_append_eq high low
    _ = littleEndian [b₀, b₁] + 256 ^ 2 * littleEndian [b₂, b₃] := by
        rw [lower, upper]
        norm_num
    _ = littleEndian [b₀, b₁, b₂, b₃] := (littleEndian_append [b₀, b₁] [b₂, b₃]).symm

namespace Segment

variable {s : Segment} {a : Word} {b : Byte}

/-- The segment has the address. -/
def Has (s : Segment) (a : Word) : Prop :=
  s.base.toNat ≤ a.toNat ∧ a.toNat < s.base.toNat + s.bytes.size

instance (s : Segment) (a : Word) : Decidable (s.Has a) := inferInstanceAs (Decidable (_ ∧ _))

theorem byte?_eq_some_iff :
    s.byte? a = some b ↔ s.Has a ∧ s.bytes[a.toNat - s.base.toNat]? = some b := by
  unfold byte? Has
  by_cases above : s.base ≤ a
  · rw [if_pos above, BitVec.toNat_sub_of_le above, iff_and_self]
    intro found
    obtain ⟨inside, -⟩ := Array.getElem?_eq_some_iff.1 found
    have le : s.base.toNat ≤ a.toNat := BitVec.le_def.1 above
    omega
  · have below : ¬s.base.toNat ≤ a.toNat := mt BitVec.le_def.2 above
    simp [above, below]

theorem byte?_eq_none_iff : s.byte? a = none ↔ ¬s.Has a := by
  rw [← not_iff_not, not_not, ← ne_eq, Option.ne_none_iff_exists']
  simp only [byte?_eq_some_iff]
  constructor
  · rintro ⟨b, has, -⟩
    exact has
  · intro has
    obtain ⟨le, lt⟩ := has
    exact ⟨_, ⟨le, lt⟩, Array.getElem?_eq_getElem (by omega)⟩

end Segment

namespace Image

variable {m : Image} {a w : Word} {b : Byte} {half : BitVec 16}

/-- Some segment has the address. -/
def Has (m : Image) (a : Word) : Prop := ∃ s ∈ m, s.Has a

instance (m : Image) (a : Word) : Decidable (m.Has a) := inferInstanceAs (Decidable (∃ s ∈ m, _))

theorem byte?_eq_some_iff : m.byte? a = some b ↔ ∃ before s after, m = before ++ s :: after ∧
    (∀ r ∈ before, ¬r.Has a) ∧ s.Has a ∧ s.bytes[a.toNat - s.base.toNat]? = some b := by
  rw [byte?, List.findSome?_eq_some_iff]
  simp only [Segment.byte?_eq_some_iff, Segment.byte?_eq_none_iff]
  constructor
  · rintro ⟨before, s, after, split, found, missing⟩
    exact ⟨before, s, after, split, missing, found⟩
  · rintro ⟨before, s, after, split, missing, found⟩
    exact ⟨before, s, after, split, found, missing⟩

theorem byte?_eq_none_iff : m.byte? a = none ↔ ¬m.Has a := by
  rw [byte?, List.findSome?_eq_none_iff]
  simp only [Segment.byte?_eq_none_iff, Has, not_exists, not_and]

theorem has_iff : m.Has a ↔ ∃ b, m.byte? a = some b := by
  rw [← Option.ne_none_iff_exists', ne_eq, byte?_eq_none_iff, not_not]

/-- A half word is read off two bytes. -/
theorem half?_eq_some_iff_bytes : m.half? a = some half ↔ ∃ b₀ b₁, m.byte? a = some b₀ ∧
    m.byte? (a + 1) = some b₁ ∧ half.toNat = littleEndian [b₀, b₁] := by
  rw [half?_eq_some_iff]
  have value : ∀ low high : Byte, high ++ low = half ↔ half.toNat = littleEndian [low, high] := by
    intro low high
    rw [← BitVec.toNat_inj, toNat_append_bytes, eq_comm]
  simp only [value]

theorem word?_eq_some_iff : m.word? a = some w ↔ ∃ low high, m.half? a = some low ∧
    m.half? (a + 2) = some high ∧ high ++ low = w := by
  simp [word?, Option.bind_eq_some_iff]

/-- The second byte of the upper half is the last of the word. -/
theorem add_two_add_one (a : Word) : a + 2 + 1 = a + 3 := BitVec.add_assoc a 2 1

/-- A word is read off four bytes. -/
theorem word?_eq_some_iff_bytes : m.word? a = some w ↔ ∃ b₀ b₁ b₂ b₃, m.byte? a = some b₀ ∧
    m.byte? (a + 1) = some b₁ ∧ m.byte? (a + 2) = some b₂ ∧ m.byte? (a + 3) = some b₃ ∧
    w.toNat = littleEndian [b₀, b₁, b₂, b₃] := by
  rw [word?_eq_some_iff]
  constructor
  · rintro ⟨low, high, read, above, rfl⟩
    obtain ⟨b₀, b₁, first, second, lower⟩ := half?_eq_some_iff_bytes.1 read
    obtain ⟨b₂, b₃, third, fourth, upper⟩ := half?_eq_some_iff_bytes.1 above
    rw [add_two_add_one] at fourth
    exact ⟨b₀, b₁, b₂, b₃, first, second, third, fourth, toNat_append_halves lower upper⟩
  · rintro ⟨b₀, b₁, b₂, b₃, first, second, third, fourth, value⟩
    rw [← add_two_add_one] at fourth
    refine ⟨b₁ ++ b₀, b₃ ++ b₂, half?_eq_some_iff.2 ⟨b₀, b₁, first, second, rfl⟩,
      half?_eq_some_iff.2 ⟨b₂, b₃, third, fourth, rfl⟩, BitVec.eq_of_toNat_eq ?_⟩
    rw [value]
    exact toNat_append_halves (toNat_append_bytes b₀ b₁) (toNat_append_bytes b₂ b₃)

theorem isSome_half?_iff : (m.half? a).isSome = true ↔ m.Has a ∧ m.Has (a + 1) := by
  simp only [Option.isSome_iff_exists, half?_eq_some_iff, has_iff]
  constructor
  · rintro ⟨_, b₀, b₁, first, second, -⟩
    exact ⟨⟨b₀, first⟩, ⟨b₁, second⟩⟩
  · rintro ⟨⟨b₀, first⟩, ⟨b₁, second⟩⟩
    exact ⟨_, b₀, b₁, first, second, rfl⟩

/-- Where four bytes are there, a word is. -/
theorem isSome_word?_iff :
    (m.word? a).isSome = true ↔ m.Has a ∧ m.Has (a + 1) ∧ m.Has (a + 2) ∧ m.Has (a + 3) := by
  have halves : (m.word? a).isSome = true ↔
      (m.half? a).isSome = true ∧ (m.half? (a + 2)).isSome = true := by
    simp only [Option.isSome_iff_exists, word?_eq_some_iff]
    constructor
    · rintro ⟨_, low, high, read, above, -⟩
      exact ⟨⟨low, read⟩, high, above⟩
    · rintro ⟨⟨low, read⟩, high, above⟩
      exact ⟨_, low, high, read, above, rfl⟩
  rw [halves, isSome_half?_iff, isSome_half?_iff, add_two_add_one, and_assoc]

theorem fetch?_of_word? (read : m.word? a = some w) : m.fetch? a = some w := by
  rw [fetch?, read]
  rfl

theorem fetch?_of_word?_eq_none (missing : m.word? a = none) :
    m.fetch? a = (m.half? a).map (BitVec.setWidth 32) := by
  rw [fetch?, missing]
  rfl

/-- A fetch is a read of a half word with more above it. -/
theorem setWidth_fetch? (m : Image) (a : Word) :
    (m.fetch? a).map (BitVec.setWidth 16) = m.half? a := by
  cases word : m.word? a with
  | some w =>
    obtain ⟨low, high, read, -, rfl⟩ := word?_eq_some_iff.1 word
    rw [fetch?_of_word? word, read, Option.map_some, BitVec.setWidth_append_eq_right]
  | none =>
    have same : ∀ half : BitVec 16, (half.setWidth 32).setWidth 16 = half := by
      intro half
      rw [BitVec.setWidth_setWidth_of_le half (by decide), BitVec.setWidth_eq]
    rw [fetch?_of_word?_eq_none word, Option.map_map]
    cases m.half? a with
    | none => rfl
    | some half => exact congrArg some (same half)

/-- What the reads at an address give, said of the bytes alone. A byte comes from the first segment
that has the address and is missing just when none has it. A half word and a word are there just when
all their bytes are, each at its address modulo the size of the address space, and are the numbers
that these bytes stand for. A fetch needs two bytes, gives the word where there is one and else the
half word as a number, so its lower half is always the half word. -/
theorem reads_of_bytes (m : Image) (a : Word) :
    (∀ b, m.byte? a = some b ↔ ∃ before s after, m = before ++ s :: after ∧
      (∀ r ∈ before, ¬r.Has a) ∧ s.Has a ∧ s.bytes[a.toNat - s.base.toNat]? = some b) ∧
    (m.byte? a = none ↔ ∀ s ∈ m, ¬s.Has a) ∧
    (∀ half, m.half? a = some half ↔ ∃ b₀ b₁, m.byte? a = some b₀ ∧ m.byte? (a + 1) = some b₁ ∧
      half.toNat = littleEndian [b₀, b₁]) ∧
    ((m.word? a).isSome = true ↔ m.Has a ∧ m.Has (a + 1) ∧ m.Has (a + 2) ∧ m.Has (a + 3)) ∧
    (∀ w, m.word? a = some w ↔ ∃ b₀ b₁ b₂ b₃, m.byte? a = some b₀ ∧ m.byte? (a + 1) = some b₁ ∧
      m.byte? (a + 2) = some b₂ ∧ m.byte? (a + 3) = some b₃ ∧
      w.toNat = littleEndian [b₀, b₁, b₂, b₃]) ∧
    ((m.fetch? a).isSome = true ↔ m.Has a ∧ m.Has (a + 1)) ∧
    (∀ w, m.word? a = some w → m.fetch? a = some w) ∧
    (m.word? a = none → ∀ w, m.fetch? a = some w ↔ ∃ b₀ b₁, m.byte? a = some b₀ ∧
      m.byte? (a + 1) = some b₁ ∧ w.toNat = littleEndian [b₀, b₁]) ∧
    (m.fetch? a).map (BitVec.setWidth 16) = m.half? a := by
  refine ⟨fun b => byte?_eq_some_iff, ?_, fun half => half?_eq_some_iff_bytes, isSome_word?_iff,
    fun w => word?_eq_some_iff_bytes, ?_, fun w => fetch?_of_word?, fun missing w => ?_,
    setWidth_fetch? m a⟩
  · rw [byte?_eq_none_iff, Has, not_exists]
    simp only [not_and]
  · rw [← isSome_half?_iff, ← setWidth_fetch?, Option.isSome_map]
  · rw [fetch?_of_word?_eq_none missing, Option.map_eq_some_iff]
    simp only [half?_eq_some_iff]
    constructor
    · rintro ⟨half, ⟨b₀, b₁, first, second, rfl⟩, rfl⟩
      refine ⟨b₀, b₁, first, second, ?_⟩
      rw [BitVec.toNat_setWidth_of_le (by decide), toNat_append_bytes]
    · rintro ⟨b₀, b₁, first, second, value⟩
      refine ⟨b₁ ++ b₀, ⟨b₀, b₁, first, second, rfl⟩, BitVec.eq_of_toNat_eq ?_⟩
      rw [BitVec.toNat_setWidth_of_le (by decide), toNat_append_bytes, value]

/-- A segment that runs past the top of the address space and one that begins at the bottom. -/
def seamImage : Image := [⟨"top", 0xFFFFFFFE, #[1, 2, 9]⟩, ⟨"bottom", 0, #[3, 4]⟩]

/-- A word over the seam has two bytes of each segment. At the bottom only two bytes are there, and a
half word is fetched. -/
theorem reads_seamImage : seamImage.word? 0xFFFFFFFE = some 0x04030201 ∧
    seamImage.fetch? 0xFFFFFFFE = some 0x04030201 ∧ seamImage.word? 0 = none ∧
    seamImage.fetch? 0 = some 0x0403 := by
  obtain ⟨-, -, -, -, word_iff, -, whole, -, -⟩ := reads_of_bytes seamImage 0xFFFFFFFE
  obtain ⟨-, -, -, -, -, -, -, rest, -⟩ := reads_of_bytes seamImage 0
  have word : seamImage.word? 0xFFFFFFFE = some 0x04030201 :=
    (word_iff _).2 ⟨1, 2, 3, 4, by decide, by decide, by decide, by decide, by decide⟩
  have missing : seamImage.word? 0 = none := by decide
  exact ⟨word, whole _ word, missing, (rest missing _).2 ⟨3, 4, by decide, by decide, by decide⟩⟩

end Image

end Opcodes
