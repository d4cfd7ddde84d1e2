import Opcodes.Proofs.Listing

/-!
# The bytes behind a listed instruction

A fetch that finds only half a word fills the upper half with zeros, and the table decodes what is
fetched. An instruction of two bytes is always read off two bytes of the image, but one of four bytes
may be read off two, with zeros that stand nowhere (`Line.Truncated`). That is the one way in which
the bytes of a line and its instruction can part (`whole_iff_of_mem_sweep`).
-/
set_option autoImplicit false

namespace Opcodes

/-- The number that bytes stand for, the lowest first. -/
def littleEndian : List Byte → Nat
  | [] => 0
  | b :: bs => b.toNat + 256 * littleEndian bs

theorem littleEndian_append (as bs : List Byte) :
    littleEndian (as ++ bs) = littleEndian as + 256 ^ as.length * littleEndian bs := by
  induction as with
  | nil => simp [littleEndian]
  | cons a as ih =>
    rw [List.cons_append, littleEndian, littleEndian, ih, List.length_cons, Nat.pow_succ]
    ring

/-- Of the first four places of a list the first two are taken and one of the others is not. -/
theorem length_filterMap_range_four {α : Type} {f : Nat → Option α} {a b : α} (first : f 0 = some a)
    (second : f 1 = some b) (missing : f 2 = none ∨ f 3 = none) :
    ((List.range 4).filterMap f).length = 2 ∨ ((List.range 4).filterMap f).length = 3 := by
  have split : (List.range 4).filterMap f = a :: b :: [2, 3].filterMap f := by
    rw [show List.range 4 = [0, 1, 2, 3] from rfl, List.filterMap_cons_some first,
      List.filterMap_cons_some second]
  rw [split]
  rcases missing with third | fourth
  · cases fourth : f 3 <;> simp [third, fourth]
  · cases third : f 2 <;> simp [third, fourth]

namespace Word

/-- The lowest bytes of a word stand for the word, as far as they reach. -/
theorem littleEndian_lowBytes (w : Word) (n : Nat) :
    littleEndian (w.lowBytes n) = w.toNat % 2 ^ (8 * n) := by
  induction n with
  | zero => exact (Nat.mod_one _).symm
  | succ n ih =>
    have top : littleEndian [w.extractLsb' (8 * n) 8] = w.toNat / 2 ^ (8 * n) % 2 ^ 8 := by
      rw [littleEndian, littleEndian, BitVec.extractLsb'_toNat, Nat.shiftRight_eq_div_pow]
      rfl
    have split : w.lowBytes (n + 1) = w.lowBytes n ++ [w.extractLsb' (8 * n) 8] := by
      rw [lowBytes, List.range_succ, List.map_append]
      rfl
    rw [split, littleEndian_append, ih, length_lowBytes, top, Nat.mul_succ, Nat.pow_add,
      Nat.mod_mul, Nat.pow_mul]

end Word

namespace Image

variable {m : Image} {a w : Word}

/-- The `n` lowest bytes of a word stand at an address. -/
def Stands (m : Image) (a w : Word) (n : Nat) : Prop :=
  ∀ k < n, m.byte? (a + BitVec.ofNat 32 k) = some (w.extractLsb' (8 * k) 8)

theorem half?_eq_some_iff {half : BitVec 16} : m.half? a = some half ↔
    ∃ low high, m.byte? a = some low ∧ m.byte? (a + 1) = some high ∧ high ++ low = half := by
  simp [half?, Option.bind_eq_some_iff]

theorem half?_eq_none_iff : m.half? a = none ↔ m.byte? a = none ∨ m.byte? (a + 1) = none := by
  rw [half?]
  cases m.byte? a with
  | none => simp
  | some low => cases m.byte? (a + 1) <;> simp

theorem byte?_of_half? {half : BitVec 16} (read : m.half? a = some half) {k : Nat} (inside : k < 2) :
    m.byte? (a + BitVec.ofNat 32 k) = some (half.extractLsb' (8 * k) 8) := by
  obtain ⟨low, high, first, second, rfl⟩ := half?_eq_some_iff.1 read
  match k with
  | 0 =>
    rw [BitVec.extractLsb'_append_eq_of_add_le (by omega), BitVec.extractLsb'_eq_self,
      BitVec.add_zero, first]
  | 1 =>
    rw [BitVec.extractLsb'_append_eq_of_le (by omega), BitVec.extractLsb'_eq_self]
    exact second

theorem fetch?_eq_some_iff : m.fetch? a = some w ↔ ∃ low, m.half? a = some low ∧
    ((∃ high, m.half? (a + 2) = some high ∧ high ++ low = w) ∨
      m.half? (a + 2) = none ∧ low.setWidth 32 = w) := by
  cases read : m.half? a with
  | none => simp [fetch?, word?, read]
  | some low =>
    cases above : m.half? (a + 2) with
    | none => simp [fetch?_of_half? read above]
    | some high => simp [fetch?_of_halves read above]

/-- The lower half of what is fetched stands at the address. -/
theorem stands_of_fetch? (fetched : m.fetch? a = some w) : m.Stands a w 2 := by
  intro k inside
  obtain ⟨low, read, ⟨high, -, rfl⟩ | ⟨-, rfl⟩⟩ := fetch?_eq_some_iff.1 fetched
  · rw [byte?_of_half? read inside, BitVec.extractLsb'_append_eq_of_add_le (by omega)]
  · rw [byte?_of_half? read inside, BitVec.extractLsb'_setWidth_of_le (by omega)]

/-- If there is more, all of it stands there. -/
theorem stands_of_half? (fetched : m.fetch? a = some w) {half : BitVec 16}
    (more : m.half? (a + 2) = some half) : m.Stands a w 4 := by
  intro k inside
  by_cases lower : k < 2
  · exact stands_of_fetch? fetched k lower
  · obtain ⟨low, -, ⟨high, above, rfl⟩ | ⟨missing, -⟩⟩ := fetch?_eq_some_iff.1 fetched
    · have place : a + BitVec.ofNat 32 k = a + 2 + BitVec.ofNat 32 (k - 2) := by
        change _ = a + BitVec.ofNat 32 2 + _
        rw [BitVec.add_assoc, ← BitVec.ofNat_add, Nat.add_sub_of_le (Nat.le_of_not_lt lower)]
      rw [place, byte?_of_half? above (by omega), BitVec.extractLsb'_append_eq_of_le (by omega),
        Nat.mul_sub]
    · rw [more] at missing
      cases missing

/-- If there is no more, zeros are fetched in its place. -/
theorem ushiftRight_of_fetch? (fetched : m.fetch? a = some w) (missing : m.half? (a + 2) = none) :
    w >>> 16 = 0 := by
  obtain ⟨low, -, ⟨high, above, -⟩ | ⟨-, rfl⟩⟩ := fetch?_eq_some_iff.1 fetched
  · rw [missing] at above
    cases above
  · rw [Word.ushiftRight_eq_zero_iff]
    intro i bit
    rw [BitVec.getLsbD_setWidth, Bool.and_eq_true] at bit
    exact BitVec.lt_of_getLsbD bit.2

end Image

namespace Line

/-- The line shows an instruction by all its bytes, those of the image from the address on, and they
stand for what was decoded. -/
structure Whole (m : Image) (l : Line) (i : Instruction) : Prop where
  length : l.bytes.length = i.length
  stands : ∀ k < i.length, m.byte? (l.address + BitVec.ofNat 32 k) = l.bytes[k]?
  value : littleEndian l.bytes = i.word.toNat % 2 ^ (8 * i.length)

/-- The line shows an instruction of four bytes by two or three. The upper half of the word is not
in the image and was decoded as zeros. -/
structure Truncated (m : Image) (l : Line) (i : Instruction) : Prop where
  long : i.length = 4
  missing : m.half? (l.address + 2) = none
  zeros : i.word >>> 16 = 0
  bytes : l.bytes.length = 2 ∨ l.bytes.length = 3

variable {m : Image} {l : Line} {i : Instruction}

theorem Truncated.not_whole (truncated : l.Truncated m i) : ¬l.Whole m i := by
  intro whole
  have length := whole.length
  have short := truncated.bytes
  rw [truncated.long] at length
  omega

end Line

namespace Listing

variable {t : Table} {m : Image} {start stop : Word} {illegalStep : Nat} {l : Line} {i : Instruction}

/-- Where the bytes of a word stand in the image they are listed. -/
theorem filterMap_byte?_of_stands {a w : Word} {n : Nat} (stands : m.Stands a w n) :
    (List.range n).filterMap (fun k => m.byte? (a + BitVec.ofNat 32 k)) = w.lowBytes n := by
  have read : ∀ k ∈ List.range n, m.byte? (a + BitVec.ofNat 32 k) =
      some (w.extractLsb' (8 * k) 8) := fun k mem => stands k (List.mem_range.1 mem)
  rw [List.filterMap_congr read, List.filterMap_eq_map', Word.lowBytes]

/-- The instruction of a line was decoded from what is fetched at its address, and the bytes of the
line are those that can be read as far as the instruction reaches. -/
theorem fetch?_of_mem_sweep (mem : l ∈ sweep t m start stop illegalStep)
    (decoded : l.decoded = .instruction i) :
    m.fetch? l.address = some i.word ∧ t.decode i.word = .instruction i ∧
      l.bytes = (List.range i.length).filterMap fun k => m.byte? (l.address + BitVec.ofNat 32 k) := by
  obtain ⟨-, w, fetched, shape⟩ := line?_eq_some_iff.1 (line?_of_mem_sweep mem)
  have answer : t.decode w = .instruction i := by
    rw [← decoded, shape]
  have word : i.word = w := by
    obtain ⟨g, e, -, rfl⟩ := Table.decode_eq_instruction_iff.1 answer
    rfl
  have bytes := congrArg Line.bytes shape
  rw [answer] at bytes
  rw [word]
  exact ⟨fetched, answer, bytes⟩

theorem whole_of_stands (mem : l ∈ sweep t m start stop illegalStep)
    (decoded : l.decoded = .instruction i) (stands : m.Stands l.address i.word i.length) :
    l.Whole m i := by
  obtain ⟨-, -, bytes⟩ := fetch?_of_mem_sweep mem decoded
  rw [filterMap_byte?_of_stands stands] at bytes
  refine ⟨?_, fun k inside => ?_, ?_⟩
  · rw [bytes, Word.length_lowBytes]
  · rw [stands k inside, bytes, Word.lowBytes, List.getElem?_map, List.getElem?_range inside]
    rfl
  · rw [bytes, Word.littleEndian_lowBytes]

theorem truncated_of_missing (mem : l ∈ sweep t m start stop illegalStep)
    (decoded : l.decoded = .instruction i) (long : i.length = 4)
    (missing : m.half? (l.address + 2) = none) : l.Truncated m i := by
  obtain ⟨fetched, -, bytes⟩ := fetch?_of_mem_sweep mem decoded
  refine ⟨long, missing, Image.ushiftRight_of_fetch? fetched missing, ?_⟩
  have gap : m.byte? (l.address + BitVec.ofNat 32 2) = none ∨
      m.byte? (l.address + BitVec.ofNat 32 3) = none := by
    rcases Image.half?_eq_none_iff.1 missing with third | fourth
    · exact .inl third
    · rw [BitVec.add_assoc] at fourth
      exact .inr fourth
  rw [bytes, long]
  exact length_filterMap_range_four (Image.stands_of_fetch? fetched 0 (by omega))
    (Image.stands_of_fetch? fetched 1 (by omega)) gap

/-- An instruction that a sweep of a built table lists takes up two bytes or four of what is fetched
at its address. If it takes up two, or if there is a half word above the one at the address, the
line has all its bytes, and they stand for what was decoded. Otherwise it is truncated. -/
theorem whole_iff_of_mem_sweep {registry : Registry} {rules : List Rule}
    (ok : Table.ofRules registry rules = .ok t) (mem : l ∈ sweep t m start stop illegalStep)
    (decoded : l.decoded = .instruction i) :
    (i.length = 2 ∨ i.length = 4) ∧ m.fetch? l.address = some i.word ∧
      (l.Whole m i ↔ i.length = 2 ∨ ∃ half, m.half? (l.address + 2) = some half) ∧
      (¬l.Whole m i → l.Truncated m i) := by
  obtain ⟨fetched, answer, -⟩ := fetch?_of_mem_sweep mem decoded
  have lengths := (Table.built_of_ofRules ok).length_of_decode answer
  have whole : (i.length = 2 ∨ ∃ half, m.half? (l.address + 2) = some half) → l.Whole m i := by
    intro there
    refine whole_of_stands mem decoded ?_
    rcases there with two | ⟨half, more⟩
    · rw [two]
      exact Image.stands_of_fetch? fetched
    · have stands := Image.stands_of_half? fetched more
      exact fun k inside => stands k (by omega)
  have truncated : ¬(i.length = 2 ∨ ∃ half, m.half? (l.address + 2) = some half) →
      l.Truncated m i := by
    rw [not_or, ← Option.ne_none_iff_exists', not_not]
    rintro ⟨long, missing⟩
    exact truncated_of_missing mem decoded (lengths.resolve_left long) missing
  refine ⟨lengths, fetched, ⟨fun all => ?_, whole⟩, fun part => truncated (mt whole part)⟩
  by_contra missing
  exact (truncated missing).not_whole all

/-- An instruction of four bytes and the lower half of another one. -/
def cutImage : Image := .ofBytes 0 #[0x37, 0, 0, 0, 0x37, 0]

def luiRules : List Rule := [⟨"lui", [.rd, .imm20], [⟨⟨6, 0⟩, 0x37⟩], 1⟩]

/-- The instruction that stands at the first address of the image. -/
def firstLui : Instruction := ⟨0x37, "lui", [⟨.rd, 0⟩, ⟨.imm, 0⟩], 4⟩

theorem sweep_cutImage : ∃ t, Table.ofRules .riscv luiRules = .ok t ∧
    sweep t cutImage 0 6 2 =
      [⟨0, [0x37, 0, 0, 0], .instruction firstLui⟩, ⟨4, [0x37, 0], .instruction firstLui⟩] := by
  let t : Table := ⟨[⟨0x7F, [⟨0x37, "lui", [.rd, .imm20],
    [⟨.rd, [⟨⟨11, 7⟩, 0⟩], 5, .register⟩, ⟨.imm, [⟨⟨31, 12⟩, 12⟩], 32, .signed⟩], 4, 1⟩]⟩]⟩
  have ok : Table.ofRules .riscv luiRules = .ok t := by decide +kernel
  have halts : Halts t cutImage 6 2 0
      [⟨0, [0x37, 0, 0, 0], .instruction firstLui⟩, ⟨4, [0x37, 0], .instruction firstLui⟩] :=
    ⟨8, .step (by decide +kernel) (.step (by decide +kernel) (.refl _)), by decide +kernel⟩
  exact ⟨t, ok, halts.sweep_eq⟩

theorem whole_or_truncated_cutImage : ∃ t first second, Table.ofRules .riscv luiRules = .ok t ∧
    sweep t cutImage 0 6 2 = [first, second] ∧ first.Whole cutImage firstLui ∧
      second.Truncated cutImage firstLui := by
  obtain ⟨t, ok, lines⟩ := sweep_cutImage
  have first : ⟨0, [0x37, 0, 0, 0], .instruction firstLui⟩ ∈ sweep t cutImage 0 6 2 :=
    lines ▸ List.mem_cons_self
  have second : ⟨4, [0x37, 0], .instruction firstLui⟩ ∈ sweep t cutImage 0 6 2 :=
    lines ▸ List.mem_cons_of_mem _ List.mem_cons_self
  refine ⟨t, _, _, ok, lines, ?_, ?_⟩
  · obtain ⟨-, -, whole, -⟩ := whole_iff_of_mem_sweep ok first rfl
    exact whole.2 (.inr ⟨0, by decide +kernel⟩)
  · obtain ⟨-, -, whole, truncated⟩ := whole_iff_of_mem_sweep ok second rfl
    refine truncated (mt whole.1 ?_)
    rintro (two | ⟨half, more⟩)
    · exact absurd two (by decide)
    · have missing : cutImage.half? (4 + 2) = none := by decide +kernel
      rw [missing] at more
      cases more

/-- The second line is an instruction of four bytes and has two. -/
theorem not_whole_cutImage : ∃ t, Table.ofRules .riscv luiRules = .ok t ∧
    ∃ l ∈ sweep t cutImage 0 6 2, ∃ i, l.decoded = .instruction i ∧ i.length = 4 ∧
      l.bytes = [0x37, 0] ∧ ¬l.Whole cutImage i := by
  obtain ⟨t, ok, lines⟩ := sweep_cutImage
  refine ⟨t, ok, ⟨4, [0x37, 0], .instruction firstLui⟩, ?_, firstLui, rfl, rfl, rfl, ?_⟩
  · exact lines ▸ List.mem_cons_of_mem _ List.mem_cons_self
  · exact fun whole => absurd whole.length (by decide)

end Listing

end Opcodes
