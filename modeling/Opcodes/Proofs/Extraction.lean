import Opcodes.Layout.Stepwise
import Opcodes.Proofs.FieldValue
import Opcodes.Proofs.Build

/-!
# The value of a field as a number

A field without a fault is gathered in steps that all stay in range, and what it reads is plain
arithmetic: the values of its slices, each times a power of two, laid over each other give a number
of the field's width, and `Reading.Denotes` says what value stands for it. No layout gets into a
table without the check for faults, so this holds of every field that a table reads.

Words are shifted by thirty-one positions at the most. The one from which a run of ones is made has
twice the width and goes one further, to thirty-two, where a slice takes the whole word.
-/
set_option autoImplicit false

namespace Opcodes

/-- By at most thirty-one positions, or by thirty-two of a number that is twice as wide as a word. -/
def Shift.InRange (s : Shift) : Prop := s.size = 32 ∧ s.amount ≤ 31 ∨ s.size = 64 ∧ s.amount ≤ 32

/-- The steps come to the result, whatever shifts were made before, and theirs are in range. -/
def Steps.Gives {α : Type} (x : Steps α) (a : α) : Prop :=
  ∀ made, ∃ shifts, x.run made = some (a, made ++ shifts) ∧ ∀ s ∈ shifts, s.InRange

namespace Steps

variable {α β : Type} {a : α} {b : β}

theorem gives_pure (a : α) : Gives (pure a) a := fun made => ⟨[], by simp, by simp⟩

theorem gives_shift {size amount : Nat} (small : amount < size)
    (inRange : Shift.InRange ⟨size, amount⟩) : Gives (shift size amount a) a := by
  intro made
  refine ⟨[⟨size, amount⟩], if_pos small, fun s mem => ?_⟩
  rwa [List.mem_singleton.1 mem]

theorem gives_guard {p : Prop} [Decidable p] (holds : p) : Gives (guard p) () := by
  rw [guard, if_pos holds]
  exact gives_pure ()

theorem gives_liftM {x : Option α} (h : x = some a) : Gives (liftM x) a := by
  subst h
  exact gives_pure a

namespace Gives

theorem bind {x : Steps α} {f : α → Steps β} (hx : Gives x a) (hf : Gives (f a) b) :
    Gives (x >>= f) b := by
  intro made
  obtain ⟨shifts, ran, inRange⟩ := hx made
  obtain ⟨more, ran', inRange'⟩ := hf (made ++ shifts)
  refine ⟨shifts ++ more, ?_, fun s mem => ?_⟩
  · rw [StateT.run_bind, ran, ← List.append_assoc]
    exact ran'
  · rcases List.mem_append.1 mem with mem | mem
    · exact inRange s mem
    · exact inRange' s mem

/-- Steps that start with no shift made. -/
theorem exists_run {x : Steps α} (h : Gives x a) :
    ∃ shifts, x.run [] = some (a, shifts) ∧ ∀ s ∈ shifts, s.InRange := h []

end Gives

/-- Steps that are defined for each element give the union for all of them. -/
theorem gives_foldlM_union {γ : Type} {f : γ → Steps Word} {g : γ → Word} {as : List γ}
    (each : ∀ a ∈ as, Gives (f a) (g a)) (start : Word) :
    Gives (as.foldlM (fun w a => return w ||| (← f a)) start) (start ||| Word.union (as.map g)) := by
  induction as generalizing start with
  | nil => simpa [Word.union] using gives_pure start
  | cons a as ih =>
    obtain ⟨head, tail⟩ := List.forall_mem_cons.1 each
    rw [List.foldlM_cons, List.map_cons, Word.union_cons, ← BitVec.or_assoc]
    have first : Gives (do return start ||| (← f a)) (start ||| g a) := head.bind (gives_pure _)
    exact first.bind (ih tail _)

end Steps

namespace Word

variable {w : Word} {n : Nat}

theorem testBit_toNat (w : Word) (i : Nat) : w.toNat.testBit i = w.getLsbD i := rfl

theorem toNat_ones (h : n ≤ 32) : (ones n).toNat = 2 ^ n - 1 := by
  apply Nat.eq_of_testBit_eq
  intro i
  rw [testBit_toNat, getLsbD_ones, Nat.testBit_two_pow_sub_one]
  simp only [Bool.and_eq_right_iff_imp, decide_eq_true_eq]
  omega

theorem toNat_shiftLeft_of_lt (fits : w.toNat * 2 ^ n < 2 ^ 32) :
    (w <<< n).toNat = w.toNat * 2 ^ n := by
  rw [BitVec.toNat_shiftLeft, Nat.shiftLeft_eq, Nat.mod_eq_of_lt fits]

theorem gives_shiftUp? (small : n < 32) (fits : w.toNat * 2 ^ n < 2 ^ 32) :
    (w.shiftUp? n).Gives (w <<< n) := by
  refine (Steps.gives_guard ?_).bind (Steps.gives_shift small (.inl ⟨rfl, Nat.le_of_lt_succ small⟩))
  rwa [Nat.shiftLeft_eq]

theorem gives_shiftDown? (small : n < 32) : (w.shiftDown? n).Gives (w >>> n) :=
  Steps.gives_shift small (.inl ⟨rfl, Nat.le_of_lt_succ small⟩)

theorem gives_shiftDownSigned? (small : n < 32) :
    (w.shiftDownSigned? n).Gives (w.sshiftRight n) :=
  Steps.gives_shift small (.inl ⟨rfl, Nat.le_of_lt_succ small⟩)

theorem gives_ones? (h : n ≤ 32) : (ones? n).Gives (ones n) := by
  have one_le : 1 ≤ 2 ^ n := Nat.one_le_two_pow
  have bound : 2 ^ n ≤ 2 ^ 32 := Nat.pow_le_pow_right (by decide) h
  have top : ((1 : BitVec 64) <<< n).toNat = 2 ^ n := by
    rw [BitVec.toNat_shiftLeft, Nat.shiftLeft_eq, Nat.mod_eq_of_lt]
    · exact Nat.one_mul _
    · rw [show (1 : BitVec 64).toNat = 1 from rfl]
      omega
  have cut : (((1 : BitVec 64) <<< n) - 1).setWidth 32 = ones n := by
    apply BitVec.eq_of_toNat_eq
    rw [toNat_ones h, BitVec.toNat_setWidth, BitVec.toNat_sub, top,
      show (1 : BitVec 64).toNat = 1 from rfl]
    omega
  rw [← cut]
  refine (Steps.gives_shift (by omega) (.inr ⟨rfl, h⟩)).bind ((Steps.gives_guard ?_).bind
    (Steps.gives_pure _))
  rw [top]
  omega

/-- A number of `width` bits that is moved to the top of a word and back has the sign of its own
uppermost bit. -/
theorem toInt_sshiftRight_shiftLeft {width : Nat} (positive : 1 ≤ width) (bound : width ≤ 32) :
    ((w <<< (32 - width)).sshiftRight (32 - width)).toInt = (w.setWidth width).toInt := by
  have same : (w <<< (32 - width)).sshiftRight (32 - width) = (w.setWidth width).signExtend 32 := by
    apply BitVec.eq_of_getLsbD_eq
    intro i hi
    rw [BitVec.getLsbD_sshiftRight, BitVec.getLsbD_signExtend, BitVec.msb_setWidth,
      BitVec.msb_eq_getLsbD_last]
    simp only [BitVec.getLsbD_shiftLeft, BitVec.getLsbD_setWidth]
    grind
  rw [same, BitVec.toInt_signExtend_of_le bound]

end Word

section Union

variable {ns : List Nat} {k : Nat}

theorem foldr_or_lt (below : ∀ n ∈ ns, n < 2 ^ k) : ns.foldr (· ||| ·) 0 < 2 ^ k := by
  induction ns with
  | nil => exact Nat.two_pow_pos k
  | cons n ns ih =>
    obtain ⟨head, tail⟩ := List.forall_mem_cons.1 below
    exact Nat.or_lt_two_pow head (ih tail)

theorem dvd_foldr_or (multiples : ∀ n ∈ ns, 2 ^ k ∣ n) : 2 ^ k ∣ ns.foldr (· ||| ·) 0 := by
  induction ns with
  | nil => exact Nat.dvd_zero _
  | cons n ns ih =>
    obtain ⟨head, tail⟩ := List.forall_mem_cons.1 multiples
    apply Nat.dvd_of_mod_eq_zero
    rw [List.foldr_cons, Nat.or_mod_two_pow, Nat.mod_eq_zero_of_dvd head,
      Nat.mod_eq_zero_of_dvd (ih tail)]
    rfl

theorem Word.toNat_union (ws : List Word) :
    (union ws).toNat = (ws.map BitVec.toNat).foldr (· ||| ·) 0 := by
  induction ws with
  | nil => rfl
  | cons w ws ih => rw [List.map_cons, List.foldr_cons, ← ih, ← BitVec.toNat_or]; rfl

end Union

namespace BitRange

variable {r : BitRange} {w : Word}

theorem width?_eq_some (inWord : r.InWord) : r.width? = some r.width := by
  obtain ⟨le, -⟩ := inWord
  rw [width?, difference?, if_pos le, Option.map_some, width]
  congr 1
  omega

theorem width_pos (inWord : r.InWord) : 1 ≤ r.width := by
  have le := inWord.1
  unfold width
  omega

theorem lo_add_width (inWord : r.InWord) : r.lo + r.width = r.hi + 1 := by
  have le := inWord.1
  unfold width
  omega

theorem toNat_read (r : BitRange) (w : Word) :
    (r.read w).toNat = w.toNat / 2 ^ r.lo % 2 ^ r.width := by
  apply Nat.eq_of_testBit_eq
  intro i
  have inside : r.lo + i ≤ r.hi ↔ i < r.width := by
    unfold width
    omega
  rw [Word.testBit_toNat, getLsbD_read, Nat.testBit_mod_two_pow, Nat.testBit_div_two_pow,
    Word.testBit_toNat, Nat.add_comm i]
  simp only [inside]

end BitRange

namespace Slice

variable {s : Slice} {w : Word} {width : Nat}

/-- The number that the slice gives: the value of its range, times the power of two of its place. -/
def value (s : Slice) (w : Word) : Nat :=
  w.toNat / 2 ^ s.source.lo % 2 ^ (s.source.hi + 1 - s.source.lo) * 2 ^ s.target

theorem value_eq (s : Slice) (w : Word) : s.value w = (s.source.read w).toNat * 2 ^ s.target := by
  rw [BitRange.toNat_read]
  rfl

/-- The number has no bit at the end of the slice's place or above it. -/
theorem value_lt (fits : s.target + s.source.width ≤ width) : s.value w < 2 ^ width := by
  have below : (s.source.read w).toNat < 2 ^ s.source.width := by
    rw [BitRange.toNat_read]
    exact Nat.mod_lt _ (Nat.two_pow_pos _)
  calc s.value w
    _ = (s.source.read w).toNat * 2 ^ s.target := s.value_eq w
    _ < 2 ^ s.source.width * 2 ^ s.target :=
        Nat.mul_lt_mul_of_pos_right below (Nat.two_pow_pos _)
    _ = 2 ^ (s.target + s.source.width) := by rw [← Nat.pow_add, Nat.add_comm]
    _ ≤ 2 ^ width := Nat.pow_le_pow_right (by decide) fits

theorem dvd_value {m : Nat} (le : m ≤ s.target) : 2 ^ m ∣ s.value w :=
  (Nat.pow_dvd_pow 2 le).mul_left _

theorem toNat_gather (fits : s.target + s.source.width ≤ 32) : (s.gather w).toNat = s.value w := by
  have below := value_lt (w := w) fits
  rw [value_eq] at below ⊢
  exact Word.toNat_shiftLeft_of_lt below

theorem gives_gather? (inWord : s.source.InWord) (fits : s.target + s.source.width ≤ 32) :
    (s.gather? w).Gives (s.gather w) := by
  have positive := BitRange.width_pos inWord
  have below := value_lt (w := w) fits
  rw [value_eq] at below
  refine (Word.gives_shiftDown? (Nat.lt_of_le_of_lt inWord.1 inWord.2)).bind ?_
  refine (Steps.gives_liftM (BitRange.width?_eq_some inWord)).bind ?_
  refine (Word.gives_ones? (by omega)).bind ?_
  exact Word.gives_shiftUp? (by omega) below

theorem gives_bits? (inWord : s.source.InWord) : s.bits?.Gives s.source.mask := by
  have ends := BitRange.lo_add_width inWord
  have positive := BitRange.width_pos inWord
  have top := inWord.2
  have small : s.source.width ≤ 32 := by omega
  have below : (Word.ones s.source.width).toNat * 2 ^ s.source.lo < 2 ^ 32 := by
    have one_le : 1 ≤ 2 ^ s.source.width := Nat.one_le_two_pow
    calc (Word.ones s.source.width).toNat * 2 ^ s.source.lo
      _ = (2 ^ s.source.width - 1) * 2 ^ s.source.lo := by rw [Word.toNat_ones small]
      _ < 2 ^ s.source.width * 2 ^ s.source.lo :=
          Nat.mul_lt_mul_of_pos_right (by omega) (Nat.two_pow_pos _)
      _ = 2 ^ (s.source.hi + 1) := by rw [← Nat.pow_add, Nat.add_comm, ends]
      _ ≤ 2 ^ 32 := Nat.pow_le_pow_right (by decide) top
  refine (Steps.gives_liftM (BitRange.width?_eq_some inWord)).bind ?_
  exact (Word.gives_ones? small).bind (Word.gives_shiftUp? (by omega) below)

end Slice

namespace FieldLayout

variable {f : FieldLayout} {w : Word}

/-- The numbers of the slices laid over each other. -/
def raw (f : FieldLayout) (w : Word) : Nat := (f.slices.map (·.value w)).foldr (· ||| ·) 0

theorem toNat_gather (sound : f.fault? = none) : (f.gather w).toNat = f.raw w := by
  obtain ⟨⟨-, bound⟩, slices⟩ := fault?_eq_none_iff.1 sound
  rw [gather, raw, Word.toNat_union, List.map_map]
  congr 1
  apply List.map_congr_left
  intro s mem
  exact Slice.toNat_gather ((slices s mem).2.trans bound)

theorem raw_lt (sound : f.fault? = none) : f.raw w < 2 ^ f.width := by
  apply foldr_or_lt
  intro n listed
  obtain ⟨s, mem, rfl⟩ := List.mem_map.1 listed
  exact Slice.value_lt ((fault?_eq_none_iff.1 sound).2 s mem).2

/-- Low bits that no slice is put at are zero. -/
theorem dvd_raw {m : Nat} (above : ∀ s ∈ f.slices, m ≤ s.target) : 2 ^ m ∣ f.raw w := by
  apply dvd_foldr_or
  intro n listed
  obtain ⟨s, mem, rfl⟩ := List.mem_map.1 listed
  exact Slice.dvd_value (above s mem)

theorem gives_gather? (sound : f.fault? = none) : (f.gather? w).Gives (f.gather w) := by
  obtain ⟨⟨-, bound⟩, slices⟩ := fault?_eq_none_iff.1 sound
  have each : ∀ s ∈ f.slices, (s.gather? w).Gives (s.gather w) := by
    intro s mem
    obtain ⟨inWord, fits⟩ := slices s mem
    exact Slice.gives_gather? inWord (fits.trans bound)
  rw [← show 0 ||| f.gather w = f.gather w from BitVec.zero_or]
  exact Steps.gives_foldlM_union each 0

theorem gives_bits? (sound : f.fault? = none) : f.bits?.Gives f.bits := by
  have each : ∀ s ∈ f.slices, s.bits?.Gives s.source.mask := fun s mem =>
    Slice.gives_bits? (inWord_of_fault? sound mem)
  rw [← show 0 ||| f.bits = f.bits from BitVec.zero_or]
  exact Steps.gives_foldlM_union each 0

theorem gives_extract? (sound : f.fault? = none) : (f.extract? w).Gives (f.extract w) := by
  obtain ⟨⟨positive, bound⟩, -⟩ := fault?_eq_none_iff.1 sound
  refine (gives_gather? sound).bind ?_
  rw [extract]
  cases f.reading with
  | signed =>
    have small : 32 - f.width < 32 := by omega
    have below : (f.gather w).toNat * 2 ^ (32 - f.width) < 2 ^ 32 := by
      calc (f.gather w).toNat * 2 ^ (32 - f.width)
        _ = f.raw w * 2 ^ (32 - f.width) := by rw [toNat_gather sound]
        _ < 2 ^ f.width * 2 ^ (32 - f.width) :=
            Nat.mul_lt_mul_of_pos_right (raw_lt sound) (Nat.two_pow_pos _)
        _ = 2 ^ 32 := by rw [← Nat.pow_add, Nat.add_sub_cancel' bound]
    simp only
    rw [← Word.toInt_sshiftRight_shiftLeft positive bound]
    refine (Steps.gives_liftM (if_pos bound)).bind ?_
    refine (Word.gives_shiftUp? small below).bind ?_
    exact (Word.gives_shiftDownSigned? small).bind (Steps.gives_pure _)
  | unsigned | register | compressedRegister => exact Steps.gives_pure _

end FieldLayout

/-- What a number of `width` bits stands for. -/
def Reading.Denotes (width raw : Nat) (x : Int) : Reading → Prop
  | signed => -2 ^ (width - 1) ≤ x ∧ x < 2 ^ (width - 1) ∧ x ≡ raw [ZMOD 2 ^ width]
  | unsigned | register => x = raw
  | compressedRegister => x = raw + 8

instance (width raw : Nat) (x : Int) : (r : Reading) → Decidable (Reading.Denotes width raw x r)
  | .signed => inferInstanceAs (Decidable (_ ∧ _ ∧ _))
  | .unsigned | .register | .compressedRegister => inferInstanceAs (Decidable (_ = _))

/-- The value of a field is what the gathered number stands for, and there is only one such value. -/
theorem FieldLayout.denotes_iff {f : FieldLayout} (sound : f.fault? = none) (w : Word) (x : Int) :
    f.reading.Denotes f.width (f.raw w) x ↔ x = f.extract w := by
  rw [extract]
  cases f.reading with
  | signed =>
    obtain ⟨⟨positive, -⟩, -⟩ := fault?_eq_none_iff.1 sound
    obtain ⟨k, hk⟩ := Nat.exists_eq_add_of_le' positive
    rw [BitVec.toInt_setWidth, toNat_gather sound, eq_comm, Int.bmod_eq_iff (Nat.two_pow_pos _),
      Reading.Denotes, hk, Nat.add_sub_cancel, Int.modEq_comm, Int.modEq_iff_dvd]
    have double : ((2 ^ (k + 1) : Nat) : Int) = 2 * 2 ^ k := by
      push_cast
      ring
    have double' : (2 : Int) ^ (k + 1) = 2 * 2 ^ k := by ring
    rw [double, double']
    refine and_congr ?_ (and_congr ?_ Iff.rfl)
    · omega
    · omega
  | unsigned | register | compressedRegister => simp only [Reading.Denotes, toNat_gather sound]

namespace Table

variable {registry : Registry} {rules : List Rule} {t : Table} {e : Entry} {f : FieldLayout}

/-- Every layout that gets into a table was checked. -/
theorem Built.fault?_layout (built : Built registry rules t) (mem : e ∈ t.entries) :
    e.layout.fault? = none := by
  obtain ⟨g, hg, mem⟩ := List.mem_flatMap.1 mem
  obtain ⟨leaf, -, -, layout, resolved, rfl⟩ := (built.entries g hg e).1 mem
  exact (Registry.soundLayout_eq_ok_iff.1 resolved).2

/-- The fields of a table are gathered in range. The steps that give the value of a field and its
mask all are: no shift of a word goes by more than thirty-one, none of a number twice as wide by more
than thirty-two, none loses a bit, and no difference is negative. Each slice gives exactly the number
of its range at its place, which ends below the width; the numbers of all slices together are a
number of that width, with zeros where no slice begins; and the value is the one that this number
stands for. -/
theorem extract_exact (ok : ofRules registry rules = .ok t) (he : e ∈ t.entries)
    (hf : f ∈ e.layout) (w : Word) :
    (∃ shifts, (f.extract? w).run [] = some (f.extract w, shifts) ∧ ∀ s ∈ shifts, s.InRange) ∧
    (∃ shifts, f.bits?.run [] = some (f.bits, shifts) ∧ ∀ s ∈ shifts, s.InRange) ∧
    (1 ≤ f.width ∧ f.width ≤ 32) ∧
    (∀ s ∈ f.slices, s.source.lo ≤ s.source.hi ∧ s.source.hi ≤ 31 ∧ s.target ≤ 31 ∧
      s.target + (s.source.hi + 1 - s.source.lo) ≤ f.width ∧
      (s.gather w).toNat = s.value w ∧ s.value w < 2 ^ f.width) ∧
    f.raw w < 2 ^ f.width ∧
    (∀ m, (∀ s ∈ f.slices, m ≤ s.target) → 2 ^ m ∣ f.raw w) ∧
    ∀ x, f.reading.Denotes f.width (f.raw w) x ↔ x = f.extract w := by
  have sound := Layout.fault?_eq_none_iff.1 ((built_of_ofRules ok).fault?_layout he) f hf
  obtain ⟨width, slices⟩ := FieldLayout.fault?_eq_none_iff.1 sound
  refine ⟨(FieldLayout.gives_extract? sound).exists_run, (FieldLayout.gives_bits? sound).exists_run,
    width, ?_, FieldLayout.raw_lt sound, fun m => FieldLayout.dvd_raw,
    FieldLayout.denotes_iff sound w⟩
  intro s mem
  obtain ⟨inWord, fits⟩ := slices s mem
  have positive := BitRange.width_pos inWord
  refine ⟨inWord.1, Nat.le_of_lt_succ inWord.2, ?_, fits, Slice.toNat_gather (fits.trans width.2),
    Slice.value_lt fits⟩
  omega

/-- A rule whose one field is the whole word, read in two's complement. -/
def wholeWordRules : List Rule := [⟨"word", [.imm20], [⟨⟨1, 0⟩, 3⟩], 1⟩]

def wholeWordField : FieldLayout := ⟨.imm, [⟨⟨31, 0⟩, 0⟩], 32, .signed⟩

def wholeWordTable : Table := ⟨[⟨3, [⟨3, "word", [.imm20], [wholeWordField], 4, 1⟩]⟩]⟩

theorem extract_wholeWord :
    ofRules (Registry.empty.register [.imm20] [wholeWordField]) wholeWordRules =
      .ok wholeWordTable ∧
    (∃ shifts, (wholeWordField.extract? 0xFFFFFFFF).run [] = some (-1, shifts) ∧
      ∀ s ∈ shifts, s.InRange) ∧
    (∃ shifts, wholeWordField.bits?.run [] = some (0xFFFFFFFF, shifts) ∧ ∀ s ∈ shifts, s.InRange) ∧
    wholeWordField.raw 0xFFFFFFFF = 0xFFFFFFFF ∧ wholeWordField.extract 0xFFFFFFFF = -1 := by
  have ok : ofRules (Registry.empty.register [.imm20] [wholeWordField]) wholeWordRules =
      .ok wholeWordTable := by decide +kernel
  obtain ⟨steps, mask, -, -, -, -, denotes_iff⟩ :=
    extract_exact ok (List.mem_singleton_self _) (List.mem_singleton_self wholeWordField) 0xFFFFFFFF
  have value : wholeWordField.extract 0xFFFFFFFF = -1 := ((denotes_iff (-1)).1 (by decide)).symm
  rw [value] at steps
  exact ⟨ok, steps, mask, by decide, value⟩

/-- Both the value and the mask of the whole word take a shift by thirty-two, in twice the width. -/
theorem shifts_wholeWord :
    ofRules (Registry.empty.register [.imm20] [wholeWordField]) wholeWordRules =
      .ok wholeWordTable ∧
    (∃ e ∈ wholeWordTable.entries, wholeWordField ∈ e.layout) ∧
    (∃ x shifts, (wholeWordField.extract? 0xFFFFFFFF).run [] = some (x, shifts) ∧
      ¬∀ s ∈ shifts, s.amount ≤ 31) ∧
    ∃ m shifts, wholeWordField.bits?.run [] = some (m, shifts) ∧ ¬∀ s ∈ shifts, s.amount ≤ 31 := by
  exact ⟨by decide +kernel, ⟨_, List.mem_singleton_self _, List.mem_singleton_self _⟩,
    ⟨-1, [⟨32, 0⟩, ⟨64, 32⟩, ⟨32, 0⟩, ⟨32, 0⟩, ⟨32, 0⟩], by decide +kernel, by decide⟩,
    ⟨0xFFFFFFFF, [⟨64, 32⟩, ⟨32, 0⟩], by decide +kernel, by decide⟩⟩

end Table

end Opcodes
