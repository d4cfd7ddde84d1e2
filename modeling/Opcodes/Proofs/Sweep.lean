import Opcodes.Listing
import Opcodes.Proofs.Encoding

/-!
# Sweeping a program

A program is a list of codes, words that the table decodes, and is laid out by their bytes one after
the other. A sweep fetches four bytes at each address, so behind a code of two bytes it sees a part
of what follows, or nothing. A table that delimits its instructions does not look there, and the
sweep shows the codes of the program, each at its address.
-/
set_option autoImplicit false

namespace Opcodes

namespace Word

/-- The lowest `n` bytes of a word, from the lowest on. -/
def lowBytes (w : Word) (n : Nat) : List Byte := (List.range n).map fun k => w.extractLsb' (8 * k) 8

theorem length_lowBytes (w : Word) (n : Nat) : (w.lowBytes n).length = n := by
  rw [lowBytes, List.length_map, List.length_range]

theorem append_bytes (w : Word) :
    (w.extractLsb' 24 8 ++ w.extractLsb' 16 8) ++ (w.extractLsb' 8 8 ++ w.extractLsb' 0 8) = w := by
  rw [BitVec.extractLsb'_append_extractLsb'_eq_extractLsb' (by rfl),
    BitVec.extractLsb'_append_extractLsb'_eq_extractLsb' (by rfl),
    BitVec.extractLsb'_append_extractLsb'_eq_extractLsb' (by rfl)]
  exact BitVec.extractLsb'_eq_self

theorem getLsbD_append_bytes (w : Word) {k : Nat} (low : k < 16) :
    (w.extractLsb' 8 8 ++ w.extractLsb' 0 8).getLsbD k = w.getLsbD k := by
  rw [BitVec.extractLsb'_append_extractLsb'_eq_extractLsb' (by rfl), BitVec.getLsbD_extractLsb',
    decide_eq_true low, Bool.true_and, Nat.zero_add]

end Word

theorem filterMap_range_getElem? {α : Type} (as : List α) :
    (List.range as.length).filterMap (fun k => as[k]?) = as := by
  induction as with
  | nil => rfl
  | cons a as ih =>
    rw [List.length_cons, List.range_succ_eq_map, List.filterMap_cons_some List.getElem?_cons_zero,
      List.filterMap_map]
    exact congrArg (a :: ·) ih

namespace Image

section Reads

variable {m : Image} {a : Word} {low high : BitVec 16}

theorem fetch?_of_halves (read : m.half? a = some low) (above : m.half? (a + 2) = some high) :
    m.fetch? a = some (high ++ low) := by
  have word : m.word? a = some (high ++ low) := by
    rw [word?, read]
    exact congrArg (Option.bind · _) above
  rw [fetch?, word]
  rfl

theorem fetch?_of_half? (read : m.half? a = some low) (missing : m.half? (a + 2) = none) :
    m.fetch? a = some (low.setWidth 32) := by
  have word : m.word? a = none := by
    rw [word?, read]
    exact congrArg (Option.bind · _) missing
  rw [fetch?, word, read]
  rfl

/-- Whatever follows, the low half of what is fetched stands at the address. -/
theorem exists_fetch?_of_half? (read : m.half? a = some low) :
    ∃ v, m.fetch? a = some v ∧ ∀ k < 16, v.getLsbD k = low.getLsbD k := by
  cases above : m.half? (a + 2) with
  | some high =>
    refine ⟨high ++ low, fetch?_of_halves read above, fun k lt => ?_⟩
    rw [BitVec.getLsbD_append, if_pos lt]
  | none =>
    refine ⟨low.setWidth 32, fetch?_of_half? read above, fun k lt => ?_⟩
    rw [BitVec.getLsbD_setWidth, decide_eq_true (by omega), Bool.true_and]

end Reads

/-- The bytes stand in the image from an address on, below the top of the address space. -/
structure Holds (m : Image) (base : Word) (bytes : List Byte) : Prop where
  fits : base.toNat + bytes.length < 0x100000000
  byte : ∀ k < bytes.length, m.byte? (base + BitVec.ofNat 32 k) = bytes[k]?

theorem holds_segment (name : String) {base : Word} {bytes : List Byte}
    (fits : base.toNat + bytes.length < 0x100000000) :
    Holds [⟨name, base, bytes.toArray⟩] base bytes := by
  refine ⟨fits, fun k inside => ?_⟩
  have sum : (base + BitVec.ofNat 32 k).toNat = base.toNat + k := by
    rw [BitVec.toNat_add, BitVec.toNat_ofNat]
    omega
  have above : base ≤ base + BitVec.ofNat 32 k := by
    rw [BitVec.le_def, sum]
    omega
  have distance : (base + BitVec.ofNat 32 k - base).toNat = k := by
    rw [BitVec.toNat_sub_of_le above, sum]
    omega
  rw [byte?, List.findSome?_cons, Segment.byte?, if_pos above, distance, List.getElem?_toArray]
  cases bytes[k]? <;> rfl

namespace Holds

variable {m : Image} {base : Word} {bytes before part after : List Byte}

theorem half? (holds : m.Holds base bytes) {low high : Byte}
    (split : bytes = before ++ low :: high :: after) :
    m.half? (base + BitVec.ofNat 32 before.length) = some (high ++ low) := by
  have next : base + BitVec.ofNat 32 before.length + 1 = base + BitVec.ofNat 32 (before.length + 1) := by
    rw [BitVec.ofNat_add, ← BitVec.add_assoc]
    rfl
  have first : bytes[before.length]? = some low := by simp [split]
  have second : bytes[before.length + 1]? = some high := by simp [split]
  have long : before.length + 2 ≤ bytes.length := by simp [split]
  rw [Image.half?, next, holds.byte _ (by omega), holds.byte _ (by omega), first, second]
  rfl

/-- A part of the bytes is read one by one. -/
theorem filterMap_byte? (holds : m.Holds base bytes) (split : bytes = before ++ (part ++ after)) :
    (List.range part.length).filterMap (fun k =>
      m.byte? (base + BitVec.ofNat 32 before.length + BitVec.ofNat 32 k)) = part := by
  have read : ∀ k ∈ List.range part.length,
      m.byte? (base + BitVec.ofNat 32 before.length + BitVec.ofNat 32 k) = part[k]? := by
    intro k mem
    have inside := List.mem_range.1 mem
    rw [BitVec.add_assoc, ← BitVec.ofNat_add, holds.byte _ (by simp [split]; omega), split,
      List.getElem?_append_right (Nat.le_add_right _ _), Nat.add_sub_cancel_left,
      List.getElem?_append_left inside]
  rw [List.filterMap_congr read, filterMap_range_getElem?]

end Holds

end Image

namespace Table

variable {t : Table}

/-- A word that the table decodes to an instruction. -/
structure Code (t : Table) where
  word : Word
  instruction : Instruction
  decoded : t.decode word = .instruction instruction

namespace Code

/-- The bytes that the instruction takes up. -/
def bytes (c : t.Code) : List Byte := c.word.lowBytes c.instruction.length

/-- The bytes of a program. -/
def assemble (cs : List t.Code) : List Byte := cs.flatMap bytes

/-- The line has the address, the bytes and the instruction of the code. The word may differ above
the bytes of the code. -/
structure ShownAt (c : t.Code) (a : Word) (l : Line) : Prop where
  address : l.address = a
  bytes : l.bytes = c.bytes
  decoded : ∃ v, l.decoded = .instruction { c.instruction with word := v } ∧
    ∀ k < 8 * c.instruction.length, v.getLsbD k = c.word.getLsbD k

/-- The lines show the codes of a program in their order, the first at the address and each of the
others behind the one before. -/
inductive Listed : Word → List t.Code → List Line → Prop
  | nil (a : Word) : Listed a [] []
  | cons {a : Word} {c : t.Code} {cs : List t.Code} {l : Line} {ls : List Line} :
    c.ShownAt a l → Listed (a + BitVec.ofNat 32 c.instruction.length) cs ls →
      Listed a (c :: cs) (l :: ls)

theorem length_bytes (c : t.Code) : c.bytes.length = c.instruction.length :=
  c.word.length_lowBytes c.instruction.length

theorem address_behind (c : t.Code) (base : Word) (before : List Byte) :
    base + BitVec.ofNat 32 before.length + BitVec.ofNat 32 c.instruction.length =
      base + BitVec.ofNat 32 (before ++ c.bytes).length := by
  rw [List.length_append, length_bytes, BitVec.ofNat_add, BitVec.add_assoc]

variable {m : Image} {base : Word} {bytes before after : List Byte}

/-- Where a code stands its bytes are fetched. -/
theorem exists_fetch? (c : t.Code) (length : c.instruction.length = 2 ∨ c.instruction.length = 4)
    (holds : m.Holds base bytes) (split : bytes = before ++ (c.bytes ++ after)) :
    ∃ v, m.fetch? (base + BitVec.ofNat 32 before.length) = some v ∧
      ∀ k < 8 * c.instruction.length, v.getLsbD k = c.word.getLsbD k := by
  rcases length with two | four
  · rw [Code.bytes, two] at split
    obtain ⟨v, fetched, low⟩ := Image.exists_fetch?_of_half? (holds.half? split)
    refine ⟨v, fetched, fun k lt => ?_⟩
    rw [two] at lt
    exact (low k lt).trans (c.word.getLsbD_append_bytes lt)
  · rw [Code.bytes, four] at split
    have later : bytes = (before ++ c.word.lowBytes 2) ++ c.word.extractLsb' 16 8 ::
        c.word.extractLsb' 24 8 :: after := by
      rw [split, List.append_assoc]
      rfl
    have above := holds.half? later
    rw [List.length_append, BitVec.ofNat_add, ← BitVec.add_assoc] at above
    have fetched := Image.fetch?_of_halves (holds.half? split) above
    rw [Word.append_bytes] at fetched
    exact ⟨c.word, fetched, fun _ _ => rfl⟩

/-- A line of a sweep shows the code that stands at its address. -/
theorem exists_shownAt_sweepFrom (delimiting : t.SelfDelimiting) (holds : m.Holds base bytes)
    (c : t.Code) (split : bytes = before ++ (c.bytes ++ after)) (illegalStep fuel : Nat) :
    ∃ l, c.ShownAt (base + BitVec.ofNat 32 before.length) l ∧
      Listing.sweepFrom t m (base + BitVec.ofNat 32 bytes.length) illegalStep (fuel + 1)
          (base + BitVec.ofNat 32 before.length) =
        l :: Listing.sweepFrom t m (base + BitVec.ofNat 32 bytes.length) illegalStep fuel
          (base + BitVec.ofNat 32 (before ++ c.bytes).length) := by
  obtain ⟨length, decode⟩ := delimiting c.word c.instruction c.decoded
  obtain ⟨v, fetched, agree⟩ := c.exists_fetch? length holds split
  have inside : base + BitVec.ofNat 32 before.length < base + BitVec.ofNat 32 bytes.length := by
    have fits := holds.fits
    have size := congrArg List.length split
    rw [List.length_append, List.length_append, length_bytes] at size
    rw [BitVec.lt_def, BitVec.toNat_add, BitVec.toNat_add, BitVec.toNat_ofNat, BitVec.toNat_ofNat]
    omega
  have shown := holds.filterMap_byte? split
  rw [length_bytes] at shown
  refine ⟨⟨_, c.bytes, _⟩, ⟨rfl, rfl, v, rfl, agree⟩, ?_⟩
  rw [Listing.sweepFrom, if_pos inside, fetched]
  simp only [decode v agree, Listing.advance, shown, c.address_behind]

theorem length_le_assemble (delimiting : t.SelfDelimiting) (cs : List t.Code) :
    cs.length ≤ (assemble cs).length := by
  induction cs with
  | nil => exact Nat.zero_le _
  | cons c cs ih =>
    have length := (delimiting c.word c.instruction c.decoded).1
    rw [assemble, List.flatMap_cons, List.length_append, List.length_cons, length_bytes,
      ← assemble]
    omega

/-- A sweep from where the rest of a program stands lists the rest. -/
theorem listed_sweepFrom (delimiting : t.SelfDelimiting) (holds : m.Holds base bytes)
    (cs : List t.Code) (before : List Byte) (split : bytes = before ++ assemble cs)
    (illegalStep : Nat) {fuel : Nat} (enough : cs.length ≤ fuel) :
    Listed (base + BitVec.ofNat 32 before.length) cs
      (Listing.sweepFrom t m (base + BitVec.ofNat 32 bytes.length) illegalStep fuel
        (base + BitVec.ofNat 32 before.length)) := by
  induction cs generalizing before fuel with
  | nil =>
    have stop : bytes = before := by rw [split, assemble, List.flatMap_nil, List.append_nil]
    have done : Listing.sweepFrom t m (base + BitVec.ofNat 32 bytes.length) illegalStep fuel
        (base + BitVec.ofNat 32 before.length) = [] := by
      cases fuel with
      | zero => rfl
      | succ fuel => rw [Listing.sweepFrom, stop, if_neg (BitVec.lt_irrefl _)]
    rw [done]
    exact .nil _
  | cons c cs ih =>
    cases fuel with
    | zero => exact absurd enough (Nat.not_succ_le_zero _)
    | succ fuel =>
      obtain ⟨l, shown, step⟩ := c.exists_shownAt_sweepFrom delimiting holds split illegalStep fuel
      have rest : bytes = before ++ c.bytes ++ assemble cs := by
        rw [split, List.append_assoc]
        rfl
      rw [step]
      refine .cons shown ?_
      rw [address_behind]
      exact ih (before ++ c.bytes) rest (Nat.le_of_succ_le_succ enough)

/-- Sweeping an assembled program gives the program back. -/
theorem listed_sweep (delimiting : t.SelfDelimiting) (cs : List t.Code)
    (holds : m.Holds base (assemble cs)) (illegalStep : Nat) :
    Listed base cs (Listing.sweep t m base (base + BitVec.ofNat 32 (assemble cs).length)
      illegalStep) := by
  have enough : cs.length ≤ 0x100000000 := by
    have short := length_le_assemble delimiting cs
    have fits := holds.fits
    omega
  have listed := listed_sweepFrom delimiting holds cs [] rfl illegalStep enough
  rwa [List.length_nil, BitVec.add_zero] at listed

end Code

end Table

end Opcodes
