import Opcodes.Proofs.Listing

/-!
# The bytes that a sweep covers

As long as the range ends below the last four addresses no turn passes the top, so addresses may be
counted as numbers. Then the lines of a sweep are tiles: each starts where the one before ends. A
line has the bytes of its tile that can be read, and the tiles together are the span from the first
address to the one where the sweep stops, so the bytes of all lines are those of the span.
-/
set_option autoImplicit false

namespace Opcodes

/-- The bytes that can be read from the first address up to the second, in order. -/
def Image.readable (m : Image) (a b : Nat) : List Byte :=
  (List.Ico a b).filterMap fun n => m.byte? (BitVec.ofNat 32 n)

namespace Image

variable {m : Image} {a b c : Nat}

theorem readable_self (m : Image) (a : Nat) : m.readable a a = [] := by
  rw [readable, List.Ico.self_empty, List.filterMap_nil]

theorem readable_append (m : Image) (ab : a ≤ b) (bc : b ≤ c) :
    m.readable a b ++ m.readable b c = m.readable a c := by
  rw [readable, readable, ← List.filterMap_append, List.Ico.append_consecutive ab bc, readable]

/-- Bytes read one by one behind an address. -/
theorem filterMap_byte?_eq_readable (m : Image) (pc : Word) (n : Nat) :
    (List.range n).filterMap (fun k => m.byte? (pc + BitVec.ofNat 32 k)) =
      m.readable pc.toNat (pc.toNat + n) := by
  rw [readable, List.Ico, Nat.add_sub_cancel_left, List.range'_eq_map_range, List.filterMap_map]
  refine List.filterMap_congr fun k _ => ?_
  rw [Function.comp_apply, BitVec.ofNat_add, BitVec.ofNat_toNat, BitVec.setWidth_eq]

end Image

namespace Listing

/-- The lines cover a span of addresses without a gap: the first line starts at the first address,
every other one where the line before ends, and the last one ends at the second address. -/
inductive Tiles (illegalStep : Nat) : Nat → List Line → Nat → Prop where
  | nil (a : Nat) : Tiles illegalStep a [] a
  | cons {l : Line} {ls : List Line} {b : Nat}
      (rest : Tiles illegalStep (l.address.toNat + advance illegalStep l.decoded) ls b) :
      Tiles illegalStep l.address.toNat (l :: ls) b

variable {t : Table} {m : Image} {stop pc next : Word} {illegalStep a b : Nat} {l : Line}
  {ls : List Line}

theorem Tiles.le (tiles : Tiles illegalStep a ls b) : a ≤ b := by
  induction tiles with
  | nil => exact Nat.le_refl _
  | cons _ ih => exact (Nat.le_add_right _ _).trans ih

/-- A span is as long as its tiles together. -/
theorem Tiles.add_sum (tiles : Tiles illegalStep a ls b) :
    a + (ls.map fun l => advance illegalStep l.decoded).sum = b := by
  induction tiles with
  | nil => rfl
  | cons _ ih => rw [List.map_cons, List.sum_cons, ← Nat.add_assoc, ih]

/-- The step: below the last four addresses a line ends at the address behind it and has the bytes
in between. -/
theorem tile_of_line? (strides : Strides t illegalStep) (high : stop ≤ 0xFFFFFFFC)
    (turn : line? t m stop illegalStep pc = some l) :
    (l.behind illegalStep).toNat = l.address.toNat + advance illegalStep l.decoded ∧
      l.bytes = m.readable l.address.toNat (l.address.toNat + advance illegalStep l.decoded) := by
  obtain ⟨below, w, -, rfl⟩ := line?_eq_some_iff.1 turn
  refine ⟨?_, m.filterMap_byte?_eq_readable pc _⟩
  rw [BitVec.lt_def] at below
  have high : stop.toNat ≤ 0xFFFFFFFC := BitVec.le_def.1 high
  rw [Line.behind, BitVec.toNat_add, BitVec.toNat_ofNat, Nat.add_mod_mod, Nat.mod_eq_of_lt]
  rcases strides w with two | four <;> dsimp only <;> omega

/-- The run: the lines tile the span up to where it stands, and have its bytes. -/
theorem Reaches.tiles (strides : Strides t illegalStep) (high : stop ≤ 0xFFFFFFFC)
    (reaches : Reaches t m stop illegalStep pc ls next) :
    Tiles illegalStep pc.toNat ls next.toNat ∧
      ls.flatMap Line.bytes = m.readable pc.toNat next.toNat := by
  induction reaches with
  | refl pc => exact ⟨.nil _, (m.readable_self _).symm⟩
  | @step pc next l ls turn _ ih =>
    obtain ⟨tiles, bytes⟩ := ih
    obtain ⟨behind, tile⟩ := tile_of_line? strides high turn
    obtain rfl := address_of_line? turn
    rw [behind] at tiles bytes
    refine ⟨.cons tiles, ?_⟩
    rw [List.flatMap_cons, tile, bytes, m.readable_append (Nat.le_add_right _ _) tiles.le]

/-- Below the last four addresses every sweep comes to an end. -/
theorem exists_halts (strides : Strides t illegalStep) (m : Image) (high : stop ≤ 0xFFFFFFFC)
    (pc : Word) : ∃ ls, Halts t m stop illegalStep pc ls := by
  rcases exists_halts_or_wraps m stop strides pc with
    ⟨ls, halts, -⟩ | ⟨ls, l, next, -, range, ⟨top, mem, above⟩, -⟩
  · exact ⟨ls, halts⟩
  · have below := Std.lt_of_lt_of_le (range.inside top mem).2 high
    exact absurd below (BitVec.not_lt.2 above)

theorem line?_eq_none_iff : line? t m stop illegalStep pc = none ↔
    stop ≤ pc ∨ m.fetch? pc = none := by
  rw [line?, ← BitVec.not_lt]
  split
  · rename_i below
    rw [Option.map_eq_none_iff]
    simp only [below, not_true_eq_false, false_or]
  · rename_i out
    simp only [out, not_false_eq_true, true_or]

/-- A sweep whose range ends below the last four addresses tiles the span from its first address to
the one where it stops. Each line shows what is fetched at its address, inside the range; the sweep
stops where the range ends or nothing can be fetched; and the bytes of the lines, one line after the
other, are the bytes of the span that can be read, each of them once. -/
theorem sweep_tiles {registry : Registry} {rules : List Rule}
    (ok : Table.ofRules registry rules = .ok t) (step : illegalStep = 2 ∨ illegalStep = 4)
    (m : Image) (start : Word) (high : stop ≤ 0xFFFFFFFC) :
    ∃ r : Word, Tiles illegalStep start.toNat (sweep t m start stop illegalStep) r.toNat ∧
      (∀ l ∈ sweep t m start stop illegalStep, l.address < stop ∧
        ∃ w, m.fetch? l.address = some w ∧ l.decoded = t.decode w) ∧
      (stop ≤ r ∨ m.fetch? r = none) ∧
      (sweep t m start stop illegalStep).flatMap Line.bytes = m.readable start.toNat r.toNat := by
  have strides := strides_of_built (Table.built_of_ofRules ok) step
  obtain ⟨ls, halts⟩ := exists_halts strides m high start
  have lines := halts.sweep_eq
  obtain ⟨r, reaches, done⟩ := halts
  obtain ⟨tiles, bytes⟩ := reaches.tiles strides high
  refine ⟨r, lines ▸ tiles, fun l mem => ?_, line?_eq_none_iff.1 done, lines ▸ bytes⟩
  obtain ⟨below, w, fetched, shape⟩ := line?_eq_some_iff.1 (line?_of_mem_sweep mem)
  exact ⟨below, w, fetched, congrArg Line.decoded shape⟩

/-- An instruction and three bytes more, the first of which another segment covers. -/
def patchedImage : Image :=
  [⟨"patch", 4, #[0x37]⟩, ⟨"code", 0, #[0x13, 0, 0, 0, 0x99, 2, 1]⟩]

/-- The second line takes up four bytes and shows the three that there are. -/
theorem sweep_patchedImage : ∃ t r, Table.ofRules .riscv [⟨"nop", [], [⟨⟨31, 0⟩, 0x13⟩], 1⟩] = .ok t ∧
    (sweep t patchedImage 0 7 4).map Line.address = [0, 4] ∧
    Tiles 4 0 (sweep t patchedImage 0 7 4) r ∧ r = 8 ∧
    (sweep t patchedImage 0 7 4).flatMap Line.bytes = patchedImage.readable 0 r ∧
    patchedImage.readable 0 8 = [0x13, 0, 0, 0, 0x37, 2, 1] := by
  let t : Table := ⟨[⟨0xFFFFFFFF, [⟨0x13, "nop", [], [], 4, 1⟩]⟩]⟩
  have ok : Table.ofRules .riscv [⟨"nop", [], [⟨⟨31, 0⟩, 0x13⟩], 1⟩] = .ok t := by decide +kernel
  have halts : Halts t patchedImage 7 4 0 [
      ⟨0, [0x13, 0, 0, 0], .instruction ⟨0x13, "nop", [], 4⟩⟩, ⟨4, [0x37, 2, 1], .illegal 0x237⟩] :=
    ⟨8, .step (by decide +kernel) (.step (by decide +kernel) (.refl _)), by decide +kernel⟩
  have high : (7 : Word) ≤ 0xFFFFFFFC := by decide
  obtain ⟨r, tiles, -, -, bytes⟩ := sweep_tiles ok (.inr rfl) patchedImage 0 high
  have length := tiles.add_sum
  rw [halts.sweep_eq] at length
  refine ⟨t, r.toNat, ok, ?_, tiles, length.symm, bytes, by decide +kernel⟩
  rw [halts.sweep_eq]
  rfl

end Listing

end Opcodes
