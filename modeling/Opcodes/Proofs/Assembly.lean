import Opcodes.Proofs.Fragments
import Opcodes.Proofs.Scatter

/-!
# Assembling an instruction

The values of operands fix the slices of their fields just as constraints fix their ranges, so an
instruction is assembled by laying the patterns of both over each other. Where no bit is fixed twice
the word has what each of them says: it matches the rule and holds the values. A table of a
selection then decodes it to the rule's operator and these values, unless it matches a rule that
outranks this one.
-/
set_option autoImplicit false

namespace Opcodes

namespace FieldLayout

variable {f : FieldLayout} {x : Int}

/-- The bits of the word that a value of the field fixes. -/
def fixed (f : FieldLayout) (x : Int) : List FixedBits :=
  f.slices.map fun s => ⟨s.source, s.destination.read (f.reading.code x)⟩

/-- The value of the field at its place in the word, and zeros elsewhere. -/
def placed (f : FieldLayout) (x : Int) : Word := Word.union ((f.fixed x).map FixedBits.pattern)

/-- A field without a fault fixes bits of the word, each slice to a value of its width. -/
theorem fits_fixed (sound : f.fault? = none) : ∀ c ∈ f.fixed x, c.Fits := by
  intro c listed
  obtain ⟨s, mem, rfl⟩ := List.mem_map.1 listed
  have inWord := inWord_of_fault? sound mem
  refine ⟨inWord, ?_⟩
  rw [BitRange.toNat_read, Slice.width_destination inWord.1]
  exact Nat.mod_lt _ (Nat.two_pow_pos _)

end FieldLayout

namespace Rule

variable {rules : List Rule} {r s : Rule} {layout : Layout} {length : Nat}
  {operands : List (FieldLayout × Int)} {c : FixedBits} {f : FieldLayout} {x : Int}

/-- What the constraints of the rule and the values of its operands fix. -/
def filled (r : Rule) (operands : List (FieldLayout × Int)) : List FixedBits :=
  r.constraints ++ operands.flatMap fun o => o.1.fixed o.2

/-- The word with the bits that the constraints and the operands fix, and zeros elsewhere. -/
def assemble (r : Rule) (operands : List (FieldLayout × Int)) : Word :=
  Word.union ((r.filled operands).map FixedBits.pattern)

theorem assemble_nil (r : Rule) : r.assemble [] = r.pattern := by
  rw [assemble, filled, List.flatMap_nil, List.append_nil, pattern]

/-- An operand is laid over what is assembled without it. -/
theorem assemble_cons (r : Rule) (o : FieldLayout × Int) (operands : List (FieldLayout × Int)) :
    r.assemble (o :: operands) = o.1.placed o.2 ||| r.assemble operands := by
  simp only [assemble, filled, List.flatMap_cons, List.map_append, Word.union_append,
    FieldLayout.placed]
  exact Word.or_left_comm _ _ _

/-- The rule is one of the list, its operands have the layout, its encodings have the length, and
the constraints and the slices of the layout share no bit of the word. -/
structure Assembles (rules : List Rule) (r : Rule) (layout : Layout) (length : Nat) : Prop where
  mem : r ∈ rules
  known : Registry.riscv.find? r.operands = some layout
  sound : ∀ f ∈ layout, f.fault? = none
  fits : ∀ c ∈ r.constraints, c.Fits
  apart : (r.constraints.map FixedBits.range ++
    layout.flatMap fun f => f.slices.map Slice.source).Pairwise BitRange.Separate
  length_eq : Entry.encodedLength (r.mask ||| layout.bits) = length

instance (rules : List Rule) (r : Rule) (layout : Layout) (length : Nat) :
    Decidable (Assembles rules r layout length) :=
  decidable_of_iff (r ∈ rules ∧ Registry.riscv.find? r.operands = some layout ∧
    (∀ f ∈ layout, f.fault? = none) ∧ (∀ c ∈ r.constraints, c.Fits) ∧
    (r.constraints.map FixedBits.range ++
      layout.flatMap fun f => f.slices.map Slice.source).Pairwise BitRange.Separate ∧
    Entry.encodedLength (r.mask ||| layout.bits) = length)
    ⟨fun ⟨mem, known, sound, fits, apart, eq⟩ => ⟨mem, known, sound, fits, apart, eq⟩,
      fun h => ⟨h.mem, h.known, h.sound, h.fits, h.apart, h.length_eq⟩⟩

/-- Every rule that outranks this one is disjoint from it. -/
def Unrefined (rules : List Rule) (r : Rule) : Prop :=
  ∀ s ∈ rules, s.Disjoint r ∨ ¬s.mask.Outranks r.mask

instance (rules : List Rule) (r : Rule) : Decidable (Unrefined rules r) :=
  inferInstanceAs (Decidable (∀ s ∈ rules, _ ∨ _))

/-- A word that matches a rule has the value of each of its constraints. -/
theorem Matches.read_eq_value {w : Word} (hit : r.Matches w) (fits : ∀ c ∈ r.constraints, c.Fits)
    (apart : r.constraints.Pairwise fun a b => a.range.Separate b.range)
    (mem : c ∈ r.constraints) : c.range.read w = c.value := by
  refine (and_mask_eq_pattern_iff fits apart).1 ?_ c mem
  rwa [← Word.and_eq_self_iff.2 (covers_pattern fits)]

namespace Assembles

variable (assembles : Assembles rules r (operands.map Prod.fst) length)

include assembles

theorem fits_filled : ∀ c ∈ r.filled operands, c.Fits := by
  intro c mem
  rcases List.mem_append.1 mem with constraint | mem
  · exact assembles.fits c constraint
  · obtain ⟨o, listed, fixed⟩ := List.mem_flatMap.1 mem
    exact FieldLayout.fits_fixed (assembles.sound o.1 (List.mem_map_of_mem listed)) c fixed

theorem apart_filled : (r.filled operands).Pairwise fun a b => a.range.Separate b.range := by
  have ranges : (r.filled operands).map FixedBits.range = r.constraints.map FixedBits.range ++
      (operands.map Prod.fst).flatMap fun f => f.slices.map Slice.source := by
    rw [filled, List.map_append, List.map_flatMap, List.flatMap_map]
    simp only [FieldLayout.fixed, List.map_map]
    rfl
  have apart := assembles.apart
  rwa [← ranges, List.pairwise_map] at apart

/-- The assembled word has all values that were filled in. -/
theorem read_assemble (mem : c ∈ r.filled operands) :
    c.range.read (r.assemble operands) = c.value :=
  FixedBits.read_union_pattern assembles.fits_filled assembles.apart_filled mem

/-- The assembled word is one of the rule's encodings. -/
theorem matches_assemble : r.Matches (r.assemble operands) := by
  have apart : r.constraints.Pairwise fun a b => a.range.Separate b.range :=
    (List.pairwise_append.1 assembles.apart_filled).1
  rw [Matches, encoding, Word.and_eq_self_iff.2 (covers_pattern assembles.fits),
    and_mask_eq_pattern_iff assembles.fits apart]
  exact fun c mem => assembles.read_assemble (List.mem_append_left _ mem)

/-- The assembled word has the values of the operands. -/
theorem extract_assemble (mem : (f, x) ∈ operands) (represents : f.Represents x) :
    f.extract (r.assemble operands) = x := by
  have sound := assembles.sound f (List.mem_map_of_mem mem)
  refine FieldLayout.extract_of_holds sound represents fun s slice => ?_
  refine assembles.read_assemble (c := ⟨s.source, s.destination.read (f.reading.code x)⟩) ?_
  exact List.mem_append_right _ (List.mem_flatMap.2 ⟨(f, x), mem, List.mem_map_of_mem slice⟩)

/-- What is assembled is read back, where no rule that outranks this one matches too. -/
theorem yields_assemble (represents : ∀ o ∈ operands, o.1.Represents o.2)
    (top : ∀ s ∈ rules, s.Matches (r.assemble operands) → ¬s.mask.Outranks r.mask) :
    Yields rules (r.assemble operands)
      ⟨r.assemble operands, r.operator, operands.map fun o => ⟨o.1.field, o.2⟩, length⟩ := by
  refine ⟨r, assembles.mem, assembles.matches_assemble, top, _, assembles.known, ?_⟩
  have values : (operands.map Prod.fst).map (fun f => Operand.mk f.field
      (f.extract (r.assemble operands))) = operands.map fun o => ⟨o.1.field, o.2⟩ := by
    rw [List.map_map]
    refine List.map_congr_left fun o mem => ?_
    rw [Function.comp_apply, assembles.extract_assemble mem (represents o mem)]
  rw [Entry.instruction, Entry.ofRule, assembles.length_eq]
  simp only [values]

theorem top_of_unrefined (unrefined : Unrefined rules r) :
    ∀ s ∈ rules, s.Matches (r.assemble operands) → ¬s.mask.Outranks r.mask := fun s mem hit =>
  (unrefined s mem).resolve_left fun disjoint => disjoint _ ⟨hit, assembles.matches_assemble⟩

end Assembles

end Rule

namespace Extensions

variable {a : Extensions} {t : Table} {r : Rule} {length : Nat}
  {operands : List (FieldLayout × Int)}

/-- A table of a selection decodes what is assembled by a rule of the selection. -/
theorem decode_assemble (ok : Table.ofText .riscv a.source = .ok t)
    (assembles : Rule.Assembles (a.rules.map Rule.unnumbered) r (operands.map Prod.fst) length)
    (represents : ∀ o ∈ operands, o.1.Represents o.2)
    (top : ∀ s ∈ a.rules.map Rule.unnumbered, s.Matches (r.assemble operands) →
      ¬s.mask.Outranks r.mask) :
    t.decode (r.assemble operands) = .instruction
      ⟨r.assemble operands, r.operator, operands.map fun o => ⟨o.1.field, o.2⟩, length⟩ := by
  rw [decode_eq_instruction_iff ok, ← Rule.yields_map_unnumbered_iff]
  exact assembles.yields_assemble represents top

end Extensions

end Opcodes
