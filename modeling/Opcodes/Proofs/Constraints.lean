import Opcodes.Proofs.Parsing

/-!
# What constraints say of a word

Constraints that fit their ranges and lie apart are independent of each other: their patterns laid
over each other hold the value of each (`read_union_pattern`), and their masks laid over each other
have as many bits as the ranges together (`weight_union_mask`). So a rule that a line states matches
just the words that have the value of each constraint in its range.
-/
set_option autoImplicit false

namespace Opcodes

namespace Word

variable {v w : Word} {n : Nat}

/-- The set positions below `n`. -/
def positions (w : Word) (n : Nat) : Finset Nat := {i ∈ Finset.range n | w.getLsbD i = true}

theorem mem_positions_iff {i : Nat} : i ∈ w.positions n ↔ i < n ∧ w.getLsbD i = true := by
  rw [positions, Finset.mem_filter, Finset.mem_range]

theorem positions_succ (w : Word) (n : Nat) : w.positions (n + 1) =
    if w.getLsbD n = true then insert n (w.positions n) else w.positions n := by
  rw [positions, Finset.range_add_one, Finset.filter_insert]
  rfl

theorem cpopNatRec_eq_card (w : Word) (n : Nat) : w.cpopNatRec n 0 = (w.positions n).card := by
  induction n with
  | zero => rfl
  | succ n ih =>
    have fresh : n ∉ w.positions n := fun mem => Nat.lt_irrefl n (mem_positions_iff.1 mem).1
    rw [BitVec.cpopNatRec_succ, BitVec.cpopNatRec_eq, ih, positions_succ]
    cases bit : w.getLsbD n with
    | false => rfl
    | true => rw [if_pos rfl, Finset.card_insert_of_notMem fresh]; rfl

/-- The weight counts the set positions. -/
theorem weight_eq_card (w : Word) : weight w = (w.positions 32).card := by
  rw [weight, BitVec.toNat_cpop, cpopNatRec_eq_card]

/-- Words without a common bit have as many bits together as each for itself. -/
theorem weight_or (disjoint : v &&& w = 0) : weight (v ||| w) = weight v + weight w := by
  have both : (v ||| w).positions 32 = v.positions 32 ∪ w.positions 32 := by
    ext i
    simp only [Finset.mem_union, mem_positions_iff, BitVec.getLsbD_or, Bool.or_eq_true]
    tauto
  have apart : Disjoint (v.positions 32) (w.positions 32) := by
    rw [Finset.disjoint_left]
    intro i hv hw
    have bit := congrArg (BitVec.getLsbD · i) disjoint
    simp [(mem_positions_iff.1 hv).2, (mem_positions_iff.1 hw).2] at bit
  rw [weight_eq_card, weight_eq_card, weight_eq_card, both, Finset.card_union_of_disjoint apart]

end Word

namespace BitRange

variable {r : BitRange} {v : Word}

/-- A range has as many bits as it is wide. -/
theorem weight_mask (inWord : r.InWord) : Word.weight r.mask = r.width := by
  obtain ⟨order, bound⟩ := inWord
  have positions : r.mask.positions 32 = Finset.Icc r.lo r.hi := by
    ext i
    simp only [Word.mem_positions_iff, getLsbD_mask, Finset.mem_Icc, Bool.and_eq_true,
      decide_eq_true_eq]
    omega
  rw [Word.weight_eq_card, positions, Nat.card_Icc, width]

/-- A number of no more bits than the range is a value that words can have in it. -/
theorem fits_of_lt (narrow : v.toNat < 2 ^ r.width) : r.Fits v := by
  intro i bit
  by_contra beyond
  have small : v.toNat < 2 ^ i :=
    narrow.trans_le (Nat.pow_le_pow_right (by decide) (by rw [width]; omega))
  rw [BitVec.getLsbD, Nat.testBit_lt_two_pow small] at bit
  cases bit

end BitRange

namespace FixedBits

variable {c : FixedBits} {cs : List FixedBits} {w : Word} {i : Nat}

/-- A value that fits has no bit outside its range. -/
theorem Fits.bounds (fits : c.Fits) (bit : c.pattern.getLsbD i = true) :
    c.range.lo ≤ i ∧ i ≤ c.range.hi :=
  BitRange.bounds_of_getLsbD_place (BitRange.fits_of_lt fits.2) bit

theorem Fits.covers (fits : c.Fits) : Word.covers c.mask c.pattern = true := by
  refine Word.covers_iff.2 fun i bit => ?_
  have inside := fits.bounds bit
  have bound := fits.1.2
  rw [mask, BitRange.getLsbD_mask]
  simp only [Bool.and_eq_true, decide_eq_true_eq]
  omega

/-- A word has the constraint's value just when it has the bits of its pattern in its range. -/
theorem Fits.read_eq_value_iff (fits : c.Fits) : c.range.read w = c.value ↔
    ∀ i, c.range.lo ≤ i → i ≤ c.range.hi → w.getLsbD i = c.pattern.getLsbD i := by
  have back : c.range.read c.pattern = c.value :=
    BitRange.read_place fits.1 (BitRange.fits_of_lt fits.2)
  rw [← BitRange.read_eq_read_iff, back]

section Together

variable (fits : ∀ c ∈ cs, c.Fits) (apart : cs.Pairwise fun a b => a.range.Separate b.range)

include fits apart

/-- In the range of a constraint no other constraint shows. -/
theorem getLsbD_union_pattern (mem : c ∈ cs) (inside : c.range.lo ≤ i ∧ i ≤ c.range.hi) :
    (Word.union (cs.map pattern)).getLsbD i = c.pattern.getLsbD i := by
  rw [Word.getLsbD_union, List.any_map, Bool.eq_iff_iff, List.any_eq_true]
  constructor
  · rintro ⟨d, mem', bit⟩
    by_cases eq : d = c
    · rwa [← eq]
    · have symm : Std.Symm fun a b : FixedBits => a.range.Separate b.range := ⟨fun _ _ => Or.symm⟩
      have separate := apart.forall mem' mem eq
      have other := (fits d mem').bounds bit
      unfold BitRange.Separate at separate
      omega
  · intro bit
    exact ⟨c, mem, bit⟩

/-- The patterns laid over each other have the value of each constraint in its range. -/
theorem read_union_pattern (mem : c ∈ cs) :
    c.range.read (Word.union (cs.map pattern)) = c.value :=
  (fits c mem).read_eq_value_iff.2 fun _ lo hi => getLsbD_union_pattern fits apart mem ⟨lo, hi⟩

/-- The masks laid over each other have as many bits as the ranges together. -/
theorem weight_union_mask :
    Word.weight (Word.union (cs.map mask)) = (cs.map (·.range.width)).sum := by
  induction cs with
  | nil => decide
  | cons c cs ih =>
    obtain ⟨head, fits⟩ := List.forall_mem_cons.1 fits
    obtain ⟨separate, apart⟩ := List.pairwise_cons.1 apart
    have disjoint : Word.union (cs.map mask) &&& c.mask = 0 := by
      rw [Word.union_and_eq_zero_iff, List.forall_mem_map]
      intro d mem
      exact (BitRange.mask_and_mask_eq_zero_iff (fits d mem).1 head.1).2 (separate d mem).symm
    rw [BitVec.and_comm] at disjoint
    have split : Word.union ((c :: cs).map mask) = c.mask ||| Word.union (cs.map mask) := rfl
    rw [split, Word.weight_or disjoint, ih fits apart, mask, BitRange.weight_mask head.1,
      List.map_cons, List.sum_cons]

end Together

end FixedBits

namespace Rule

variable {r : Rule} {w : Word} {i : Nat} {text : String} {rules : List Rule}

theorem getLsbD_mask_iff (fits : ∀ c ∈ r.constraints, c.Fits) : r.mask.getLsbD i = true ↔
    ∃ c ∈ r.constraints, c.range.lo ≤ i ∧ i ≤ c.range.hi := by
  rw [mask, Word.getLsbD_union, List.any_map, List.any_eq_true]
  refine exists_congr fun c => and_congr_right fun mem => ?_
  have bound := (fits c mem).1.2
  rw [Function.comp_apply, FixedBits.mask, BitRange.getLsbD_mask]
  simp only [Bool.and_eq_true, decide_eq_true_eq]
  omega

/-- Constraints that fit fix no bit outside the mask. -/
theorem covers_pattern (fits : ∀ c ∈ r.constraints, c.Fits) :
    Word.covers r.mask r.pattern = true := by
  refine Word.covers_iff.2 fun i bit => (getLsbD_mask_iff fits).2 ?_
  rw [pattern, Word.getLsbD_union, List.any_map, List.any_eq_true] at bit
  obtain ⟨c, mem, bit⟩ := bit
  exact ⟨c, mem, (fits c mem).bounds bit⟩

/-- A rule that a line states fixes no bit outside its mask, so its pattern is its encoding. -/
theorem WellFormed.encoding_eq (wellFormed : r.WellFormed) : r.encoding = r.pattern :=
  Word.and_eq_self_iff.2 (covers_pattern wellFormed.sound.fits)

/-- A word agrees with the pattern on the mask just when it has the value of each constraint. -/
theorem and_mask_eq_pattern_iff (fits : ∀ c ∈ r.constraints, c.Fits)
    (apart : r.constraints.Pairwise fun a b => a.range.Separate b.range) :
    w &&& r.mask = r.pattern ↔ ∀ c ∈ r.constraints, c.range.read w = c.value := by
  rw [← Word.and_eq_self_iff.2 (covers_pattern fits), Word.and_eq_and_iff]
  constructor
  · intro agree c mem
    refine (fits c mem).read_eq_value_iff.2 fun i lo hi => ?_
    rw [← FixedBits.getLsbD_union_pattern fits apart mem ⟨lo, hi⟩]
    exact agree i ((getLsbD_mask_iff fits).2 ⟨c, mem, lo, hi⟩)
  · intro values i fixed
    obtain ⟨c, mem, lo, hi⟩ := (getLsbD_mask_iff fits).1 fixed
    rw [(fits c mem).read_eq_value_iff.1 (values c mem) i lo hi]
    exact (FixedBits.getLsbD_union_pattern fits apart mem ⟨lo, hi⟩).symm

/-- A rule fixes as many bits as its constraints are wide together. -/
theorem specificity_eq_sum (fits : ∀ c ∈ r.constraints, c.Fits)
    (apart : r.constraints.Pairwise fun a b => a.range.Separate b.range) :
    r.specificity = (r.constraints.map (·.range.width)).sum :=
  FixedBits.weight_union_mask fits apart

/-- A rule that a line states fixes a bit. -/
theorem WellFormed.specificity_pos (wellFormed : r.WellFormed) : 1 ≤ r.specificity := by
  obtain ⟨-, fits, apart⟩ := wellFormed.sound
  obtain ⟨c, mem⟩ := List.exists_mem_of_ne_nil _ wellFormed.constrained
  have wide : 1 ≤ c.range.width := by
    have order := (fits c mem).1.1
    unfold BitRange.width
    omega
  rw [specificity_eq_sum fits apart]
  exact wide.trans (List.single_le_sum (fun _ _ => Nat.zero_le _) _ (List.mem_map_of_mem mem))

/-- The rules that are read are well-formed. -/
theorem wellFormed_of_parseTable (ok : parseTable text = .ok rules) : ∀ r ∈ rules, r.WellFormed :=
  (parseLines_eq_ok_iff.1 ok).1

/-- The rules that are read mean what they say. The operator is a token that starts no comment, no
operand is declared twice, there is a constraint, and the constraints have values of their ranges'
widths and share no position. So the pattern lies within the mask, the mask has as many bits as the
ranges together, and the words that agree with the pattern on the mask are those that have the value
of each constraint in its range. -/
theorem means_of_parseTable (ok : parseTable text = .ok rules) : ∀ r ∈ rules,
    (r.operator ≠ "" ∧ (∀ c ∈ r.operator.toList, Text.isBlank c = false) ∧
      r.operator.toList.head? ≠ some '#') ∧
    r.operands.Nodup ∧ r.constraints ≠ [] ∧
    (∀ c ∈ r.constraints, c.range.lo ≤ c.range.hi ∧ c.range.hi ≤ 31 ∧
      c.value.toNat < 2 ^ (c.range.hi - c.range.lo + 1)) ∧
    (r.constraints.Pairwise fun a b => ∀ i, ¬((a.range.lo ≤ i ∧ i ≤ a.range.hi) ∧
      b.range.lo ≤ i ∧ i ≤ b.range.hi)) ∧
    (∀ i, r.pattern.getLsbD i = true → r.mask.getLsbD i = true) ∧
    r.specificity = (r.constraints.map fun c => c.range.hi - c.range.lo + 1).sum ∧
    1 ≤ r.specificity ∧
    ∀ w, w &&& r.mask = r.pattern ↔ ∀ c ∈ r.constraints, c.range.read w = c.value := by
  intro r mem
  have wellFormed := wellFormed_of_parseTable ok r mem
  obtain ⟨nodup, fits, apart⟩ := wellFormed.sound
  have widths : ∀ c ∈ r.constraints, c.range.width = c.range.hi - c.range.lo + 1 := by
    intro c mem
    have order := (fits c mem).1.1
    unfold BitRange.width
    omega
  refine ⟨⟨?_, wellFormed.operator.2, wellFormed.uncommented⟩, nodup, wellFormed.constrained,
    fun c mem => ?_, ?_, Word.covers_iff.1 (covers_pattern fits), ?_, wellFormed.specificity_pos,
    fun w => and_mask_eq_pattern_iff fits apart⟩
  · intro empty
    exact wellFormed.operator.1 (String.toList_eq_nil_iff.2 empty)
  · obtain ⟨⟨order, bound⟩, narrow⟩ := fits c mem
    rw [widths c mem] at narrow
    exact ⟨order, Nat.le_of_lt_succ bound, narrow⟩
  · refine apart.imp fun separate i both => ?_
    unfold BitRange.Separate at separate
    omega
  · rw [specificity_eq_sum fits apart, List.map_congr_left widths]

/-- A rule that fixes the whole word, and one with the uppermost bit and the lowest. -/
def wideText : String := "word 31..0=0x8000_0001\nends 31=1 rd 0..0=1"

theorem means_of_parseTable_wideText : ∃ word ends, parseTable wideText = .ok [word, ends] ∧
    word.specificity = 32 ∧ ends.specificity = 2 ∧
    (∀ w, w &&& word.mask = word.pattern ↔ ∀ c ∈ word.constraints, c.range.read w = c.value) ∧
    0xC0000003 &&& ends.mask = ends.pattern ∧
    ∀ c ∈ ends.constraints, c.range.read 0xC0000003 = 1 := by
  have ok : parseTable wideText = .ok [⟨"word", [], [⟨⟨31, 0⟩, 0x80000001⟩], 1⟩,
      ⟨"ends", [.rd], [⟨⟨31, 31⟩, 1⟩, ⟨⟨0, 0⟩, 1⟩], 2⟩] := by decide +kernel
  obtain ⟨-, -, -, -, -, -, word, -, word_iff⟩ := means_of_parseTable ok _ List.mem_cons_self
  obtain ⟨-, -, -, -, -, -, ends, -, ends_iff⟩ :=
    means_of_parseTable ok _ (List.mem_cons_of_mem _ List.mem_cons_self)
  refine ⟨_, _, ok, word, ends, word_iff, (ends_iff _).2 ?_, ?_⟩
  · decide
  · decide

end Rule

end Opcodes
