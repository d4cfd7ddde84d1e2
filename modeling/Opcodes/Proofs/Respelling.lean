import Opcodes.Proofs.Constraints
import Opcodes.Proofs.Printing
import Opcodes.Proofs.Restatement

/-!
# Fixed bits that are cut otherwise

A line may state its constraints in any order, cut a range in two and join ranges that meet.
`FixedBits.Recut` is one such step. A step keeps the constraints apart and within their ranges, and
it keeps the bits that they fix; so every sequence of steps leads to a rule that a line can state and
that no build tells from the first.
-/
set_option autoImplicit false

namespace Opcodes

namespace Word

theorem union_perm {vs ws : List Word} (perm : vs.Perm ws) : union vs = union ws := by
  apply BitVec.eq_of_getLsbD_eq
  intro i _
  rw [getLsbD_union, getLsbD_union, perm.any_eq]

theorem getLsbD_ofNat_mod (w : Word) (n i : Nat) :
    (BitVec.ofNat 32 (w.toNat % 2 ^ n)).getLsbD i = (decide (i < n) && w.getLsbD i) := by
  rw [BitVec.getLsbD_ofNat, Nat.testBit_mod_two_pow, BitVec.testBit_toNat]
  cases bit : w.getLsbD i with
  | false => simp
  | true => simp [BitVec.lt_of_getLsbD bit]

/-- A word is put together again from its bits from a position on and those below. -/
theorem shiftLeft_ushiftRight_or (w : Word) (n : Nat) :
    w >>> n <<< n ||| BitVec.ofNat 32 (w.toNat % 2 ^ n) = w := by
  apply BitVec.eq_of_getLsbD_eq
  intro i small
  rw [BitVec.getLsbD_or, BitVec.getLsbD_shiftLeft, BitVec.getLsbD_ushiftRight, getLsbD_ofNat_mod]
  by_cases below : i < n
  · simp [below]
  · simp [below, small, Nat.add_sub_cancel' (Nat.le_of_not_lt below)]

end Word

namespace FixedBits

open Rule (Draft)

variable {c d high low : FixedBits} {cs ds before after : List FixedBits}
  {ns : List OperandName} {hi k lo : Nat} {u v : Word}

/-- A constraint and the two that have its bits from a position on and below it. -/
structure Halves (c high low : FixedBits) : Prop where
  fits : c.Fits
  fitsHigh : high.Fits
  fitsLow : low.Fits
  top : high.range.hi = c.range.hi
  joint : high.range.lo = low.range.hi + 1
  bottom : low.range.lo = c.range.lo
  pattern : c.pattern = high.pattern ||| low.pattern

namespace Halves

theorem mask (halves : Halves c high low) : c.mask = high.mask ||| low.mask := by
  apply BitVec.eq_of_getLsbD_eq
  intro i _
  have joint := halves.joint
  have ordered := halves.fitsHigh.1.1
  have ordered' := halves.fitsLow.1.1
  rw [BitVec.getLsbD_or, FixedBits.mask, FixedBits.mask, FixedBits.mask, BitRange.getLsbD_mask,
    BitRange.getLsbD_mask, BitRange.getLsbD_mask, ← halves.top, ← halves.bottom, Bool.eq_iff_iff]
  simp only [Bool.or_eq_true, Bool.and_eq_true, decide_eq_true_eq]
  omega

/-- What lies apart from a constraint lies apart from both halves. -/
theorem separate_iff (halves : Halves c high low) (fits : d.Fits) :
    c.range.Separate d.range ↔ high.range.Separate d.range ∧ low.range.Separate d.range := by
  have ordered := fits.1.1
  obtain ⟨-, ⟨⟨ordered', -⟩, -⟩, ⟨⟨ordered'', -⟩, -⟩, top, joint, bottom, -⟩ := halves
  unfold BitRange.Separate
  omega

theorem separate (halves : Halves c high low) : high.range.Separate low.range := by
  have joint := halves.joint
  unfold BitRange.Separate
  omega

/-- Constraints stand on a line as well with one of them in halves. -/
theorem sound_cons_iff (halves : Halves c high low) :
    Draft.Sound ⟨ns, c :: cs⟩ ↔ Draft.Sound ⟨ns, high :: low :: cs⟩ := by
  constructor
  · rintro ⟨nodup, fits, apart⟩
    obtain ⟨-, fits⟩ := List.forall_mem_cons.1 fits
    obtain ⟨head, apart⟩ := List.pairwise_cons.1 apart
    have both := fun d mem => (halves.separate_iff (fits d mem)).1 (head d mem)
    refine ⟨nodup, List.forall_mem_cons.2 ⟨halves.fitsHigh,
      List.forall_mem_cons.2 ⟨halves.fitsLow, fits⟩⟩, List.pairwise_cons.2 ⟨?_, ?_⟩⟩
    · exact List.forall_mem_cons.2 ⟨halves.separate, fun d mem => (both d mem).1⟩
    · exact List.pairwise_cons.2 ⟨fun d mem => (both d mem).2, apart⟩
  · rintro ⟨nodup, fits, apart⟩
    obtain ⟨-, fits⟩ := List.forall_mem_cons.1 fits
    obtain ⟨-, fits⟩ := List.forall_mem_cons.1 fits
    obtain ⟨head, apart⟩ := List.pairwise_cons.1 apart
    obtain ⟨-, head⟩ := List.forall_mem_cons.1 head
    obtain ⟨head', apart⟩ := List.pairwise_cons.1 apart
    refine ⟨nodup, List.forall_mem_cons.2 ⟨halves.fits, fits⟩, List.pairwise_cons.2 ⟨?_, apart⟩⟩
    exact fun d mem => (halves.separate_iff (fits d mem)).2 ⟨head d mem, head' d mem⟩

end Halves

theorem fits_iff : c.Fits ↔ c.range.InWord ∧ c.range.Fits c.value := by
  refine and_congr_right fun _ => ⟨BitRange.fits_of_lt, fun fits => ?_⟩
  refine Nat.lt_pow_two_of_testBit _ fun i wide => ?_
  by_contra bit
  rw [Bool.not_eq_false] at bit
  have inside := fits i bit
  unfold BitRange.width at wide
  omega

/-- Two constraints are joined whose ranges meet. -/
theorem halves_merge (above : lo < k) (below : k ≤ hi) (fits : Fits ⟨⟨hi, k⟩, v⟩)
    (fits' : Fits ⟨⟨k - 1, lo⟩, u⟩) :
    Halves ⟨⟨hi, lo⟩, v <<< (k - lo) ||| u⟩ ⟨⟨hi, k⟩, v⟩ ⟨⟨k - 1, lo⟩, u⟩ := by
  obtain ⟨⟨-, inWord⟩, bits⟩ := fits_iff.1 fits
  obtain ⟨-, bits'⟩ := fits_iff.1 fits'
  refine ⟨fits_iff.2 ⟨⟨above.le.trans below, inWord⟩, fun i bit => ?_⟩, fits, fits', rfl, ?_, rfl, ?_⟩
  · simp only [BitVec.getLsbD_or, BitVec.getLsbD_shiftLeft, Bool.or_eq_true, Bool.and_eq_true,
      Bool.not_eq_true', decide_eq_true_eq, decide_eq_false_iff_not] at bit
    dsimp only
    rcases bit with ⟨⟨-, late⟩, bit⟩ | bit
    · have inside := bits _ bit
      dsimp only at inside
      omega
    · have inside := bits' _ bit
      dsimp only at inside
      omega
  · exact (Nat.sub_add_cancel (Nat.one_le_of_lt above)).symm
  · apply BitVec.eq_of_getLsbD_eq
    intro i small
    rw [BitVec.getLsbD_or, pattern, pattern, pattern, BitRange.getLsbD_place,
      BitRange.getLsbD_place, BitRange.getLsbD_place, BitVec.getLsbD_or, BitVec.getLsbD_shiftLeft]
    dsimp only
    -- the bits from `k` on are those of the upper constraint, the others those of the lower
    by_cases upper : k ≤ i
    · rw [show i - lo - (k - lo) = i - k by omega]
      simp [upper, small, show ¬i - lo < k - lo by omega, show lo ≤ i by omega,
        show i - lo < 32 by omega]
    · by_cases inside : lo ≤ i
      · simp [upper, inside, show i - lo < k - lo by omega]
      · simp [upper, inside]

/-- A constraint is cut at a position of its range. -/
theorem halves_split (above : lo < k) (below : k ≤ hi) (fits : Fits ⟨⟨hi, lo⟩, v⟩) :
    Halves ⟨⟨hi, lo⟩, v⟩ ⟨⟨hi, k⟩, v >>> (k - lo)⟩
      ⟨⟨k - 1, lo⟩, BitVec.ofNat 32 (v.toNat % 2 ^ (k - lo))⟩ := by
  obtain ⟨⟨-, inWord⟩, bits⟩ := fits_iff.1 fits
  have high : Fits ⟨⟨hi, k⟩, v >>> (k - lo)⟩ := by
    refine fits_iff.2 ⟨⟨below, inWord⟩, fun i bit => ?_⟩
    rw [BitVec.getLsbD_ushiftRight] at bit
    have inside := bits _ bit
    dsimp only at inside ⊢
    omega
  have low : Fits ⟨⟨k - 1, lo⟩, BitVec.ofNat 32 (v.toNat % 2 ^ (k - lo))⟩ := by
    refine fits_iff.2 ⟨⟨Nat.le_sub_one_of_lt above, ?_⟩, fun i bit => ?_⟩
    · exact (Nat.sub_le k 1).trans_lt (below.trans_lt inWord)
    · simp only [Word.getLsbD_ofNat_mod, Bool.and_eq_true, decide_eq_true_eq] at bit
      dsimp only
      omega
  have halves := halves_merge above below high low
  rwa [Word.shiftLeft_ushiftRight_or] at halves

/-- One step of cutting constraints otherwise: another order, a range cut in two at one of its
positions, or two ranges joined that meet. -/
inductive Recut : List FixedBits → List FixedBits → Prop
  | perm {cs ds : List FixedBits} (perm : cs.Perm ds) : Recut cs ds
  | split {before after : List FixedBits} {hi k lo : Nat} {v : Word} (above : lo < k)
      (below : k ≤ hi) :
      Recut (before ++ ⟨⟨hi, lo⟩, v⟩ :: after) (before ++ ⟨⟨hi, k⟩, v >>> (k - lo)⟩ ::
        ⟨⟨k - 1, lo⟩, BitVec.ofNat 32 (v.toNat % 2 ^ (k - lo))⟩ :: after)
  | merge {before after : List FixedBits} {hi k lo : Nat} {u v : Word} (above : lo < k)
      (below : k ≤ hi) :
      Recut (before ++ ⟨⟨hi, k⟩, v⟩ :: ⟨⟨k - 1, lo⟩, u⟩ :: after)
        (before ++ ⟨⟨hi, lo⟩, v <<< (k - lo) ||| u⟩ :: after)

/-- Lists of constraints that fix the same bits to the same values. -/
structure Agree (cs ds : List FixedBits) : Prop where
  mask : Word.union (cs.map FixedBits.mask) = Word.union (ds.map FixedBits.mask)
  pattern : Word.union (cs.map FixedBits.pattern) = Word.union (ds.map FixedBits.pattern)

theorem Agree.symm (agree : Agree cs ds) : Agree ds cs := ⟨agree.mask.symm, agree.pattern.symm⟩

theorem agree_of_perm (perm : cs.Perm ds) : Agree cs ds :=
  ⟨Word.union_perm (perm.map _), Word.union_perm (perm.map _)⟩

theorem Halves.agree (halves : Halves c high low) :
    Agree (before ++ c :: after) (before ++ high :: low :: after) := by
  have union : ∀ f : FixedBits → Word, f c = f high ||| f low →
      Word.union ((before ++ c :: after).map f) =
        Word.union ((before ++ high :: low :: after).map f) := by
    intro f eq
    apply BitVec.eq_of_getLsbD_eq
    intro i _
    simp only [Word.getLsbD_union, List.map_append, List.map_cons, List.any_append, List.any_cons, eq,
      BitVec.getLsbD_or, Bool.or_assoc]
  exact ⟨union _ halves.mask, union _ halves.pattern⟩

theorem sound_perm (perm : cs.Perm ds) (sound : Draft.Sound ⟨ns, cs⟩) : Draft.Sound ⟨ns, ds⟩ := by
  refine ⟨sound.operands, fun d mem => sound.fits d (perm.mem_iff.2 mem), ?_⟩
  exact (perm.pairwise_iff fun separate => separate.symm).1 sound.apart

theorem Halves.sound_iff (halves : Halves c high low) :
    Draft.Sound ⟨ns, before ++ c :: after⟩ ↔ Draft.Sound ⟨ns, before ++ high :: low :: after⟩ := by
  have one := @List.perm_middle _ c before after
  have two : (before ++ high :: low :: after).Perm (high :: low :: (before ++ after)) :=
    List.perm_middle.trans (List.perm_middle.cons high)
  constructor
  · intro sound
    exact sound_perm two.symm (halves.sound_cons_iff.1 (sound_perm one sound))
  · intro sound
    exact sound_perm one.symm (halves.sound_cons_iff.2 (sound_perm two sound))

theorem fits_of_mem (sound : Draft.Sound ⟨ns, before ++ c :: after⟩) : c.Fits :=
  sound.fits c (List.mem_append_right _ List.mem_cons_self)

/-- The step: what is cut otherwise can stand on a line as well and fixes the same bits. -/
theorem Recut.keeps (recut : Recut cs ds) (sound : Draft.Sound ⟨ns, cs⟩) :
    Draft.Sound ⟨ns, ds⟩ ∧ (cs ≠ [] → ds ≠ []) ∧ Agree cs ds := by
  cases recut with
  | perm perm =>
    exact ⟨sound_perm perm sound, fun ne nil => ne (List.perm_nil.1 (nil ▸ perm)), agree_of_perm perm⟩
  | split above below =>
    have halves := halves_split above below (fits_of_mem sound)
    exact ⟨halves.sound_iff.1 sound, fun _ => by simp, halves.agree⟩
  | merge above below =>
    have fits' := sound.fits _ (List.mem_append_right _ (List.mem_cons_of_mem _ List.mem_cons_self))
    have halves := halves_merge above below (fits_of_mem sound) fits'
    exact ⟨halves.sound_iff.2 sound, fun _ => by simp, halves.agree.symm⟩

end FixedBits

namespace Rule

variable {r : Rule} {cs : List FixedBits}

/-- The rule with constraints in place of its own. -/
def recut (r : Rule) (cs : List FixedBits) : Rule := { r with constraints := cs }

/-- The run: cut otherwise as often as one likes, a rule can still be stated and looks the same to a
build. -/
theorem WellFormed.recut (wellFormed : r.WellFormed)
    (steps : Relation.ReflTransGen FixedBits.Recut r.constraints cs) :
    (r.recut cs).WellFormed ∧ r.Restates (r.recut cs) := by
  induction steps with
  | refl => exact ⟨wellFormed, .refl r⟩
  | tail _ step ih =>
    obtain ⟨⟨operator, uncommented, sound, constrained⟩, restates⟩ := ih
    obtain ⟨sound', nonempty, agree⟩ := step.keeps sound
    exact ⟨⟨operator, uncommented, sound', nonempty constrained⟩, rfl, rfl, rfl,
      restates.mask.trans agree.mask, restates.pattern.trans agree.pattern⟩

end Rule

namespace Table

/-- How the fixed bits of a rule are cut does not count. Cut otherwise, the rule is well-formed, can
be stated and is read from every line that states it; it has the same mask and pattern and is a
spelling of the same rules; and every list builds the same with it: the same table, or the same
failure, with the same conflicts over the same ranges. -/
theorem ofRules_recut (registry : Registry) {before after : List Rule} {r : Rule}
    {cs : List FixedBits} (wellFormed : r.WellFormed)
    (steps : Relation.ReflTransGen FixedBits.Recut r.constraints cs) :
    (r.recut cs).WellFormed ∧
    (∀ line, (r.recut cs).Written line → Rule.parse r.line line = .ok (r.recut cs)) ∧
    (∀ radix mark, (radix, mark) ∈ Numeral.marks →
      (r.recut cs).Written ((r.recut cs).write radix mark)) ∧
    (r.recut cs).mask = r.mask ∧ (r.recut cs).pattern = r.pattern ∧
    (∀ other, (r.recut cs).same other = r.same other ∧ other.same (r.recut cs) = other.same r) ∧
    Alike (fun e e' => e.Restates e' ∧ e.message = e'.message) Eq
      (ofRules registry (before ++ r :: after))
      (ofRules registry (before ++ r.recut cs :: after)) := by
  obtain ⟨wellFormed', restates⟩ := wellFormed.recut steps
  refine ⟨wellFormed', fun line written => Rule.parse_of_written written wellFormed',
    fun radix mark mem => Rule.written_write mem wellFormed', restates.mask.symm,
    restates.pattern.symm, fun other => ⟨(restates.same_eq (.refl other)).symm,
      ((Rule.Restates.refl other).same_eq restates).symm⟩, ?_⟩
  have related : List.Forall₂ Rule.Restates (before ++ r :: after)
      (before ++ r.recut cs :: after) :=
    List.rel_append (List.forall₂_same.2 fun other _ => .refl other)
      (.cons restates (List.forall₂_same.2 fun other _ => .refl other))
  exact (ofRules_restates registry related).imp (fun _ _ h => ⟨h, h.message⟩) fun _ _ h => h

/-- A rule that fixes four bits in two ranges. -/
def twoRanges : Rule := ⟨"a", [], [⟨⟨3, 2⟩, 1⟩, ⟨⟨1, 0⟩, 3⟩], 1⟩

/-- Another rule that fixes them to the same value in one. -/
def oneRange : Rule := ⟨"b", [], [⟨⟨3, 0⟩, 7⟩], 2⟩

theorem ofRules_recut_twoRanges : twoRanges.WellFormed ∧
    Relation.ReflTransGen FixedBits.Recut twoRanges.constraints [⟨⟨2, 0⟩, 7⟩, ⟨⟨3, 3⟩, 0⟩] ∧
    ofRules .riscv [twoRanges, oneRange] = .error (.conflicts [⟨twoRanges, oneRange⟩]) ∧
    ∃ c, ofRules .riscv [twoRanges.recut [⟨⟨2, 0⟩, 7⟩, ⟨⟨3, 3⟩, 0⟩], oneRange] =
      .error (.conflicts [c]) ∧ c.ranges = [⟨3, 0⟩] ∧
      c.message = Conflict.message ⟨twoRanges, oneRange⟩ := by
  have wellFormed : twoRanges.WellFormed :=
    ⟨by decide +kernel, by decide +kernel, ⟨by decide, by decide, by decide⟩, by decide⟩
  have joined : FixedBits.Recut twoRanges.constraints [⟨⟨3, 0⟩, 7⟩] :=
    @FixedBits.Recut.merge [] [] 3 2 0 3 1 (by decide) (by decide)
  have cut : FixedBits.Recut [⟨⟨3, 0⟩, 7⟩] [⟨⟨3, 3⟩, 0⟩, ⟨⟨2, 0⟩, 7⟩] :=
    @FixedBits.Recut.split [] [] 3 3 0 7 (by decide) (by decide)
  have swapped : FixedBits.Recut [⟨⟨3, 3⟩, 0⟩, ⟨⟨2, 0⟩, 7⟩] [⟨⟨2, 0⟩, 7⟩, ⟨⟨3, 3⟩, 0⟩] :=
    .perm (.swap _ _ _)
  have steps := ((Relation.ReflTransGen.single joined).tail cut).tail swapped
  have fails : ofRules .riscv [twoRanges, oneRange] =
      .error (.conflicts [⟨twoRanges, oneRange⟩]) := by decide +kernel
  obtain ⟨-, -, -, -, -, -, alike⟩ := @ofRules_recut .riscv [] [oneRange] _ _ wellFormed steps
  refine ⟨wellFormed, steps, fails, ?_⟩
  rw [List.nil_append, fails, List.nil_append] at alike
  generalize ofRules .riscv [twoRanges.recut _, oneRange] = built at alike ⊢
  cases alike with
  | error failure =>
    cases failure.1 with
    | conflicts each =>
      obtain ⟨c, _, restates, ⟨⟩, rfl⟩ := List.forall₂_cons_left_iff.1 each
      exact ⟨c, rfl, restates.ranges.symm.trans (by decide +kernel), restates.message.symm⟩

end Table

end Opcodes
