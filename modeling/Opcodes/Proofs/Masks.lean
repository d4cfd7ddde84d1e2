import Mathlib
import Opcodes.Word

/-!
# Words under a mask

Two words agree on a mask when they have the same bits at its set positions. Masks are ordered by
`covers`, and a mask that strictly covers another has more set bits. A value that fits a range of
positions is read back from the place it is put in.
-/
set_option autoImplicit false

namespace Opcodes

namespace Word

theorem compare_eq_lt_iff {v w : Word} : compare v w = .lt ↔ v < w := compareOfLessAndEq_eq_lt

theorem and_eq_and_iff {v w mask : Word} :
    v &&& mask = w &&& mask ↔ ∀ i, mask.getLsbD i = true → v.getLsbD i = w.getLsbD i := by
  constructor
  · intro h i hi
    have := congrArg (BitVec.getLsbD · i) h
    simpa [hi] using this
  · intro h
    apply BitVec.eq_of_getLsbD_eq
    intro i _
    rw [BitVec.getLsbD_and, BitVec.getLsbD_and]
    cases hi : mask.getLsbD i with
    | false => simp
    | true => rw [h i hi]

theorem and_and_self (w mask : Word) : w &&& mask &&& mask = w &&& mask := by
  rw [BitVec.and_assoc, BitVec.and_self]

/-- A word equals its part under a mask just when it has no bit outside. -/
theorem and_eq_self_iff {w mask : Word} : w &&& mask = w ↔ covers mask w = true := by
  rw [covers, beq_iff_eq, BitVec.and_comm]

@[simp] theorem union_nil : union [] = 0#32 := rfl

@[simp] theorem union_cons (w : Word) (ws : List Word) : union (w :: ws) = w ||| union ws := rfl

theorem union_append (vs ws : List Word) : union (vs ++ ws) = union vs ||| union ws := by
  induction vs with
  | nil => rw [List.nil_append, union_nil, BitVec.zero_or]
  | cons v vs ih => rw [List.cons_append, union_cons, union_cons, ih, BitVec.or_assoc]

theorem or_left_comm (u v w : Word) : u ||| (v ||| w) = v ||| (u ||| w) := by
  rw [← BitVec.or_assoc, BitVec.or_comm u, BitVec.or_assoc]

theorem covers_refl (m : Word) : covers m m = true := covers_iff.2 fun _ h => h

theorem covers_antisymm {a b : Word} (hab : covers a b = true) (hba : covers b a = true) : a = b := by
  apply BitVec.eq_of_getLsbD_eq
  intro i _
  exact Bool.eq_iff_iff.2 ⟨covers_iff.1 hba i, covers_iff.1 hab i⟩

theorem cpopNatRec_le_of_covers {outer inner : Word} (h : covers outer inner = true) (n : Nat) :
    inner.cpopNatRec n 0 ≤ outer.cpopNatRec n 0 := by
  induction n with
  | zero => simp
  | succ n ih =>
    rw [BitVec.cpopNatRec_succ, BitVec.cpopNatRec_succ, BitVec.cpopNatRec_eq (x := inner),
      BitVec.cpopNatRec_eq (x := outer)]
    have bit := covers_iff.1 h n
    cases hi : inner.getLsbD n <;> cases ho : outer.getLsbD n <;> simp_all
    all_goals omega

/-- A missing bit below `n` makes the count up to `n` strictly smaller. -/
theorem cpopNatRec_lt_of_covers {outer inner : Word} (h : covers outer inner = true) {i n : Nat}
    (hi : i < n) (ho : outer.getLsbD i = true) (hn : inner.getLsbD i = false) :
    inner.cpopNatRec n 0 < outer.cpopNatRec n 0 := by
  induction n with
  | zero => omega
  | succ n ih =>
    rw [BitVec.cpopNatRec_succ, BitVec.cpopNatRec_succ, BitVec.cpopNatRec_eq (x := inner),
      BitVec.cpopNatRec_eq (x := outer)]
    rcases Nat.lt_succ_iff_lt_or_eq.1 hi with lt | rfl
    · have less := ih lt
      have bit := covers_iff.1 h n
      cases hi' : inner.getLsbD n <;> cases ho' : outer.getLsbD n <;> simp_all
      all_goals omega
    · have less := cpopNatRec_le_of_covers h i
      simp [ho, hn]
      omega

/-- A mask that strictly covers another has more set bits. -/
theorem weight_lt_weight {outer inner : Word} (h : covers outer inner = true)
    (ne : outer ≠ inner) : weight inner < weight outer := by
  have missing : ∃ i, i < 32 ∧ outer.getLsbD i = true ∧ inner.getLsbD i = false := by
    by_contra none
    refine ne (covers_antisymm h (covers_iff.2 fun i ho => ?_))
    by_contra hi
    exact none ⟨i, BitVec.lt_of_getLsbD ho, ho, by simpa using hi⟩
  obtain ⟨i, hi, ho, hn⟩ := missing
  rw [weight, weight, BitVec.toNat_cpop, BitVec.toNat_cpop]
  exact cpopNatRec_lt_of_covers h hi ho hn

end Word

namespace BitRange

theorem getLsbD_place (r : BitRange) (v : Word) (i : Nat) :
    (r.place v).getLsbD i = (decide (i < 32) && decide (r.lo ≤ i) && v.getLsbD (i - r.lo)) := by
  rw [place, BitVec.getLsbD_shiftLeft]
  grind

/-- Two words have the same value in a range just when they agree on its mask. -/
theorem read_eq_read_iff (r : BitRange) {v w : Word} :
    r.read v = r.read w ↔ ∀ i, r.lo ≤ i → i ≤ r.hi → v.getLsbD i = w.getLsbD i := by
  constructor
  · intro h i lo hi
    have bit := congrArg (BitVec.getLsbD · (i - r.lo)) h
    simp only [getLsbD_read] at bit
    rwa [Nat.add_sub_cancel' lo, decide_eq_true hi, Bool.true_and, Bool.true_and] at bit
  · intro h
    apply BitVec.eq_of_getLsbD_eq
    intro i _
    rw [getLsbD_read, getLsbD_read]
    by_cases hi : r.lo + i ≤ r.hi
    · rw [h (r.lo + i) (Nat.le_add_right _ _) hi]
    · simp [hi]

/-- The value is one that words can have in the range. -/
def Fits (r : BitRange) (v : Word) : Prop := ∀ i, v.getLsbD i = true → r.lo + i ≤ r.hi

theorem fits_read (r : BitRange) (w : Word) : r.Fits (r.read w) := by
  intro i h
  rw [getLsbD_read] at h
  simp_all

theorem read_place {r : BitRange} (inWord : r.InWord) {v : Word} (fits : r.Fits v) :
    r.read (r.place v) = v := by
  apply BitVec.eq_of_getLsbD_eq
  intro i _
  rw [getLsbD_read, getLsbD_place, Nat.add_sub_cancel_left]
  have bound := inWord.2
  cases hv : v.getLsbD i with
  | false => simp
  | true =>
    have hi := fits i hv
    simp [hi]
    omega

/-- A placed value has bits in its range only. -/
theorem bounds_of_getLsbD_place {r : BitRange} {v : Word} (fits : r.Fits v) {i : Nat}
    (h : (r.place v).getLsbD i = true) : r.lo ≤ i ∧ i ≤ r.hi := by
  rw [getLsbD_place] at h
  simp only [Bool.and_eq_true, decide_eq_true_eq] at h
  have := fits _ h.2
  omega

end BitRange

end Opcodes
