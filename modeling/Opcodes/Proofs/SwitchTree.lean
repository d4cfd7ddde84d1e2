import Opcodes.Proofs.Masks
import Opcodes.SwitchTree

/-!
# The leaves of a switch tree

A tree over ranges that lie apart, the higher ones first, lists its leaves in ascending order. A
leaf is listed with the one word that leads to it and has no bit outside the ranges. All this needs
that the values switched on fit their ranges, which `single` and `insert` see to.
-/
set_option autoImplicit false

namespace Opcodes

namespace BitRange

/-- The word has bits in the ranges only. -/
def Within (ranges : List BitRange) (w : Word) : Prop :=
  ∀ i, w.getLsbD i = true → ∃ r ∈ ranges, r.lo ≤ i ∧ i ≤ r.hi

theorem within_nil_iff {w : Word} : Within [] w ↔ w = 0 := by
  constructor
  · intro h
    apply BitVec.eq_of_getLsbD_eq
    intro i _
    by_contra bit
    obtain ⟨r, hr, -⟩ := h i (by simpa using bit)
    simp at hr
  · rintro rfl i h
    simp at h

/-- Ranges of a word, the higher ones first, that do not meet. -/
structure Apart (ranges : List BitRange) : Prop where
  inWord : ∀ r ∈ ranges, r.InWord
  descending : ranges.Pairwise fun a b => b.hi < a.lo

theorem Apart.tail {r : BitRange} {ranges : List BitRange} (h : Apart (r :: ranges)) :
    Apart ranges :=
  ⟨fun s hs => h.inWord s (List.mem_cons_of_mem _ hs), (List.pairwise_cons.1 h.descending).2⟩

theorem Apart.head_inWord {r : BitRange} {ranges : List BitRange} (h : Apart (r :: ranges)) :
    r.InWord := h.inWord r List.mem_cons_self

theorem Apart.hi_lt {r s : BitRange} {ranges : List BitRange} (h : Apart (r :: ranges))
    (hs : s ∈ ranges) : s.hi < r.lo := (List.pairwise_cons.1 h.descending).1 s hs

theorem Apart.lt_lo {r : BitRange} {ranges : List BitRange} (h : Apart (r :: ranges)) {w : Word}
    (within : Within ranges w) {i : Nat} (hi : w.getLsbD i = true) : i < r.lo := by
  obtain ⟨s, hs, -, upper⟩ := within i hi
  exact Nat.lt_of_le_of_lt upper (h.hi_lt hs)

variable {r : BitRange} {v w : Word}

theorem read_place_or (inWord : r.InWord) (fits : r.Fits v)
    (below : ∀ i, w.getLsbD i = true → i < r.lo) : r.read (r.place v ||| w) = v := by
  conv_rhs => rw [← read_place inWord fits]
  apply (read_eq_read_iff r).2
  intro i lo _
  have clear : w.getLsbD i = false := by
    by_contra h
    have := below i (by simpa using h)
    omega
  simp [clear]

/-- A placed value does not show in a range below. -/
theorem read_place_or_of_lt {s : BitRange} (lt : s.hi < r.lo) :
    s.read (r.place v ||| w) = s.read w := by
  apply (read_eq_read_iff s).2
  intro i _ hi
  have clear : (r.place v).getLsbD i = false := by
    rw [getLsbD_place]
    simp
    omega
  simp [clear]

/-- A word is the value of a range in its place and the rest. -/
theorem place_read_or (r : BitRange) (w : Word) : r.place (r.read w) ||| (w &&& ~~~r.mask) = w := by
  apply BitVec.eq_of_getLsbD_eq
  intro i hi
  rw [BitVec.getLsbD_or, getLsbD_place, getLsbD_read, BitVec.getLsbD_and, BitVec.getLsbD_not,
    getLsbD_mask]
  by_cases lo : r.lo ≤ i
  · rw [Nat.add_sub_cancel' lo]
    cases w.getLsbD i <;> simp_all
  · simp [hi, lo]

theorem toNat_lt_of_bits {n : Nat} (below : ∀ i, w.getLsbD i = true → i < n) :
    w.toNat < 2 ^ n := by
  apply Nat.lt_pow_two_of_testBit
  intro i hi
  by_contra h
  have := below i (by simpa [BitVec.getLsbD] using h)
  omega

theorem toNat_place_or (inWord : r.InWord) (fits : r.Fits v)
    (below : ∀ i, w.getLsbD i = true → i < r.lo) :
    (r.place v ||| w).toNat = v.toNat * 2 ^ r.lo + w.toNat := by
  have small : v.toNat * 2 ^ r.lo < 2 ^ 32 := by
    obtain ⟨order, bound⟩ := inWord
    calc v.toNat * 2 ^ r.lo
        < 2 ^ (r.hi + 1 - r.lo) * 2 ^ r.lo := by
          refine Nat.mul_lt_mul_of_pos_right (toNat_lt_of_bits fun i hi => ?_) (Nat.two_pow_pos _)
          have := fits i hi
          omega
      _ = 2 ^ (r.hi + 1) := by rw [← Nat.pow_add, Nat.sub_add_cancel (by omega)]
      _ ≤ 2 ^ 32 := Nat.pow_le_pow_right (by omega) (by omega)
  rw [BitVec.toNat_or, place, BitVec.toNat_shiftLeft, Nat.shiftLeft_eq, Nat.mod_eq_of_lt small,
    ← Nat.shiftLeft_eq, Nat.shiftLeft_add_eq_or_of_lt (toNat_lt_of_bits below)]

end BitRange

namespace SwitchTree

variable {α : Type} {ranges : List BitRange}

/-- The values switched on fit the ranges of their switches. -/
def Fits : (ranges : List BitRange) → SwitchTree α ranges → Prop
  | [], _ => True
  | r :: ranges, t => ∀ v child, (children t)[v]? = some child → r.Fits v ∧ Fits ranges child

theorem fits_single (w : Word) (a : α) (ranges : List BitRange) : Fits ranges (single w a ranges) := by
  induction ranges with
  | nil => trivial
  | cons r ranges ih =>
    intro v child h
    rw [single, children_switch, Std.TreeMap.getElem?_insert] at h
    split at h
    · rename_i eq
      obtain rfl := Std.LawfulEqCmp.compare_eq_iff_eq.1 eq
      cases h
      exact ⟨r.fits_read w, ih⟩
    · simp at h

theorem fits_insert (w : Word) (a : α) (ranges : List BitRange) (t : SwitchTree α ranges)
    (fits : Fits ranges t) : Fits ranges (insert w a ranges t) := by
  induction ranges with
  | nil => trivial
  | cons r ranges ih =>
    intro v child h
    rw [insert, children_switch, Std.TreeMap.getElem?_insert] at h
    split at h
    · rename_i eq
      obtain rfl := Std.LawfulEqCmp.compare_eq_iff_eq.1 eq
      cases h
      refine ⟨r.fits_read w, ?_⟩
      cases old : (children t)[r.read w]? with
      | none => exact fits_single w a ranges
      | some child => exact ih child (fits _ _ old).2
    · exact fits v child h

/-- A word leads where another with the same values in the ranges does. -/
theorem find?_congr {v w : Word} (t : SwitchTree α ranges) (h : ∀ r ∈ ranges, r.read v = r.read w) :
    find? v ranges t = find? w ranges t := by
  induction ranges with
  | nil => rfl
  | cons r ranges ih =>
    obtain ⟨head, tail⟩ := List.forall_mem_cons.1 h
    rw [find?, find?, head]
    cases (children t)[r.read w]? with
    | none => rfl
    | some child => exact ih child tail

theorem mem_leaves_nil_iff (t : SwitchTree α []) {w : Word} {a : α} :
    (w, a) ∈ leaves [] t ↔ w = 0 ∧ find? w [] t = some a := by
  show (w, a) ∈ [((0 : Word), (show α from t))] ↔ w = 0 ∧ some (show α from t) = some a
  rw [List.mem_singleton, Prod.mk.injEq, Option.some.injEq, eq_comm (a := a)]

theorem leaves_cons (r : BitRange) (ranges : List BitRange) (t : SwitchTree α (r :: ranges)) :
    leaves (r :: ranges) t = (children t).toList.flatMap fun c =>
      (leaves ranges c.2).map fun leaf => (r.place c.1 ||| leaf.1, leaf.2) := by
  rw [leaves, fold, List.flatMap_map]
  rfl

/-- A leaf is listed with the word within the ranges that leads to it. -/
theorem mem_leaves_iff (apart : BitRange.Apart ranges) {t : SwitchTree α ranges}
    (fits : Fits ranges t) {w : Word} {a : α} :
    (w, a) ∈ leaves ranges t ↔ find? w ranges t = some a ∧ BitRange.Within ranges w := by
  induction ranges generalizing w with
  | nil =>
    rw [mem_leaves_nil_iff, BitRange.within_nil_iff, and_comm]
  | cons r ranges ih =>
    have find_child : ∀ {v u : Word} {child : SwitchTree α ranges},
        find? (r.place v ||| u) ranges child = find? u ranges child := fun {v u child} =>
      find?_congr child fun s hs => BitRange.read_place_or_of_lt (apart.hi_lt hs)
    rw [leaves_cons, List.mem_flatMap]
    constructor
    · intro parts
      obtain ⟨⟨v, child⟩, hc, h⟩ := parts
      obtain ⟨⟨u, b⟩, hu, eq⟩ := List.mem_map.1 h
      cases eq
      have child_eq := Std.TreeMap.mem_toList_iff_getElem?_eq_some.1 hc
      obtain ⟨fits_v, fits_child⟩ := fits v child child_eq
      obtain ⟨found, within⟩ := (ih apart.tail fits_child).1 hu
      have read_eq : r.read (r.place v ||| u) = v :=
        BitRange.read_place_or apart.head_inWord fits_v fun i => apart.lt_lo within
      refine ⟨?_, fun i hi => ?_⟩
      · rw [find?, read_eq, child_eq, Option.bind_some, find_child, found]
      · rw [BitVec.getLsbD_or, Bool.or_eq_true] at hi
        rcases hi with hi | hi
        · exact ⟨r, List.mem_cons_self, BitRange.bounds_of_getLsbD_place fits_v hi⟩
        · obtain ⟨s, hs, bounds⟩ := within i hi
          exact ⟨s, List.mem_cons_of_mem _ hs, bounds⟩
    · intro parts
      obtain ⟨found, within⟩ := parts
      rw [find?, Option.bind_eq_some_iff] at found
      obtain ⟨child, child_eq, found⟩ := found
      refine ⟨(r.read w, child), Std.TreeMap.mem_toList_iff_getElem?_eq_some.2 child_eq, ?_⟩
      refine List.mem_map.2 ⟨(w &&& ~~~r.mask, a), ?_, by rw [r.place_read_or w]⟩
      refine (ih apart.tail (fits _ _ child_eq).2).2 ⟨?_, fun i hi => ?_⟩
      · rw [← find_child, r.place_read_or w, found]
      · have bits : w.getLsbD i = true ∧ ¬(r.lo ≤ i ∧ i ≤ r.hi) := by
          rw [BitVec.getLsbD_and, BitVec.getLsbD_not, BitRange.getLsbD_mask] at hi
          simp only [Bool.and_eq_true, Bool.not_eq_true', decide_eq_true_eq, Bool.and_eq_false_iff,
            decide_eq_false_iff_not] at hi
          exact ⟨hi.1, hi.2.2.resolve_left (absurd hi.2.1)⟩
        obtain ⟨s, hs, bounds⟩ := within i bits.1
        rcases List.mem_cons.1 hs with rfl | hs
        · exact absurd bounds bits.2
        · exact ⟨s, hs, bounds⟩

/-- The leaves come in ascending order of their words. -/
theorem pairwise_leaves (apart : BitRange.Apart ranges) {t : SwitchTree α ranges}
    (fits : Fits ranges t) : (leaves ranges t).Pairwise fun x y => x.1 < y.1 := by
  induction ranges with
  | nil => exact List.pairwise_singleton _ _
  | cons r ranges ih =>
    have within : ∀ {c : Word × SwitchTree α ranges} {leaf : Word × α},
        c ∈ (children t).toList → leaf ∈ leaves ranges c.2 →
        r.Fits c.1 ∧ ∀ i, leaf.1.getLsbD i = true → i < r.lo := by
      intro c leaf hc hl
      obtain ⟨fits_v, fits_child⟩ := fits _ _ (Std.TreeMap.mem_toList_iff_getElem?_eq_some.1 hc)
      exact ⟨fits_v, fun i => apart.lt_lo ((mem_leaves_iff apart.tail fits_child).1 hl).2⟩
    rw [leaves_cons, List.pairwise_flatMap]
    constructor
    · intro c hc
      have fits_child := (fits _ _ (Std.TreeMap.mem_toList_iff_getElem?_eq_some.1 hc)).2
      rw [List.pairwise_map]
      refine (ih apart.tail fits_child).imp_of_mem fun {x y} hx hy lt => ?_
      obtain ⟨fits_v, below_x⟩ := within hc hx
      obtain ⟨-, below_y⟩ := within hc hy
      rw [BitVec.lt_def, BitRange.toNat_place_or apart.head_inWord fits_v below_x,
        BitRange.toNat_place_or apart.head_inWord fits_v below_y]
      exact Nat.add_lt_add_left (BitVec.lt_def.1 lt) _
    · refine Std.TreeMap.ordered_keys_toList.imp_of_mem fun {c d} hc hd lt x hx y hy => ?_
      obtain ⟨x, mem_x, rfl⟩ := List.mem_map.1 hx
      obtain ⟨y, mem_y, rfl⟩ := List.mem_map.1 hy
      obtain ⟨fits_c, below_x⟩ := within hc mem_x
      obtain ⟨fits_d, below_y⟩ := within hd mem_y
      have lt := BitVec.lt_def.1 (Word.compare_eq_lt_iff.1 lt)
      rw [BitVec.lt_def, BitRange.toNat_place_or apart.head_inWord fits_c below_x,
        BitRange.toNat_place_or apart.head_inWord fits_d below_y]
      have small := BitRange.toNat_lt_of_bits below_x
      calc c.1.toNat * 2 ^ r.lo + x.1.toNat
          < (c.1.toNat + 1) * 2 ^ r.lo := by rw [Nat.add_mul]; omega
        _ ≤ d.1.toNat * 2 ^ r.lo := Nat.mul_le_mul_right _ lt
        _ ≤ d.1.toNat * 2 ^ r.lo + y.1.toNat := Nat.le_add_right _ _

end SwitchTree

end Opcodes
