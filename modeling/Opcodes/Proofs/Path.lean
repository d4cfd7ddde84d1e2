import Opcodes.Proofs.Runs
import Opcodes.SwitchTree.Node

/-!
# The paths of a mask

A mask has only one list of maximal runs, so `Word.runs` is a normal form of it. The path of a word
has the runs of the mask and, laid over each other, the bits of the word under it. So two words have
one path just when they agree on the mask.
-/
set_option autoImplicit false

namespace Opcodes

/-- Of two elements of a sorted list one comes first, unless they are equal. -/
theorem eq_or_rel_of_pairwise {α : Type} {R : α → α → Prop} {as : List α} {a b : α}
    (sorted : as.Pairwise R) (ha : a ∈ as) (hb : b ∈ as) : a = b ∨ R a b ∨ R b a := by
  induction as with
  | nil => cases ha
  | cons x as ih =>
    obtain ⟨first, sorted⟩ := List.pairwise_cons.1 sorted
    rcases List.mem_cons.1 ha with rfl | later
    · rcases List.mem_cons.1 hb with rfl | later'
      · exact .inl rfl
      · exact .inr (.inl (first b later'))
    · rcases List.mem_cons.1 hb with rfl | later'
      · exact .inr (.inr (first a later))
      · exact ih sorted later later'

/-- A value read from a range and put back there. -/
theorem BitRange.getLsbD_place_read (r : BitRange) (w : Word) (i : Nat) :
    (r.place (r.read w)).getLsbD i = (decide (r.lo ≤ i ∧ i ≤ r.hi) && w.getLsbD i) := by
  rw [getLsbD_place, getLsbD_read]
  by_cases lo : r.lo ≤ i
  · rw [Nat.add_sub_cancel' lo]
    by_cases hi : i < 32
    · simp [lo, hi]
    · simp [BitVec.getLsbD_of_ge w i (by omega)]
  · simp [lo]

namespace Word

section MaximalRuns

variable {mask : Word} {ranges others : List BitRange} {r s : BitRange} {i : Nat}

namespace MaximalRuns

theorem eq_or_apart (h : MaximalRuns mask ranges) (hr : r ∈ ranges) (hs : s ∈ ranges) :
    r = s ∨ s.hi + 1 < r.lo ∨ r.hi + 1 < s.lo :=
  eq_or_rel_of_pairwise h.apart hr hs

/-- The position above a run is clear. -/
theorem clear_above (h : MaximalRuns mask ranges) (hr : r ∈ ranges) :
    mask.getLsbD (r.hi + 1) = false := by
  by_contra set
  obtain ⟨s, hs, lo, hi⟩ := (h.set_iff _).1 (by simpa using set)
  rcases h.eq_or_apart hr hs with rfl | below | above
  · omega
  · have order := (h.inWord r hr).1
    omega
  · omega

/-- The position below a run is clear. -/
theorem clear_below (h : MaximalRuns mask ranges) (hr : r ∈ ranges) (next : i + 1 = r.lo) :
    mask.getLsbD i = false := by
  by_contra set
  obtain ⟨s, hs, lo, hi⟩ := (h.set_iff _).1 (by simpa using set)
  rcases h.eq_or_apart hr hs with rfl | below | above
  · omega
  · omega
  · have order := (h.inWord r hr).1
    omega

/-- A set position lies in one run only. -/
theorem eq_of_mem (h : MaximalRuns mask ranges) (hr : r ∈ ranges) (hs : s ∈ ranges)
    (in_r : r.lo ≤ i ∧ i ≤ r.hi) (in_s : s.lo ≤ i ∧ i ≤ s.hi) : r = s := by
  rcases h.eq_or_apart hr hs with eq | below | above
  · exact eq
  · omega
  · omega

/-- A run reaches from one clear position to the next, so it is a run of every such list. -/
theorem mem_of_mem (h : MaximalRuns mask ranges) (h' : MaximalRuns mask others) (hr : r ∈ ranges) :
    r ∈ others := by
  have order := (h.inWord r hr).1
  obtain ⟨s, hs, lo, hi⟩ := (h'.set_iff r.hi).1 ((h.set_iff r.hi).2 ⟨r, hr, order, Nat.le_refl _⟩)
  have same_hi : s.hi = r.hi := by
    by_contra ne
    have set : mask.getLsbD (r.hi + 1) = true := (h'.set_iff _).2 ⟨s, hs, by omega, by omega⟩
    simp [h.clear_above hr] at set
  have same_lo : s.lo = r.lo := by
    rcases Nat.lt_trichotomy s.lo r.lo with lt | eq | gt
    · have set : mask.getLsbD (r.lo - 1) = true := (h'.set_iff _).2 ⟨s, hs, by omega, by omega⟩
      simp [h.clear_below hr (show r.lo - 1 + 1 = r.lo by omega)] at set
    · exact eq
    · have set : mask.getLsbD (s.lo - 1) = true := (h.set_iff _).2 ⟨r, hr, by omega, by omega⟩
      simp [h'.clear_below hs (show s.lo - 1 + 1 = s.lo by omega)] at set
  cases r
  cases s
  simp_all

theorem nodup (h : MaximalRuns mask ranges) : ranges.Nodup := by
  refine h.apart.imp_of_mem fun {a b} ha _ below eq => ?_
  have order := (h.inWord a ha).1
  subst eq
  omega

/-- A mask has one list of maximal runs. -/
theorem unique (h : MaximalRuns mask ranges) (h' : MaximalRuns mask others) : ranges = others := by
  have perm : ranges.Perm others := (List.perm_ext_iff_of_nodup h.nodup h'.nodup).2 fun r =>
    ⟨h.mem_of_mem h', h'.mem_of_mem h⟩
  refine perm.eq_of_pairwise (fun a b ha hb below above => ?_) h.apart h'.apart
  have order := (h.inWord a ha).1
  have order' := (h'.inWord b hb).1
  omega

end MaximalRuns

theorem runs_injective {other : Word} (eq : runs other = runs mask) : other = mask := by
  apply BitVec.eq_of_getLsbD_eq
  intro i _
  rw [Bool.eq_iff_iff, (maximalRuns_runs other).set_iff, (maximalRuns_runs mask).set_iff, eq]

end MaximalRuns

section Path

variable {mask v w : Word}

theorem map_range_path (mask w : Word) : (path mask w).map FixedBits.range = runs mask := by
  rw [path, List.map_map]
  exact List.map_id _

/-- The steps of a path are the bits of the word under the mask. -/
theorem union_pattern_path (mask w : Word) :
    union ((path mask w).map FixedBits.pattern) = w &&& mask := by
  apply BitVec.eq_of_getLsbD_eq
  intro i _
  rw [getLsbD_union, BitVec.getLsbD_and, path, List.map_map, List.any_map, Bool.eq_iff_iff,
    Bool.and_eq_true, ← mem_runs_iff mask i]
  simp only [List.any_eq_true, Function.comp_apply, FixedBits.pattern,
    BitRange.getLsbD_place_read, Bool.and_eq_true, decide_eq_true_eq]
  constructor
  · rintro ⟨r, mem, bounds, bit⟩
    exact ⟨bit, r, mem, bounds⟩
  · rintro ⟨bit, r, mem, bounds⟩
    exact ⟨r, mem, bounds, bit⟩

theorem path_eq_path_iff : path mask v = path mask w ↔ v &&& mask = w &&& mask := by
  rw [path, path, List.map_inj_left, ← forall_read_runs_iff]
  simp only [FixedBits.mk.injEq, true_and]

/-- The runs of a mask are its set positions cut into ranges, the higher ones first: each set
position lies in one of them, and the positions next to a run are clear. No other list of ranges does
so, and masks with the same runs are equal. The path of a word has a value for each run, which fits
it, and together they are the bits of the word under the mask; so two words have one path just when
they agree on the mask. -/
theorem runs_canonical (mask : Word) :
    MaximalRuns mask (runs mask) ∧
    (∀ i, mask.getLsbD i = true → ∃! r, r ∈ runs mask ∧ r.lo ≤ i ∧ i ≤ r.hi) ∧
    (∀ r ∈ runs mask, mask.getLsbD (r.hi + 1) = false ∧
      ∀ i, i + 1 = r.lo → mask.getLsbD i = false) ∧
    (∀ ranges, MaximalRuns mask ranges → ranges = runs mask) ∧
    (∀ other, runs other = runs mask ↔ other = mask) ∧
    (∀ w, (path mask w).map FixedBits.range = runs mask ∧
      (∀ c ∈ path mask w, c.range.Fits c.value) ∧
      union ((path mask w).map FixedBits.pattern) = w &&& mask) ∧
    ∀ v w, path mask v = path mask w ↔ v &&& mask = w &&& mask := by
  have maximal := maximalRuns_runs mask
  refine ⟨maximal, fun i set => ?_, fun r mem => ⟨maximal.clear_above mem, fun i =>
    maximal.clear_below mem⟩, fun ranges h => h.unique maximal, fun other =>
    ⟨runs_injective, congrArg runs⟩, fun w => ⟨map_range_path mask w, fun c mem => ?_,
    union_pattern_path mask w⟩, fun v w => path_eq_path_iff⟩
  · obtain ⟨r, mem, bounds⟩ := (maximal.set_iff i).1 set
    exact ⟨r, ⟨mem, bounds⟩, fun s h => maximal.eq_of_mem h.1 mem h.2 bounds⟩
  · obtain ⟨r, -, rfl⟩ := List.mem_map.1 mem
    exact r.fits_read w

/-- A mask with nothing but its end positions. Words that differ in between have one path. -/
theorem runs_endBits :
    runs 0x80000001 = [⟨31, 31⟩, ⟨0, 0⟩] ∧
    (∃! r, r ∈ runs 0x80000001 ∧ r.lo ≤ 31 ∧ 31 ≤ r.hi) ∧
    runs 0x80000000 ≠ runs 0x80000001 ∧
    path 0x80000001 0x7FFFFFFF = path 0x80000001 0x1 := by
  obtain ⟨-, once, -, -, injective, -, paths⟩ := runs_canonical 0x80000001
  exact ⟨by decide +kernel, once 31 (by decide), fun eq => absurd ((injective _).1 eq) (by decide),
    (paths _ _).2 (by decide)⟩

end Path

end Word

end Opcodes
