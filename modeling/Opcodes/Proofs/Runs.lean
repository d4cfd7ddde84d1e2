import Opcodes.Proofs.Masks
import Opcodes.Word.Runs

/-!
# The runs of a mask

The runs lie in the word, a clear bit stands between each two, and a position is set in the mask
just when it lies in a run. The scan is followed from the top down: at position `n` the open run, if
there is one, reaches from `top` down to `n`.
-/
set_option autoImplicit false

namespace Opcodes.Word

variable {mask : Word}

/-- The positions that the runs found from position `n` on cover: set ones below `n` and those of
the open run. -/
theorem mem_runsBelow_iff {n : Nat} {top : Option Nat} (bound : ∀ hi ∈ top, n ≤ hi) (i : Nat) :
    (∃ r ∈ runsBelow mask n top, r.lo ≤ i ∧ i ≤ r.hi) ↔
      (i < n ∧ mask.getLsbD i = true) ∨ ∃ hi ∈ top, n ≤ i ∧ i ≤ hi := by
  fun_induction runsBelow mask n top with
  | case1 => simp
  | case2 hi => simp
  | case3 n ih =>
    by_cases h : mask.getLsbD n = true
    · simp only [if_pos h] at ih ⊢
      rw [ih (by simp)]
      simp only [Option.mem_def, Option.some.injEq, exists_eq_left', reduceCtorEq, false_and,
        exists_false, or_false]
      constructor
      · intro parts
        rcases parts with ⟨lt, set⟩ | ⟨lo, hi⟩
        · exact ⟨by omega, set⟩
        · obtain rfl : n = i := Nat.le_antisymm lo hi
          exact ⟨by omega, h⟩
      · intro parts
        obtain ⟨lt, set⟩ := parts
        rcases Nat.lt_succ_iff_lt_or_eq.1 lt with lt | rfl
        · exact .inl ⟨lt, set⟩
        · exact .inr ⟨Nat.le_refl i, Nat.le_refl i⟩
    · simp only [if_neg h] at ih ⊢
      rw [ih nofun]
      simp only [Option.mem_def, reduceCtorEq, false_and, exists_false, or_false]
      constructor
      · intro parts
        obtain ⟨lt, set⟩ := parts
        exact ⟨by omega, set⟩
      · intro parts
        obtain ⟨lt, set⟩ := parts
        rcases Nat.lt_succ_iff_lt_or_eq.1 lt with lt | rfl
        · exact ⟨lt, set⟩
        · exact absurd set h
  | case4 n hi h ih =>
    rw [ih fun _ e => by have := bound _ e; omega]
    simp only [Option.mem_def, Option.some.injEq, exists_eq_left']
    have lo := bound hi rfl
    constructor
    · intro parts
      rcases parts with ⟨lt, set⟩ | ⟨lower, upper⟩
      · exact .inl ⟨by omega, set⟩
      · rcases Nat.eq_or_lt_of_le lower with rfl | above
        · exact .inl ⟨by omega, h⟩
        · exact .inr ⟨above, upper⟩
    · intro parts
      rcases parts with ⟨lt, set⟩ | ⟨lower, upper⟩
      · rcases Nat.lt_succ_iff_lt_or_eq.1 lt with lt | rfl
        · exact .inl ⟨lt, set⟩
        · exact .inr ⟨Nat.le_refl i, by omega⟩
      · exact .inr ⟨by omega, upper⟩
  | case5 n hi h ih =>
    simp only [List.mem_cons, exists_eq_or_imp, ih nofun, Option.mem_def, Option.some.injEq,
      exists_eq_left', reduceCtorEq, false_and, exists_false, or_false]
    constructor
    · intro parts
      rcases parts with bounds | ⟨lt, set⟩
      · exact .inr bounds
      · exact .inl ⟨by omega, set⟩
    · intro parts
      rcases parts with ⟨lt, set⟩ | bounds
      · rcases Nat.lt_succ_iff_lt_or_eq.1 lt with lt | rfl
        · exact .inr ⟨lt, set⟩
        · exact absurd set h
      · exact .inl bounds

/-- The runs found from position `n` on end at the open run or below `n`. -/
theorem bounds_of_mem_runsBelow {n : Nat} {top : Option Nat} {r : BitRange}
    (h : r ∈ runsBelow mask n top) (bound : ∀ hi ∈ top, n ≤ hi) :
    r.lo ≤ r.hi ∧ (r.hi < n ∨ r.hi ∈ top) := by
  fun_induction runsBelow mask n top with
  | case1 => simp at h
  | case2 hi =>
    obtain rfl := List.mem_singleton.1 h
    exact ⟨Nat.zero_le _, .inr rfl⟩
  | case3 n ih =>
    obtain ⟨order, below | top⟩ := ih h (by intro hi h; split at h <;> simp_all)
    · exact ⟨order, .inl (by omega)⟩
    · refine ⟨order, .inl ?_⟩
      split at top <;> simp_all
  | case4 n hi set ih =>
    obtain ⟨order, below | top⟩ := ih h fun _ e => by have := bound _ e; omega
    · exact ⟨order, .inl (by omega)⟩
    · exact ⟨order, .inr top⟩
  | case5 n hi clear ih =>
    rcases List.mem_cons.1 h with rfl | h
    · exact ⟨bound hi rfl, .inr rfl⟩
    · obtain ⟨order, below | top⟩ := ih h nofun
      · exact ⟨order, .inl (by omega)⟩
      · simp at top

theorem pairwise_runsBelow (n : Nat) (top : Option Nat) :
    (runsBelow mask n top).Pairwise fun a b => b.hi + 1 < a.lo := by
  fun_induction runsBelow mask n top with
  | case1 => exact .nil
  | case2 hi => exact List.pairwise_singleton _ _
  | case3 n ih => exact ih
  | case4 n hi set ih => exact ih
  | case5 n hi clear ih =>
    refine List.pairwise_cons.2 ⟨fun r h => ?_, ih⟩
    obtain ⟨-, below | top⟩ := bounds_of_mem_runsBelow h nofun
    · show r.hi + 1 < n + 1
      omega
    · simp at top

/-- A position is set just when it lies in a run. -/
theorem mem_runs_iff (mask : Word) (i : Nat) :
    (∃ r ∈ runs mask, r.lo ≤ i ∧ i ≤ r.hi) ↔ mask.getLsbD i = true := by
  have bound : ∀ hi ∈ (none : Option Nat), 32 ≤ hi := nofun
  rw [runs, mem_runsBelow_iff bound]
  simp only [Option.mem_def, reduceCtorEq, false_and, exists_false, or_false, and_iff_right_iff_imp]
  exact BitVec.lt_of_getLsbD

theorem inWord_of_mem_runs {r : BitRange} (h : r ∈ runs mask) : r.InWord := by
  obtain ⟨order, below | top⟩ := bounds_of_mem_runsBelow h nofun
  · exact ⟨order, below⟩
  · simp at top

/-- Each two runs have a clear position between them, and higher runs come first. -/
theorem pairwise_runs (mask : Word) : (runs mask).Pairwise fun a b => b.hi + 1 < a.lo :=
  pairwise_runsBelow 32 none

/-- The ranges are the maximal runs of set bits, the higher ones first: a clear position stands
between each two, and the positions in them are those that are set. -/
structure MaximalRuns (mask : Word) (ranges : List BitRange) : Prop where
  inWord : ∀ r ∈ ranges, r.InWord
  apart : ranges.Pairwise fun a b => b.hi + 1 < a.lo
  set_iff : ∀ i, mask.getLsbD i = true ↔ ∃ r ∈ ranges, r.lo ≤ i ∧ i ≤ r.hi

theorem maximalRuns_runs (mask : Word) : MaximalRuns mask (runs mask) :=
  ⟨fun _ => inWord_of_mem_runs, pairwise_runs mask, fun i => (mem_runs_iff mask i).symm⟩

/-- Two words have the same value in each run just when they agree on the mask. -/
theorem forall_read_runs_iff {mask v w : Word} :
    (∀ r ∈ runs mask, r.read v = r.read w) ↔ v &&& mask = w &&& mask := by
  simp only [BitRange.read_eq_read_iff, and_eq_and_iff]
  constructor
  · intro h i set
    obtain ⟨r, hr, lo, hi⟩ := (mem_runs_iff mask i).2 set
    exact h r hr i lo hi
  · intro h r hr i lo hi
    exact h i ((mem_runs_iff mask i).1 ⟨r, hr, lo, hi⟩)

end Opcodes.Word
