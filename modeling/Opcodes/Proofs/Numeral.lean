import Mathlib
import Opcodes.Text.Numeral

/-!
# What a numeral says

A numeral spells a number: digits, the most significant first, after at most one plus sign, and the
number lies below a bound. `read` finds it just when there is one (`read_eq_ok_iff`): the bound is
passed at some digit just when the whole number reaches it. A literal is a numeral in the radix that
its mark announces, and every number has a literal in each of the four radices.
-/
set_option autoImplicit false

namespace Opcodes.Numeral

variable {radix bound n : Nat} {cs : List Char}

/-- The digits of a number, the most significant first; zeros may stand in front. -/
def Digits (radix : Nat) (cs : List Char) (n : Nat) : Prop :=
  cs ≠ [] ∧ ∃ ds, List.Forall₂ (fun c d => digit? radix c = some d) cs ds ∧
    Nat.ofDigits radix ds.reverse = n

/-- The text is a numeral of a number below the bound. -/
def Spells (radix bound : Nat) (cs : List Char) (n : Nat) : Prop :=
  ∃ sign digits, cs = sign ++ digits ∧ (sign = [] ∨ sign = ['+']) ∧ Digits radix digits n ∧
    n < bound

theorem le_ofDigits_append (positive : 0 < radix) (ds : List Nat) (d : Nat) :
    d ≤ Nat.ofDigits radix (ds ++ [d]) := by
  rw [Nat.ofDigits_append, Nat.ofDigits_singleton]
  have one_le : 1 ≤ radix ^ ds.length := Nat.one_le_pow _ _ positive
  calc d
    _ = 1 * d := (Nat.one_mul d).symm
    _ ≤ radix ^ ds.length * d := Nat.mul_le_mul_right d one_le
    _ ≤ _ := Nat.le_add_left _ _

theorem ofDigits_append_pair (ds : List Nat) (d acc : Nat) :
    Nat.ofDigits radix (ds ++ [d, acc]) = Nat.ofDigits radix (ds ++ [acc * radix + d]) := by
  rw [Nat.ofDigits_append, Nat.ofDigits_append, Nat.ofDigits_cons, Nat.ofDigits_singleton,
    Nat.ofDigits_singleton, Nat.mul_comm acc, Nat.add_comm d]

/-- Digits continue a number that is below the bound as long as the result is. -/
theorem readDigits_eq_ok_iff (positive : 0 < radix) {acc : Nat} (small : acc < bound) :
    readDigits radix bound acc cs = .ok n ↔ n < bound ∧ ∃ ds,
      List.Forall₂ (fun c d => digit? radix c = some d) cs ds ∧
        Nat.ofDigits radix (ds.reverse ++ [acc]) = n := by
  induction cs generalizing acc with
  | nil =>
    rw [readDigits, Except.ok.injEq]
    simp only [List.forall₂_nil_left_iff, exists_eq_left, List.reverse_nil, List.nil_append,
      Nat.ofDigits_singleton]
    constructor
    · rintro rfl
      exact ⟨small, rfl⟩
    · exact And.right
  | cons c cs ih =>
    rw [readDigits]
    simp only [List.forall₂_cons_left_iff]
    cases digit : digit? radix c with
    | none => simp
    | some d =>
      -- the number so far counts as one more leading digit
      have moved : ∀ ds : List Nat, Nat.ofDigits radix ((d :: ds).reverse ++ [acc]) =
          Nat.ofDigits radix (ds.reverse ++ [acc * radix + d]) := by
        intro ds
        rw [List.reverse_cons, List.append_assoc]
        exact ofDigits_append_pair _ _ _
      dsimp only
      split
      · rename_i below
        rw [ih below]
        refine and_congr_right fun _ => ?_
        constructor
        · rintro ⟨ds, rest, rfl⟩
          exact ⟨d :: ds, ⟨d, ds, rfl, rest, rfl⟩, moved ds⟩
        · rintro ⟨_, ⟨d', ds, same, rest, rfl⟩, rfl⟩
          cases same
          exact ⟨ds, rest, (moved ds).symm⟩
      · rename_i above
        refine iff_of_false (by simp) ?_
        rintro ⟨less, _, ⟨d', ds, same, -, rfl⟩, value⟩
        cases same
        rw [moved] at value
        have := le_ofDigits_append positive ds.reverse (acc * radix + d)
        omega

/-- From the start, digits are read as their number. -/
theorem readDigits_zero_iff (positive : 0 < radix) (room : 0 < bound) (nonempty : cs ≠ []) :
    readDigits radix bound 0 cs = .ok n ↔ Digits radix cs n ∧ n < bound := by
  rw [readDigits_eq_ok_iff positive room, and_comm, Digits]
  simp only [Nat.ofDigits_append_zero, ne_eq, nonempty, not_false_eq_true, true_and]

/-- A plus sign is no digit. -/
theorem not_digits_plus (cs : List Char) (n : Nat) : ¬Digits radix ('+' :: cs) n := by
  rintro ⟨-, ds, digits, -⟩
  obtain ⟨d, _, digit, -, -⟩ := List.forall₂_cons_left_iff.1 digits
  cases digit

theorem spells_plus_iff : Spells radix bound ('+' :: cs) n ↔ Digits radix cs n ∧ n < bound := by
  constructor
  · rintro ⟨sign, digits, split, rfl | rfl, number, below⟩
    · rw [List.nil_append] at split
      rw [← split] at number
      exact absurd number (not_digits_plus cs n)
    · obtain ⟨-, rfl⟩ := List.cons.inj split
      exact ⟨number, below⟩
  · rintro ⟨number, below⟩
    exact ⟨['+'], cs, rfl, .inr rfl, number, below⟩

theorem spells_iff_of_ne {c : Char} (ne : c ≠ '+') :
    Spells radix bound (c :: cs) n ↔ Digits radix (c :: cs) n ∧ n < bound := by
  constructor
  · rintro ⟨sign, digits, split, rfl | rfl, number, below⟩
    · rw [List.nil_append] at split
      exact ⟨split ▸ number, below⟩
    · exact absurd (List.cons.inj split).1 ne
  · rintro ⟨number, below⟩
    exact ⟨[], c :: cs, rfl, .inl rfl, number, below⟩

/-- A text is read as a number just when it spells it. -/
theorem read_eq_ok_iff (positive : 0 < radix) (room : 0 < bound) :
    read radix bound cs = .ok n ↔ Spells radix bound cs n := by
  unfold read
  split
  · refine iff_of_false (by simp) ?_
    rintro ⟨sign, digits, split, -, ⟨nonempty, -⟩, -⟩
    exact nonempty (List.append_eq_nil_iff.1 split.symm).2
  · refine iff_of_false (by simp) ?_
    rw [spells_plus_iff]
    rintro ⟨⟨nonempty, -⟩, -⟩
    exact nonempty rfl
  · rename_i cs more
    rw [spells_plus_iff, readDigits_zero_iff positive room more]
  · rename_i nonempty notLone notPlus
    cases cs with
    | nil => exact absurd rfl nonempty
    | cons c cs =>
      have ne : c ≠ '+' := fun eq => notPlus cs (by rw [eq])
      rw [spells_iff_of_ne ne, readDigits_zero_iff positive room (List.cons_ne_nil _ _)]

/-- Every character of a number is a digit. -/
theorem isSome_digit?_of_digits (number : Digits radix cs n) {c : Char} (mem : c ∈ cs) :
    (digit? radix c).isSome = true := by
  obtain ⟨-, ds, digits, -⟩ := number
  induction digits with
  | nil => cases mem
  | cons digit _ ih =>
    rcases List.mem_cons.1 mem with rfl | mem
    · rw [digit, Option.isSome_some]
    · exact ih mem

/-- Nothing stands in a numeral but its sign and its digits. -/
theorem not_mem_of_spells {c : Char} (letter : digit? radix c = none) (ne : c ≠ '+')
    (spells : Spells radix bound cs n) : c ∉ cs := by
  obtain ⟨sign, digits, rfl, sign_eq, number, -⟩ := spells
  rw [List.mem_append, not_or]
  constructor
  · rcases sign_eq with rfl | rfl
    · exact List.not_mem_nil
    · exact fun mem => ne (List.mem_singleton.1 mem)
  · intro mem
    have digit := isSome_digit?_of_digits number mem
    rw [letter] at digit
    cases digit

/-! ## Literals -/

/-- The marks of the radices. -/
def marks : List (Nat × List Char) := [(10, []), (16, ['0', 'x']), (2, ['0', 'b']), (8, ['0', 'o'])]

theorem radix_of_mem_marks {mark : List Char} (mem : (radix, mark) ∈ marks) :
    1 < radix ∧ radix ≤ 16 := by
  simp only [marks, List.mem_cons, Prod.mk.injEq, List.not_mem_nil, or_false] at mem
  omega

/-- A number of at most sixty-four bits in the radix that the mark announces. Underscores and the
case of letters do not count. -/
def Literal (cs : List Char) (n : Nat) : Prop :=
  ∃ radix mark digits, (radix, mark) ∈ marks ∧
    (cs.filter (· ≠ '_')).map Char.toLower = mark ++ digits ∧ Spells radix bound64 digits n

theorem splitRadix_spec (cs : List Char) :
    ∃ radix mark digits, splitRadix cs = (radix, digits) ∧ (radix, mark) ∈ marks ∧
      cs = mark ++ digits := by
  unfold splitRadix
  split
  · exact ⟨16, ['0', 'x'], _, rfl, by decide, rfl⟩
  · exact ⟨2, ['0', 'b'], _, rfl, by decide, rfl⟩
  · exact ⟨8, ['0', 'o'], _, rfl, by decide, rfl⟩
  · exact ⟨10, [], _, rfl, by decide, rfl⟩

/-- No numeral begins with a mark whose letter is not one of its digits. -/
theorem not_spells_mark {d : Char} (letter : digit? radix d = none) :
    ¬Spells radix bound ('0' :: d :: cs) n := by
  rw [spells_iff_of_ne (by decide)]
  rintro ⟨number, -⟩
  have digit := isSome_digit?_of_digits number (List.mem_cons_of_mem _ List.mem_cons_self)
  rw [letter] at digit
  cases digit

theorem splitRadix_append {mark : List Char} (mem : (radix, mark) ∈ marks)
    (spells : Spells radix bound cs n) : splitRadix (mark ++ cs) = (radix, cs) := by
  simp only [marks, List.mem_cons, Prod.mk.injEq, List.not_mem_nil, or_false] at mem
  rcases mem with ⟨rfl, rfl⟩ | ⟨rfl, rfl⟩ | ⟨rfl, rfl⟩ | ⟨rfl, rfl⟩
  · rw [List.nil_append]
    unfold splitRadix
    split
    · exact absurd spells (not_spells_mark (by decide))
    · exact absurd spells (not_spells_mark (by decide))
    · exact absurd spells (not_spells_mark (by decide))
    · rfl
  · rfl
  · rfl
  · rfl

theorem toOption_eq_some_iff {x : Except Fault Nat} : x.toOption = some n ↔ x = .ok n := by
  cases x with
  | error fault => simp [Except.toOption]
  | ok m => simp [Except.toOption]

theorem literal?_eq_some_iff : literal? cs = some n ↔ Literal cs n := by
  have positive : ∀ {radix mark}, (radix, mark) ∈ marks → 0 < radix :=
    fun mem => Nat.zero_lt_of_lt (radix_of_mem_marks mem).1
  have room : 0 < bound64 := by decide
  unfold literal? Literal
  generalize (cs.filter (· ≠ '_')).map Char.toLower = plain
  constructor
  · intro found
    obtain ⟨radix, mark, digits, split, mem, rfl⟩ := splitRadix_spec plain
    rw [split] at found
    exact ⟨radix, mark, digits, mem, rfl,
      (read_eq_ok_iff (positive mem) room).1 (toOption_eq_some_iff.1 found)⟩
  · rintro ⟨radix, mark, digits, mem, rfl, spells⟩
    rw [splitRadix_append mem spells]
    exact toOption_eq_some_iff.2 ((read_eq_ok_iff (positive mem) room).2 spells)

/-- The number after the mark of a radix, in digits of that radix. -/
def write (radix : Nat) (mark : List Char) (n : Nat) : List Char := mark ++ Nat.toDigits radix n

/-- The digits that are written are those of the number. -/
theorem exists_toDigits_eq_map (radix_gt : 1 < radix) (n : Nat) : ∃ ds, ds ≠ [] ∧
    Nat.toDigits radix n = ds.map Nat.digitChar ∧ (∀ d ∈ ds, d < radix) ∧
      Nat.ofDigits radix ds.reverse = n := by
  induction n using Nat.strongRecOn with
  | ind n ih =>
    by_cases small : n < radix
    · refine ⟨[n], List.cons_ne_nil _ _, Nat.toDigits_of_lt_base small, ?_, ?_⟩
      · exact List.forall_mem_singleton.2 small
      · exact Nat.ofDigits_singleton
    · have large := Nat.le_of_not_lt small
      obtain ⟨ds, -, written, below, value⟩ := ih (n / radix) (Nat.div_lt_self (by omega) radix_gt)
      refine ⟨ds ++ [n % radix], by simp, ?_, ?_, ?_⟩
      · rw [Nat.toDigits_of_base_le radix_gt large, written, List.map_append]
        rfl
      · exact List.forall_mem_append.2
          ⟨below, List.forall_mem_singleton.2 (Nat.mod_lt _ (by omega))⟩
      · rw [List.reverse_append, List.reverse_singleton, List.singleton_append, Nat.ofDigits_cons,
          value]
        exact Nat.mod_add_div n radix

theorem digit?_digitChar (radix_le : radix ≤ 16) {d : Nat} (below : d < radix) :
    digit? radix d.digitChar = some d := by
  have digit : ∀ d < 16, ∀ radix ≤ 16, d < radix → digit? radix d.digitChar = some d := by decide
  exact digit d (below.trans_le radix_le) radix radix_le below

theorem digits_toDigits (radix_gt : 1 < radix) (bound : radix ≤ 16) (n : Nat) :
    Digits radix (Nat.toDigits radix n) n := by
  obtain ⟨ds, -, written, below, value⟩ := exists_toDigits_eq_map radix_gt n
  refine ⟨Nat.toDigits_ne_nil, ds, ?_, value⟩
  rw [written, List.forall₂_map_left_iff, List.forall₂_same]
  exact fun d mem => digit?_digitChar bound (below d mem)

theorem spells_toDigits (radix_gt : 1 < radix) (radix_le : radix ≤ 16) (below : n < bound) :
    Spells radix bound (Nat.toDigits radix n) n :=
  ⟨[], _, rfl, .inl rfl, digits_toDigits radix_gt radix_le n, below⟩

/-- Written digits have no underscore and no capital letter. -/
theorem plain_toDigits (radix_gt : 1 < radix) (bound : radix ≤ 16) (n : Nat) :
    ∀ c ∈ Nat.toDigits radix n, c ≠ '_' ∧ c.toLower = c := by
  obtain ⟨ds, -, written, below, -⟩ := exists_toDigits_eq_map radix_gt n
  rw [written, List.forall_mem_map]
  intro d mem
  have plain : ∀ d < 16, d.digitChar ≠ '_' ∧ d.digitChar.toLower = d.digitChar := by decide
  exact plain d ((below d mem).trans_le bound)

/-- Every number can be written in each radix. -/
theorem literal_write {mark : List Char} (mem : (radix, mark) ∈ marks) (below : n < bound64) :
    Literal (write radix mark n) n := by
  obtain ⟨radix_gt, bound⟩ := radix_of_mem_marks mem
  have plain : ∀ p ∈ marks, ∀ c ∈ p.2, c ≠ '_' ∧ c.toLower = c := by simp [marks]
  have unchanged : ((write radix mark n).filter (· ≠ '_')).map Char.toLower =
      write radix mark n := by
    have each : ∀ c ∈ write radix mark n, c ≠ '_' ∧ c.toLower = c :=
      List.forall_mem_append.2 ⟨plain _ mem, plain_toDigits radix_gt bound n⟩
    rw [List.filter_eq_self.2 fun c mem => by simpa using (each c mem).1]
    exact (List.map_congr_left fun c mem => (each c mem).2).trans (List.map_id _)
  exact ⟨radix, mark, _, mem, unchanged, spells_toDigits radix_gt bound below⟩

end Opcodes.Numeral
