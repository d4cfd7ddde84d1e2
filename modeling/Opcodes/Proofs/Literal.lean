import Opcodes.Proofs.Numeral
import Opcodes.Rule.Parser

/-!
# Integer literals

What `Numeral.Literal` says of a literal, character by character. Without its underscores and in small
letters, a literal is the mark of a radix, at most one plus sign and a number of digits of that radix,
so two texts that agree in this form are literals of one number. The value of a constraint is read
from such a text and from no other (`parseValue_outcome`).
-/
set_option autoImplicit false

namespace Opcodes

namespace Numeral

variable {radix n d : Nat} {c : Char} {cs : List Char} {ds : List Nat}

/-- The text without underscores and in small letters. -/
def plain (cs : List Char) : List Char := (cs.filter (· ≠ '_')).map Char.toLower

theorem toLower_of_mem_plain (mem : c ∈ plain cs) : c.toLower = c := by
  obtain ⟨b, -, rfl⟩ := List.mem_map.1 mem
  exact Char.toLower_toLower_eq_toLower b

/-- A digit is an ASCII character, and its value does not depend on the radix. -/
theorem digit?_eq_some_imp (digit : digit? radix c = some d) :
    d < radix ∧ c.toNat < 128 ∧ ∀ wider, d < wider → digit? wider c = some d := by
  unfold digit? at digit ⊢
  simp only [Option.filter_eq_some_iff, decide_eq_true_eq] at digit ⊢
  obtain ⟨value, below⟩ := digit
  refine ⟨below, ?_, fun wider above => ⟨value, above⟩⟩
  have bound : ∀ {last : Char}, c ≤ last → c.toNat ≤ last.toNat := fun le => le
  split at value
  · rename_i range
    exact (bound range.2).trans_lt (by decide)
  · split at value
    · rename_i range
      exact (bound range.2).trans_lt (by decide)
    · split at value
      · rename_i range
        exact (bound range.2).trans_lt (by decide)
      · cases value

/-- A digit in small letters is the one that is written for its value. -/
theorem eq_digitChar_of_digit? (radix_le : radix ≤ 16) (small : c.toLower = c)
    (digit : digit? radix c = some d) : d < radix ∧ c = d.digitChar := by
  obtain ⟨below, ascii, wider⟩ := digit?_eq_some_imp digit
  have each : ∀ k < 128, ∀ d ∈ digit? 16 (Char.ofNat k),
      (Char.ofNat k).toLower = d.digitChar := by decide
  have written := each c.toNat ascii d (by
    rw [Char.ofNat_toNat]
    exact wider 16 (below.trans_le radix_le))
  rw [Char.ofNat_toNat, small] at written
  exact ⟨below, written⟩

/-- In small letters, digits are those that are written for their values. -/
theorem forall₂_digit?_iff (radix_le : radix ≤ 16) (small : ∀ c ∈ cs, c.toLower = c) :
    List.Forall₂ (fun c d => digit? radix c = some d) cs ds ↔
      (∀ d ∈ ds, d < radix) ∧ cs = ds.map Nat.digitChar := by
  constructor
  · intro digits
    induction digits with
    | nil => exact ⟨List.forall_mem_nil _, rfl⟩
    | cons digit _ ih =>
      obtain ⟨head, tail⟩ := List.forall_mem_cons.1 small
      obtain ⟨below, rfl⟩ := eq_digitChar_of_digit? radix_le head digit
      obtain ⟨rest, rfl⟩ := ih tail
      exact ⟨List.forall_mem_cons.2 ⟨below, rest⟩, rfl⟩
  · rintro ⟨below, rfl⟩
    rw [List.forall₂_map_left_iff, List.forall₂_same]
    exact fun d mem => digit?_digitChar radix_le (below d mem)

/-- A literal is the mark of a radix, at most one plus sign and the digits of a number of at most
sixty-four bits. -/
theorem literal_iff_plain_eq : Literal cs n ↔ n < bound64 ∧ ∃ radix mark sign ds,
    (radix, mark) ∈ marks ∧ (sign = [] ∨ sign = ['+']) ∧ ds ≠ [] ∧ (∀ d ∈ ds, d < radix) ∧
      plain cs = mark ++ sign ++ ds.map Nat.digitChar ∧ Nat.ofDigits radix ds.reverse = n := by
  -- the digits are a part of the plain text
  have small : ∀ {before digits : List Char}, plain cs = before ++ digits →
      ∀ c ∈ digits, c.toLower = c := by
    intro before digits split c mem
    exact toLower_of_mem_plain (split ▸ List.mem_append_right before mem)
  constructor
  · rintro ⟨radix, mark, _, mem, split, sign, digits, rfl, sign_eq, ⟨nonempty, ds, read, value⟩, below⟩
    have split : plain cs = mark ++ sign ++ digits := split.trans (List.append_assoc ..).symm
    obtain ⟨digit_lt, rfl⟩ :=
      (forall₂_digit?_iff (radix_of_mem_marks mem).2 (small split)).1 read
    refine ⟨below, radix, mark, sign, ds, mem, sign_eq, ?_, digit_lt, split, value⟩
    exact fun nil => nonempty (List.map_eq_nil_iff.2 nil)
  · rintro ⟨below, radix, mark, sign, ds, mem, sign_eq, nonempty, digit_lt, split, value⟩
    refine ⟨radix, mark, sign ++ ds.map Nat.digitChar, mem, split.trans (List.append_assoc ..), sign,
      ds.map Nat.digitChar, rfl, sign_eq, ⟨mt List.map_eq_nil_iff.1 nonempty, ds, ?_, value⟩, below⟩
    exact (forall₂_digit?_iff (radix_of_mem_marks mem).2 (small split)).2 ⟨digit_lt, rfl⟩

/-- Texts that differ in underscores and the case of letters are literals of the same numbers. -/
theorem literal_congr {cs' : List Char} (same : plain cs = plain cs') :
    Literal cs n ↔ Literal cs' n := by
  rw [literal_iff_plain_eq, literal_iff_plain_eq, same]

end Numeral

namespace FixedBits

theorem parseValue_eq_ok_iff {cs : List Char} {n : Nat} :
    parseValue cs = .ok n ↔ Numeral.Literal cs n := by
  rw [← Numeral.literal?_eq_some_iff, parseValue]
  cases Numeral.literal? cs with
  | none => simp
  | some value => rw [Except.ok.injEq, Option.some.injEq]

theorem parseValue_eq_ok_or (cs : List Char) : (∃ n, parseValue cs = .ok n) ∨
    parseValue cs = .error (.malformedValue (String.ofList cs)) := by
  rw [parseValue]
  cases Numeral.literal? cs with
  | none => exact .inr rfl
  | some value => exact .inl ⟨value, rfl⟩

/-- A text is read as a number just when, without its underscores and in small letters, it is the mark
of a radix, at most one plus sign and digits of that radix, at least one, whose number has at most
sixty-four bits. Any other text is refused, and the fault has it as it is. So a number that is written
in one of the radices is read back, wherever underscores are put and whatever the case of letters. -/
theorem parseValue_outcome (s : String) :
    (∀ n, parseValue s.toList = .ok n ↔ n < Numeral.bound64 ∧ ∃ radix mark sign ds,
      (radix, mark) ∈ Numeral.marks ∧ (sign = [] ∨ sign = ['+']) ∧ ds ≠ [] ∧
      (∀ d ∈ ds, d < radix) ∧ Numeral.plain s.toList = mark ++ sign ++ ds.map Nat.digitChar ∧
      Nat.ofDigits radix ds.reverse = n) ∧
    ((∃ n, parseValue s.toList = .ok n) ∨ parseValue s.toList = .error (.malformedValue s)) ∧
    ∀ n < Numeral.bound64, ∀ radix mark, (radix, mark) ∈ Numeral.marks →
      Numeral.plain s.toList = Numeral.plain (Numeral.write radix mark n) →
      parseValue s.toList = .ok n := by
  refine ⟨fun n => ?_, ?_, fun n below radix mark mem same => ?_⟩
  · rw [parseValue_eq_ok_iff, Numeral.literal_iff_plain_eq]
  · have outcome := parseValue_eq_ok_or s.toList
    rwa [String.ofList_toList] at outcome
  · rw [parseValue_eq_ok_iff, Numeral.literal_congr same]
    exact Numeral.literal_write mem below

/-- An underscore in the mark, a sign behind it, both cases of letters: all this is one number. The
next number after the largest is none. -/
theorem parseValue_spellings : parseValue "0_X+fF".toList = .ok 255 ∧
    parseValue "__0B1_1".toList = .ok 3 ∧
    parseValue "1844674407370955161_6".toList = .error (.malformedValue "1844674407370955161_6") := by
  obtain ⟨hex, -, -⟩ := parseValue_outcome "0_X+fF"
  obtain ⟨-, -, binary⟩ := parseValue_outcome "__0B1_1"
  obtain ⟨-, refused, -⟩ := parseValue_outcome "1844674407370955161_6"
  have large : ¬∃ n, parseValue "1844674407370955161_6".toList = .ok n := by
    rintro ⟨n, read⟩
    have fails : (parseValue "1844674407370955161_6".toList).isOk = false := by decide +kernel
    rw [read] at fails
    cases fails
  refine ⟨(hex 255).2 ⟨by decide, 16, ['0', 'x'], ['+'], [15, 15], by decide, .inr rfl, by decide,
    by decide, by decide +kernel, by decide⟩, ?_, refused.resolve_left large⟩
  exact binary 3 (by decide) 2 ['0', 'b'] (by decide) (by decide +kernel)

end FixedBits

end Opcodes
