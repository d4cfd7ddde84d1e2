/-!
# Blanks

The characters that separate tokens: those with the property `White_Space`, twenty-five code
points. Every character that core counts as white space is one (`isBlank_of_isWhitespace`).
-/
set_option autoImplicit false

namespace Opcodes.Text

/-- The code point ranges of `White_Space`, first and last. -/
def blankRanges : List (Nat × Nat) :=
  [(0x09, 0x0d), (0x20, 0x20), (0x85, 0x85), (0xa0, 0xa0), (0x1680, 0x1680), (0x2000, 0x200a),
   (0x2028, 0x2029), (0x202f, 0x202f), (0x205f, 0x205f), (0x3000, 0x3000)]

def isBlank (c : Char) : Bool :=
  blankRanges.any fun (first, last) => first ≤ c.toNat && c.toNat ≤ last

theorem isBlank_of_isWhitespace (c : Char) (h : c.isWhitespace = true) : isBlank c = true := by
  simp only [Char.isWhitespace, Bool.or_eq_true, decide_eq_true_eq] at h
  rcases h with ((rfl | rfl) | rfl) | rfl <;> decide

/-- The text without the blanks at its two ends. -/
def trim (cs : List Char) : List Char :=
  ((cs.dropWhile isBlank).reverse.dropWhile isBlank).reverse

/-- The maximal stretches without blanks, in order. -/
def words : List Char → List (List Char)
  | [] => []
  | [c] => if isBlank c then [] else [[c]]
  | c :: d :: cs =>
    if isBlank c then words (d :: cs)
    else if isBlank d then [c] :: words (d :: cs)
    else match words (d :: cs) with
      | [] => [[c]]
      | w :: ws => (c :: w) :: ws

end Opcodes.Text
