/-!
# Numerals

Natural numbers in a radix up to sixteen, below a bound. `read` goes from left to right and stops
at the first digit that is none or that takes the number to the bound, so of two faults the
leftmost is reported. `hex` and `hexPadded` write lower-case hexadecimal.
-/
set_option autoImplicit false

namespace Opcodes.Numeral

/-- The bound of the numbers of thirty-two bits. -/
def bound32 : Nat := 0x100000000

/-- The bound of the numbers of sixty-four bits. -/
def bound64 : Nat := 0x10000000000000000

/-- Why a text is no numeral. -/
inductive Fault where
  | empty
  | invalidDigit
  | tooLarge
deriving DecidableEq, Repr

namespace Fault

def message : Fault → String
  | empty => "cannot parse integer from empty string"
  | invalidDigit => "invalid digit found in string"
  | tooLarge => "number too large to fit in target type"

end Fault

/-- The value of a character as a digit, in either case. Only ASCII characters are digits. -/
def digit? (radix : Nat) (c : Char) : Option Nat :=
  let value? :=
    if '0' ≤ c ∧ c ≤ '9' then some (c.toNat - '0'.toNat)
    else if 'a' ≤ c ∧ c ≤ 'z' then some (c.toNat - 'a'.toNat + 10)
    else if 'A' ≤ c ∧ c ≤ 'Z' then some (c.toNat - 'A'.toNat + 10)
    else none
  value?.filter (· < radix)

/-- Continues the number `n` with the digits of a text. -/
def readDigits (radix bound : Nat) : Nat → List Char → Except Fault Nat
  | n, [] => .ok n
  | n, c :: cs =>
    match digit? radix c with
    | none => .error .invalidDigit
    | some d =>
      if n * radix + d < bound then readDigits radix bound (n * radix + d) cs
      else .error .tooLarge

/-- Reads a numeral below `bound`: digits after at most one plus sign. -/
def read (radix bound : Nat) : List Char → Except Fault Nat
  | [] => .error .empty
  | ['+'] => .error .invalidDigit
  | '+' :: cs => readDigits radix bound 0 cs
  | cs => readDigits radix bound 0 cs

/-- The radix a literal announces and its digits: `0x`, `0b` and `0o` announce sixteen, two and
eight, anything else is decimal. -/
def splitRadix : List Char → Nat × List Char
  | '0' :: 'x' :: cs => (16, cs)
  | '0' :: 'b' :: cs => (2, cs)
  | '0' :: 'o' :: cs => (8, cs)
  | cs => (10, cs)

/-- Reads an integer literal of at most sixty-four bits. Underscores separate digits and may stand
anywhere, and letters count in either case. -/
def literal? (cs : List Char) : Option Nat :=
  let (radix, digits) := splitRadix ((cs.filter (· ≠ '_')).map Char.toLower)
  (read radix bound64 digits).toOption

/-- Hexadecimal digits, without leading zeros. -/
def hex (n : Nat) : String := "0x" ++ String.ofList (Nat.toDigits 16 n)

/-- Hexadecimal with at least `width` digits. -/
def hexPadded (width n : Nat) : String :=
  "0x" ++ String.ofList ((Nat.toDigits 16 n).leftpad width '0')

end Opcodes.Numeral
