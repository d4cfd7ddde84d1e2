import Opcodes.Word
import Opcodes.OperandName

/-!
# Encoding rules

A rule says which words encode an instruction: each constraint fixes the value of a range of bits,
and the operands name what the free bits mean. `mask` and `pattern` sum the constraints up, and
`Matches` is all that decoding asks of a rule.
-/
set_option autoImplicit false

namespace Opcodes

/-- A range of bits and the value that a word must hold in it. -/
structure FixedBits where
  range : BitRange
  value : Word
deriving DecidableEq, Repr

namespace FixedBits

def mask (c : FixedBits) : Word := c.range.mask

def pattern (c : FixedBits) : Word := c.range.place c.value

end FixedBits

structure Rule where
  operator : String
  /-- In the order of declaration. -/
  operands : List OperandName
  constraints : List FixedBits
  /-- The line of the table, counted from 1. -/
  line : Nat
deriving DecidableEq, Repr

namespace Rule

/-- The bits that the rule fixes. -/
def mask (r : Rule) : Word := Word.union (r.constraints.map FixedBits.mask)

/-- The values of the fixed bits, as written: a value too wide for its range reaches past it. -/
def pattern (r : Rule) : Word := Word.union (r.constraints.map FixedBits.pattern)

/-- The values of the fixed bits and nothing else. -/
def encoding (r : Rule) : Word := r.pattern &&& r.mask

/-- The word has the values that the rule fixes. -/
def Matches (r : Rule) (w : Word) : Prop := w &&& r.mask = r.encoding

instance (r : Rule) (w : Word) : Decidable (r.Matches w) := inferInstanceAs (Decidable (_ = _))

/-- The number of bits that the rule fixes. -/
def specificity (r : Rule) : Nat := Word.weight r.mask

/-- The operands in the order of the vocabulary. -/
def sortedOperands (r : Rule) : List OperandName := OperandName.sort r.operands

/-- Two spellings of one rule: line, order of operands and cut of the ranges do not count. -/
def same (a b : Rule) : Bool :=
  a.operator == b.operator && a.mask == b.mask && a.pattern == b.pattern &&
    a.sortedOperands == b.sortedOperands

end Rule

end Opcodes
