import Opcodes.Word
import Opcodes.Text.Numeral

/-!
# Faults of a table text

A line is refused for one of nine causes. The fault of a table is its first refused line, with the
line's number and text.
-/
set_option autoImplicit false

namespace Opcodes

/-- Why a line is no rule. Texts are those of the line. -/
inductive LineFault where
  | malformedRange (text : String)
  | invertedRange (range : BitRange)
  | outOfWord (position : Nat)
  | malformedValue (text : String)
  | valueTooWide (value width : Nat)
  | unknownOperand (text : String)
  | repeatedOperand (text : String)
  | overlap (range : BitRange)
  | unconstrained
deriving DecidableEq, Repr

def LineFault.message : LineFault → String
  | malformedRange text => s!"malformed bit range `{text}`"
  | invertedRange range => s!"inverted bit range {range.text}"
  | outOfWord position => s!"bit {position} lies outside the 32-bit word"
  | malformedValue text => s!"malformed value `{text}`"
  | valueTooWide value width =>
    s!"value {Numeral.hex value} does not fit in {width} bit(s)"
  | unknownOperand text => s!"unknown operand `{text}`"
  | repeatedOperand text => s!"operand `{text}` declared twice"
  | overlap range => s!"constraint {range.text} overlaps an earlier constraint"
  | unconstrained => "rule constrains no bits"

structure TableFault where
  /-- Counted from 1. -/
  line : Nat
  /-- The line without the blanks around it. -/
  text : String
  cause : LineFault
deriving DecidableEq, Repr

def TableFault.message (f : TableFault) : String :=
  s!"line {f.line}: {f.cause.message} in `{f.text}`"

end Opcodes
