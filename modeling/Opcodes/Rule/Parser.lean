import Opcodes.Rule
import Opcodes.Rule.Fault
import Opcodes.Text.Blank
import Opcodes.Text.Split

/-!
# Reading a table

A line holds one rule: the operator, then tokens in any order. A token with an equals sign fixes
bits (`hi..lo=value` or `position=value`), any other names an operand. Blank lines and lines that
start with `#` hold none. Tokens are read from left to right into a draft, so the leftmost fault of
the first refused line is the fault of the table.
-/
set_option autoImplicit false

namespace Opcodes

open Text

namespace BitRange

/-- Reads `hi..lo`, or one position for a range of one bit. -/
def parse (cs : List Char) : Except LineFault BitRange := do
  let position (ds : List Char) :=
    (Numeral.read 10 Numeral.bound32 ds).mapError fun _ => LineFault.malformedRange (String.ofList cs)
  let (hi, lo) := (cut? ['.', '.'] cs).getD (cs, cs)
  let range : BitRange := ⟨← position hi, ← position lo⟩
  if range.hi < range.lo then .error (.invertedRange range)
  else if 32 ≤ range.hi then .error (.outOfWord range.hi)
  else .ok range

end BitRange

namespace FixedBits

/-- Reads the value of a constraint, an integer literal. -/
def parseValue (cs : List Char) : Except LineFault Nat :=
  match Numeral.literal? cs with
  | none => .error (.malformedValue (String.ofList cs))
  | some value => .ok value

/-- Reads a constraint from what stands left and right of its equals sign. -/
def parse (left right : List Char) : Except LineFault FixedBits := do
  let range ← BitRange.parse left
  let value ← parseValue right
  if value >>> range.width = 0 then .ok ⟨range, BitVec.ofNat 32 value⟩
  else .error (.valueTooWide value range.width)

end FixedBits

namespace Rule

/-- What the tokens of a line have said so far. -/
structure Draft where
  operands : List OperandName
  constraints : List FixedBits

namespace Draft

/-- The bits fixed so far. -/
def mask (d : Draft) : Word := Word.union (d.constraints.map FixedBits.mask)

/-- Fixes more bits, none of them a second time. -/
def constrain (d : Draft) (c : FixedBits) : Except LineFault Draft :=
  if d.mask &&& c.mask = 0 then .ok { d with constraints := d.constraints ++ [c] }
  else .error (.overlap c.range)

/-- Declares one more operand, none a second time. -/
def declare (d : Draft) (text : String) : Except LineFault Draft :=
  match OperandName.ofText? text with
  | none => .error (.unknownOperand text)
  | some name =>
    if name ∈ d.operands then .error (.repeatedOperand text)
    else .ok { d with operands := d.operands ++ [name] }

def add (d : Draft) (token : List Char) : Except LineFault Draft :=
  match cut? ['='] token with
  | some (left, right) => do d.constrain (← FixedBits.parse left right)
  | none => d.declare (String.ofList token)

end Draft

/-- Reads one line that is neither blank nor a comment. -/
def parse (line : Nat) (cs : List Char) : Except LineFault Rule :=
  match words cs with
  | [] => .error .unconstrained
  | operator :: tokens => do
    let draft ← tokens.foldlM Draft.add ⟨[], []⟩
    if draft.constraints = [] then .error .unconstrained
    else .ok ⟨String.ofList operator, draft.operands, draft.constraints, line⟩

/-- A trimmed line without a rule. -/
def isSkipped (cs : List Char) : Bool := cs.head?.all (· == '#')

/-- Reads the lines of a table, the first of which has the number `line`. -/
def parseLines (line : Nat) : List (List Char) → Except TableFault (List Rule)
  | [] => .ok []
  | cs :: rest =>
    let cs := trim cs
    if isSkipped cs then parseLines (line + 1) rest
    else match parse line cs with
      | .error cause => .error ⟨line, String.ofList cs, cause⟩
      | .ok rule => (parseLines (line + 1) rest).map (rule :: ·)

/-- The rules of a table text. A carriage return before a newline is a blank of its line. -/
def parseTable (text : String) : Except TableFault (List Rule) :=
  parseLines 1 (lines text.toList)

end Rule

end Opcodes
