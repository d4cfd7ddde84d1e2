import Opcodes.Layout
import Opcodes.Text.Numeral

/-!
# Decoded words

A word is an instruction or illegal; an illegal word is an answer and no error. `render` writes
either as one line of assembly.
-/
set_option autoImplicit false

namespace Opcodes

structure Operand where
  field : Field
  value : Int
deriving DecidableEq, Repr

/-- Registers are numbered after an `x`. The number of a control register is written in three
hexadecimal digits, a negative one as the sixty-four bits of its two's complement. -/
def Operand.render (o : Operand) : String :=
  if o.field.isRegister then s!"{o.field.text}=x{o.value}"
  else if o.field = .csr then s!"csr={Numeral.hexPadded 3 (BitVec.ofInt 64 o.value).toNat}"
  else s!"{o.field.text}={o.value}"

structure Instruction where
  word : Word
  operator : String
  operands : List Operand
  /-- In bytes. -/
  length : Nat
deriving DecidableEq, Repr

namespace Instruction

/-- The first value of a field. -/
def operand? (i : Instruction) (field : Field) : Option Int :=
  (i.operands.find? (·.field = field)).map (·.value)

def render (i : Instruction) : String :=
  if i.operands = [] then i.operator
  else s!"{i.operator} " ++ String.intercalate ", " (i.operands.map Operand.render)

end Instruction

inductive Decoded where
  | instruction (i : Instruction)
  | illegal (word : Word)
deriving DecidableEq, Repr

namespace Decoded

def word : Decoded → Word
  | instruction i => i.word
  | illegal w => w

def instruction? : Decoded → Option Instruction
  | instruction i => some i
  | illegal _ => none

def render : Decoded → String
  | instruction i => i.render
  | illegal w => s!".word {Numeral.hexPadded 8 w.toNat}"

end Decoded

end Opcodes
