import Opcodes.Word

/-!
# Encoders of the formats

One function for each format, from registers and an immediate to a word. A number below zero is
taken in two's complement. Nothing is checked: each value must be one that its field has room for,
and a register of a three-bit field one from x8 on.
-/
set_option autoImplicit false

namespace Opcodes.Rv32

def bit (v : Word) (n : Nat) : Word := v >>> n &&& 1

def bits (v : Word) (hi lo : Nat) : Word := v >>> lo &&& ((1 : Word) <<< (hi - lo + 1) - 1)

/-! ## 32-bit formats -/

def encodeI (opcode funct3 rd rs1 : Word) (imm : Int) : Word :=
  (BitVec.ofInt 32 imm &&& 0xFFF) <<< 20 ||| rs1 <<< 15 ||| funct3 <<< 12 ||| rd <<< 7 ||| opcode

def encodeB (funct3 rs1 rs2 : Word) (offset : Int) : Word :=
  let i := BitVec.ofInt 32 offset
  bit i 12 <<< 31 ||| bits i 10 5 <<< 25 ||| rs2 <<< 20 ||| rs1 <<< 15 ||| funct3 <<< 12 |||
    bits i 4 1 <<< 8 ||| bit i 11 <<< 7 ||| 0x63

def encodeS (funct3 rs1 rs2 : Word) (offset : Int) : Word :=
  let i := BitVec.ofInt 32 offset
  bits i 11 5 <<< 25 ||| rs2 <<< 20 ||| rs1 <<< 15 ||| funct3 <<< 12 ||| bits i 4 0 <<< 7 ||| 0x23

def encodeJ (rd : Word) (offset : Int) : Word :=
  let i := BitVec.ofInt 32 offset
  bit i 20 <<< 31 ||| bits i 10 1 <<< 21 ||| bit i 11 <<< 20 ||| bits i 19 12 <<< 12 |||
    rd <<< 7 ||| 0x6F

def encodeLui (rd imm20 : Word) : Word := imm20 <<< 12 ||| rd <<< 7 ||| 0x37

/-! ## 16-bit formats -/

def encodeCBranch (funct3 rs1 : Word) (offset : Int) : Word :=
  let i := BitVec.ofInt 32 offset
  funct3 <<< 13 ||| bit i 8 <<< 12 ||| bits i 4 3 <<< 10 ||| (rs1 - 8) <<< 7 |||
    bits i 7 6 <<< 5 ||| bits i 2 1 <<< 3 ||| bit i 5 <<< 2 ||| 1

def encodeCJump (funct3 : Word) (offset : Int) : Word :=
  let i := BitVec.ofInt 32 offset
  funct3 <<< 13 ||| bit i 11 <<< 12 ||| bit i 4 <<< 11 ||| bits i 9 8 <<< 9 ||| bit i 10 <<< 8 |||
    bit i 6 <<< 7 ||| bit i 7 <<< 6 ||| bits i 3 1 <<< 3 ||| bit i 5 <<< 2 ||| 1

def encodeCAddi16sp (imm : Int) : Word :=
  let i := BitVec.ofInt 32 imm
  (3 : Word) <<< 13 ||| bit i 9 <<< 12 ||| (2 : Word) <<< 7 ||| bit i 4 <<< 6 ||| bit i 6 <<< 5 |||
    bits i 8 7 <<< 3 ||| bit i 5 <<< 2 ||| 1

def encodeCLui (rd : Word) (imm : Int) : Word :=
  let i := BitVec.ofInt 32 imm
  (3 : Word) <<< 13 ||| bit i 5 <<< 12 ||| rd <<< 7 ||| bits i 4 0 <<< 2 ||| 1

def encodeCLi (rd : Word) (imm : Int) : Word :=
  let i := BitVec.ofInt 32 imm
  (2 : Word) <<< 13 ||| bit i 5 <<< 12 ||| rd <<< 7 ||| bits i 4 0 <<< 2 ||| 1

def encodeCAddi4spn (rd imm : Word) : Word :=
  bits imm 5 4 <<< 11 ||| bits imm 9 6 <<< 7 ||| bit imm 2 <<< 6 ||| bit imm 3 <<< 5 |||
    (rd - 8) <<< 2

def encodeCLw (rd rs1 imm : Word) : Word :=
  (2 : Word) <<< 13 ||| bits imm 5 3 <<< 10 ||| (rs1 - 8) <<< 7 ||| bit imm 2 <<< 6 |||
    bit imm 6 <<< 5 ||| (rd - 8) <<< 2

def encodeCLwsp (rd imm : Word) : Word :=
  (2 : Word) <<< 13 ||| bit imm 5 <<< 12 ||| rd <<< 7 ||| bits imm 4 2 <<< 4 |||
    bits imm 7 6 <<< 2 ||| 2

def encodeCSwsp (rs2 imm : Word) : Word :=
  (6 : Word) <<< 13 ||| bits imm 5 2 <<< 9 ||| bits imm 7 6 <<< 7 ||| rs2 <<< 2 ||| 2

end Opcodes.Rv32
