import Opcodes.Layout.Registry

/-!
# Layouts of the RISC-V formats

The operand combinations of the RV32 instruction formats I, M, F, Zicsr and C. Slices of a split
immediate stand in the order of the format's bits, the most significant first.
-/
set_option autoImplicit false

namespace Opcodes.Riscv

/-- Word bits from `hi` to `lo`, put at bit `target` of the field. -/
def slice (hi lo target : Nat) : Slice := ⟨⟨hi, lo⟩, target⟩

/-- A five-bit register number. -/
def register (field : Field) (hi lo : Nat) : FieldLayout := ⟨field, [slice hi lo 0], 5, .register⟩

/-- A three-bit register number. -/
def compressedRegister (field : Field) (hi lo : Nat) : FieldLayout :=
  ⟨field, [slice hi lo 0], 3, .compressedRegister⟩

/-- A field that holds its value as a plain number. -/
def unsigned (field : Field) (hi lo : Nat) : FieldLayout :=
  ⟨field, [slice hi lo 0], hi + 1 - lo, .unsigned⟩

def signedImm (width : Nat) (slices : List Slice) : FieldLayout := ⟨.imm, slices, width, .signed⟩

def unsignedImm (width : Nat) (slices : List Slice) : FieldLayout :=
  ⟨.imm, slices, width, .unsigned⟩

/-! ## Fields of the 32-bit formats -/

def rd : FieldLayout := register .rd 11 7
def rs1 : FieldLayout := register .rs1 19 15
def rs2 : FieldLayout := register .rs2 24 20
def rs3 : FieldLayout := register .rs3 31 27
def rm : FieldLayout := unsigned .rm 14 12
def fm : FieldLayout := unsigned .fm 31 28
def pred : FieldLayout := unsigned .pred 27 24
def succ : FieldLayout := unsigned .succ 23 20
def shamt : FieldLayout := unsigned .shamt 24 20
def csr : FieldLayout := unsigned .csr 31 20
def zimm : FieldLayout := unsigned .zimm 19 15

def immI : FieldLayout := signedImm 12 [slice 31 20 0]

def immS : FieldLayout := signedImm 12 [slice 31 25 5, slice 11 7 0]

/-- Offset bits 12 and 10 to 5 in the upper part, 4 to 1 and 11 in the lower. -/
def immB : FieldLayout :=
  signedImm 13 [slice 31 31 12, slice 7 7 11, slice 30 25 5, slice 11 8 1]

def immU : FieldLayout := signedImm 32 [slice 31 12 12]

/-- Offset bits 20, 10 to 1, 11 and 19 to 12. -/
def immJ : FieldLayout :=
  signedImm 21 [slice 31 31 20, slice 19 12 12, slice 20 20 11, slice 30 21 1]

/-! ## Fields of the 16-bit formats -/

def cRd : FieldLayout := register .rd 11 7
def cRs1 : FieldLayout := register .rs1 11 7
def cRs2 : FieldLayout := register .rs2 6 2
def cRdLow : FieldLayout := compressedRegister .rd 4 2
def cRdHigh : FieldLayout := compressedRegister .rd 9 7
def cRs1High : FieldLayout := compressedRegister .rs1 9 7
def cRs2Low : FieldLayout := compressedRegister .rs2 4 2
def cShamt : FieldLayout := unsigned .shamt 6 2

/-- Immediate bits 5 to 4, 9 to 6, 2 and 3. -/
def immStackAddress : FieldLayout :=
  unsignedImm 10 [slice 12 11 4, slice 10 7 6, slice 6 6 2, slice 5 5 3]

/-- Immediate bits 5 to 3 in the upper part, 2 and 6 in the lower. -/
def immWordOffset : FieldLayout := unsignedImm 7 [slice 12 10 3, slice 6 6 2, slice 5 5 6]

def immSix : FieldLayout := signedImm 6 [slice 12 12 5, slice 6 2 0]

/-- Immediate bit 9 in the upper part, 4, 6, 8 to 7 and 5 in the lower. -/
def immStackAdjust : FieldLayout :=
  signedImm 10 [slice 12 12 9, slice 6 6 4, slice 5 5 6, slice 4 3 7, slice 2 2 5]

def immUpper : FieldLayout := signedImm 18 [slice 12 12 17, slice 6 2 12]

/-- Offset bits 11, 4, 9 to 8, 10, 6, 7, 3 to 1 and 5. -/
def immJump : FieldLayout :=
  signedImm 12 [slice 12 12 11, slice 11 11 4, slice 10 9 8, slice 8 8 10, slice 7 7 6,
    slice 6 6 7, slice 5 3 1, slice 2 2 5]

/-- Offset bits 8 and 4 to 3 in the upper part, 7 to 6, 2 to 1 and 5 in the lower. -/
def immBranch : FieldLayout :=
  signedImm 9 [slice 12 12 8, slice 11 10 3, slice 6 5 6, slice 4 3 1, slice 2 2 5]

/-- Immediate bit 5 in the upper part, 4 to 2 and 7 to 6 in the lower. -/
def immStackLoad : FieldLayout := unsignedImm 8 [slice 12 12 5, slice 6 4 2, slice 3 2 6]

/-- Immediate bits 5 to 2 and 7 to 6. -/
def immStackStore : FieldLayout := unsignedImm 8 [slice 12 9 2, slice 8 7 6]

/-! ## Operand combinations -/

def layouts : List (List OperandName × Layout) := [
  ([], []),
  ([.rd, .rs1, .rs2], [rd, rs1, rs2]),
  ([.rd, .rs1, .imm12], [rd, rs1, immI]),
  ([.rd, .rs1, .shamtw], [rd, rs1, shamt]),
  ([.imm12Hi, .imm12Lo, .rs1, .rs2], [rs1, rs2, immS]),
  ([.bimm12Hi, .bimm12Lo, .rs1, .rs2], [rs1, rs2, immB]),
  ([.rd, .imm20], [rd, immU]),
  ([.rd, .jimm20], [rd, immJ]),
  ([.fm, .pred, .succ, .rd, .rs1], [fm, pred, succ, rd, rs1]),
  ([.rd, .rs1], [rd, rs1]),
  ([.rd, .rs1, .rm], [rd, rs1, rm]),
  ([.rd, .rs1, .rs2, .rm], [rd, rs1, rs2, rm]),
  ([.rd, .rs1, .rs2, .rs3, .rm], [rd, rs1, rs2, rs3, rm]),
  ([.rd, .rs1, .csr], [rd, rs1, csr]),
  ([.rd, .zimm, .csr], [rd, zimm, csr]),
  ([.rdP, .cNzuimm10], [cRdLow, immStackAddress]),
  ([.rdP, .rs1P, .cUimm7Lo, .cUimm7Hi], [cRdLow, cRs1High, immWordOffset]),
  ([.rs1P, .rs2P, .cUimm7Lo, .cUimm7Hi], [cRs1High, cRs2Low, immWordOffset]),
  ([.rdRs1N0, .cNzimm6Lo, .cNzimm6Hi], [cRd, cRs1, immSix]),
  ([.rd, .cImm6Lo, .cImm6Hi], [cRd, immSix]),
  ([.cNzimm10Lo, .cNzimm10Hi], [immStackAdjust]),
  ([.rdN2, .cNzimm18Lo, .cNzimm18Hi], [cRd, immUpper]),
  ([.rdRs1N0, .cNzuimm6Lo], [cRd, cRs1, cShamt]),
  ([.rdN0, .cUimm8SpLo, .cUimm8SpHi], [cRd, immStackLoad]),
  ([.rd, .cUimm8SpLo, .cUimm8SpHi], [cRd, immStackLoad]),
  ([.rdRs1P, .cNzuimm6Lo], [cRdHigh, cRs1High, cShamt]),
  ([.rdRs1P, .cImm6Lo, .cImm6Hi], [cRdHigh, cRs1High, immSix]),
  ([.rs1P, .cBimm9Lo, .cBimm9Hi], [cRs1High, immBranch]),
  ([.rdRs1P, .rs2P], [cRdHigh, cRs1High, cRs2Low]),
  ([.cImm12], [immJump]),
  ([.rs1N0], [cRs1]),
  ([.cRs1N0], [cRs1]),
  ([.rd, .cRs2N0], [cRd, cRs2]),
  ([.rdRs1, .cRs2N0], [cRd, cRs1, cRs2]),
  ([.cRs2, .cUimm8SpS], [cRs2, immStackStore])
]

end Opcodes.Riscv

namespace Opcodes.Registry

/-- The layouts of the RISC-V formats. -/
def riscv : Registry := ofList Riscv.layouts

end Opcodes.Registry
