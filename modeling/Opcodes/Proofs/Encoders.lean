import Opcodes.Proofs.FieldForms

/-!
# What the encoders write

Each encoder writes the word that a rule of its format assembles from the operands.
-/
set_option autoImplicit false

namespace Opcodes

namespace Rv32

open Riscv

/-! ## Rules -/

/-- A 32-bit rule without other constraints than the opcode. -/
def opcodeRule (operator : String) (operands : List OperandName) (opcode : Word) : Rule :=
  ⟨operator, operands, [⟨⟨6, 2⟩, opcode⟩, ⟨⟨1, 0⟩, 3⟩], 0⟩

/-- A 32-bit rule with an opcode and a function. -/
def functionRule (operator : String) (operands : List OperandName) (funct3 opcode : Word) : Rule :=
  ⟨operator, operands, [⟨⟨14, 12⟩, funct3⟩, ⟨⟨6, 2⟩, opcode⟩, ⟨⟨1, 0⟩, 3⟩], 0⟩

/-- A 16-bit rule with a quadrant and a function. -/
def compressedRule (operator : String) (operands : List OperandName) (quadrant funct3 : Word) :
    Rule := ⟨operator, operands, [⟨⟨1, 0⟩, quadrant⟩, ⟨⟨15, 13⟩, funct3⟩], 0⟩

def immediateRule (operator : String) : Word → Word → Rule :=
  functionRule operator [.rd, .rs1, .imm12]

def branchRule (operator : String) (funct3 : Word) : Rule :=
  functionRule operator [.bimm12Hi, .rs1, .rs2, .bimm12Lo] funct3 0x18

def storeRule (operator : String) (funct3 : Word) : Rule :=
  functionRule operator [.imm12Hi, .rs1, .rs2, .imm12Lo] funct3 0x08

def jumpRule : Rule := opcodeRule "jal" [.rd, .jimm20] 0x1B

def upperRule : Rule := opcodeRule "lui" [.rd, .imm20] 0x0D

def compressedBranchRule (operator : String) (funct3 : Word) : Rule :=
  compressedRule operator [.rs1P, .cBimm9Lo, .cBimm9Hi] 1 funct3

def compressedJumpRule (operator : String) (funct3 : Word) : Rule :=
  compressedRule operator [.cImm12] 1 funct3

def stackAdjustRule : Rule :=
  ⟨"c.addi16sp", [.cNzimm10Hi, .cNzimm10Lo], [⟨⟨1, 0⟩, 1⟩, ⟨⟨15, 13⟩, 3⟩, ⟨⟨11, 7⟩, 2⟩], 0⟩

def compressedUpperRule : Rule := compressedRule "c.lui" [.rdN2, .cNzimm18Hi, .cNzimm18Lo] 1 3

def compressedImmediateRule : Rule := compressedRule "c.li" [.rd, .cImm6Lo, .cImm6Hi] 1 2

def stackAddressRule : Rule := compressedRule "c.addi4spn" [.rdP, .cNzuimm10] 0 0

def compressedLoadRule : Rule := compressedRule "c.lw" [.rdP, .rs1P, .cUimm7Lo, .cUimm7Hi] 0 2

def stackLoadRule : Rule := compressedRule "c.lwsp" [.rdN0, .cUimm8SpHi, .cUimm8SpLo] 2 2

def stackStoreRule : Rule := compressedRule "c.swsp" [.cRs2, .cUimm8SpS] 2 6

/-! ## What the encoders write is assembled -/

section Encoders

variable {operator : String} {operands : List OperandName} {funct3 opcode quadrant : Word}
  {dest src1 src2 n : Word}

theorem pattern_functionRule : (functionRule operator operands funct3 opcode).pattern =
    funct3 <<< 12 ||| (opcode <<< 2 ||| 3) := by
  change funct3 <<< 12 ||| (opcode <<< 2 ||| ((3 : Word) <<< 0 ||| 0#32)) = _
  rw [BitVec.shiftLeft_zero, BitVec.or_zero]

theorem pattern_opcodeRule :
    (opcodeRule operator operands opcode).pattern = opcode <<< 2 ||| 3 := by
  change opcode <<< 2 ||| ((3 : Word) <<< 0 ||| 0#32) = _
  rw [BitVec.shiftLeft_zero, BitVec.or_zero]

theorem pattern_compressedRule : (compressedRule operator operands quadrant funct3).pattern =
    funct3 <<< 13 ||| quadrant := by
  change quadrant <<< 0 ||| (funct3 <<< 13 ||| 0#32) = _
  rw [BitVec.shiftLeft_zero, BitVec.or_zero, BitVec.or_comm]

theorem encodeI_eq (operator : String) (hd : dest.toNat < 32) (h1 : src1.toNat < 32) (x : Int) :
    encodeI (opcode <<< 2 ||| 3) funct3 dest src1 x =
      (immediateRule operator funct3 opcode).assemble
        [(rd, dest.toNat), (rs1, src1.toNat), (immI, x)] := by
  have low : BitVec.ofInt 32 x &&& 0xFFF = bits (BitVec.ofInt 32 x) 11 0 := by
    rw [bits, BitVec.ushiftRight_zero]
    rfl
  have first : rd.placed dest.toNat = dest <<< 7 := placed_register hd rfl
  have second : rs1.placed src1.toNat = src1 <<< 15 := placed_register h1 rfl
  have imm : immI.placed x = Word.union [bits (BitVec.ofInt 32 x) 11 0 <<< 20] :=
    placed_eq (by decide)
  simp only [encodeI, low, Rule.assemble_cons, Rule.assemble_nil, immediateRule,
    pattern_functionRule, first, second, imm, Word.union_cons, Word.union_nil, BitVec.zero_or,
    BitVec.or_assoc, BitVec.or_comm, Word.or_left_comm]

theorem encodeB_eq (operator : String) (h1 : src1.toNat < 32) (h2 : src2.toNat < 32) (x : Int) :
    encodeB funct3 src1 src2 x = (branchRule operator funct3).assemble
      [(rs1, src1.toNat), (rs2, src2.toNat), (immB, x)] := by
  have opcode : (0x63 : Word) = (0x18 : Word) <<< 2 ||| 3 := by decide
  have first : rs1.placed src1.toNat = src1 <<< 15 := placed_register h1 rfl
  have second : rs2.placed src2.toNat = src2 <<< 20 := placed_register h2 rfl
  have imm : immB.placed x = Word.union
      [bits (BitVec.ofInt 32 x) 12 12 <<< 31, bits (BitVec.ofInt 32 x) 11 11 <<< 7,
        bits (BitVec.ofInt 32 x) 10 5 <<< 25, bits (BitVec.ofInt 32 x) 4 1 <<< 8] :=
    placed_eq (by decide)
  simp only [encodeB, opcode, bit_eq_bits, Rule.assemble_cons, Rule.assemble_nil, branchRule,
    pattern_functionRule, first, second, imm, Word.union_cons, Word.union_nil, BitVec.zero_or,
    BitVec.or_assoc, BitVec.or_comm, Word.or_left_comm]

theorem encodeS_eq (operator : String) (h1 : src1.toNat < 32) (h2 : src2.toNat < 32) (x : Int) :
    encodeS funct3 src1 src2 x = (storeRule operator funct3).assemble
      [(rs1, src1.toNat), (rs2, src2.toNat), (immS, x)] := by
  have opcode : (0x23 : Word) = (0x08 : Word) <<< 2 ||| 3 := by decide
  have first : rs1.placed src1.toNat = src1 <<< 15 := placed_register h1 rfl
  have second : rs2.placed src2.toNat = src2 <<< 20 := placed_register h2 rfl
  have imm : immS.placed x = Word.union
      [bits (BitVec.ofInt 32 x) 11 5 <<< 25, bits (BitVec.ofInt 32 x) 4 0 <<< 7] :=
    placed_eq (by decide)
  simp only [encodeS, opcode, Rule.assemble_cons, Rule.assemble_nil, storeRule,
    pattern_functionRule, first, second, imm, Word.union_cons, Word.union_nil, BitVec.zero_or,
    BitVec.or_assoc, BitVec.or_comm, Word.or_left_comm]

theorem encodeJ_eq (hd : dest.toNat < 32) (x : Int) :
    encodeJ dest x = jumpRule.assemble [(rd, dest.toNat), (immJ, x)] := by
  have opcode : (0x6F : Word) = (0x1B : Word) <<< 2 ||| 3 := by decide
  have first : rd.placed dest.toNat = dest <<< 7 := placed_register hd rfl
  have imm : immJ.placed x = Word.union
      [bits (BitVec.ofInt 32 x) 20 20 <<< 31, bits (BitVec.ofInt 32 x) 19 12 <<< 12,
        bits (BitVec.ofInt 32 x) 11 11 <<< 20, bits (BitVec.ofInt 32 x) 10 1 <<< 21] :=
    placed_eq (by decide)
  simp only [encodeJ, opcode, bit_eq_bits, Rule.assemble_cons, Rule.assemble_nil, jumpRule,
    pattern_opcodeRule, first, imm, Word.union_cons, Word.union_nil, BitVec.zero_or,
    BitVec.or_assoc, BitVec.or_comm, Word.or_left_comm]

theorem encodeLui_eq (hd : dest.toNat < 32) (small : n.toNat < 2 ^ 20) :
    encodeLui dest n = upperRule.assemble
      [(rd, dest.toNat), (immU, (n.setWidth 20).toInt * 2 ^ 12)] := by
  have opcode : (0x37 : Word) = (0x0D : Word) <<< 2 ||| 3 := by decide
  have first : rd.placed dest.toNat = dest <<< 7 := placed_register hd rfl
  have upper : bits (BitVec.ofInt 32 ((n.setWidth 20).toInt * 2 ^ 12)) 31 12 = n := by
    have factor : bits (BitVec.ofInt 32 ((n.setWidth 20).toInt * 2 ^ 12)) 31 12 =
        bits (BitVec.ofInt 32 (n.setWidth 20).toInt) 19 0 :=
      bits_ofInt_mul_two_pow _ (by decide) (by decide) (by decide)
    rw [factor, bits_eq_read _ (by decide) (by decide), Word.read_ofInt_toInt small]
  have imm : immU.placed ((n.setWidth 20).toInt * 2 ^ 12) = Word.union
      [bits (BitVec.ofInt 32 ((n.setWidth 20).toInt * 2 ^ 12)) 31 12 <<< 12] :=
    placed_eq (by decide)
  simp only [encodeLui, opcode, Rule.assemble_cons, Rule.assemble_nil, upperRule,
    pattern_opcodeRule, first, imm, upper, Word.union_cons, Word.union_nil, BitVec.zero_or,
    BitVec.or_assoc, BitVec.or_comm]

theorem encodeCBranch_eq (operator : String) (low : 8 ≤ src1.toNat) (high : src1.toNat < 16)
    (x : Int) : encodeCBranch funct3 src1 x = (compressedBranchRule operator funct3).assemble
      [(cRs1High, src1.toNat), (immBranch, x)] := by
  have first : cRs1High.placed src1.toNat = (src1 - 8) <<< 7 :=
    placed_compressedRegister low high rfl
  have imm : immBranch.placed x = Word.union
      [bits (BitVec.ofInt 32 x) 8 8 <<< 12, bits (BitVec.ofInt 32 x) 4 3 <<< 10,
        bits (BitVec.ofInt 32 x) 7 6 <<< 5, bits (BitVec.ofInt 32 x) 2 1 <<< 3,
        bits (BitVec.ofInt 32 x) 5 5 <<< 2] :=
    placed_eq (by decide)
  simp only [encodeCBranch, bit_eq_bits, Rule.assemble_cons, Rule.assemble_nil,
    compressedBranchRule, pattern_compressedRule, first, imm, Word.union_cons, Word.union_nil,
    BitVec.zero_or, BitVec.or_assoc, BitVec.or_comm, Word.or_left_comm]

theorem encodeCJump_eq (operator : String) (x : Int) :
    encodeCJump funct3 x = (compressedJumpRule operator funct3).assemble [(immJump, x)] := by
  have imm : immJump.placed x = Word.union
      [bits (BitVec.ofInt 32 x) 11 11 <<< 12, bits (BitVec.ofInt 32 x) 4 4 <<< 11,
        bits (BitVec.ofInt 32 x) 9 8 <<< 9, bits (BitVec.ofInt 32 x) 10 10 <<< 8,
        bits (BitVec.ofInt 32 x) 6 6 <<< 7, bits (BitVec.ofInt 32 x) 7 7 <<< 6,
        bits (BitVec.ofInt 32 x) 3 1 <<< 3, bits (BitVec.ofInt 32 x) 5 5 <<< 2] :=
    placed_eq (by decide)
  simp only [encodeCJump, bit_eq_bits, Rule.assemble_cons, Rule.assemble_nil, compressedJumpRule,
    pattern_compressedRule, imm, Word.union_cons, Word.union_nil, BitVec.zero_or, BitVec.or_assoc,
    BitVec.or_comm, Word.or_left_comm]

theorem encodeCAddi16sp_eq (x : Int) :
    encodeCAddi16sp x = stackAdjustRule.assemble [(immStackAdjust, x)] := by
  have pattern : stackAdjustRule.pattern = (3 : Word) <<< 13 ||| ((2 : Word) <<< 7 ||| 1) := by
    decide
  have imm : immStackAdjust.placed x = Word.union
      [bits (BitVec.ofInt 32 x) 9 9 <<< 12, bits (BitVec.ofInt 32 x) 4 4 <<< 6,
        bits (BitVec.ofInt 32 x) 6 6 <<< 5, bits (BitVec.ofInt 32 x) 8 7 <<< 3,
        bits (BitVec.ofInt 32 x) 5 5 <<< 2] :=
    placed_eq (by decide)
  simp only [encodeCAddi16sp, bit_eq_bits, Rule.assemble_cons, Rule.assemble_nil, pattern, imm,
    Word.union_cons, Word.union_nil, BitVec.zero_or, BitVec.or_assoc, BitVec.or_comm,
    Word.or_left_comm]

theorem encodeCLui_eq (hd : dest.toNat < 32) (x : Int) :
    encodeCLui dest x = compressedUpperRule.assemble
      [(cRd, dest.toNat), (immUpper, x * 2 ^ 12)] := by
  have first : cRd.placed dest.toNat = dest <<< 7 := placed_register hd rfl
  have sign : bits (BitVec.ofInt 32 (x * 2 ^ 12)) 17 17 = bits (BitVec.ofInt 32 x) 5 5 :=
    bits_ofInt_mul_two_pow x (by decide) (by decide) (by decide)
  have rest : bits (BitVec.ofInt 32 (x * 2 ^ 12)) 16 12 = bits (BitVec.ofInt 32 x) 4 0 :=
    bits_ofInt_mul_two_pow x (by decide) (by decide) (by decide)
  have imm : immUpper.placed (x * 2 ^ 12) = Word.union
      [bits (BitVec.ofInt 32 (x * 2 ^ 12)) 17 17 <<< 12,
        bits (BitVec.ofInt 32 (x * 2 ^ 12)) 16 12 <<< 2] :=
    placed_eq (by decide)
  simp only [encodeCLui, bit_eq_bits, Rule.assemble_cons, Rule.assemble_nil, compressedUpperRule,
    pattern_compressedRule, first, imm, sign, rest, Word.union_cons, Word.union_nil, BitVec.zero_or,
    BitVec.or_assoc, BitVec.or_comm, Word.or_left_comm]

theorem encodeCLi_eq (hd : dest.toNat < 32) (x : Int) :
    encodeCLi dest x = compressedImmediateRule.assemble [(cRd, dest.toNat), (immSix, x)] := by
  have first : cRd.placed dest.toNat = dest <<< 7 := placed_register hd rfl
  have imm : immSix.placed x = Word.union
      [bits (BitVec.ofInt 32 x) 5 5 <<< 12, bits (BitVec.ofInt 32 x) 4 0 <<< 2] :=
    placed_eq (by decide)
  simp only [encodeCLi, bit_eq_bits, Rule.assemble_cons, Rule.assemble_nil, compressedImmediateRule,
    pattern_compressedRule, first, imm, Word.union_cons, Word.union_nil, BitVec.zero_or,
    BitVec.or_assoc, BitVec.or_comm, Word.or_left_comm]

theorem encodeCAddi4spn_eq (low : 8 ≤ dest.toNat) (high : dest.toNat < 16) (n : Word) :
    encodeCAddi4spn dest n = stackAddressRule.assemble
      [(cRdLow, dest.toNat), (immStackAddress, n.toNat)] := by
  have pattern : stackAddressRule.pattern = 0#32 := by decide
  have first : cRdLow.placed dest.toNat = (dest - 8) <<< 2 := placed_compressedRegister low high rfl
  have imm : immStackAddress.placed n.toNat = Word.union
      [bits (BitVec.ofInt 32 n.toNat) 5 4 <<< 11, bits (BitVec.ofInt 32 n.toNat) 9 6 <<< 7,
        bits (BitVec.ofInt 32 n.toNat) 2 2 <<< 6, bits (BitVec.ofInt 32 n.toNat) 3 3 <<< 5] :=
    placed_eq (by decide)
  simp only [encodeCAddi4spn, bit_eq_bits, Rule.assemble_cons, Rule.assemble_nil, pattern, first,
    imm, Word.ofInt_toNat, Word.union_cons, Word.union_nil, BitVec.zero_or, BitVec.or_assoc,
    BitVec.or_comm, Word.or_left_comm]

theorem encodeCLw_eq (lowd : 8 ≤ dest.toNat) (highd : dest.toNat < 16) (low : 8 ≤ src1.toNat)
    (high : src1.toNat < 16) (n : Word) :
    encodeCLw dest src1 n = compressedLoadRule.assemble
      [(cRdLow, dest.toNat), (cRs1High, src1.toNat), (immWordOffset, n.toNat)] := by
  have pattern : compressedLoadRule.pattern = (2 : Word) <<< 13 := by decide
  have first : cRdLow.placed dest.toNat = (dest - 8) <<< 2 :=
    placed_compressedRegister lowd highd rfl
  have second : cRs1High.placed src1.toNat = (src1 - 8) <<< 7 :=
    placed_compressedRegister low high rfl
  have imm : immWordOffset.placed n.toNat = Word.union
      [bits (BitVec.ofInt 32 n.toNat) 5 3 <<< 10, bits (BitVec.ofInt 32 n.toNat) 2 2 <<< 6,
        bits (BitVec.ofInt 32 n.toNat) 6 6 <<< 5] :=
    placed_eq (by decide)
  simp only [encodeCLw, bit_eq_bits, Rule.assemble_cons, Rule.assemble_nil, pattern, first, second,
    imm, Word.ofInt_toNat, Word.union_cons, Word.union_nil, BitVec.zero_or, BitVec.or_assoc,
    BitVec.or_comm, Word.or_left_comm]

theorem encodeCLwsp_eq (hd : dest.toNat < 32) (n : Word) :
    encodeCLwsp dest n = stackLoadRule.assemble [(cRd, dest.toNat), (immStackLoad, n.toNat)] := by
  have first : cRd.placed dest.toNat = dest <<< 7 := placed_register hd rfl
  have imm : immStackLoad.placed n.toNat = Word.union
      [bits (BitVec.ofInt 32 n.toNat) 5 5 <<< 12, bits (BitVec.ofInt 32 n.toNat) 4 2 <<< 4,
        bits (BitVec.ofInt 32 n.toNat) 7 6 <<< 2] :=
    placed_eq (by decide)
  simp only [encodeCLwsp, bit_eq_bits, Rule.assemble_cons, Rule.assemble_nil, stackLoadRule,
    pattern_compressedRule, first, imm, Word.ofInt_toNat, Word.union_cons, Word.union_nil,
    BitVec.zero_or, BitVec.or_assoc, BitVec.or_comm, Word.or_left_comm]

theorem encodeCSwsp_eq (h2 : src2.toNat < 32) (n : Word) :
    encodeCSwsp src2 n = stackStoreRule.assemble
      [(cRs2, src2.toNat), (immStackStore, n.toNat)] := by
  have first : cRs2.placed src2.toNat = src2 <<< 2 := placed_register h2 rfl
  have imm : immStackStore.placed n.toNat = Word.union
      [bits (BitVec.ofInt 32 n.toNat) 5 2 <<< 9, bits (BitVec.ofInt 32 n.toNat) 7 6 <<< 7] :=
    placed_eq (by decide)
  simp only [encodeCSwsp, Rule.assemble_cons, Rule.assemble_nil, stackStoreRule,
    pattern_compressedRule, first, imm, Word.ofInt_toNat, Word.union_cons, Word.union_nil,
    BitVec.zero_or, BitVec.or_assoc, BitVec.or_comm, Word.or_left_comm]

end Encoders

end Rv32

end Opcodes
