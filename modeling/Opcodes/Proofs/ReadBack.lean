import Opcodes.Proofs.Encoders

/-!
# What the encoders write is read back

What a rule assembles is decoded to the rule's operator and the operands, where no other rule
refines it. So the full table gives back whatever the encoders are given. One of their rules is
refined: an upper immediate for register 2 would be an adjustment of the stack pointer.
-/
set_option autoImplicit false

namespace Opcodes

/-- The word decodes to the operator with these operands. -/
def Table.Decodes (t : Table) (w : Word) (operator : String) (operands : List Operand)
    (length : Nat) : Prop := t.decode w = .instruction ⟨w, operator, operands, length⟩

namespace Rv32

open Riscv

def branches : List (String × Word) :=
  [("beq", 0), ("bne", 1), ("blt", 4), ("bge", 5), ("bltu", 6), ("bgeu", 7)]

def stores : List (String × Word) := [("sb", 0), ("sh", 1), ("sw", 2)]

def compressedBranches : List (String × Word) := [("c.beqz", 6), ("c.bnez", 7)]

def compressedJumps : List (String × Word) := [("c.jal", 1), ("c.j", 5)]

/-- Rules that no other rule refines, with the layouts of their operands and the lengths of their
encodings. -/
def plainForms : List (Rule × Layout × Nat) :=
  [(immediateRule "addi" 0 4, [rd, rs1, immI], 4), (immediateRule "lw" 2 0, [rd, rs1, immI], 4),
    (jumpRule, [rd, immJ], 4), (upperRule, [rd, immU], 4),
    (stackAdjustRule, [immStackAdjust], 2), (compressedImmediateRule, [cRd, immSix], 2),
    (stackAddressRule, [cRdLow, immStackAddress], 2),
    (compressedLoadRule, [cRdLow, cRs1High, immWordOffset], 2),
    (stackLoadRule, [cRd, immStackLoad], 2), (stackStoreRule, [cRs2, immStackStore], 2)] ++
  branches.map (fun b => (branchRule b.1 b.2, [rs1, rs2, immB], 4)) ++
  stores.map (fun s => (storeRule s.1 s.2, [rs1, rs2, immS], 4)) ++
  compressedBranches.map (fun b => (compressedBranchRule b.1 b.2, [cRs1High, immBranch], 2)) ++
  compressedJumps.map (fun j => (compressedJumpRule j.1 j.2, [immJump], 2))

/-- All forms are assembled by rules of the full table. Only the upper immediate is refined, by the
stack adjustment. -/
theorem assembles_forms :
    (∀ p ∈ plainForms,
      Rule.Assembles (Extensions.rv32gc.rules.map Rule.unnumbered) p.1 p.2.1 p.2.2 ∧
      Rule.Unrefined (Extensions.rv32gc.rules.map Rule.unnumbered) p.1) ∧
    Rule.Assembles (Extensions.rv32gc.rules.map Rule.unnumbered) compressedUpperRule
      [cRd, immUpper] 2 ∧
    ∀ s ∈ Extensions.rv32gc.rules.map Rule.unnumbered, s.Disjoint compressedUpperRule ∨
      ¬s.mask.Outranks compressedUpperRule.mask ∨ s = stackAdjustRule := by
  rw [Extensions.rules, funext Extension.rules_eq]
  decide +kernel

/-! ## What is assembled is decoded -/

section Decoding

variable {t : Table} {operator : String} {funct3 opcode dest src1 src2 n : Word} {x : Int}

/-- The table decodes what is assembled by a rule that is not refined. -/
theorem decodes_plain (ok : Table.ofText .riscv Extensions.rv32gc.source = .ok t) {r : Rule}
    {operands : List (FieldLayout × Int)} {length : Nat}
    (plain : (r, operands.map Prod.fst, length) ∈ plainForms)
    (represents : ∀ o ∈ operands, o.1.Represents o.2) :
    t.Decodes (r.assemble operands) r.operator (operands.map fun o => ⟨o.1.field, o.2⟩) length := by
  obtain ⟨assembles, unrefined⟩ := assembles_forms.1 _ plain
  exact Extensions.decode_assemble ok assembles represents (assembles.top_of_unrefined unrefined)

variable (ok : Table.ofText .riscv Extensions.rv32gc.source = .ok t)

include ok

theorem decodes_encodeI
    (plain : (immediateRule operator funct3 opcode, [rd, rs1, immI], 4) ∈ plainForms) {code : Word}
    (split : code = opcode <<< 2 ||| 3) (hd : dest.toNat < 32) (h1 : src1.toNat < 32)
    (low : -2048 ≤ x) (high : x ≤ 2047) :
    t.Decodes (encodeI code funct3 dest src1 x) operator
      [⟨.rd, dest.toNat⟩, ⟨.rs1, src1.toNat⟩, ⟨.imm, x⟩] 4 := by
  rw [split, encodeI_eq operator hd h1]
  refine decodes_plain ok plain ?_
  have imm : immI.Represents x := represents_signedImm 0 low (by omega) (Int.one_dvd x) (by decide)
  exact List.forall_mem_cons.2 ⟨represents_register hd rfl, List.forall_mem_cons.2
    ⟨represents_register h1 rfl, List.forall_mem_singleton.2 imm⟩⟩

theorem decodes_encodeB (branch : (operator, funct3) ∈ branches) (h1 : src1.toNat < 32)
    (h2 : src2.toNat < 32) (low : -4096 ≤ x) (high : x ≤ 4094) (even : 2 ∣ x) :
    t.Decodes (encodeB funct3 src1 src2 x) operator
      [⟨.rs1, src1.toNat⟩, ⟨.rs2, src2.toNat⟩, ⟨.imm, x⟩] 4 := by
  have plain : (branchRule operator funct3, [rs1, rs2, immB], 4) ∈ plainForms := by
    simp only [plainForms, List.mem_append, List.mem_map]
    exact .inl (.inl (.inl (.inr ⟨_, branch, rfl⟩)))
  rw [encodeB_eq operator h1 h2]
  refine decodes_plain ok plain ?_
  have imm : immB.Represents x := represents_signedImm 1 low (by omega) even (by decide)
  exact List.forall_mem_cons.2 ⟨represents_register h1 rfl, List.forall_mem_cons.2
    ⟨represents_register h2 rfl, List.forall_mem_singleton.2 imm⟩⟩

theorem decodes_encodeS (store : (operator, funct3) ∈ stores) (h1 : src1.toNat < 32)
    (h2 : src2.toNat < 32) (low : -2048 ≤ x) (high : x ≤ 2047) :
    t.Decodes (encodeS funct3 src1 src2 x) operator
      [⟨.rs1, src1.toNat⟩, ⟨.rs2, src2.toNat⟩, ⟨.imm, x⟩] 4 := by
  have plain : (storeRule operator funct3, [rs1, rs2, immS], 4) ∈ plainForms := by
    simp only [plainForms, List.mem_append, List.mem_map]
    exact .inl (.inl (.inr ⟨_, store, rfl⟩))
  rw [encodeS_eq operator h1 h2]
  refine decodes_plain ok plain ?_
  have imm : immS.Represents x := represents_signedImm 0 low (by omega) (Int.one_dvd x) (by decide)
  exact List.forall_mem_cons.2 ⟨represents_register h1 rfl, List.forall_mem_cons.2
    ⟨represents_register h2 rfl, List.forall_mem_singleton.2 imm⟩⟩

theorem decodes_encodeJ (hd : dest.toNat < 32) (low : -2 ^ 20 ≤ x) (high : x ≤ 2 ^ 20 - 2)
    (even : 2 ∣ x) : t.Decodes (encodeJ dest x) "jal" [⟨.rd, dest.toNat⟩, ⟨.imm, x⟩] 4 := by
  have plain : (jumpRule, [rd, immJ], 4) ∈ plainForms := by decide +kernel
  rw [encodeJ_eq hd]
  refine decodes_plain ok plain ?_
  have imm : immJ.Represents x := represents_signedImm 1 low (by omega) even (by decide)
  exact List.forall_mem_cons.2 ⟨represents_register hd rfl, List.forall_mem_singleton.2 imm⟩

theorem decodes_encodeLui (hd : dest.toNat < 32) (small : n.toNat < 2 ^ 20) :
    t.Decodes (encodeLui dest n) "lui"
      [⟨.rd, dest.toNat⟩, ⟨.imm, (n.setWidth 20).toInt * 2 ^ 12⟩] 4 := by
  have plain : (upperRule, [rd, immU], 4) ∈ plainForms := by decide +kernel
  rw [encodeLui_eq hd small]
  refine decodes_plain ok plain ?_
  have low := BitVec.le_toInt (n.setWidth 20)
  have high := BitVec.toInt_lt (x := n.setWidth 20)
  have imm : immU.Represents ((n.setWidth 20).toInt * 2 ^ 12) :=
    represents_signedImm 12 (by omega) (by omega) (Int.dvd_mul_left _ _) (by decide)
  exact List.forall_mem_cons.2 ⟨represents_register hd rfl, List.forall_mem_singleton.2 imm⟩

theorem decodes_encodeCBranch (branch : (operator, funct3) ∈ compressedBranches)
    (low1 : 8 ≤ src1.toNat) (high1 : src1.toNat ≤ 15) (low : -256 ≤ x) (high : x ≤ 254)
    (even : 2 ∣ x) : t.Decodes (encodeCBranch funct3 src1 x) operator
      [⟨.rs1, src1.toNat⟩, ⟨.imm, x⟩] 2 := by
  have plain : (compressedBranchRule operator funct3, [cRs1High, immBranch], 2) ∈ plainForms := by
    simp only [plainForms, List.mem_append, List.mem_map]
    exact .inl (.inr ⟨_, branch, rfl⟩)
  have high1 : src1.toNat < 16 := Nat.lt_succ_of_le high1
  rw [encodeCBranch_eq operator low1 high1]
  refine decodes_plain ok plain ?_
  have imm : immBranch.Represents x := represents_signedImm 1 low (by omega) even (by decide)
  exact List.forall_mem_cons.2 ⟨represents_compressedRegister low1 high1 rfl,
    List.forall_mem_singleton.2 imm⟩

theorem decodes_encodeCJump (jump : (operator, funct3) ∈ compressedJumps) (low : -2048 ≤ x)
    (high : x ≤ 2046) (even : 2 ∣ x) :
    t.Decodes (encodeCJump funct3 x) operator [⟨.imm, x⟩] 2 := by
  have plain : (compressedJumpRule operator funct3, [immJump], 2) ∈ plainForms := by
    simp only [plainForms, List.mem_append, List.mem_map]
    exact .inr ⟨_, jump, rfl⟩
  rw [encodeCJump_eq operator]
  refine decodes_plain ok plain ?_
  have imm : immJump.Represents x := represents_signedImm 1 low (by omega) even (by decide)
  exact List.forall_mem_singleton.2 imm

theorem decodes_encodeCAddi16sp (low : -512 ≤ x) (high : x ≤ 496) (multiple : 16 ∣ x) :
    t.Decodes (encodeCAddi16sp x) "c.addi16sp" [⟨.imm, x⟩] 2 := by
  have plain : (stackAdjustRule, [immStackAdjust], 2) ∈ plainForms := by decide +kernel
  rw [encodeCAddi16sp_eq]
  refine decodes_plain ok plain ?_
  have imm : immStackAdjust.Represents x :=
    represents_signedImm 4 low (by omega) multiple (by decide)
  exact List.forall_mem_singleton.2 imm

/-- An upper immediate for register 2 would be a stack adjustment. -/
theorem decodes_encodeCLui (hd : dest.toNat < 32) (other : dest ≠ 2) (low : -32 ≤ x)
    (high : x ≤ 31) :
    t.Decodes (encodeCLui dest x) "c.lui" [⟨.rd, dest.toNat⟩, ⟨.imm, x * 2 ^ 12⟩] 2 := by
  obtain ⟨-, assembles, refined⟩ := assembles_forms
  rw [encodeCLui_eq hd]
  refine Extensions.decode_assemble ok assembles ?_ fun s mem hit => ?_
  · have imm : immUpper.Represents (x * 2 ^ 12) :=
      represents_signedImm 12 (by omega) (by omega) (Int.dvd_mul_left x _) (by decide)
    exact List.forall_mem_cons.2 ⟨represents_register hd rfl, List.forall_mem_singleton.2 imm⟩
  · rcases refined s mem with disjoint | below | rfl
    · exact absurd ⟨hit, assembles.matches_assemble⟩ (disjoint _)
    · exact below
    · -- the stack adjustment fixes the destination to 2
      have fixed : (⟨⟨11, 7⟩, (⟨4, 0⟩ : BitRange).read (BitVec.ofInt 32 dest.toNat)⟩ : FixedBits) ∈
          compressedUpperRule.filled [(cRd, dest.toNat), (immUpper, x * 2 ^ 12)] :=
        List.mem_append_right _ List.mem_cons_self
      have own := assembles.read_assemble fixed
      have two := hit.read_eq_value (c := ⟨⟨11, 7⟩, 2⟩) (by decide) (by decide) (by decide)
      rw [Word.ofInt_toNat, Word.read_of_lt hd] at own
      exact absurd (own.symm.trans two) other

theorem decodes_encodeCLi (hd : dest.toNat < 32) (low : -32 ≤ x) (high : x ≤ 31) :
    t.Decodes (encodeCLi dest x) "c.li" [⟨.rd, dest.toNat⟩, ⟨.imm, x⟩] 2 := by
  have plain : (compressedImmediateRule, [cRd, immSix], 2) ∈ plainForms := by decide +kernel
  rw [encodeCLi_eq hd]
  refine decodes_plain ok plain ?_
  have imm : immSix.Represents x :=
    represents_signedImm 0 low (by omega) (Int.one_dvd x) (by decide)
  exact List.forall_mem_cons.2 ⟨represents_register hd rfl, List.forall_mem_singleton.2 imm⟩

theorem decodes_encodeCAddi4spn (lowd : 8 ≤ dest.toNat) (highd : dest.toNat ≤ 15)
    (small : n.toNat ≤ 1020) (multiple : 4 ∣ n.toNat) :
    t.Decodes (encodeCAddi4spn dest n) "c.addi4spn" [⟨.rd, dest.toNat⟩, ⟨.imm, n.toNat⟩] 2 := by
  have plain : (stackAddressRule, [cRdLow, immStackAddress], 2) ∈ plainForms := by decide +kernel
  have highd : dest.toNat < 16 := Nat.lt_succ_of_le highd
  rw [encodeCAddi4spn_eq lowd highd]
  refine decodes_plain ok plain ?_
  have imm : immStackAddress.Represents n.toNat :=
    represents_unsignedImm 2 (by omega) multiple (by decide)
  exact List.forall_mem_cons.2 ⟨represents_compressedRegister lowd highd rfl,
    List.forall_mem_singleton.2 imm⟩

theorem decodes_encodeCLw (lowd : 8 ≤ dest.toNat) (highd : dest.toNat ≤ 15)
    (low1 : 8 ≤ src1.toNat) (high1 : src1.toNat ≤ 15) (small : n.toNat ≤ 124)
    (multiple : 4 ∣ n.toNat) : t.Decodes (encodeCLw dest src1 n) "c.lw"
      [⟨.rd, dest.toNat⟩, ⟨.rs1, src1.toNat⟩, ⟨.imm, n.toNat⟩] 2 := by
  have plain : (compressedLoadRule, [cRdLow, cRs1High, immWordOffset], 2) ∈ plainForms := by
    decide +kernel
  have highd : dest.toNat < 16 := Nat.lt_succ_of_le highd
  have high1 : src1.toNat < 16 := Nat.lt_succ_of_le high1
  rw [encodeCLw_eq lowd highd low1 high1]
  refine decodes_plain ok plain ?_
  have imm : immWordOffset.Represents n.toNat :=
    represents_unsignedImm 2 (by omega) multiple (by decide)
  exact List.forall_mem_cons.2 ⟨represents_compressedRegister lowd highd rfl,
    List.forall_mem_cons.2 ⟨represents_compressedRegister low1 high1 rfl,
      List.forall_mem_singleton.2 imm⟩⟩

theorem decodes_encodeCLwsp (hd : dest.toNat < 32) (small : n.toNat ≤ 252)
    (multiple : 4 ∣ n.toNat) :
    t.Decodes (encodeCLwsp dest n) "c.lwsp" [⟨.rd, dest.toNat⟩, ⟨.imm, n.toNat⟩] 2 := by
  have plain : (stackLoadRule, [cRd, immStackLoad], 2) ∈ plainForms := by decide +kernel
  rw [encodeCLwsp_eq hd]
  refine decodes_plain ok plain ?_
  have imm : immStackLoad.Represents n.toNat :=
    represents_unsignedImm 2 (by omega) multiple (by decide)
  exact List.forall_mem_cons.2 ⟨represents_register hd rfl, List.forall_mem_singleton.2 imm⟩

theorem decodes_encodeCSwsp (h2 : src2.toNat < 32) (small : n.toNat ≤ 252)
    (multiple : 4 ∣ n.toNat) :
    t.Decodes (encodeCSwsp src2 n) "c.swsp" [⟨.rs2, src2.toNat⟩, ⟨.imm, n.toNat⟩] 2 := by
  have plain : (stackStoreRule, [cRs2, immStackStore], 2) ∈ plainForms := by decide +kernel
  rw [encodeCSwsp_eq h2]
  refine decodes_plain ok plain ?_
  have imm : immStackStore.Represents n.toNat :=
    represents_unsignedImm 2 (by omega) multiple (by decide)
  exact List.forall_mem_cons.2 ⟨represents_register h2 rfl, List.forall_mem_singleton.2 imm⟩

end Decoding

/-- The table gives back what the encoders are given: all registers of a format, with all immediates
that it has room for. -/
structure ReadsBack (t : Table) : Prop where
  addi : ∀ (rd rs1 : Word) (imm : Int), rd.toNat < 32 → rs1.toNat < 32 → -2048 ≤ imm → imm ≤ 2047 →
    t.Decodes (encodeI 0x13 0 rd rs1 imm) "addi"
      [⟨.rd, rd.toNat⟩, ⟨.rs1, rs1.toNat⟩, ⟨.imm, imm⟩] 4
  lw : ∀ (rd rs1 : Word) (imm : Int), rd.toNat < 32 → rs1.toNat < 32 → -2048 ≤ imm → imm ≤ 2047 →
    t.Decodes (encodeI 0x03 2 rd rs1 imm) "lw"
      [⟨.rd, rd.toNat⟩, ⟨.rs1, rs1.toNat⟩, ⟨.imm, imm⟩] 4
  branch : ∀ operator funct3, (operator, funct3) ∈ branches → ∀ (rs1 rs2 : Word) (offset : Int),
    rs1.toNat < 32 → rs2.toNat < 32 → -4096 ≤ offset → offset ≤ 4094 → 2 ∣ offset →
    t.Decodes (encodeB funct3 rs1 rs2 offset) operator
      [⟨.rs1, rs1.toNat⟩, ⟨.rs2, rs2.toNat⟩, ⟨.imm, offset⟩] 4
  store : ∀ operator funct3, (operator, funct3) ∈ stores → ∀ (rs1 rs2 : Word) (offset : Int),
    rs1.toNat < 32 → rs2.toNat < 32 → -2048 ≤ offset → offset ≤ 2047 →
    t.Decodes (encodeS funct3 rs1 rs2 offset) operator
      [⟨.rs1, rs1.toNat⟩, ⟨.rs2, rs2.toNat⟩, ⟨.imm, offset⟩] 4
  jump : ∀ (rd : Word) (offset : Int), rd.toNat < 32 → -2 ^ 20 ≤ offset → offset ≤ 2 ^ 20 - 2 →
    2 ∣ offset → t.Decodes (encodeJ rd offset) "jal" [⟨.rd, rd.toNat⟩, ⟨.imm, offset⟩] 4
  upper : ∀ rd imm20 : Word, rd.toNat < 32 → imm20.toNat < 2 ^ 20 →
    t.Decodes (encodeLui rd imm20) "lui"
      [⟨.rd, rd.toNat⟩, ⟨.imm, (imm20.setWidth 20).toInt * 2 ^ 12⟩] 4
  compressedBranch : ∀ operator funct3, (operator, funct3) ∈ compressedBranches →
    ∀ (rs1 : Word) (offset : Int), 8 ≤ rs1.toNat → rs1.toNat ≤ 15 → -256 ≤ offset → offset ≤ 254 →
    2 ∣ offset →
    t.Decodes (encodeCBranch funct3 rs1 offset) operator [⟨.rs1, rs1.toNat⟩, ⟨.imm, offset⟩] 2
  compressedJump : ∀ operator funct3, (operator, funct3) ∈ compressedJumps → ∀ offset : Int,
    -2048 ≤ offset → offset ≤ 2046 → 2 ∣ offset →
    t.Decodes (encodeCJump funct3 offset) operator [⟨.imm, offset⟩] 2
  stackAdjust : ∀ imm : Int, -512 ≤ imm → imm ≤ 496 → 16 ∣ imm →
    t.Decodes (encodeCAddi16sp imm) "c.addi16sp" [⟨.imm, imm⟩] 2
  compressedUpper : ∀ (rd : Word) (imm : Int), rd.toNat < 32 → rd ≠ 2 → -32 ≤ imm → imm ≤ 31 →
    t.Decodes (encodeCLui rd imm) "c.lui" [⟨.rd, rd.toNat⟩, ⟨.imm, imm * 2 ^ 12⟩] 2
  compressedImmediate : ∀ (rd : Word) (imm : Int), rd.toNat < 32 → -32 ≤ imm → imm ≤ 31 →
    t.Decodes (encodeCLi rd imm) "c.li" [⟨.rd, rd.toNat⟩, ⟨.imm, imm⟩] 2
  stackAddress : ∀ rd imm : Word, 8 ≤ rd.toNat → rd.toNat ≤ 15 → imm.toNat ≤ 1020 → 4 ∣ imm.toNat →
    t.Decodes (encodeCAddi4spn rd imm) "c.addi4spn" [⟨.rd, rd.toNat⟩, ⟨.imm, imm.toNat⟩] 2
  compressedLoad : ∀ rd rs1 imm : Word, 8 ≤ rd.toNat → rd.toNat ≤ 15 → 8 ≤ rs1.toNat →
    rs1.toNat ≤ 15 → imm.toNat ≤ 124 → 4 ∣ imm.toNat →
    t.Decodes (encodeCLw rd rs1 imm) "c.lw"
      [⟨.rd, rd.toNat⟩, ⟨.rs1, rs1.toNat⟩, ⟨.imm, imm.toNat⟩] 2
  stackLoad : ∀ rd imm : Word, rd.toNat < 32 → imm.toNat ≤ 252 → 4 ∣ imm.toNat →
    t.Decodes (encodeCLwsp rd imm) "c.lwsp" [⟨.rd, rd.toNat⟩, ⟨.imm, imm.toNat⟩] 2
  stackStore : ∀ rs2 imm : Word, rs2.toNat < 32 → imm.toNat ≤ 252 → 4 ∣ imm.toNat →
    t.Decodes (encodeCSwsp rs2 imm) "c.swsp" [⟨.rs2, rs2.toNat⟩, ⟨.imm, imm.toNat⟩] 2

/-- The full table reads back whatever the encoders write. -/
theorem exists_table_readsBack :
    ∃ t, Table.ofText .riscv Extensions.rv32gc.source = .ok t ∧ ReadsBack t := by
  obtain ⟨t, ok⟩ := Extensions.rv32gc.exists_table
  have addi : (immediateRule "addi" 0 4, [rd, rs1, immI], 4) ∈ plainForms := by decide +kernel
  have lw : (immediateRule "lw" 2 0, [rd, rs1, immI], 4) ∈ plainForms := by decide +kernel
  refine ⟨t, ok, ?_⟩
  exact {
    addi := fun _ _ _ => decodes_encodeI ok addi (by decide)
    lw := fun _ _ _ => decodes_encodeI ok lw (by decide)
    branch := fun _ _ branch _ _ _ => decodes_encodeB ok branch
    store := fun _ _ store _ _ _ => decodes_encodeS ok store
    jump := fun _ _ => decodes_encodeJ ok
    upper := fun _ _ => decodes_encodeLui ok
    compressedBranch := fun _ _ branch _ _ => decodes_encodeCBranch ok branch
    compressedJump := fun _ _ jump _ => decodes_encodeCJump ok jump
    stackAdjust := fun _ => decodes_encodeCAddi16sp ok
    compressedUpper := fun _ _ => decodes_encodeCLui ok
    compressedImmediate := fun _ _ => decodes_encodeCLi ok
    stackAddress := fun _ _ => decodes_encodeCAddi4spn ok
    compressedLoad := fun _ _ _ => decodes_encodeCLw ok
    stackLoad := fun _ _ => decodes_encodeCLwsp ok
    stackStore := fun _ _ => decodes_encodeCSwsp ok }

/-- The lowest offset of a branch, and an upper immediate below zero. -/
theorem readsBack_rv32gc : ∃ t, Table.ofText .riscv Extensions.rv32gc.source = .ok t ∧
    t.decode 0x80628063 =
      .instruction ⟨0x80628063, "beq", [⟨.rs1, 5⟩, ⟨.rs2, 6⟩, ⟨.imm, -4096⟩], 4⟩ ∧
    t.decode 0x72FD = .instruction ⟨0x72FD, "c.lui", [⟨.rd, 5⟩, ⟨.imm, -4096⟩], 2⟩ := by
  obtain ⟨t, ok, back⟩ := exists_table_readsBack
  have branch := back.branch "beq" 0 (by decide) 5 6 (-4096) (by decide) (by decide) (by decide)
    (by decide) (by decide)
  have upper := back.compressedUpper 5 (-1) (by decide) (by decide) (by decide) (by decide)
  have words : encodeB 0 5 6 (-4096) = 0x80628063 ∧ encodeCLui 5 (-1) = 0x72FD := by decide
  rw [words.1] at branch
  rw [words.2] at upper
  exact ⟨t, ok, branch, upper⟩

end Rv32

end Opcodes
