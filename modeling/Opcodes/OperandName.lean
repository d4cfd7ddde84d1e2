/-!
# Operand names

The closed vocabulary of operands that a rule may declare. `all` lists it once, in the order that
sorted operand lists follow. `text` is the spelling in tables and `ofText?` reads it back; `tag`
is the spelling in JSON documents.
-/
set_option autoImplicit false

namespace Opcodes

inductive OperandName where
  | rd
  | rs1
  | rs2
  | rs3
  | rm
  | fm
  | pred
  | succ
  | shamtw
  | imm12
  | imm12Hi
  | imm12Lo
  | bimm12Hi
  | bimm12Lo
  | imm20
  | jimm20
  | csr
  | zimm
  | rdP
  | rs1P
  | rs2P
  | rdRs1
  | rdRs1P
  | rdRs1N0
  | rdN0
  | rdN2
  | rs1N0
  | cRs2
  | cRs2N0
  | cRs1N0
  | cNzuimm10
  | cUimm7Lo
  | cUimm7Hi
  | cNzimm6Lo
  | cNzimm6Hi
  | cImm6Lo
  | cImm6Hi
  | cNzimm10Lo
  | cNzimm10Hi
  | cNzimm18Lo
  | cNzimm18Hi
  | cNzuimm6Lo
  | cImm12
  | cBimm9Lo
  | cBimm9Hi
  | cUimm8SpLo
  | cUimm8SpHi
  | cUimm8SpS
deriving DecidableEq, Repr

namespace OperandName

def all : List OperandName :=
  [.rd, .rs1, .rs2, .rs3, .rm, .fm, .pred, .succ, .shamtw, .imm12, .imm12Hi, .imm12Lo, .bimm12Hi,
   .bimm12Lo, .imm20, .jimm20, .csr, .zimm, .rdP, .rs1P, .rs2P, .rdRs1, .rdRs1P, .rdRs1N0, .rdN0,
   .rdN2, .rs1N0, .cRs2, .cRs2N0, .cRs1N0, .cNzuimm10, .cUimm7Lo, .cUimm7Hi, .cNzimm6Lo,
   .cNzimm6Hi, .cImm6Lo, .cImm6Hi, .cNzimm10Lo, .cNzimm10Hi, .cNzimm18Lo, .cNzimm18Hi,
   .cNzuimm6Lo, .cImm12, .cBimm9Lo, .cBimm9Hi, .cUimm8SpLo, .cUimm8SpHi, .cUimm8SpS]

theorem mem_all (n : OperandName) : n ∈ all := by cases n <;> decide

theorem nodup_all : all.Nodup := by decide

/-- The position in the vocabulary, counted from 0. -/
def index (n : OperandName) : Nat := n.ctorIdx

theorem all_index (n : OperandName) : all[n.index]? = some n := by cases n <;> rfl

theorem index_inj {a b : OperandName} (h : a.index = b.index) : a = b := by
  simpa [h, all_index b] using (all_index a).symm

instance : Ord OperandName where
  compare := compareOn index

instance : Std.TransOrd OperandName := inferInstanceAs (Std.TransCmp (compareOn index))

instance : Std.LawfulEqOrd OperandName where
  eq_of_compare := index_inj ∘ Std.LawfulEqOrd.eq_of_compare (α := Nat)

/-- The spelling in a table. -/
def text : OperandName → String
  | rd => "rd"
  | rs1 => "rs1"
  | rs2 => "rs2"
  | rs3 => "rs3"
  | rm => "rm"
  | fm => "fm"
  | pred => "pred"
  | succ => "succ"
  | shamtw => "shamtw"
  | imm12 => "imm12"
  | imm12Hi => "imm12hi"
  | imm12Lo => "imm12lo"
  | bimm12Hi => "bimm12hi"
  | bimm12Lo => "bimm12lo"
  | imm20 => "imm20"
  | jimm20 => "jimm20"
  | csr => "csr"
  | zimm => "zimm"
  | rdP => "rd_p"
  | rs1P => "rs1_p"
  | rs2P => "rs2_p"
  | rdRs1 => "rd_rs1"
  | rdRs1P => "rd_rs1_p"
  | rdRs1N0 => "rd_rs1_n0"
  | rdN0 => "rd_n0"
  | rdN2 => "rd_n2"
  | rs1N0 => "rs1_n0"
  | cRs2 => "c_rs2"
  | cRs2N0 => "c_rs2_n0"
  | cRs1N0 => "c_rs1_n0"
  | cNzuimm10 => "c_nzuimm10"
  | cUimm7Lo => "c_uimm7lo"
  | cUimm7Hi => "c_uimm7hi"
  | cNzimm6Lo => "c_nzimm6lo"
  | cNzimm6Hi => "c_nzimm6hi"
  | cImm6Lo => "c_imm6lo"
  | cImm6Hi => "c_imm6hi"
  | cNzimm10Lo => "c_nzimm10lo"
  | cNzimm10Hi => "c_nzimm10hi"
  | cNzimm18Lo => "c_nzimm18lo"
  | cNzimm18Hi => "c_nzimm18hi"
  | cNzuimm6Lo => "c_nzuimm6lo"
  | cImm12 => "c_imm12"
  | cBimm9Lo => "c_bimm9lo"
  | cBimm9Hi => "c_bimm9hi"
  | cUimm8SpLo => "c_uimm8splo"
  | cUimm8SpHi => "c_uimm8sphi"
  | cUimm8SpS => "c_uimm8sp_s"

/-- The spelling in a JSON document. -/
def tag : OperandName → String
  | rd => "Rd"
  | rs1 => "Rs1"
  | rs2 => "Rs2"
  | rs3 => "Rs3"
  | rm => "Rm"
  | fm => "Fm"
  | pred => "Pred"
  | succ => "Succ"
  | shamtw => "Shamtw"
  | imm12 => "Imm12"
  | imm12Hi => "Imm12Hi"
  | imm12Lo => "Imm12Lo"
  | bimm12Hi => "Bimm12Hi"
  | bimm12Lo => "Bimm12Lo"
  | imm20 => "Imm20"
  | jimm20 => "Jimm20"
  | csr => "Csr"
  | zimm => "Zimm"
  | rdP => "RdP"
  | rs1P => "Rs1P"
  | rs2P => "Rs2P"
  | rdRs1 => "RdRs1"
  | rdRs1P => "RdRs1P"
  | rdRs1N0 => "RdRs1N0"
  | rdN0 => "RdN0"
  | rdN2 => "RdN2"
  | rs1N0 => "Rs1N0"
  | cRs2 => "CRs2"
  | cRs2N0 => "CRs2N0"
  | cRs1N0 => "CRs1N0"
  | cNzuimm10 => "CNzuimm10"
  | cUimm7Lo => "CUimm7Lo"
  | cUimm7Hi => "CUimm7Hi"
  | cNzimm6Lo => "CNzimm6Lo"
  | cNzimm6Hi => "CNzimm6Hi"
  | cImm6Lo => "CImm6Lo"
  | cImm6Hi => "CImm6Hi"
  | cNzimm10Lo => "CNzimm10Lo"
  | cNzimm10Hi => "CNzimm10Hi"
  | cNzimm18Lo => "CNzimm18Lo"
  | cNzimm18Hi => "CNzimm18Hi"
  | cNzuimm6Lo => "CNzuimm6Lo"
  | cImm12 => "CImm12"
  | cBimm9Lo => "CBimm9Lo"
  | cBimm9Hi => "CBimm9Hi"
  | cUimm8SpLo => "CUimm8SpLo"
  | cUimm8SpHi => "CUimm8SpHi"
  | cUimm8SpS => "CUimm8SpS"

/-- The name with a given spelling. -/
def ofText? (s : String) : Option OperandName := all.find? (·.text == s)

theorem ofText?_text (n : OperandName) : ofText? n.text = some n := by
  cases n <;> decide +kernel

theorem text_of_ofText? {s : String} {n : OperandName} (h : ofText? s = some n) : n.text = s := by
  simpa using List.find?_some h

/-- A list of names in the order of the vocabulary, repetitions kept: the one form that all
permutations of the list share (`sort_eq_sort_iff`). -/
def sort (names : List OperandName) : List OperandName :=
  all.flatMap fun n => List.replicate (names.count n) n

theorem count_flatMap_replicate {vocabulary : List OperandName} (names : List OperandName)
    (m : OperandName) (nodup : vocabulary.Nodup) :
    (vocabulary.flatMap fun n => List.replicate (names.count n) n).count m =
      if m ∈ vocabulary then names.count m else 0 := by
  induction vocabulary with
  | nil => rfl
  | cons n rest ih =>
    obtain ⟨fresh, nodup⟩ := List.nodup_cons.1 nodup
    rw [List.flatMap_cons, List.count_append, ih nodup, List.count_replicate]
    by_cases h : n = m
    · subst h
      simp [fresh]
    · simp [h, Ne.symm h]

theorem count_sort (names : List OperandName) (m : OperandName) :
    (sort names).count m = names.count m := by
  rw [sort, count_flatMap_replicate names m nodup_all, if_pos (mem_all m)]

theorem sort_perm (names : List OperandName) : (sort names).Perm names :=
  List.perm_iff_count.2 (count_sort names)

theorem sort_eq_sort_iff {a b : List OperandName} : sort a = sort b ↔ a.Perm b := by
  constructor
  · intro h
    exact (sort_perm a).symm.trans (h ▸ sort_perm b)
  · intro h
    simp only [sort, h.count_eq]

theorem sort_sort (names : List OperandName) : sort (sort names) = sort names :=
  sort_eq_sort_iff.2 (sort_perm names)

end OperandName

end Opcodes
