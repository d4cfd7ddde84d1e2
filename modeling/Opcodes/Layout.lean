import Opcodes.Word

/-!
# Operand layouts

A layout says, field by field, how the value of an operand is gathered from a word. Slices of the
word are put side by side into a number of `width` bits, which is then read as a value. `fault?`
finds what would make that go wrong: a width that no word has, a slice outside the word, or one
that does not fit in the width. The other functions are meant for layouts without a fault.
-/
set_option autoImplicit false

namespace Opcodes

/-- The slot of an instruction that a value fills. -/
inductive Field where
  | rd
  | rs1
  | rs2
  | rs3
  | rm
  | fm
  | pred
  | succ
  | shamt
  | imm
  | csr
  | zimm
deriving DecidableEq, Repr

namespace Field

def all : List Field := [rd, rs1, rs2, rs3, rm, fm, pred, succ, shamt, imm, csr, zimm]

theorem mem_all (f : Field) : f ∈ all := by cases f <;> decide

def text : Field → String
  | rd => "rd"
  | rs1 => "rs1"
  | rs2 => "rs2"
  | rs3 => "rs3"
  | rm => "rm"
  | fm => "fm"
  | pred => "pred"
  | succ => "succ"
  | shamt => "shamt"
  | imm => "imm"
  | csr => "csr"
  | zimm => "zimm"

def isRegister : Field → Bool
  | rd | rs1 | rs2 | rs3 => true
  | _ => false

end Field

/-- How gathered bits are read as a value. -/
inductive Reading where
  /-- In two's complement. -/
  | signed
  | unsigned
  | register
  /-- Three bits that name one of the registers from x8 to x15. -/
  | compressedRegister
deriving DecidableEq, Repr

/-- The spelling in a JSON document. -/
def Reading.tag : Reading → String
  | signed => "Signed"
  | unsigned => "Zero"
  | register => "Register"
  | compressedRegister => "CompressedRegister"

/-- Bits of the word and the lowest bit of the gathered number that they become. -/
structure Slice where
  source : BitRange
  target : Nat
deriving DecidableEq, Repr

/-- Why a field cannot be gathered from a word. -/
inductive LayoutFault where
  | width (width : Nat)
  | outOfWord (source : BitRange)
  | overrun (slice : Slice) (width : Nat)
deriving DecidableEq, Repr

def LayoutFault.message : LayoutFault → String
  | width w => s!"width {w} is outside 1..=32"
  | outOfWord source => s!"segment {source.text} is inverted or outside the word"
  | overrun slice w =>
    s!"segment {slice.source.text} placed at bit {slice.target} overruns width {w}"

namespace Slice

/-- The slice's bits at their place in the gathered number. -/
def gather (s : Slice) (w : Word) : Word := s.source.read w <<< s.target

/-- What keeps the slice from giving bits of a number of `width` bits. -/
def fault? (width : Nat) (s : Slice) : Option LayoutFault :=
  if ¬ s.source.InWord then some (.outOfWord s.source)
  else if width < s.target ∨ width - s.target < s.source.width then some (.overrun s width)
  else none

end Slice

/-- How the value of one field is gathered. The width counts low zeros that no slice gives. -/
structure FieldLayout where
  field : Field
  slices : List Slice
  width : Nat
  reading : Reading
deriving DecidableEq, Repr

namespace FieldLayout

/-- The first fault: of the width, else of the first slice that has one. -/
def fault? (f : FieldLayout) : Option LayoutFault :=
  if f.width < 1 ∨ 32 < f.width then some (.width f.width)
  else f.slices.findSome? (Slice.fault? f.width)

/-- The bits of the word that the field reads. -/
def bits (f : FieldLayout) : Word := Word.union (f.slices.map (·.source.mask))

/-- The slices of the word side by side. -/
def gather (f : FieldLayout) (w : Word) : Word := Word.union (f.slices.map (·.gather w))

/-- The value of the field in a word. -/
def extract (f : FieldLayout) (w : Word) : Int :=
  match f.reading with
  | .signed => ((f.gather w).setWidth f.width).toInt
  | .unsigned | .register => (f.gather w).toNat
  | .compressedRegister => (f.gather w).toNat + 8

end FieldLayout

/-- The fields of an instruction in the order in which they are listed. -/
abbrev Layout := List FieldLayout

namespace Layout

/-- The bits of the word that the layout reads. -/
def bits (l : Layout) : Word := Word.union (l.map FieldLayout.bits)

/-- The first field with a fault. -/
def fault? (l : Layout) : Option (Field × LayoutFault) :=
  l.findSome? fun f => f.fault?.map (f.field, ·)

end Layout

end Opcodes
