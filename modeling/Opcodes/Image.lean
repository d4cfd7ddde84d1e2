import Opcodes.Word

/-!
# Memory images

An image is a list of segments, and a byte comes from the first segment that has its address. A
segment does not reach past the top of the address space. Reads of several bytes are little-endian
and take each byte by its own address, counted modulo the size of the address space.
-/
set_option autoImplicit false

namespace Opcodes

structure Segment where
  name : String
  base : Word
  bytes : Array Byte
deriving DecidableEq, Repr

/-- The byte of the segment at an address. -/
def Segment.byte? (s : Segment) (a : Word) : Option Byte :=
  if s.base ≤ a then s.bytes[(a - s.base).toNat]? else none

abbrev Image := List Segment

/-- Why the bytes of a file cannot be loaded as asked. -/
inductive LoadFault where
  | missingFile
  | skipTooLarge
  | lengthTooLarge
deriving DecidableEq, Repr

def LoadFault.message : LoadFault → String
  | missingFile => "No such file or directory (os error 2)"
  | skipTooLarge => "--skip exceeds file size"
  | lengthTooLarge => "--len exceeds remaining file size after skip"

namespace Image

/-- The image of one segment. -/
def ofBytes (base : Word) (bytes : Array Byte) : Image := [⟨"segment0", base, bytes⟩]

/-- Loads a file at `base`: all bytes after the first `skip`, or only `length?` of them. There are
no bytes if the file is missing. -/
def load (file? : Option (Array Byte)) (base : Word) (skip : Nat) (length? : Option Nat) :
    Except LoadFault Image :=
  match file? with
  | none => .error .missingFile
  | some file =>
    if file.size < skip then .error .skipTooLarge
    else
      let rest := file.extract skip
      match length? with
      | none => .ok (ofBytes base rest)
      | some n =>
        if rest.size < n then .error .lengthTooLarge else .ok (ofBytes base (rest.extract 0 n))

def byte? (m : Image) (a : Word) : Option Byte := m.findSome? (·.byte? a)

def half? (m : Image) (a : Word) : Option (BitVec 16) := do
  let low ← m.byte? a
  let high ← m.byte? (a + 1)
  return high ++ low

def word? (m : Image) (a : Word) : Option Word := do
  let low ← m.half? a
  let high ← m.half? (a + 2)
  return high ++ low

/-- The word to decode at an address: thirty-two bits, or sixteen where no more can be read. -/
def fetch? (m : Image) (a : Word) : Option Word :=
  m.word? a <|> (m.half? a).map (BitVec.setWidth 32)

end Image

end Opcodes
