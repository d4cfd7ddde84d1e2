import Opcodes.Image
import Opcodes.Table

/-!
# Listings

A linear sweep decodes the word at an address and goes on behind it: by the length of the
instruction, or by a fixed step where the word is illegal.
-/
set_option autoImplicit false

namespace Opcodes

structure Line where
  address : Word
  /-- The bytes of the encoding, as far as they can be read. -/
  bytes : List Byte
  decoded : Decoded
deriving DecidableEq, Repr

namespace Line

/-- Each byte in two hexadecimal digits and a blank, filled up to the width of four bytes. -/
def renderBytes (l : Line) : String :=
  let digits := l.bytes.map fun b => String.ofList ((Nat.toDigits 16 b.toNat).leftpad 2 '0') ++ " "
  String.join digits ++ String.join (List.replicate (4 - l.bytes.length) "   ") ++ " "

def render (l : Line) (showBytes : Bool) : String :=
  s!"{Numeral.hexPadded 8 l.address.toNat}: " ++ (if showBytes then l.renderBytes else "") ++
    l.decoded.render

end Line

namespace Listing

/-- The number of bytes that a decoded word takes up. -/
def advance (illegalStep : Nat) : Decoded → Nat
  | .instruction i => i.length
  | .illegal _ => illegalStep

/-- At most `fuel` lines from the address `pc` on. The sweep ends at or behind `stop`, and where
no word can be fetched. -/
def sweepFrom (t : Table) (m : Image) (stop : Word) (illegalStep : Nat) :
    (fuel : Nat) → (pc : Word) → List Line
  | 0, _ => []
  | fuel + 1, pc =>
    if pc < stop then
      match m.fetch? pc with
      | none => []
      | some w =>
        let decoded := t.decode w
        let length := advance illegalStep decoded
        let bytes := (List.range length).filterMap fun i => m.byte? (pc + BitVec.ofNat 32 i)
        ⟨pc, bytes, decoded⟩ :: sweepFrom t m stop illegalStep fuel (pc + BitVec.ofNat 32 length)
    else []

/-- The lines from `start` up to `stop`. A sweep that ends visits no address twice, so the number
of addresses is fuel enough. -/
def sweep (t : Table) (m : Image) (start stop : Word) (illegalStep : Nat) : List Line :=
  sweepFrom t m stop illegalStep 0x100000000 start

end Listing

end Opcodes
