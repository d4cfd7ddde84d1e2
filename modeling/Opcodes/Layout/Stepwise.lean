import Opcodes.Layout

/-!
# Checking and gathering a field in steps of word arithmetic

`FieldLayout.fault?`, `FieldLayout.extract` and `FieldLayout.bits` are total, whatever the layout
says. Here the same values are worked out in single steps, and each step is defined only where a
machine can do it as it is meant: a shift goes by less than the number of bits it shifts and pushes
no set bit out of a word, a difference is not negative and a sum fits in a word. So a result tells
that no step went out of range. The check is there for layouts of all kinds, so its steps are behind
comparisons that keep them in range. Gathering relies on the check, and notes its shifts.
-/
set_option autoImplicit false

namespace Opcodes

/-- A shift of a number of `size` bits by `amount` positions. -/
structure Shift where
  size : Nat
  amount : Nat
deriving DecidableEq, Repr

/-- A computation in steps, with the shifts made so far. It has no result if a step is out of
range. -/
abbrev Steps := StateT (List Shift) Option

/-- Makes a shift with this result. The amount has to be less than the size. -/
def Steps.shift {α : Type} (size amount : Nat) (result : α) : Steps α := fun made =>
  if amount < size then some (result, made ++ [⟨size, amount⟩]) else none

namespace Word

/-- Shifts up, and only where no set bit is lost. -/
def shiftUp? (w : Word) (n : Nat) : Steps Word := do
  guard (w.toNat <<< n < 0x100000000)
  Steps.shift 32 n (w <<< n)

def shiftDown? (w : Word) (n : Nat) : Steps Word := Steps.shift 32 n (w >>> n)

/-- Shifts down and keeps the sign. -/
def shiftDownSigned? (w : Word) (n : Nat) : Steps Word := Steps.shift 32 n (w.sshiftRight n)

/-- The lowest `n` bits set. A one is shifted in twice the width, so that it can go past the word and
all thirty-two bits are in range, and the difference is cut to a word only where it fits. -/
def ones? (n : Nat) : Steps Word := do
  let top ← Steps.shift 64 n ((1 : BitVec 64) <<< n)
  guard (1 ≤ top.toNat ∧ top.toNat - 1 < 0x100000000)
  return (top - 1).setWidth 32

end Word

/-- A difference that is not negative. -/
def difference? (a b : Nat) : Option Nat := if b ≤ a then some (a - b) else none

/-- A sum that fits in a word. -/
def sum? (a b : Nat) : Option Nat := if a + b < 0x100000000 then some (a + b) else none

namespace BitRange

/-- The number of positions. -/
def width? (r : BitRange) : Option Nat := (difference? r.hi r.lo).map (· + 1)

end BitRange

namespace Slice

/-- What keeps the slice from giving bits of a number of `width` bits. The number of its bits is not
added to the target but compared with what is left of the width above it. -/
def check? (width : Nat) (s : Slice) : Option (Option LayoutFault) :=
  if s.source.hi < s.source.lo ∨ 32 ≤ s.source.hi then some (some (.outOfWord s.source))
  else do
    let length ← sum? (← difference? s.source.hi s.source.lo) 1
    if width < s.target then return some (.overrun s width)
    if (← difference? width s.target) < length then return some (.overrun s width)
    return none

/-- The slice's bits at their place in the gathered number. -/
def gather? (s : Slice) (w : Word) : Steps Word := do
  let bits := (← w.shiftDown? s.source.lo) &&& (← Word.ones? (← s.source.width?))
  bits.shiftUp? s.target

/-- The bits of the word that the slice takes. -/
def bits? (s : Slice) : Steps Word := do
  (← Word.ones? (← s.source.width?)).shiftUp? s.source.lo

end Slice

namespace FieldLayout

/-- The first fault: of the width, else of the first slice that has one. -/
def check? (f : FieldLayout) : Option (Option LayoutFault) :=
  if f.width < 1 ∨ 32 < f.width then some (some (.width f.width))
  else f.slices.findSomeM? (Slice.check? f.width)

/-- The slices of the word side by side. -/
def gather? (f : FieldLayout) (w : Word) : Steps Word :=
  f.slices.foldlM (fun raw s => return raw ||| (← s.gather? w)) 0

/-- The value of the field in a word. A signed number is moved to the top of the word and back. -/
def extract? (f : FieldLayout) (w : Word) : Steps Int := do
  let raw ← f.gather? w
  match f.reading with
  | .signed =>
    let above ← difference? 32 f.width
    return (← (← raw.shiftUp? above).shiftDownSigned? above).toInt
  | .unsigned | .register => return raw.toNat
  | .compressedRegister => return raw.toNat + 8

/-- The bits of the word that the field reads. -/
def bits? (f : FieldLayout) : Steps Word :=
  f.slices.foldlM (fun mask s => return mask ||| (← s.bits?)) 0

end FieldLayout

/-- The first field with a fault. -/
def Layout.check? (l : Layout) : Option (Option (Field × LayoutFault)) :=
  l.findSomeM? fun f => f.check?.map fun fault? => fault?.map (f.field, ·)

end Opcodes
