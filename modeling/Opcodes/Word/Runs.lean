import Opcodes.Word

/-!
# Runs of set bits

The set bits of a mask fall into maximal runs. `runs` lists them from the most significant one.
-/
set_option autoImplicit false

namespace Opcodes.Word

/-- The runs among the bits below position `n`, where `top` is the upper end of a run that reaches
down to `n`, if there is one. -/
def runsBelow (mask : Word) : (n : Nat) → (top : Option Nat) → List BitRange
  | 0, none => []
  | 0, some hi => [⟨hi, 0⟩]
  | n + 1, none => runsBelow mask n (if mask.getLsbD n then some n else none)
  | n + 1, some hi =>
    if mask.getLsbD n then runsBelow mask n (some hi)
    else ⟨hi, n + 1⟩ :: runsBelow mask n none

/-- The maximal runs of set bits, the most significant first. -/
def runs (mask : Word) : List BitRange := runsBelow mask 32 none

end Opcodes.Word
