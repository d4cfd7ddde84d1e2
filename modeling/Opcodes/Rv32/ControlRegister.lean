/-!
# Control and status registers, Zicsr
-/
set_option autoImplicit false

namespace Opcodes.Rv32

/-- The lines of the fragment. -/
def controlRegisterLines : List String := [
    "# Zicsr control and status register access",
    "",
    "csrrw   rd rs1 csr   14..12=1 6..2=0x1C 1..0=3",
    "csrrs   rd rs1 csr   14..12=2 6..2=0x1C 1..0=3",
    "csrrc   rd rs1 csr   14..12=3 6..2=0x1C 1..0=3",
    "csrrwi  rd zimm csr  14..12=5 6..2=0x1C 1..0=3",
    "csrrsi  rd zimm csr  14..12=6 6..2=0x1C 1..0=3",
    "csrrci  rd zimm csr  14..12=7 6..2=0x1C 1..0=3"
  ]

end Opcodes.Rv32
