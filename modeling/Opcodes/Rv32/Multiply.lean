/-!
# Multiplication and division, RV32M
-/
set_option autoImplicit false

namespace Opcodes.Rv32

/-- The lines of the fragment. -/
def multiplyLines : List String := [
    "# RV32M multiply and divide",
    "",
    "mul     rd rs1 rs2 31..25=1 14..12=0 6..2=0x0C 1..0=3",
    "mulh    rd rs1 rs2 31..25=1 14..12=1 6..2=0x0C 1..0=3",
    "mulhsu  rd rs1 rs2 31..25=1 14..12=2 6..2=0x0C 1..0=3",
    "mulhu   rd rs1 rs2 31..25=1 14..12=3 6..2=0x0C 1..0=3",
    "div     rd rs1 rs2 31..25=1 14..12=4 6..2=0x0C 1..0=3",
    "divu    rd rs1 rs2 31..25=1 14..12=5 6..2=0x0C 1..0=3",
    "rem     rd rs1 rs2 31..25=1 14..12=6 6..2=0x0C 1..0=3",
    "remu    rd rs1 rs2 31..25=1 14..12=7 6..2=0x0C 1..0=3"
  ]

end Opcodes.Rv32
