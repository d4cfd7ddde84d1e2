import Opcodes.Word
import Opcodes.Text.Blank
import Opcodes.Text.Split
import Opcodes.Text.Numeral
import Opcodes.Rv32.Base
import Opcodes.Rv32.Multiply
import Opcodes.Rv32.Float
import Opcodes.Rv32.ControlRegister
import Opcodes.Rv32.Compressed

/-!
# Selections of RV32 extensions

A selection is a set of flags. Each known flag has a fragment of the shipped table, and the text of
a selection is the fragments of its flags, with the base always among them. Selections are written
in two forms: as a list with commas (`parseList`), where the base is implied, and as flags
(`ofFlags?`, `flags`), where unknown bits have a form too and nothing is implied.
-/
set_option autoImplicit false

namespace Opcodes

/-- A part of the instruction set with a fragment of its own. -/
inductive Extension where
  | base
  | multiply
  | float
  | controlRegister
  | compressed
deriving DecidableEq, Repr

namespace Extension

/-- In the order of the flags and of the fragments. -/
def all : List Extension := [base, multiply, float, controlRegister, compressed]

theorem mem_all (e : Extension) : e ∈ all := by cases e <;> decide

/-- The name of the flag. -/
def flag : Extension → String
  | base => "I"
  | multiply => "M"
  | float => "F"
  | controlRegister => "ZICSR"
  | compressed => "C"

def bit : Extension → Word
  | base => 1
  | multiply => 2
  | float => 4
  | controlRegister => 8
  | compressed => 16

/-- The name of the fragment. -/
def fragmentName : Extension → String
  | base => "rv32i"
  | multiply => "rv32m"
  | float => "rv32f"
  | controlRegister => "zicsr"
  | compressed => "rv32c"

/-- The lines of the fragment. -/
def lines : Extension → List String
  | base => Rv32.baseLines
  | multiply => Rv32.multiplyLines
  | float => Rv32.floatLines
  | controlRegister => Rv32.controlRegisterLines
  | compressed => Rv32.compressedLines

/-- The text of the fragment. -/
def text (e : Extension) : String := String.join (e.lines.map (· ++ "\n"))

end Extension

/-- A set of flags; bits without a known flag are kept. -/
structure Extensions where
  bits : Word
deriving DecidableEq, Repr

/-- A name that stands for no extension. -/
structure UnknownExtension where
  name : String
deriving DecidableEq, Repr

def UnknownExtension.message (e : UnknownExtension) : String := s!"unknown extension `{e.name}`"

namespace Extensions

def ofList (es : List Extension) : Extensions := ⟨Word.union (es.map Extension.bit)⟩

def union (a b : Extensions) : Extensions := ⟨a.bits ||| b.bits⟩

def contains (a : Extensions) (e : Extension) : Bool := Word.covers a.bits e.bit

/-- The known flags of a selection. -/
def toList (a : Extensions) : List Extension := Extension.all.filter a.contains

def base : Extensions := ofList [.base]

/-- The general-purpose set without compressed instructions. -/
def rv32g : Extensions := ofList [.base, .multiply, .float, .controlRegister]

def rv32gc : Extensions := ofList Extension.all

/-- The flags and the two names for several of them. -/
def named : List (String × Extensions) :=
  Extension.all.map (fun e => (e.flag, ofList [e])) ++ [("RV32G", rv32g), ("RV32GC", rv32gc)]

def ofName? (name : String) : Option Extensions := named.lookup name

/-- Adds the items of a list to a selection. Blank items count for nothing, and ASCII letters for
their upper case. -/
def addItems (a : Extensions) : List (List Char) → Except UnknownExtension Extensions
  | [] => .ok a
  | item :: rest =>
    let name := Text.trim item
    if name = [] then addItems a rest
    else match ofName? (String.ofList (name.map Char.toUpper)) with
      | none => .error ⟨String.ofList name⟩
      | some b => addItems (a.union b) rest

/-- Reads a list of names with commas between them. The base is always in the selection. -/
def parseList (list : String) : Except UnknownExtension Extensions :=
  addItems base (Text.pieces ',' list.toList)

/-- Reads one flag: a name, exactly as it is spelled, or bits in hexadecimal. -/
def ofFlag? (cs : List Char) : Option Extensions :=
  match cs with
  | [] => none
  | '0' :: 'x' :: digits =>
    (Numeral.read 16 Numeral.bound32 digits).toOption.map fun n => ⟨BitVec.ofNat 32 n⟩
  | _ => ofName? (String.ofList cs)

/-- Reads flags with bars between them. A blank text has no flags. -/
def ofFlags? (text : List Char) : Option Extensions :=
  if Text.trim text = [] then some ⟨0⟩
  else do
    let parts ← (Text.pieces '|' text).mapM fun part => ofFlag? (Text.trim part)
    return ⟨Word.union (parts.map Extensions.bits)⟩

/-- Writes the known flags by name and what remains as one number. -/
def flags (a : Extensions) : String :=
  let rest := a.bits &&& ~~~rv32gc.bits
  let names := a.toList.map Extension.flag
  String.intercalate " | " (if rest = 0 then names else names ++ [Numeral.hex rest.toNat])

/-- The table text of a selection: its fragments, with an empty line between them. -/
def source (a : Extensions) : String :=
  String.intercalate "\n" ((a.union base).toList.map Extension.text)

end Extensions

end Opcodes
