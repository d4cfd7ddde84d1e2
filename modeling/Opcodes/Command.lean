import Opcodes.Layout.Riscv
import Opcodes.Report
import Opcodes.Rv32.Extensions
import Opcodes.Table.Build

/-!
# Commands

What the program's commands answer, given their arguments and the contents of the files that these
name. `check` reports on a table, `words` decodes words from the command line, and `range`
disassembles a part of a raw image. A command whose arguments make no sense is refused before it
does anything.
-/
set_option autoImplicit false

namespace Opcodes.Command

inductive Format where
  | text
  | json
deriving DecidableEq, Repr

def Format.ofName? : String → Option Format
  | "text" => some .text
  | "json" => some .json
  | _ => none

/-- The bytes of a file, or nothing if there is no such file. -/
abbrev File := Option ByteArray

/-- What a command did. -/
structure Answer where
  exit : Nat
  stdout : String
  stderr : String
  /-- The contents of the output file, if one was written. -/
  written? : Option String
deriving DecidableEq, Repr

namespace Answer

def done (stdout : String) : Answer := ⟨0, stdout, "", none⟩

def wrote (contents : String) : Answer := ⟨0, "", "", some contents⟩

/-- A command that stops with an error keeps what it has printed. -/
def failed (stdout message : String) : Answer := ⟨1, stdout, s!"Error: {message}\n", none⟩

def ofExcept (answer : Except String Answer) : Answer :=
  match answer with
  | .ok a => a
  | .error message => failed "" message

end Answer

/-- What all commands are told: the extensions and the format of the output. -/
structure Context where
  extensions : Extensions
  format : Format
deriving DecidableEq, Repr

def Context.parse? (extensions format : String) : Option Context := do
  let extensions ← (Extensions.parseList extensions).toOption
  return ⟨extensions, ← Format.ofName? format⟩

/-- Reads a text file. -/
def readText (file : File) : Except String String :=
  match file with
  | none => .error LoadFault.missingFile.message
  | some bytes =>
    match String.fromUTF8? bytes with
    | none => .error "stream did not contain valid UTF-8"
    | some text => .ok text

/-- A table text with the further tables after it, each behind a newline. -/
def appendTables (text : String) (tables : List File) : Except String String :=
  tables.foldlM (fun text file => do return text ++ "\n" ++ (← readText file)) text

/-- Reads a word: hexadecimal after `0x`, where underscores may separate digits, or decimal. -/
def readWord (s : String) : Except String Word :=
  let digits :=
    match Text.trim s.toList with
    | '0' :: 'x' :: cs | '0' :: 'X' :: cs => Numeral.read 16 Numeral.bound32 (cs.filter (· ≠ '_'))
    | cs => Numeral.read 10 Numeral.bound32 cs
  (digits.map (BitVec.ofNat 32)).mapError Numeral.Fault.message

/-! ## Checking a table -/

structure CheckOptions where
  /-- Only the further tables. -/
  noBuiltin : Bool
  /-- An ambiguity is an error. -/
  denyAmbiguity : Bool
  /-- Print the trees. -/
  tree : Bool
deriving DecidableEq, Repr

/-- The trees of a list of rules, each after a line with its mask. -/
def renderTrees (rules : List Rule) : String :=
  String.join ((Forest.ofRules rules).trees.toList.map fun ⟨mask, tree⟩ =>
    s!"shape {Numeral.hexPadded 8 mask.toNat} ({Word.weight mask} bits)\n" ++ tree.render)

def renderTable (format : Format) (t : Table) : String :=
  match format with
  | .text => t.summary
  | .json => t.toJson.pretty ++ "\n"

def check (c : Context) (tables : List File) (o : CheckOptions) : Answer := Answer.ofExcept do
  let text ← appendTables (if o.noBuiltin then "" else c.extensions.source) tables
  let rules ← (Rule.parseTable text).mapError TableFault.message
  let trees := if o.tree then renderTrees rules else ""
  match Table.ofRules .riscv rules with
  | .error e => return .failed trees e.message
  | .ok table =>
    let out := trees ++ renderTable c.format table
    if o.denyAmbiguity && !table.ambiguities.isEmpty then
      return .failed out s!"{table.ambiguities.length} ambiguous overlap(s)"
    else return .done out

/-! ## Decoding -/

/-- The table of the selected extensions and the further tables. -/
def Context.table (c : Context) (tables : List File) : Except String Table := do
  let text ← appendTables c.extensions.source tables
  (Table.ofText .riscv text).mapError BuildError.message

def renderWords (format : Format) (decoded : List Decoded) : String :=
  match format with
  | .text =>
    String.join (decoded.map fun d =>
      s!"{Numeral.hexPadded 8 d.word.toNat}: " ++ d.render ++ "\n")
  | .json => (Json.array (decoded.map Decoded.toJson)).pretty ++ "\n"

/-- Decodes words given as text. It takes one at least. -/
def words? (c : Context) (tables : List File) (texts : List String) : Option Answer :=
  if texts = [] then none
  else some <| Answer.ofExcept do
    let table ← c.table tables
    let words ← texts.mapM readWord
    return .done (renderWords c.format (words.map table.decode))

structure RangeOptions where
  base : Word
  skip : Nat
  length? : Option Nat
  showBytes : Bool
  /-- The output goes into a file. -/
  toFile : Bool
deriving DecidableEq, Repr

/-- Reads the numbers of the options; those in bytes have sixty-four bits. -/
def RangeOptions.parse? (base skip : String) (length? : Option String) (showBytes toFile : Bool) :
    Option RangeOptions := do
  let base ← (Numeral.read 10 Numeral.bound32 base.toList).toOption
  let bytes (s : String) := (Numeral.read 10 Numeral.bound64 s.toList).toOption
  let skip ← bytes skip
  let length? ← match length? with
    | none => some none
    | some s => (bytes s).map some
  return ⟨BitVec.ofNat 32 base, skip, length?, showBytes, toFile⟩

def renderLines (format : Format) (showBytes : Bool) (lines : List Line) : String :=
  match format with
  | .text => String.join (lines.map fun l => l.render showBytes ++ "\n")
  | .json => (Json.array (lines.map Line.toJson)).pretty

/-- Disassembles the addresses from `start` up to `stop` of a raw image. -/
def range (c : Context) (tables : List File) (o : RangeOptions) (file : File)
    (start stop : String) : Answer :=
  Answer.ofExcept do
    let table ← c.table tables
    let bytes? := file.map fun b => b.data.map UInt8.toBitVec
    let image ← (Image.load bytes? o.base o.skip o.length?).mapError LoadFault.message
    let start ← readWord start
    let stop ← readWord stop
    if stop < start then .error "end must be >= start"
    else
      let step := if c.extensions.contains .compressed then 2 else 4
      let out := renderLines c.format o.showBytes (Listing.sweep table image start stop step)
      return if o.toFile then .wrote out else .done out

end Opcodes.Command
