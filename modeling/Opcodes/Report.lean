import Opcodes.Json
import Opcodes.Listing
import Opcodes.Table.Ambiguity

/-!
# Reports

Tables, decoded words and listings as JSON documents, and tables as text. Numbers in JSON are
decimal; members stand in the order given here.
-/
set_option autoImplicit false

namespace Opcodes

def Json.word {n : Nat} (w : BitVec n) : Json := .number w.toNat

def Entry.toJson (e : Entry) : Json := .object [
  ("pattern", .word e.pattern),
  ("operator", .string e.operator),
  ("operands", .array (e.operands.map fun name => .string name.tag)),
  ("len", .number e.length),
  ("line", .number e.line)]

def Group.toJson (g : Group) : Json := .object [
  ("shape", .object [("mask", .word g.mask)]),
  ("entries", .array (g.entries.map Entry.toJson))]

def Ambiguity.toJson (a : Ambiguity) : Json := .object [
  ("winner", .string a.winner.operator),
  ("winner_line", .number a.winner.line),
  ("shadowed", .string a.shadowed.operator),
  ("shadowed_line", .number a.shadowed.line),
  ("word", .word a.word)]

def Table.toJson (t : Table) : Json := .object [
  ("groups", .array (t.groups.map Group.toJson)),
  ("ambiguities", .array (t.ambiguities.map Ambiguity.toJson))]

def Operand.toJson (o : Operand) : Json := .object [
  ("field", .string o.field.text),
  ("value", .number o.value)]

def Decoded.toJson : Decoded → Json
  | instruction i => .object [
    ("kind", .string "instruction"),
    ("word", .word i.word),
    ("operator", .string i.operator),
    ("operands", .array (i.operands.map Operand.toJson)),
    ("len", .number i.length)]
  | illegal w => .object [("kind", .string "illegal"), ("word", .word w)]

def Line.toJson (l : Line) : Json := .object [
  ("addr", .word l.address),
  ("bytes", .array (l.bytes.map .word)),
  ("decoded", l.decoded.toJson)]

/-- The mask, the number of fixed bits in two columns, and the operators. -/
def Group.summary (g : Group) : String :=
  let count := String.ofList ((Nat.toDigits 10 g.specificity).leftpad 2 ' ')
  let operators := String.intercalate " " (g.entries.map (·.operator))
  s!"  {Numeral.hexPadded 8 g.mask.toNat} {count} bits  {operators}\n"

def Ambiguity.summary (a : Ambiguity) : String :=
  s!"  overlap: {a.winner.operator} (line {a.winner.line}) shadows {a.shadowed.operator} " ++
    s!"(line {a.shadowed.line}) at {Numeral.hexPadded 8 a.word.toNat}\n"

/-- The sizes of a table, then a line for each group and for each ambiguity. -/
def Table.summary (t : Table) : String :=
  s!"rules      : {t.size}\n" ++
  s!"groups     : {t.groups.length}\n" ++
  s!"ambiguities: {t.ambiguities.length}\n" ++
  String.join (t.groups.map Group.summary) ++ String.join (t.ambiguities.map Ambiguity.summary)

end Opcodes
