import Opcodes.Rule
import Opcodes.Instruction

/-!
# Decoding tables

A table holds groups of entries in order of priority. The entries of a group fix the same bits, its
mask, to different patterns, so at most one of them matches a word, and a bisection finds it; of the
groups with a match the first decides.
-/
set_option autoImplicit false

namespace Opcodes

/-- A rule with the layout of its operands. -/
structure Entry where
  /-- The values of the fixed bits. -/
  pattern : Word
  operator : String
  /-- In the order of declaration. -/
  operands : List OperandName
  layout : Layout
  /-- The length of the encoding in bytes. -/
  length : Nat
  line : Nat
deriving DecidableEq, Repr

namespace Entry

/-- An encoding that neither fixes nor reads a bit of the upper half takes two bytes. -/
def encodedLength (touched : Word) : Nat := if touched >>> 16 = 0 then 2 else 4

def ofRule (pattern : Word) (rule : Rule) (layout : Layout) : Entry where
  pattern
  operator := rule.operator
  operands := rule.operands
  layout
  length := encodedLength (rule.mask ||| layout.bits)
  line := rule.line

/-- The instruction that a matching word encodes. -/
def instruction (e : Entry) (w : Word) : Instruction where
  word := w
  operator := e.operator
  operands := e.layout.map fun f => ⟨f.field, f.extract w⟩
  length := e.length

end Entry

/-- The entries that fix the bits of one mask. -/
structure Group where
  mask : Word
  /-- In ascending order of the patterns. -/
  entries : List Entry
deriving DecidableEq, Repr

namespace Group

def specificity (g : Group) : Nat := Word.weight g.mask

/-- Looks a pattern up among entries in ascending order: the half that cannot hold it is dropped
until one entry is left. -/
def search (pattern : Word) (entries : List Entry) : Option Entry :=
  if entries.length ≤ 1 then entries.find? (·.pattern == pattern)
  else
    let low := entries.take (entries.length / 2)
    let high := entries.drop (entries.length / 2)
    if high.head?.any (pattern < ·.pattern) then search pattern low else search pattern high
termination_by entries.length
decreasing_by
  · simp only [List.length_take]
    omega
  · simp only [List.length_drop]
    omega

/-- The entry that matches the word. -/
def find? (g : Group) (w : Word) : Option Entry := search (w &&& g.mask) g.entries

/-- More fixed bits go first, and among equally many the larger mask. -/
def precedes (a b : Group) : Bool :=
  b.specificity < a.specificity || (b.specificity == a.specificity && b.mask < a.mask)

end Group

structure Table where
  /-- In order of priority. -/
  groups : List Group
deriving DecidableEq, Repr

namespace Table

def entries (t : Table) : List Entry := t.groups.flatMap (·.entries)

/-- The number of rules. -/
def size (t : Table) : Nat := t.entries.length

def isEmpty (t : Table) : Bool := t.groups.isEmpty

/-- The entry that decides about a word, with its group. -/
def find? (t : Table) (w : Word) : Option (Group × Entry) :=
  t.groups.findSome? fun g => (g.find? w).map (g, ·)

/-- All entries that match a word, in order of priority. -/
def candidates (t : Table) (w : Word) : List (Group × Entry) :=
  t.groups.filterMap fun g => (g.find? w).map (g, ·)

def decode (t : Table) (w : Word) : Decoded :=
  match t.find? w with
  | some (_, entry) => .instruction (entry.instruction w)
  | none => .illegal w

end Table

end Opcodes
