import Opcodes.Rule
import Opcodes.SwitchTree
import Opcodes.Word.Runs
import Opcodes.Text.Numeral
import Std.Data.DTreeMap

/-!
# Merging rules

Rules that fix the same bits go into one switch tree over the runs of those bits. The first rule
with an encoding takes the leaf. A later one is a duplicate if it spells the same rule, and else a
conflict. `Forest.ofRules` takes every rule in, so it reports all conflicts at once.
-/
set_option autoImplicit false

namespace Opcodes

/-- A rule and its place in the list that is merged. -/
structure Leaf where
  index : Nat
  rule : Rule
deriving DecidableEq, Repr

/-- The tree of the rules that fix the bits of `mask`. -/
structure MaskTree (mask : Word) where
  ranges : List BitRange
  root : SwitchTree Leaf ranges
  ranges_eq : ranges = Word.runs mask

namespace MaskTree

variable {mask : Word}

/-- The tree of one rule. -/
def single (leaf : Leaf) (ranges : List BitRange) (h : ranges = Word.runs mask) : MaskTree mask :=
  ⟨ranges, SwitchTree.single leaf.rule.pattern leaf ranges, h⟩

def find? (t : MaskTree mask) (w : Word) : Option Leaf := SwitchTree.find? w t.ranges t.root

def insert (t : MaskTree mask) (leaf : Leaf) : MaskTree mask :=
  { t with root := SwitchTree.insert leaf.rule.pattern leaf t.ranges t.root }

/-- Gives the rule its leaf, unless another rule is there: then that one is returned and the tree
stays. -/
def place (t : MaskTree mask) (leaf : Leaf) : Option Leaf × MaskTree mask :=
  match t.find? leaf.rule.pattern with
  | some occupant => (some occupant, t)
  | none => (none, t.insert leaf)

/-- The leaves in ascending order of their encodings. -/
def leaves (t : MaskTree mask) : List (Word × Leaf) := SwitchTree.leaves t.ranges t.root

/-- The lines of a tree: one for each value switched on and, indented below it, its subtree. A
leaf shows its operator. -/
def lines (t : MaskTree mask) : List String :=
  SwitchTree.fold (fun leaf => [s!"=> {leaf.rule.operator}"])
    (fun r children => children.flatMap fun (v, below) =>
      s!"{r.text} == {Numeral.hex v.toNat}" :: below.map ("  " ++ ·))
    t.ranges t.root

def render (t : MaskTree mask) : String := String.join (t.lines.map (· ++ "\n"))

end MaskTree

/-- Two different rules for the same encoding. -/
structure Conflict where
  first : Rule
  second : Rule
deriving DecidableEq, Repr

namespace Conflict

/-- The runs of the bits that both rules fix. -/
def ranges (c : Conflict) : List BitRange := Word.runs c.second.mask

def pattern (c : Conflict) : Word := c.second.pattern

def message (c : Conflict) : String :=
  let ranges := String.intercalate "," (c.ranges.map BitRange.shortText)
  s!"`{c.first.operator}` (line {c.first.line}) and `{c.second.operator}` " ++
    s!"(line {c.second.line}) both encode {Numeral.hexPadded 8 c.pattern.toNat} over bits {ranges}"

end Conflict

/-- Rules merged so far. -/
structure Forest where
  /-- One tree for each mask, in ascending order of the masks. -/
  trees : Std.DTreeMap Word MaskTree compare
  /-- In the order of the second rules. -/
  conflicts : List Conflict
  /-- The number of rules that repeat an earlier one. -/
  duplicates : Nat

namespace Forest

def empty : Forest := ⟨.empty, [], 0⟩

/-- Takes in one more rule. -/
def add (f : Forest) (leaf : Leaf) : Forest :=
  let mask := leaf.rule.mask
  match f.trees.get? mask with
  | none => { f with trees := f.trees.insert mask (.single leaf (Word.runs mask) rfl) }
  | some tree =>
    match tree.place leaf with
    | (none, tree) => { f with trees := f.trees.insert mask tree }
    | (some occupant, _) =>
      if occupant.rule.same leaf.rule then { f with duplicates := f.duplicates + 1 }
      else { f with conflicts := f.conflicts ++ [⟨occupant.rule, leaf.rule⟩] }

/-- Takes in the rules from first to last. -/
def ofRules (rules : List Rule) : Forest :=
  rules.zipIdx.foldl (fun f (rule, index) => f.add ⟨index, rule⟩) empty

end Forest

end Opcodes
