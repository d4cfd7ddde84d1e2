import Opcodes.Table
import Opcodes.Forest
import Opcodes.Layout.Registry
import Opcodes.Rule.Parser

/-!
# Building a table

Rules become a table in three steps: they are merged into one tree for each mask, every leaf gets
the layout of its operands once that is checked, and the groups are put in order of priority. A build
fails with all conflicts of the merge, or else with the first leaf, by mask and then by pattern, that
has no usable layout.
-/
set_option autoImplicit false

namespace Opcodes

/-- Why rules do not form a table. -/
inductive BuildError where
  | parse (fault : TableFault)
  /-- The combination of operands is not registered. -/
  | unknownOperands (rule : Rule)
  /-- The layout cannot be applied to a word. -/
  | invalidLayout (rule : Rule) (field : Field) (fault : LayoutFault)
  | conflicts (conflicts : List Conflict)
deriving DecidableEq, Repr

def BuildError.message : BuildError → String
  | parse fault => fault.message
  | unknownOperands rule =>
    let names := String.intercalate " " (rule.operands.map OperandName.text)
    s!"no operand layout for `{rule.operator}` with operands ({names})"
  | invalidLayout rule field fault =>
    s!"operand layout for `{rule.operator}` (line {rule.line}), field `{field.text}`: " ++
      fault.message
  | conflicts cs =>
    s!"{cs.length} encoding conflict(s): " ++ String.intercalate "; " (cs.map Conflict.message)

/-- The layout of the rule's operands, sound or not. -/
def Registry.resolve (g : Registry) (rule : Rule) : Except BuildError Layout :=
  match g.find? rule.operands with
  | none => .error (.unknownOperands rule)
  | some layout => .ok layout

/-- Fails for the first field with a fault. The error names the rule whose layout it is. -/
def Layout.check (l : Layout) (rule : Rule) : Except BuildError Unit :=
  match l.fault? with
  | none => .ok ()
  | some (field, fault) => .error (.invalidLayout rule field fault)

/-- The layout that the rule resolves to, if it passes the check. -/
def Registry.soundLayout (g : Registry) (rule : Rule) : Except BuildError Layout := do
  let layout ← g.resolve rule
  layout.check rule
  return layout

namespace Group

/-- The group of a tree. -/
def ofTree (registry : Registry) {mask : Word} (t : MaskTree mask) : Except BuildError Group := do
  let entries ← t.leaves.mapM fun (pattern, leaf) => do
    return Entry.ofRule pattern leaf.rule (← registry.soundLayout leaf.rule)
  return ⟨mask, entries⟩

/-- Puts a group in front of the first that it precedes. -/
def insertByPriority (g : Group) : List Group → List Group
  | [] => [g]
  | h :: rest => if g.precedes h then g :: h :: rest else h :: insertByPriority g rest

/-- The groups in order of priority. -/
def sortByPriority (groups : List Group) : List Group := groups.foldr insertByPriority []

theorem insertByPriority_perm (g : Group) (groups : List Group) :
    (insertByPriority g groups).Perm (g :: groups) := by
  induction groups with
  | nil => exact .refl _
  | cons h rest ih =>
    rw [insertByPriority]
    split
    · exact .refl _
    · exact (ih.cons h).trans (.swap g h rest)

theorem sortByPriority_perm (groups : List Group) : (sortByPriority groups).Perm groups := by
  induction groups with
  | nil => exact .refl _
  | cons g rest ih => exact (insertByPriority_perm g _).trans (ih.cons g)

end Group

namespace Table

/-- The table of a list of rules. -/
def ofRules (registry : Registry) (rules : List Rule) : Except BuildError Table := do
  let forest := Forest.ofRules rules
  if forest.conflicts ≠ [] then .error (.conflicts forest.conflicts)
  else
    let groups ← forest.trees.toList.mapM fun ⟨_, tree⟩ => Group.ofTree registry tree
    return ⟨Group.sortByPriority groups⟩

/-- The table of a table text. -/
def ofText (registry : Registry) (text : String) : Except BuildError Table := do
  let rules ← (Rule.parseTable text).mapError .parse
  ofRules registry rules

end Table

end Opcodes
