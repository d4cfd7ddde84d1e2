import Opcodes.Rule
import Opcodes.Word.Runs

/-!
# Switch trees that store their ranges

A `SwitchTree` has its ranges in its type, so a word finds a switch on the next range wherever it
goes. Here every switch stores its own range, and a path may come to one that it does not fit. A
path lists the runs of a mask with the values that a word has there; `insert` follows it and tells
how it ends. Trees that are grown along the paths of one mask never let a leaf go astray, and they
are the switch trees of the mask.
-/
set_option autoImplicit false

namespace Opcodes

/-- The runs of the mask, the most significant first, with the values that the word has there. -/
def Word.path (mask w : Word) : List FixedBits := (Word.runs mask).map fun r => ⟨r, r.read w⟩

/-- A leaf with its place in the list of rules, or a switch on a range. The children of a switch are
in ascending order of the values that lead to them. -/
inductive SwitchNode where
  | leaf (index : Nat)
  | switch (range : BitRange) (children : List (Word × SwitchNode))
deriving Repr

namespace SwitchNode

/-- How the insertion of a leaf ends. -/
inductive Arrival where
  /-- No leaf was there, and now the new one is. -/
  | vacant
  /-- A leaf is there and stays. -/
  | occupied (index : Nat)
  /-- The path does not fit the node it comes to, which has this leaf first. -/
  | astray (index : Nat)
deriving DecidableEq, Repr

/-- The leaf below the first child of each switch, or zero where a switch has none. -/
def firstLeaf : SwitchNode → Nat
  | leaf index => index
  | switch _ [] => 0
  | switch _ ((_, child) :: _) => child.firstLeaf

/-- The tree whose one leaf lies at the end of the path. -/
def chain (index : Nat) : List FixedBits → SwitchNode
  | [] => leaf index
  | c :: path => switch c.range [(c.value, chain index path)]

/-- Gives the value to the key in a list that ascends by keys, in place of the one it has. -/
def put {α : Type} (key : Word) (a : α) : List (Word × α) → List (Word × α)
  | [] => [(key, a)]
  | (k, b) :: rest =>
    if key < k then (key, a) :: (k, b) :: rest
    else if key = k then (key, a) :: rest
    else (k, b) :: put key a rest

/-- Puts a leaf at the end of the path, unless one is there. -/
def insert (index : Nat) : List FixedBits → SwitchNode → Arrival × SwitchNode
  | [], leaf occupant => (.occupied occupant, leaf occupant)
  | c :: path, switch range children =>
    if range = c.range then
      match children.lookup c.value with
      | none => (.vacant, switch range (put c.value (chain index path) children))
      | some child =>
        let (arrival, child) := insert index path child
        (arrival, switch range (put c.value child children))
    else (.astray (firstLeaf (switch range children)), switch range children)
  | _, node => (.astray (firstLeaf node), node)

mutual

/-- The leaves from left to right, each with the values on its path laid over `before`. -/
def collect (before : Word) : SwitchNode → List (Word × Nat)
  | leaf index => [(before, index)]
  | switch range children => collectAll before range children

/-- The leaves below the children of a switch. -/
def collectAll (before : Word) (range : BitRange) : List (Word × SwitchNode) → List (Word × Nat)
  | [] => []
  | (value, child) :: rest =>
    collect (before ||| range.place value) child ++ collectAll before range rest

end

/-- The leaves in ascending order of their words, and those of one word by their places. -/
def leaves (node : SwitchNode) : List (Word × Nat) :=
  (node.collect 0).mergeSort fun a b => a.1 < b.1 || (a.1 == b.1 && a.2 ≤ b.2)

end SwitchNode

end Opcodes
