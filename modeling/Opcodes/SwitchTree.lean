import Opcodes.Word
import Std.Data.TreeMap

/-!
# Switch trees

A tree that tells words apart by their values in a fixed list of bit ranges. Each level switches on
one range, the first of the list at the root, and a leaf lies below the last. The list is part of
the type, so all paths of a tree have the same ranges in the same order, and a tree over no ranges
is a leaf. `find?` walks a word down; `insert` puts a leaf where the word leads.
-/
set_option autoImplicit false

namespace Opcodes

def SwitchTree (α : Type) : List BitRange → Type
  | [] => α
  | _ :: ranges => Std.TreeMap Word (SwitchTree α ranges) compare

namespace SwitchTree

variable {α β : Type}

/-- The subtrees below a switch, by the value that leads to them. -/
abbrev Children (α : Type) (ranges : List BitRange) : Type :=
  Std.TreeMap Word (SwitchTree α ranges) compare

def children {r : BitRange} {ranges : List BitRange} (t : SwitchTree α (r :: ranges)) :
    Children α ranges := t

def switch {r : BitRange} {ranges : List BitRange} (children : Children α ranges) :
    SwitchTree α (r :: ranges) := children

theorem children_switch {r : BitRange} {ranges : List BitRange} (c : Children α ranges) :
    children (switch c : SwitchTree α (r :: ranges)) = c := rfl

/-- The tree whose one leaf lies where the word leads. -/
def single (w : Word) (a : α) : (ranges : List BitRange) → SwitchTree α ranges
  | [] => a
  | r :: ranges => switch ((∅ : Children α ranges).insert (r.read w) (single w a ranges))

/-- The leaf that the word leads to. -/
def find? (w : Word) : (ranges : List BitRange) → SwitchTree α ranges → Option α
  | [], leaf => some leaf
  | r :: ranges, t => (children t)[r.read w]?.bind (find? w ranges)

/-- Puts a leaf where the word leads, in place of the one that is there. -/
def insert (w : Word) (a : α) : (ranges : List BitRange) → SwitchTree α ranges → SwitchTree α ranges
  | [], _ => a
  | r :: ranges, t =>
    let child := match (children t)[r.read w]? with
      | none => single w a ranges
      | some child => insert w a ranges child
    switch ((children t).insert (r.read w) child)

theorem find?_single (v w : Word) (a : α) (ranges : List BitRange) :
    find? v ranges (single w a ranges) =
      if ∀ r ∈ ranges, r.read w = r.read v then some a else none := by
  induction ranges with
  | nil => simp [find?, single]
  | cons r ranges ih =>
    rw [find?, single, children_switch, Std.TreeMap.getElem?_insert]
    by_cases h : r.read w = r.read v <;> simp [h, ih]

theorem find?_insert (v w : Word) (a : α) (ranges : List BitRange) (t : SwitchTree α ranges) :
    find? v ranges (insert w a ranges t) =
      if ∀ r ∈ ranges, r.read w = r.read v then some a else find? v ranges t := by
  induction ranges with
  | nil => simp [find?, insert]
  | cons r ranges ih =>
    rw [find?, find?, insert, children_switch, Std.TreeMap.getElem?_insert]
    by_cases h : r.read w = r.read v
    · cases hc : (children t)[r.read v]? with
      | none => simp [h, hc, find?_single]
      | some child => simp [h, hc, ih]
    · simp [h]

/-- Replaces leaves and switches from the bottom up. A switch is given its range and, in ascending
order of the values, what its children came to. -/
def fold (leaf : α → β) (switch : BitRange → List (Word × β) → β) :
    (ranges : List BitRange) → SwitchTree α ranges → β
  | [], a => leaf a
  | r :: ranges, t =>
    switch r ((children t).toList.map fun (v, child) => (v, fold leaf switch ranges child))

/-- The leaves from left to right, each with the word that has the values on its path and zeros
elsewhere. -/
def leaves (ranges : List BitRange) (t : SwitchTree α ranges) : List (Word × α) :=
  fold (fun a => [(0, a)])
    (fun r children => children.flatMap fun (v, below) =>
      below.map fun (path, a) => (r.place v ||| path, a))
    ranges t

end SwitchTree

end Opcodes
