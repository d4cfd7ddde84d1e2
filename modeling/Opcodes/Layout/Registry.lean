import Opcodes.Layout
import Opcodes.OperandName
import Std.Data.TreeMap

/-!
# Registered layouts

A registry gives a layout to each combination of operand names it knows. The order in which the
names are declared does not count: the key is the sorted list. Of two layouts for one combination
the later stays.
-/
set_option autoImplicit false

namespace Opcodes

structure Registry where
  layouts : Std.TreeMap (List OperandName) Layout compare
  /-- A combination has one key, so the keys are as many as the combinations. -/
  sorted : ∀ names ∈ layouts, OperandName.sort names = names

namespace Registry

def empty : Registry where
  layouts := .empty
  sorted _ mem := absurd mem Std.TreeMap.not_mem_emptyc

def register (g : Registry) (names : List OperandName) (layout : Layout) : Registry where
  layouts := g.layouts.insert (OperandName.sort names) layout
  sorted key mem := by
    rcases Std.TreeMap.mem_insert.1 mem with same | known
    · rw [← Std.LawfulEqCmp.eq_of_compare same, OperandName.sort_sort]
    · exact g.sorted key known

/-- Registers layouts one after the other. -/
def registerAll (g : Registry) (layouts : List (List OperandName × Layout)) : Registry :=
  layouts.foldl (fun g (names, layout) => g.register names layout) g

def ofList (layouts : List (List OperandName × Layout)) : Registry := empty.registerAll layouts

def find? (g : Registry) (names : List OperandName) : Option Layout :=
  g.layouts[OperandName.sort names]?

theorem find?_empty (names : List OperandName) : empty.find? names = none :=
  Std.TreeMap.getElem?_emptyc

theorem find?_register (g : Registry) (names asked : List OperandName) (layout : Layout) :
    (g.register names layout).find? asked =
      if names.Perm asked then some layout else g.find? asked := by
  simp only [register, find?, Std.TreeMap.getElem?_insert, Std.LawfulEqCmp.compare_eq_iff_eq,
    OperandName.sort_eq_sort_iff]

def size (g : Registry) : Nat := g.layouts.size

def isEmpty (g : Registry) : Bool := g.layouts.isEmpty

end Registry

end Opcodes
