import Opcodes.Table

/-!
# Ambiguities

Two groups are unrelated when neither mask contains the other. Entries of unrelated groups that
agree on the common bits match a word together, and nothing but the order of the groups says which
of them decides. `Table.ambiguities` lists all such pairs.
-/
set_option autoImplicit false

namespace Opcodes

/-- Two entries of unrelated groups and a word that both match. -/
structure Ambiguity where
  /-- The entry of the earlier group. -/
  winner : Entry
  shadowed : Entry
  word : Word
deriving DecidableEq, Repr

namespace Group

/-- Neither mask contains the other. -/
def unrelated (a b : Group) : Bool := !Word.covers a.mask b.mask && !Word.covers b.mask a.mask

/-- The ambiguities between a group and a later one. -/
def ambiguities (first second : Group) : List Ambiguity :=
  if first.unrelated second then
    first.entries.flatMap fun a => second.entries.filterMap fun b =>
      if (a.pattern ^^^ b.pattern) &&& (first.mask &&& second.mask) = 0 then
        some ⟨a, b, a.pattern ||| b.pattern⟩
      else none
  else []

end Group

namespace Table

/-- The ambiguities of groups in order of priority. -/
def ambiguitiesOf : List Group → List Ambiguity
  | [] => []
  | g :: later => later.flatMap g.ambiguities ++ ambiguitiesOf later

def ambiguities (t : Table) : List Ambiguity := ambiguitiesOf t.groups

end Table

end Opcodes
