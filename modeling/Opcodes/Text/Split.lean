/-!
# Cutting text

`pieces` cuts at every occurrence of a character and `cut?` at the first occurrence of a mark.
Joining what `pieces` gives with the character gives the text back, so `pieces` of two texts
joined by the character are the pieces of the one followed by those of the other
(`pieces_append`).
-/
set_option autoImplicit false

namespace Opcodes.Text

/-- Puts `c` in front of the first piece, or opens a new one when `c` is the separator. -/
def extendPieces (sep c : Char) (ps : List (List Char)) : List (List Char) :=
  if c = sep then [] :: ps else (c :: ps.headD []) :: ps.tail

/-- The texts between the separators; a text without separators is its only piece. -/
def pieces (sep : Char) (cs : List Char) : List (List Char) :=
  cs.foldr (extendPieces sep) [[]]

theorem pieces_nil (sep : Char) : pieces sep [] = [[]] := rfl

theorem pieces_cons (sep c : Char) (cs : List Char) :
    pieces sep (c :: cs) = extendPieces sep c (pieces sep cs) := rfl

theorem pieces_ne_nil (sep : Char) (cs : List Char) : pieces sep cs ≠ [] := by
  cases cs with
  | nil => simp [pieces_nil]
  | cons c cs => rw [pieces_cons, extendPieces]; split <;> simp

theorem pieces_append (sep : Char) (as bs : List Char) :
    pieces sep (as ++ sep :: bs) = pieces sep as ++ pieces sep bs := by
  induction as with
  | nil => simp [pieces_nil, pieces_cons, extendPieces]
  | cons a as ih =>
    rw [List.cons_append, pieces_cons, pieces_cons, ih]
    obtain ⟨p, ps, h⟩ := List.exists_cons_of_ne_nil (pieces_ne_nil sep as)
    simp only [h, extendPieces, List.cons_append]
    split <;> rfl

/-- The lines of a text. A newline ends a line, so a last piece that is empty is no line. -/
def lines (cs : List Char) : List (List Char) :=
  let ps := pieces '\n' cs
  if ps.getLast? = some [] then ps.dropLast else ps

/-- What stands before and after the first occurrence of `mark`. -/
def cut? (mark : List Char) : List Char → Option (List Char × List Char)
  | [] => none
  | c :: cs =>
    if mark.isPrefixOf (c :: cs) then some ([], (c :: cs).drop mark.length)
    else (cut? mark cs).map fun (before, after) => (c :: before, after)

end Opcodes.Text
