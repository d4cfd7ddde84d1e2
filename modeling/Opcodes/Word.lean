/-!
# Machine words

A word has thirty-two bits, counted from the least significant one. A range `hi..lo` of positions
is a field of the word: `mask` covers it, `read` takes its value out and `place` puts a value in.
What these do to a single bit is all that proofs use of them: `getLsbD_mask`, `getLsbD_read`,
`getLsbD_union`.
-/
set_option autoImplicit false

namespace Opcodes

abbrev Word := BitVec 32

abbrev Byte := BitVec 8

namespace Word

/-- The lowest `n` bits set and no other. -/
def ones (n : Nat) : Word := ~~~(BitVec.allOnes 32 <<< n)

/-- The number of set bits. -/
def weight (w : Word) : Nat := (BitVec.cpop w).toNat

/-- Every bit of `inner` is set in `outer`. -/
def covers (outer inner : Word) : Bool := outer &&& inner == inner

/-- The union of a list of bit sets. -/
def union (ws : List Word) : Word := ws.foldr (· ||| ·) 0

theorem getLsbD_ones (n i : Nat) : (ones n).getLsbD i = (decide (i < 32) && decide (i < n)) := by
  rw [ones, BitVec.getLsbD_not, BitVec.getLsbD_shiftLeft, BitVec.getLsbD_allOnes]
  grind

theorem covers_iff {outer inner : Word} :
    covers outer inner = true ↔ ∀ i, inner.getLsbD i = true → outer.getLsbD i = true := by
  rw [covers, beq_iff_eq]
  constructor
  · intro h i hi
    have := congrArg (BitVec.getLsbD · i) h
    simpa [hi] using this
  · intro h
    apply BitVec.eq_of_getLsbD_eq
    intro i _
    have := h i
    rw [BitVec.getLsbD_and]
    grind

theorem getLsbD_union (ws : List Word) (i : Nat) :
    (union ws).getLsbD i = ws.any (·.getLsbD i) := by
  induction ws with
  | nil => simp [union]
  | cons w ws ih => rw [List.any_cons, ← ih, union, List.foldr_cons, BitVec.getLsbD_or]; rfl

end Word

/-- The bit positions from `hi` down to `lo`, both included. Ranges are meant to be `InWord`. Only a
rule or layout made by hand can have others: for these `width` stops at zero and `mask` drops what is
past the word, where a machine would go out of range. -/
structure BitRange where
  hi : Nat
  lo : Nat
deriving DecidableEq, Repr

namespace BitRange

/-- The range lies in a word and is not empty. -/
def InWord (r : BitRange) : Prop := r.lo ≤ r.hi ∧ r.hi < 32

instance (r : BitRange) : Decidable r.InWord := inferInstanceAs (Decidable (_ ∧ _))

/-- The number of positions. -/
def width (r : BitRange) : Nat := r.hi + 1 - r.lo

def mask (r : BitRange) : Word := Word.ones r.width <<< r.lo

/-- The field's value in `w`, moved down to bit 0. -/
def read (r : BitRange) (w : Word) : Word := w >>> r.lo &&& Word.ones r.width

/-- The value `v` moved up to the field; bits that leave the word are lost. -/
def place (r : BitRange) (v : Word) : Word := v <<< r.lo

/-- A range is written with both ends, also when they meet. -/
def text (r : BitRange) : String := s!"{r.hi}..{r.lo}"

/-- A single position is written once. -/
def shortText (r : BitRange) : String := if r.hi = r.lo then s!"{r.hi}" else r.text

theorem getLsbD_mask (r : BitRange) (i : Nat) :
    r.mask.getLsbD i = (decide (i < 32) && decide (r.lo ≤ i ∧ i ≤ r.hi)) := by
  rw [mask, BitVec.getLsbD_shiftLeft, Word.getLsbD_ones, width]
  grind

theorem getLsbD_read (r : BitRange) (w : Word) (i : Nat) :
    (r.read w).getLsbD i = (decide (r.lo + i ≤ r.hi) && w.getLsbD (r.lo + i)) := by
  rw [read, BitVec.getLsbD_and, BitVec.getLsbD_ushiftRight, Word.getLsbD_ones, width]
  by_cases h : r.lo + i < 32
  · grind
  · simp [BitVec.getLsbD_of_ge w (r.lo + i) (by omega)]

end BitRange

end Opcodes
