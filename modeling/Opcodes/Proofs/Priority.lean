import Opcodes.Proofs.Masks
import Opcodes.Table.Build

/-!
# The order of priority

`Word.Outranks` is the order in which masks are tried: more fixed bits first, then the larger mask.
It is a strict order that compares every two different masks, so groups with different masks are put
into one order only, and the first group with a match is the one that no other match outranks.
-/
set_option autoImplicit false

namespace Opcodes

namespace Word

/-- The mask is tried before the other. -/
def Outranks (a b : Word) : Prop := weight b < weight a ∨ weight b = weight a ∧ b < a

instance (a b : Word) : Decidable (Outranks a b) := inferInstanceAs (Decidable (_ ∨ _ ∧ _))

variable {a b c : Word}

theorem Outranks.irrefl (a : Word) : ¬Outranks a a := by
  intro h
  rcases h with lt | ⟨-, lt⟩
  · exact Nat.lt_irrefl _ lt
  · exact BitVec.lt_irrefl _ lt

theorem Outranks.trans (hab : Outranks a b) (hbc : Outranks b c) : Outranks a c := by
  rcases hab with hab | ⟨eq, hab⟩ <;> rcases hbc with hbc | ⟨eq', hbc⟩
  · exact .inl (by omega)
  · exact .inl (by omega)
  · exact .inl (by omega)
  · exact .inr ⟨eq'.trans eq, BitVec.lt_trans hbc hab⟩

theorem Outranks.asymm (h : Outranks a b) : ¬Outranks b a := fun h' => irrefl a (h.trans h')

theorem outranks_or_outranks (ne : a ≠ b) : Outranks a b ∨ Outranks b a := by
  rcases Nat.lt_trichotomy (weight a) (weight b) with lt | eq | lt
  · exact .inr (.inl lt)
  · rcases BitVec.lt_trichotomy a b with lt | same | lt
    · exact .inr (.inr ⟨eq, lt⟩)
    · exact absurd same ne
    · exact .inl (.inr ⟨eq.symm, lt⟩)
  · exact .inl (.inl lt)

theorem outranks_of_not (ne : a ≠ b) (h : ¬Outranks b a) : Outranks a b :=
  (outranks_or_outranks ne).resolve_right h

/-- A mask is tried before those that it strictly covers. -/
theorem outranks_of_covers (h : covers a b = true) (ne : a ≠ b) : Outranks a b :=
  .inl (weight_lt_weight h ne)

end Word

namespace Group

variable {a b g : Group} {groups : List Group}

theorem precedes_iff : a.precedes b = true ↔ a.mask.Outranks b.mask := by
  simp only [precedes, Bool.or_eq_true, Bool.and_eq_true, decide_eq_true_eq, beq_iff_eq]
  rfl

/-- The groups are in order of priority. -/
def Ranked (groups : List Group) : Prop := groups.Pairwise fun a b => a.mask.Outranks b.mask

theorem ranked_insertByPriority (ranked : Ranked groups) (fresh : ∀ h ∈ groups, g.mask ≠ h.mask) :
    Ranked (insertByPriority g groups) := by
  induction groups with
  | nil => exact List.pairwise_singleton _ _
  | cons h rest ih =>
    obtain ⟨above, ranked_rest⟩ := List.pairwise_cons.1 ranked
    obtain ⟨ne, fresh_rest⟩ := List.forall_mem_cons.1 fresh
    rw [insertByPriority]
    split
    · rename_i first
      have first := precedes_iff.1 first
      refine List.pairwise_cons.2 ⟨fun x hx => ?_, ranked⟩
      rcases List.mem_cons.1 hx with rfl | hx
      · exact first
      · exact first.trans (above x hx)
    · rename_i later
      have later := Word.outranks_of_not ne.symm fun h => later (precedes_iff.2 h)
      refine List.pairwise_cons.2 ⟨fun x hx => ?_, ih ranked_rest fresh_rest⟩
      rcases List.mem_cons.1 ((insertByPriority_perm g rest).mem_iff.1 hx) with rfl | hx
      · exact later
      · exact above x hx

/-- Groups with different masks are put in order of priority. -/
theorem ranked_sortByPriority (distinct : groups.Pairwise fun a b => a.mask ≠ b.mask) :
    Ranked (sortByPriority groups) := by
  induction groups with
  | nil => exact .nil
  | cons g rest ih =>
    obtain ⟨fresh, distinct_rest⟩ := List.pairwise_cons.1 distinct
    apply ranked_insertByPriority (ih distinct_rest)
    intro h hh
    exact fresh h ((sortByPriority_perm rest).mem_iff.1 hh)

theorem Ranked.distinct (ranked : Ranked groups) : groups.Pairwise fun a b => a.mask ≠ b.mask :=
  ranked.imp fun {a b} h (eq : a.mask = b.mask) => Word.Outranks.irrefl b.mask (eq ▸ h)

theorem Ranked.nodup (ranked : Ranked groups) : groups.Nodup :=
  ranked.distinct.imp fun h eq => h (congrArg mask eq)

/-- A mask has one group. -/
theorem Ranked.eq_of_mask_eq (ranked : Ranked groups) (ha : a ∈ groups) (hb : b ∈ groups)
    (eq : a.mask = b.mask) : a = b := by
  by_contra ne
  have symm : Std.Symm fun a b : Group => a.mask ≠ b.mask := ⟨fun _ _ => Ne.symm⟩
  exact ranked.distinct.forall ha hb ne eq

end Group

end Opcodes
