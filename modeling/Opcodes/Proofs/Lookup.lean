import Opcodes.Proofs.Priority

/-!
# Looking a word up

A group whose entries ascend by their patterns finds an entry for a word just when one has the
word's fixed bits as its pattern. A table finds an entry of the first group that has one; what this
says of the other groups with an entry depends only on the order in which the groups are tried.
-/
set_option autoImplicit false

namespace Opcodes

namespace Entry

/-- The word has the entry's values in the fixed bits. -/
def Hits (mask : Word) (e : Entry) (w : Word) : Prop := w &&& mask = e.pattern

end Entry

namespace Group

/-- The patterns ascend and have no bit outside the mask. -/
structure Ordered (g : Group) : Prop where
  ascending : g.entries.Pairwise fun a b => a.pattern < b.pattern
  inside : ∀ e ∈ g.entries, Word.covers g.mask e.pattern = true

/-- The bisection finds what a walk through ascending entries does. -/
theorem search_eq_find? (pattern : Word) (entries : List Entry)
    (ascending : entries.Pairwise fun a b => a.pattern < b.pattern) :
    search pattern entries = entries.find? (·.pattern == pattern) := by
  fun_induction search pattern entries with
  | case1 entries short => rfl
  | case2 entries long low high above ih =>
    have split : entries = low ++ high := (List.take_append_drop _ entries).symm
    rw [split, List.pairwise_append] at ascending
    -- the whole upper half lies above the pattern
    have absent : high.find? (·.pattern == pattern) = none := by
      obtain ⟨first, head, less⟩ := (Option.any_eq_true _ _).1 above
      have less : pattern < first.pattern := by simpa using less
      refine List.find?_eq_none.2 fun e he eq => ?_
      obtain rfl : e.pattern = pattern := by simpa using eq
      obtain ⟨rest, cons⟩ := List.head?_eq_some_iff.1 head
      rw [cons] at he ascending
      rcases List.mem_cons.1 he with rfl | he
      · exact BitVec.lt_irrefl _ less
      · exact BitVec.lt_irrefl _ (BitVec.lt_trans less ((List.pairwise_cons.1 ascending.2.1).1 e he))
    rw [ih ascending.1, split, List.find?_append, absent, Option.or_none]
  | case3 entries long high below ih =>
    have split : entries = entries.take (entries.length / 2) ++ high :=
      (List.take_append_drop _ entries).symm
    have parts := ascending
    rw [split, List.pairwise_append] at parts
    -- the pattern is not below the upper half, so the whole lower half is below the pattern
    have absent : (entries.take (entries.length / 2)).find? (·.pattern == pattern) = none := by
      refine List.find?_eq_none.2 fun e he eq => below ?_
      obtain rfl : e.pattern = pattern := by simpa using eq
      cases cons : high with
      | nil =>
        have : high.length = 0 := by rw [cons, List.length_nil]
        simp only [high, List.length_drop] at this
        omega
      | cons first rest =>
        have := parts.2.2 e he first (cons ▸ List.mem_cons_self)
        simpa using this
    conv_rhs => rw [split]
    rw [ih parts.2.1, List.find?_append, absent, Option.none_or]

variable {g : Group} {w : Word} {e : Entry}

theorem Ordered.find?_eq (h : g.Ordered) (w : Word) :
    g.find? w = g.entries.find? (·.pattern == w &&& g.mask) :=
  search_eq_find? _ _ h.ascending

theorem Ordered.find?_eq_some_iff (h : g.Ordered) :
    g.find? w = some e ↔ e ∈ g.entries ∧ e.Hits g.mask w := by
  rw [h.find?_eq]
  constructor
  · intro found
    have eq := List.find?_some found
    exact ⟨List.mem_of_find?_eq_some found, (beq_iff_eq.1 eq).symm⟩
  · intro parts
    obtain ⟨mem, hit⟩ := parts
    cases found : g.entries.find? (·.pattern == w &&& g.mask) with
    | none => exact absurd (beq_iff_eq.2 hit.symm) (List.find?_eq_none.1 found e mem)
    | some x =>
      have at_x := List.find?_some found
      have same : x.pattern = e.pattern := (beq_iff_eq.1 at_x).trans hit
      by_contra ne
      have symm : Std.Symm fun a b : Entry => a.pattern ≠ b.pattern := ⟨fun _ _ => Ne.symm⟩
      have distinct := h.ascending.imp fun {a b} lt (eq : a.pattern = b.pattern) =>
        BitVec.lt_irrefl b.pattern (eq ▸ lt)
      exact distinct.forall (List.mem_of_find?_eq_some found) mem (fun eq => ne (congrArg some eq)) same

theorem Ordered.find?_eq_none_iff (h : g.Ordered) :
    g.find? w = none ↔ ∀ e ∈ g.entries, ¬e.Hits g.mask w := by
  rw [Option.eq_none_iff_forall_ne_some]
  simp only [ne_eq, h.find?_eq_some_iff, not_and]

end Group

namespace Table

variable {t : Table} {w : Word} {g h : Group} {e : Entry}

/-- The groups are in order of priority and find what is in them. -/
structure Ordered (t : Table) : Prop where
  ranked : Group.Ranked t.groups
  groups : ∀ g ∈ t.groups, g.Ordered

/-- The table has the entry, in the group, and the entry matches the word. -/
structure Hit (t : Table) (w : Word) (g : Group) (e : Entry) : Prop where
  group : g ∈ t.groups
  entry : e ∈ g.entries
  hits : e.Hits g.mask w

theorem find?_eq_none_iff (ordered : ∀ g ∈ t.groups, g.Ordered) :
    t.find? w = none ↔ ∀ g e, ¬t.Hit w g e := by
  rw [find?, List.findSome?_eq_none_iff]
  simp only [Option.map_eq_none_iff]
  constructor
  · intro none g e hit
    exact (ordered g hit.group).find?_eq_none_iff.1 (none g hit.group) e hit.entry hit.hits
  · intro miss g mem
    exact (ordered g mem).find?_eq_none_iff.2 fun e he hits => miss g e ⟨mem, he, hits⟩

/-- A table finds an entry that matches, and every other group with one is tried later. -/
theorem hit_of_find? (ordered : ∀ g ∈ t.groups, g.Ordered) {R : Group → Group → Prop}
    (order : t.groups.Pairwise R) (found : t.find? w = some (g, e)) :
    t.Hit w g e ∧ ∀ h x, t.Hit w h x → h = g ∨ R g h := by
  obtain ⟨before, first, after, split, at_first, none⟩ := List.findSome?_eq_some_iff.1 found
  obtain ⟨entry, entry_eq, pair⟩ := Option.map_eq_some_iff.1 at_first
  cases pair
  have mem : g ∈ t.groups := by
    rw [split]
    exact List.mem_append_right _ List.mem_cons_self
  obtain ⟨he, hits⟩ := (ordered g mem).find?_eq_some_iff.1 entry_eq
  refine ⟨⟨mem, he, hits⟩, fun h x hit => ?_⟩
  have place := hit.group
  rw [split, List.mem_append, List.mem_cons] at place
  rcases place with early | rfl | late
  · have missed := Option.map_eq_none_iff.1 (none h early)
    exact absurd hit.hits ((ordered h hit.group).find?_eq_none_iff.1 missed x hit.entry)
  · exact .inl rfl
  · rw [split] at order
    exact .inr ((List.pairwise_cons.1 (List.pairwise_append.1 order).2.1).1 h late)

/-- A group has one entry for a word. -/
theorem Hit.entry_eq {x y : Entry} (hx : t.Hit w g x) (hy : t.Hit w g y) (ordered : g.Ordered) :
    x = y := by
  have found := ordered.find?_eq_some_iff.2 ⟨hx.entry, hx.hits⟩
  rw [ordered.find?_eq_some_iff.2 ⟨hy.entry, hy.hits⟩] at found
  exact (Option.some.inj found).symm

/-- The look-up gives the entry that matches and whose mask no other match outranks. -/
theorem Ordered.find?_eq_some_iff (ordered : t.Ordered) :
    t.find? w = some (g, e) ↔
      t.Hit w g e ∧ ∀ h x, t.Hit w h x → ¬h.mask.Outranks g.mask := by
  constructor
  · intro found
    obtain ⟨hit, later⟩ := hit_of_find? ordered.groups ordered.ranked found
    refine ⟨hit, fun h x other => ?_⟩
    rcases later h x other with rfl | outranks
    · exact Word.Outranks.irrefl _
    · exact outranks.asymm
  · intro parts
    obtain ⟨hit, top⟩ := parts
    cases found : t.find? w with
    | none => exact absurd hit ((find?_eq_none_iff ordered.groups).1 found g e)
    | some pair =>
      obtain ⟨h, x⟩ := pair
      obtain ⟨other, later⟩ := hit_of_find? ordered.groups ordered.ranked found
      rcases later g e hit with rfl | outranks
      · rw [hit.entry_eq other (ordered.groups g hit.group)]
      · exact absurd outranks (top h x other)

end Table

end Opcodes
