import Opcodes.Proofs.Build
import Opcodes.Proofs.Census

/-!
# The form of a table

What the look-up relies on in every table that a list of rules builds: no group is empty, no two
groups have one mask, the groups go down in priority, and the entries of a group go up in pattern,
within the mask. A table has as many entries as the merge has leaves, so as many as there are rules
without the repeated ones.
-/
set_option autoImplicit false

namespace Opcodes.Table

variable {registry : Registry} {rules : List Rule} {t : Table} {g : Group}

/-- Entries are made from leaves, so none is there for nothing and none is missing. -/
theorem length_entries_ofTree {mask : Word} {tree : MaskTree mask}
    (made : Group.ofTree registry tree = .ok g) : tree.leaves.length = g.entries.length :=
  (Group.ofTree_eq_ok_iff.1 made).2.length_eq

/-- Putting the groups in order keeps the entries. -/
theorem size_sortByPriority (groups : List Group) :
    size ⟨Group.sortByPriority groups⟩ = (groups.flatMap (·.entries)).length :=
  ((Group.sortByPriority_perm groups).flatMap_right _).length_eq

theorem size_eq_length_leaves (ok : ofRules registry rules = .ok t) :
    t.size = (Forest.ofRules rules).leaves.length := by
  obtain ⟨-, groups, made, rfl⟩ := ofRules_eq_ok_iff.1 ok
  rw [size_sortByPriority, Forest.leaves, List.length_flatMap, List.length_flatMap]
  congr 1
  refine (map_eq_map_of_forall₂ made fun tree g ok => ?_).symm
  rw [List.length_map, length_entries_ofTree ok]

/-- A table has as many entries as there are rules, but for the duplicates of the merge. -/
theorem size_add_duplicates (ok : ofRules registry rules = .ok t) :
    t.size + (Forest.ofRules rules).duplicates = rules.length := by
  have census := Forest.length_leaves_add_duplicates_add_length_conflicts rules
  rwa [(ofRules_eq_ok_iff.1 ok).1, List.length_nil, Nat.add_zero, ← size_eq_length_leaves ok]
    at census

theorem Built.entries_ne_nil (built : Built registry rules t) (mem : g ∈ t.groups) :
    g.entries ≠ [] := by
  obtain ⟨rule, in_rules, mask⟩ := (built.masks g.mask).1 ⟨g, mem, rfl⟩
  obtain ⟨leaf, first, rivals⟩ := Forest.exists_first in_rules
  obtain ⟨layout, ok⟩ := built.resolved _ first.mem
  exact List.ne_nil_of_mem
    ((built.entries g mem _).2 ⟨leaf, first, rivals.1.trans mask, layout, ok, rfl⟩)

/-- The groups of a table have different masks and at least one entry, and come with more fixed bits
first and then the larger mask. The entries of a group have ascending patterns without a bit outside
the mask, so the look-up in a group finds the entry whose pattern the word has under the mask, if
there is one. The entries and the duplicates of the merge are as many as the rules. -/
theorem form_of_ofRules (ok : ofRules registry rules = .ok t) :
    (t.groups.Pairwise fun a b => a.mask ≠ b.mask) ∧
    (∀ g ∈ t.groups, g.entries ≠ []) ∧
    (t.groups.Pairwise fun a b =>
      b.specificity < a.specificity ∨ b.specificity = a.specificity ∧ b.mask < a.mask) ∧
    (∀ g ∈ t.groups, (g.entries.Pairwise fun a b => a.pattern < b.pattern) ∧
      (∀ e ∈ g.entries, ∀ i, e.pattern.getLsbD i = true → g.mask.getLsbD i = true) ∧
      ∀ w, ((g.find? w).isSome = true ↔ ∃ e ∈ g.entries, e.pattern = w &&& g.mask) ∧
        ∀ e, g.find? w = some e ↔ e ∈ g.entries ∧ e.pattern = w &&& g.mask) ∧
    t.size + (Forest.ofRules rules).duplicates = rules.length := by
  have built := built_of_ofRules ok
  refine ⟨built.ordered.ranked.distinct, fun g => built.entries_ne_nil, built.ordered.ranked,
    fun g mem => ?_, size_add_duplicates ok⟩
  have ordered := built.ordered.groups g mem
  have find_iff : ∀ w e, g.find? w = some e ↔ e ∈ g.entries ∧ e.pattern = w &&& g.mask := by
    intro w e
    rw [ordered.find?_eq_some_iff, Entry.Hits, eq_comm (a := e.pattern)]
  refine ⟨ordered.ascending, fun e he => Word.covers_iff.1 (ordered.inside e he),
    fun w => ⟨?_, find_iff w⟩⟩
  rw [Option.isSome_iff_exists]
  exact exists_congr (find_iff w)

theorem form_of_nopRules : ∃ t, ofRules .riscv nopRules = .ok t ∧ t.size = 2 ∧
    ∀ g ∈ t.groups, g.entries ≠ [] := by
  obtain ⟨t, ok⟩ := exists_ofRules_nopRules
  obtain ⟨-, nonempty, -, -, size⟩ := form_of_ofRules ok
  have repeats : (Forest.ofRules nopRules).duplicates = 1 := by decide +kernel
  rw [repeats] at size
  exact ⟨t, ok, Nat.add_right_cancel size, nonempty⟩

end Opcodes.Table
