import Opcodes.Proofs.Outcome

/-!
# The rule that a failed build names

Without a conflict a build visits the rules by their masks, and those of one mask by their
encodings; of several spellings of one rule it visits the first. It stops at the first visit to a
rule without a usable layout. `Rule.FirstUnusable` tells that rule from the list alone. It is not
always the first such rule of the list: in `shuffledRules` the second is visited before it.
-/
set_option autoImplicit false

namespace Opcodes

section Lists

variable {α : Type} {before after : List α} {a x : α}

/-- In a sorted list an element that is not among the first ones is the next or follows it. -/
theorem eq_or_rel_of_not_mem {R : α → α → Prop} (sorted : (before ++ a :: after).Pairwise R)
    (mem : x ∈ before ++ a :: after) (late : x ∉ before) : x = a ∨ R a x := by
  have place := (List.mem_append.1 mem).resolve_left late
  rcases List.mem_cons.1 place with eq | behind
  · exact .inl eq
  · exact .inr ((List.pairwise_cons.1 (List.pairwise_append.1 sorted).2.1).1 x behind)

end Lists

namespace Rule

/-- A build visits the rule before the other: its mask is smaller, or with the same mask its
encoding. -/
def VisitedBefore (a b : Rule) : Prop := a.mask < b.mask ∨ a.mask = b.mask ∧ a.encoding < b.encoding

/-- The rule has no usable layout, and every other such rule of the list is visited later or is its
rival and stands behind it. -/
structure FirstUnusable (registry : Registry) (rules : List Rule) (i : Nat) (rule : Rule) : Prop where
  place : rules[i]? = some rule
  unusable : ¬rule.Usable registry
  first : ∀ j s, rules[j]? = some s → ¬s.Usable registry →
    rule.VisitedBefore s ∨ rule.Rivals s ∧ i ≤ j

variable {registry : Registry} {rules : List Rule}

/-- Spellings of one rule have a usable layout together. -/
theorem usable_of_same {a b : Rule} (same : a.same b = true) (usable : a.Usable registry) :
    b.Usable registry := by
  obtain ⟨layout, ok⟩ := usable_iff.1 usable
  exact usable_iff.2 ⟨layout, Table.soundLayout_of_same same ok⟩

/-- Without a conflict, the rule that is visited for an encoding has the fault of all its spellings. -/
theorem exists_first_unusable (clear : Clear rules) {s : Rule} (mem : s ∈ rules)
    (bad : ¬s.Usable registry) :
    ∃ leaf : Leaf, leaf.First rules ∧ leaf.rule.Rivals s ∧ ¬leaf.rule.Usable registry := by
  obtain ⟨leaf, first, rivals⟩ := Forest.exists_first mem
  exact ⟨leaf, first, rivals, fun fine =>
    bad (usable_of_same (clear _ first.mem _ mem rivals) fine)⟩

end Rule

namespace Table

variable {registry : Registry} {rules : List Rule} {e : BuildError}

/-- Among the rules of one mask the walk stops at the smallest encoding that is at fault. -/
theorem exists_lowest_of_tree {mask : Word} {tree : MaskTree mask}
    (planted : (Forest.ofRules rules).trees.get? mask = some tree)
    (failed : Group.ofTree registry tree = .error e) :
    ∃ leaf : Leaf, leaf.First rules ∧ leaf.rule.mask = mask ∧
      registry.soundLayout leaf.rule = .error e ∧
      ∀ other : Leaf, other.First rules → other.rule.mask = mask → ¬other.rule.Usable registry →
        other = leaf ∨ leaf.rule.encoding < other.rule.encoding := by
  obtain ⟨lower, ⟨pattern, leaf⟩, higher, leaves, usable, failed⟩ :=
    Group.exists_split_of_ofTree_eq_error failed
  have mem : (pattern, leaf) ∈ tree.leaves := by simp [leaves]
  obtain ⟨first, mask, rfl⟩ := (Forest.mem_leaves_ofRules_iff planted).1 mem
  refine ⟨leaf, first, mask, failed, fun other first' mask' bad => ?_⟩
  have listed := (Forest.mem_leaves_ofRules_iff planted).2 ⟨first', mask', rfl⟩
  have late : (other.rule.encoding, other) ∉ lower := fun early => bad (usable _ early)
  have ascending := Forest.pairwise_leaves_ofRules planted
  rw [leaves] at listed ascending
  exact (eq_or_rel_of_not_mem ascending listed late).imp_left (congrArg Prod.snd)

/-- A build that no conflict ends is ended by the first visit to a rule without a usable layout. -/
theorem exists_firstUnusable_of_ofRules (clear : Rule.Clear rules)
    (failed : ofRules registry rules = .error e) :
    ∃ i rule, Rule.FirstUnusable registry rules i rule ∧ rule.Blames registry e := by
  have conflicts := (Forest.conflicts_ofRules_eq_nil_iff rules).2 clear
  simp only [ofRules, conflicts, ne_eq, not_true_eq_false, if_false] at failed
  rcases bind_eq_error_iff.1 failed with failed | ⟨groups, -, done⟩
  swap
  · cases done
  obtain ⟨smaller, ⟨mask, tree⟩, larger, trees, built, failed⟩ :=
    exists_split_of_mapM_eq_error failed
  have planted : (Forest.ofRules rules).trees.get? mask = some tree :=
    Std.DTreeMap.mem_toList_iff_get?_eq_some.1 (by simp [trees])
  obtain ⟨leaf, first, rfl, failed, lowest⟩ := exists_lowest_of_tree planted failed
  have blames := Rule.blames_of_soundLayout failed
  refine ⟨leaf.index, leaf.rule, ⟨first.place, blames.not_usable, fun j s place bad => ?_⟩, blames⟩
  -- `s` itself may not be visited, but a spelling of it with the same fault is
  obtain ⟨other, first', rivals, bad'⟩ :=
    Rule.exists_first_unusable clear (List.mem_of_getElem? place) bad
  obtain ⟨tree', planted'⟩ := Forest.exists_tree_iff.2 ⟨other.rule, first'.mem, rfl⟩
  have late : ⟨other.rule.mask, tree'⟩ ∉ smaller := fun early => by
    obtain ⟨g, made⟩ := built _ early
    exact bad' (Rule.usable_iff.2 ((entries_of_tree planted' made).2.2.1 other first' rfl))
  have ascending := (Forest.ofRules rules).pairwise_trees
  have listed := Std.DTreeMap.mem_toList_iff_get?_eq_some.2 planted'
  rw [trees] at ascending listed
  rcases eq_or_rel_of_not_mem ascending listed late with same | behind
  · obtain ⟨mask, -⟩ := Sigma.mk.inj same
    rcases lowest other first' mask bad' with rfl | higher
    · exact .inr ⟨rivals, first'.first j s place rivals.symm⟩
    · exact .inl (.inr ⟨mask.symm.trans rivals.1, rivals.2 ▸ higher⟩)
  · exact .inl (.inl (rivals.1 ▸ behind))

/-- Where only layouts are at fault, the build names the rule without a usable layout that it visits
first: the one with the smallest mask, of these with the smallest encoding, and of these the first
of the list. -/
theorem ofRules_blames_firstUnusable (clear : Rule.Clear rules)
    (unusable : ¬∀ rule ∈ rules, rule.Usable registry) :
    ∃ i rule e, Rule.FirstUnusable registry rules i rule ∧ rule.Blames registry e ∧
      ofRules registry rules = .error e := by
  cases result : ofRules registry rules with
  | ok t => exact absurd (exists_ofRules_iff.1 ⟨t, result⟩).2 unusable
  | error e =>
    obtain ⟨i, rule, first, blames⟩ := exists_firstUnusable_of_ofRules clear result
    exact ⟨i, rule, e, first, blames, rfl⟩

/-- Two rules whose operands have no layout by themselves, the one with the larger mask first. -/
def shuffledRules : List Rule := [
  ⟨"jump", [.rd], [⟨⟨7, 0⟩, 0x6F⟩], 1⟩,
  ⟨"load", [.rs1], [⟨⟨6, 0⟩, 0x03⟩], 2⟩]

theorem ofRules_shuffledRules_blames : ∃ rule e,
    Rule.FirstUnusable .riscv shuffledRules 1 rule ∧ rule.operator = "load" ∧
      rule.Blames .riscv e ∧ ofRules .riscv shuffledRules = .error e := by
  have clear : Rule.Clear shuffledRules := by decide +kernel
  have unusable : ¬∀ rule ∈ shuffledRules, rule.Usable .riscv := by decide +kernel
  obtain ⟨i, rule, e, first, blames, failed⟩ := ofRules_blames_firstUnusable clear unusable
  have place := first.place
  match i with
  | 0 =>
    obtain rfl := Option.some.inj place
    have order := first.first 1 ⟨"load", [.rs1], [⟨⟨6, 0⟩, 0x03⟩], 2⟩ rfl (by decide +kernel)
    exact absurd order (by unfold Rule.VisitedBefore; decide +kernel)
  | 1 =>
    obtain rfl := Option.some.inj place
    exact ⟨_, e, first, rfl, blames, failed⟩
  | _ + 2 => cases place

/-- The first rule of the list has no usable layout, and yet the build names the second. -/
theorem ofRules_shuffledRules : Rule.Clear shuffledRules ∧
    ∃ first second, shuffledRules = [first, second] ∧ ¬first.Usable .riscv ∧
      first.Blames .riscv (.unknownOperands first) ∧ first.operator ≠ second.operator ∧
      ofRules .riscv shuffledRules = .error (.unknownOperands second) := by
  refine ⟨by decide +kernel, _, _, rfl, ?_, .unknownOperands ?_, ?_, ?_⟩
  · decide +kernel
  · decide +kernel
  · decide +kernel
  · decide +kernel

end Table

end Opcodes
