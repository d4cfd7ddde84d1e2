import Opcodes.Proofs.Forest
import Opcodes.Proofs.Lookup
import Opcodes.Layout.Riscv

/-!
# Tables that a list of rules builds

`Table.Built` is what a successful build says of its table: rivals are spellings of one rule, every
rule has a usable layout, there is one group for each mask of a rule, and a group has one entry for
each first rule with an encoding under its mask. What a table decodes is read off `Built` alone.
-/
set_option autoImplicit false

namespace Opcodes

section Lists

variable {α β γ ε : Type}

theorem bind_eq_ok_iff {x : Except ε α} {f : α → Except ε β} {b : β} :
    x >>= f = .ok b ↔ ∃ a, x = .ok a ∧ f a = .ok b := by
  cases x with
  | error e => simp [bind, Except.bind]
  | ok a => simp [bind, Except.bind]

theorem bind_eq_error_iff {x : Except ε α} {f : α → Except ε β} {e : ε} :
    x >>= f = .error e ↔ x = .error e ∨ ∃ a, x = .ok a ∧ f a = .error e := by
  cases x with
  | error e' => simp [bind, Except.bind]
  | ok a => simp [bind, Except.bind]

theorem pure_eq_ok_iff {a b : α} : (pure a : Except ε α) = .ok b ↔ b = a := by
  rw [show (pure a : Except ε α) = .ok a from rfl, Except.ok.injEq, eq_comm]

theorem mapM_eq_ok_iff {f : α → Except ε β} {as : List α} {bs : List β} :
    as.mapM f = .ok bs ↔ List.Forall₂ (fun a b => f a = .ok b) as bs := by
  induction as generalizing bs with
  | nil => rw [List.mapM_nil, pure_eq_ok_iff, List.forall₂_nil_left_iff]
  | cons a as ih =>
    simp only [List.mapM_cons, bind_eq_ok_iff, pure_eq_ok_iff, List.forall₂_cons_left_iff, ih]
    constructor
    · intro h
      obtain ⟨b, head, rest, tail, rfl⟩ := h
      exact ⟨b, rest, head, tail, rfl⟩
    · intro h
      obtain ⟨b, rest, head, tail, rfl⟩ := h
      exact ⟨b, head, rest, tail, rfl⟩

theorem exists_of_mem_right {R : α → β → Prop} {as : List α} {bs : List β}
    (h : List.Forall₂ R as bs) {b : β} (mem : b ∈ bs) : ∃ a ∈ as, R a b := by
  induction h with
  | nil => simp at mem
  | cons head tail ih =>
    rcases List.mem_cons.1 mem with rfl | mem
    · exact ⟨_, List.mem_cons_self, head⟩
    · obtain ⟨a, ha, rel⟩ := ih mem
      exact ⟨a, List.mem_cons_of_mem _ ha, rel⟩

theorem exists_of_mem_left {R : α → β → Prop} {as : List α} {bs : List β}
    (h : List.Forall₂ R as bs) {a : α} (mem : a ∈ as) : ∃ b ∈ bs, R a b :=
  exists_of_mem_right h.flip mem

/-- Related lists agree on what their related elements agree on. -/
theorem map_eq_map_of_forall₂ {R : α → β → Prop} {as : List α} {bs : List β} {f : α → γ}
    {g : β → γ} (h : List.Forall₂ R as bs) (agree : ∀ a b, R a b → f a = g b) :
    as.map f = bs.map g := by
  rw [← List.forall₂_eq_eq_eq, List.forall₂_map_left_iff, List.forall₂_map_right_iff]
  exact h.imp agree

end Lists

namespace Layout

variable {l : Layout} {rule : Rule}

theorem check_eq_ok_iff : l.check rule = .ok () ↔ l.fault? = none := by
  rw [check]
  cases l.fault? <;> simp

theorem check_eq_error_iff {e : BuildError} : l.check rule = .error e ↔
    ∃ field fault, l.fault? = some (field, fault) ∧ e = .invalidLayout rule field fault := by
  rw [check]
  cases l.fault? <;> simp [eq_comm, Prod.ext_iff]

end Layout

namespace Registry

theorem resolve_eq_ok_iff {registry : Registry} {rule : Rule} {layout : Layout} :
    registry.resolve rule = .ok layout ↔ registry.find? rule.operands = some layout := by
  rw [resolve]
  cases registry.find? rule.operands <;> simp

theorem resolve_eq_error_iff {registry : Registry} {rule : Rule} {e : BuildError} :
    registry.resolve rule = .error e ↔
      registry.find? rule.operands = none ∧ e = .unknownOperands rule := by
  rw [resolve]
  cases registry.find? rule.operands <;> simp [eq_comm]

/-- The rule's operands have a layout without a fault. -/
theorem soundLayout_eq_ok_iff {registry : Registry} {rule : Rule} {layout : Layout} :
    registry.soundLayout rule = .ok layout ↔
      registry.find? rule.operands = some layout ∧ layout.fault? = none := by
  simp only [soundLayout, bind_eq_ok_iff, pure_eq_ok_iff, resolve_eq_ok_iff]
  constructor
  · rintro ⟨l, known, ⟨⟩, passed, rfl⟩
    exact ⟨known, Layout.check_eq_ok_iff.1 passed⟩
  · rintro ⟨known, sound⟩
    exact ⟨layout, known, (), Layout.check_eq_ok_iff.2 sound, rfl⟩

theorem soundLayout_eq_error_iff {registry : Registry} {rule : Rule} {e : BuildError} :
    registry.soundLayout rule = .error e ↔ registry.resolve rule = .error e ∨
      ∃ layout, registry.resolve rule = .ok layout ∧ layout.check rule = .error e := by
  simp only [soundLayout, bind_eq_error_iff]
  refine or_congr_right (exists_congr fun layout => and_congr_right fun _ => ?_)
  refine or_iff_left fun h => ?_
  obtain ⟨_, -, done⟩ := h
  cases done

theorem find?_perm (registry : Registry) {names names' : List OperandName}
    (h : names.Perm names') : registry.find? names = registry.find? names' := by
  rw [find?, find?, OperandName.sort_eq_sort_iff.2 h]

end Registry

namespace Group

variable {registry : Registry} {mask : Word} {t : MaskTree mask} {g : Group}

/-- The entry is made from a leaf and the layout of its operands. -/
def Made (registry : Registry) (leaf : Word × Leaf) (e : Entry) : Prop :=
  ∃ layout, registry.soundLayout leaf.2.rule = .ok layout ∧ e = Entry.ofRule leaf.1 leaf.2.rule layout

/-- The group of a tree has an entry for each leaf, in the same order. -/
theorem ofTree_eq_ok_iff :
    ofTree registry t = .ok g ↔ g.mask = mask ∧ List.Forall₂ (Made registry) t.leaves g.entries := by
  simp only [ofTree, bind_eq_ok_iff, pure_eq_ok_iff, mapM_eq_ok_iff]
  obtain ⟨m, es⟩ := g
  constructor
  · intro h
    obtain ⟨_, made, eq⟩ := h
    cases eq
    exact ⟨rfl, made⟩
  · intro h
    obtain ⟨rfl, made⟩ := h
    exact ⟨es, made, rfl⟩

end Group

namespace Table

variable {registry : Registry} {rules : List Rule} {t : Table}

/-- A build has no conflict and makes a group of each tree, and the groups are put in order. -/
theorem ofRules_eq_ok_iff :
    ofRules registry rules = .ok t ↔ (Forest.ofRules rules).conflicts = [] ∧
      ∃ groups, List.Forall₂ (fun tree g => Group.ofTree registry tree.2 = .ok g)
        (Forest.ofRules rules).trees.toList groups ∧ t = ⟨Group.sortByPriority groups⟩ := by
  by_cases clear : (Forest.ofRules rules).conflicts = []
  · simp only [ofRules, clear, ne_eq, not_true_eq_false, if_false, true_and, bind_eq_ok_iff,
      pure_eq_ok_iff, mapM_eq_ok_iff]
  · simp [ofRules, clear]

/-- What a build of a list of rules says of its table. -/
structure Built (registry : Registry) (rules : List Rule) (t : Table) : Prop where
  /-- Rivals are spellings of one rule. -/
  clear : ∀ a ∈ rules, ∀ b ∈ rules, a.Rivals b → a.same b = true
  /-- Every rule has a usable layout. -/
  resolved : ∀ rule ∈ rules, ∃ layout, registry.soundLayout rule = .ok layout
  /-- There is a group for each mask of a rule. -/
  masks : ∀ mask, (∃ g ∈ t.groups, g.mask = mask) ↔ ∃ rule ∈ rules, rule.mask = mask
  /-- A group has an entry for each first rule with its mask. -/
  entries : ∀ g ∈ t.groups, ∀ e, e ∈ g.entries ↔ ∃ leaf : Leaf, leaf.First rules ∧
    leaf.rule.mask = g.mask ∧ ∃ layout, registry.soundLayout leaf.rule = .ok layout ∧
      e = Entry.ofRule leaf.rule.encoding leaf.rule layout
  ordered : t.Ordered

/-- A tree of the merge and the group made of it. -/
theorem entries_of_tree {mask : Word} {tree : MaskTree mask} {g : Group}
    (planted : (Forest.ofRules rules).trees.get? mask = some tree)
    (made : Group.ofTree registry tree = .ok g) :
    g.mask = mask ∧ g.Ordered ∧ (∀ leaf : Leaf, leaf.First rules → leaf.rule.mask = mask →
      ∃ layout, registry.soundLayout leaf.rule = .ok layout) ∧
    ∀ e, e ∈ g.entries ↔ ∃ leaf : Leaf, leaf.First rules ∧ leaf.rule.mask = mask ∧
      ∃ layout, registry.soundLayout leaf.rule = .ok layout ∧
        e = Entry.ofRule leaf.rule.encoding leaf.rule layout := by
  obtain ⟨rfl, entries⟩ := Group.ofTree_eq_ok_iff.1 made
  have mem : ∀ e, e ∈ g.entries ↔ ∃ leaf : Leaf, leaf.First rules ∧ leaf.rule.mask = g.mask ∧
      ∃ layout, registry.soundLayout leaf.rule = .ok layout ∧
        e = Entry.ofRule leaf.rule.encoding leaf.rule layout := by
    intro e
    constructor
    · intro he
      obtain ⟨⟨p, leaf⟩, listed, layout, ok, rfl⟩ := exists_of_mem_right entries he
      obtain ⟨first, mask, rfl⟩ := (Forest.mem_leaves_ofRules_iff planted).1 listed
      exact ⟨leaf, first, mask, layout, ok, rfl⟩
    · intro h
      obtain ⟨leaf, first, mask, layout, ok, rfl⟩ := h
      have listed := (Forest.mem_leaves_ofRules_iff planted).2 ⟨first, mask, rfl⟩
      obtain ⟨e, he, layout', ok', rfl⟩ := exists_of_mem_left entries listed
      rw [ok] at ok'
      cases ok'
      exact he
  refine ⟨rfl, ⟨?_, ?_⟩, ?_, mem⟩
  · have patterns := map_eq_map_of_forall₂ (f := Prod.fst) (g := Entry.pattern) entries
      (by rintro x _ ⟨layout, -, rfl⟩; rfl)
    have ascending := (Forest.pairwise_leaves_ofRules planted)
    rw [← List.pairwise_map (f := Prod.fst) (R := (· < ·)), patterns, List.pairwise_map] at ascending
    exact ascending
  · intro e he
    obtain ⟨leaf, -, mask, layout, -, rfl⟩ := (mem e).1 he
    rw [← mask]
    exact leaf.rule.covers_encoding
  · intro leaf first mask
    have listed := (Forest.mem_leaves_ofRules_iff planted).2 ⟨first, mask, rfl⟩
    obtain ⟨e, -, layout, ok, -⟩ := exists_of_mem_left entries listed
    exact ⟨layout, ok⟩

/-- Spellings of one rule have one layout. -/
theorem soundLayout_of_same {a b : Rule} {layout : Layout} (same : a.same b = true)
    (ok : registry.soundLayout a = .ok layout) : registry.soundLayout b = .ok layout := by
  rw [Registry.soundLayout_eq_ok_iff] at ok ⊢
  rwa [← registry.find?_perm (Rule.same_iff.1 same).2.2.2]

/-- Every group is that of a tree. -/
theorem exists_tree_of_mem_groups (ok : ofRules registry rules = .ok t) {g : Group}
    (mem : g ∈ t.groups) : ∃ tree : MaskTree g.mask,
      (Forest.ofRules rules).trees.get? g.mask = some tree ∧ Group.ofTree registry tree = .ok g := by
  obtain ⟨-, groups, made, rfl⟩ := ofRules_eq_ok_iff.1 ok
  obtain ⟨⟨mask, tree⟩, planted, ok⟩ :=
    exists_of_mem_right made ((Group.sortByPriority_perm groups).mem_iff.1 mem)
  obtain ⟨rfl, -⟩ := Group.ofTree_eq_ok_iff.1 ok
  exact ⟨tree, Std.DTreeMap.mem_toList_iff_get?_eq_some.1 planted, ok⟩

/-- A build that succeeds gives a table that is built from the rules. -/
theorem built_of_ofRules (ok : ofRules registry rules = .ok t) : Built registry rules t := by
  have of_group := fun g => exists_tree_of_mem_groups ok (g := g)
  obtain ⟨clear, groups, made, rfl⟩ := ofRules_eq_ok_iff.1 ok
  rw [Forest.conflicts_ofRules_eq_nil_iff] at clear
  have sorted : ∀ g, g ∈ Group.sortByPriority groups ↔ g ∈ groups := fun g =>
    (Group.sortByPriority_perm groups).mem_iff
  have of_rule : ∀ rule ∈ rules, ∃ g ∈ groups, ∃ tree : MaskTree rule.mask,
      (Forest.ofRules rules).trees.get? rule.mask = some tree ∧
        Group.ofTree registry tree = .ok g := by
    intro rule mem
    obtain ⟨tree, planted⟩ := Forest.exists_tree_iff.2 ⟨rule, mem, rfl⟩
    obtain ⟨g, hg, ok⟩ :=
      exists_of_mem_left made (Std.DTreeMap.mem_toList_iff_get?_eq_some.2 planted)
    exact ⟨g, hg, tree, planted, ok⟩
  refine ⟨clear, ?_, ?_, ?_, ?_, ?_⟩
  · intro rule mem
    obtain ⟨leaf, first, rivals⟩ := Forest.exists_first mem
    obtain ⟨g, -, tree, planted, made⟩ := of_rule leaf.rule first.mem
    obtain ⟨layout, ok⟩ := (entries_of_tree planted made).2.2.1 leaf first rfl
    exact ⟨layout, soundLayout_of_same (clear _ first.mem _ mem rivals) ok⟩
  · intro mask
    constructor
    · intro h
      obtain ⟨g, hg, rfl⟩ := h
      obtain ⟨tree, planted, -⟩ := of_group g hg
      exact Forest.exists_tree_iff.1 ⟨tree, planted⟩
    · intro h
      obtain ⟨rule, mem, rfl⟩ := h
      obtain ⟨g, hg, tree, planted, made⟩ := of_rule rule mem
      exact ⟨g, (sorted g).2 hg, (entries_of_tree planted made).1⟩
  · intro g hg e
    obtain ⟨tree, planted, made⟩ := of_group g hg
    exact (entries_of_tree planted made).2.2.2 e
  · apply Group.ranked_sortByPriority
    have masks := map_eq_map_of_forall₂ (f := fun tree => tree.1) (g := Group.mask) made
      fun tree g ok => (Group.ofTree_eq_ok_iff.1 ok).1.symm
    have distinct : ((Forest.ofRules rules).trees.toList.map fun tree => tree.1).Pairwise (· ≠ ·) := by
      rw [List.pairwise_map]
      refine (Forest.ofRules rules).pairwise_trees.imp fun {a b} less (eq : a.1 = b.1) => ?_
      rw [eq] at less
      exact BitVec.lt_irrefl b.1 less
    rw [masks, List.pairwise_map] at distinct
    exact distinct
  · intro g hg
    obtain ⟨tree, planted, made⟩ := of_group g hg
    exact (entries_of_tree planted made).2.1

namespace Built

variable {w : Word} {g : Group} {e : Entry}

/-- An entry that matches a word is made from the first rule with its mask that does. -/
theorem rule_of_hit (built : Built registry rules t) (hit : t.Hit w g e) :
    ∃ leaf : Leaf, leaf.First rules ∧ leaf.rule.mask = g.mask ∧ leaf.rule.Matches w ∧
      ∃ layout, registry.soundLayout leaf.rule = .ok layout ∧
        e = Entry.ofRule leaf.rule.encoding leaf.rule layout := by
  obtain ⟨leaf, first, mask, layout, ok, rfl⟩ := (built.entries g hit.group e).1 hit.entry
  refine ⟨leaf, first, mask, ?_, layout, ok, rfl⟩
  rw [Rule.Matches, mask]
  exact hit.hits

/-- A rule that matches a word gives its group an entry that does. -/
theorem hit_of_matches (built : Built registry rules t) {rule : Rule} (mem : rule ∈ rules)
    (hit : rule.Matches w) : ∃ g e, t.Hit w g e ∧ g.mask = rule.mask := by
  obtain ⟨leaf, first, rivals⟩ := Forest.exists_first mem
  obtain ⟨layout, ok⟩ := built.resolved _ first.mem
  obtain ⟨g, hg, mask⟩ := (built.masks rule.mask).2 ⟨rule, mem, rfl⟩
  have entry := (built.entries g hg _).2 ⟨leaf, first, rivals.1.trans mask.symm, layout, ok, rfl⟩
  refine ⟨g, _, ⟨hg, entry, ?_⟩, mask⟩
  have hits := rivals.matches_iff.2 hit
  rw [Rule.Matches, rivals.1, ← mask] at hits
  exact hits

end Built

/-- An instruction, a special case of it, and the special case once more in other fields. -/
def nopRules : List Rule := [
  ⟨"addi", [.rd, .rs1, .imm12], [⟨⟨14, 12⟩, 0⟩, ⟨⟨6, 0⟩, 0x13⟩], 1⟩,
  ⟨"nop", [], [⟨⟨31, 7⟩, 0⟩, ⟨⟨6, 0⟩, 0x13⟩], 2⟩,
  ⟨"nop", [], [⟨⟨31, 0⟩, 0x13⟩], 3⟩]

theorem exists_ofRules_nopRules : ∃ t, ofRules .riscv nopRules = .ok t := by
  have succeeds : (ofRules .riscv nopRules).isOk = true := by decide +kernel
  cases built : ofRules .riscv nopRules with
  | ok t => exact ⟨t, rfl⟩
  | error e =>
    rw [built] at succeeds
    cases succeeds

end Table

end Opcodes
