import Opcodes.Proofs.Build

/-!
# A tree and its group

A tree of the merge tells words apart run by run, and the group made of it compares all fixed bits
at once. The leaves of the one and the entries of the other stand side by side (`Group.Beside`), and
a word leads to a leaf just when the group finds the entry beside it. So the group of a mask finds
the entry that is made of a rule just when the tree leads the word to the rule.
-/
set_option autoImplicit false

namespace Opcodes

/-- Related lists have related elements in the same places. -/
theorem exists_getElem?_of_forall₂ {α β : Type} {R : α → β → Prop} {as : List α} {bs : List β}
    (h : List.Forall₂ R as bs) {k : Nat} {a : α} (place : as[k]? = some a) :
    ∃ b, bs[k]? = some b ∧ R a b := by
  obtain ⟨hk, rfl⟩ := List.getElem?_eq_some_iff.1 place
  have hk' : k < bs.length := h.length_eq ▸ hk
  exact ⟨bs[k], List.getElem?_eq_getElem hk', h.get hk hk'⟩

namespace Group

variable {registry : Registry} {mask w : Word} {tree : MaskTree mask} {g : Group} {leaf : Leaf}
  {e : Entry}

/-- The entry stands at the place of the leaf and has its pattern. -/
def Beside (tree : MaskTree mask) (g : Group) (leaf : Leaf) (e : Entry) : Prop :=
  ∃ k : Nat, tree.leaves[k]? = some (e.pattern, leaf) ∧ g.entries[k]? = some e

/-- Beside every leaf there is an entry made of it. -/
theorem exists_beside_of_mem_leaves (made : ofTree registry tree = .ok g) {pattern : Word}
    (mem : (pattern, leaf) ∈ tree.leaves) :
    ∃ e, e.pattern = pattern ∧ Beside tree g leaf e ∧ Made registry (pattern, leaf) e := by
  obtain ⟨k, place⟩ := List.mem_iff_getElem?.1 mem
  obtain ⟨e, place', made⟩ := exists_getElem?_of_forall₂ (ofTree_eq_ok_iff.1 made).2 place
  have pattern : e.pattern = pattern := by
    obtain ⟨layout, -, rfl⟩ := made
    rfl
  exact ⟨e, pattern, ⟨k, pattern ▸ place, place'⟩, made⟩

/-- Beside every entry there is a leaf of which it is made. -/
theorem exists_beside_of_mem_entries (made : ofTree registry tree = .ok g) (mem : e ∈ g.entries) :
    ∃ leaf, Beside tree g leaf e ∧ Made registry (e.pattern, leaf) e := by
  obtain ⟨k, place⟩ := List.mem_iff_getElem?.1 mem
  obtain ⟨⟨pattern, leaf⟩, place', made⟩ :=
    exists_getElem?_of_forall₂ (ofTree_eq_ok_iff.1 made).2.flip place
  obtain ⟨layout, ok, rfl⟩ := made
  exact ⟨leaf, ⟨k, place', place⟩, layout, ok, rfl⟩

/-- A word leads to a leaf just when the group finds the entry beside it. -/
theorem find?_tree_eq_some_iff (made : ofTree registry tree = .ok g) (fits : tree.Fits)
    (ordered : g.Ordered) :
    tree.find? w = some leaf ↔ ∃ e, Beside tree g leaf e ∧ g.find? w = some e := by
  have mask_eq : g.mask = mask := (ofTree_eq_ok_iff.1 made).1
  -- the tree lists a leaf with what its words have under the mask
  have listed : tree.find? w = some leaf ↔ (w &&& mask, leaf) ∈ tree.leaves := by
    rw [tree.mem_leaves_iff fits, tree.find?_congr (Word.and_and_self w mask).symm]
    exact (and_iff_left (Word.and_eq_self_iff.1 (Word.and_and_self w mask))).symm
  rw [listed]
  constructor
  · intro mem
    obtain ⟨e, pattern, beside, -⟩ := exists_beside_of_mem_leaves made mem
    refine ⟨e, beside, ordered.find?_eq_some_iff.2 ⟨?_, ?_⟩⟩
    · obtain ⟨k, -, place⟩ := beside
      exact List.mem_of_getElem? place
    · rw [Entry.Hits, mask_eq, pattern]
  · rintro ⟨e, ⟨k, place, -⟩, found⟩
    have hits : w &&& mask = e.pattern := by
      rw [← mask_eq]
      exact (ordered.find?_eq_some_iff.1 found).2
    rw [hits]
    exact List.mem_of_getElem? place

/-- A word leads nowhere just when the group finds nothing. -/
theorem find?_tree_eq_none_iff (made : ofTree registry tree = .ok g) (fits : tree.Fits)
    (ordered : g.Ordered) : tree.find? w = none ↔ g.find? w = none := by
  constructor
  · intro lost
    cases found : g.find? w with
    | none => rfl
    | some e =>
      obtain ⟨leaf, beside, -⟩ :=
        exists_beside_of_mem_entries made (ordered.find?_eq_some_iff.1 found).1
      rw [(find?_tree_eq_some_iff made fits ordered).2 ⟨e, beside, found⟩] at lost
      cases lost
  · intro missed
    cases led : tree.find? w with
    | none => rfl
    | some leaf =>
      obtain ⟨e, -, found⟩ := (find?_tree_eq_some_iff made fits ordered).1 led
      rw [missed] at found
      cases found

/-- The entry that a build makes of rule `i`: it stands beside the rule's leaf, with what the rule
fixes under the mask and the layout of the rule's operands. -/
structure MadeOf (registry : Registry) (rules : List Rule) (tree : MaskTree mask) (g : Group)
    (i : Nat) (e : Entry) : Prop where
  place : ∃ leaf : Leaf, leaf.index = i ∧ Beside tree g leaf e
  made : ∃ rule layout, rules[i]? = some rule ∧ registry.soundLayout rule = .ok layout ∧
    e = Entry.ofRule (rule.pattern &&& mask) rule layout

end Group

namespace Table

variable {registry : Registry} {rules : List Rule} {t : Table} {mask : Word} {tree : MaskTree mask}
  {leaf : Leaf} {g : Group} {e : Entry}

/-- An entry beside a leaf is made of the leaf's rule. -/
theorem madeOf_of_beside (planted : (Forest.ofRules rules).trees.get? mask = some tree)
    (made : Group.ofTree registry tree = .ok g) (beside : g.Beside tree leaf e) :
    g.MadeOf registry rules tree leaf.index e := by
  obtain ⟨k, place, place'⟩ := beside
  obtain ⟨_, same, layout, ok, entry⟩ :=
    exists_getElem?_of_forall₂ (Group.ofTree_eq_ok_iff.1 made).2 place
  obtain rfl := Option.some.inj (place'.symm.trans same)
  obtain ⟨first, rfl, pattern⟩ :=
    (Forest.mem_leaves_ofRules_iff planted).1 (List.mem_of_getElem? place)
  refine ⟨⟨leaf, rfl, k, place, place'⟩, leaf.rule, layout, first.place, ok, ?_⟩
  rw [entry, pattern]
  rfl

/-- The trees of the merge and the groups of the table belong together by their masks, and they tell
words apart alike: a word is led to the leaf of rule `i` just when the group finds the entry that is
made of rule `i`, and it is led nowhere just when the group finds nothing. -/
theorem find?_tree_iff_find?_group (ok : ofRules registry rules = .ok t) :
    (∀ mask, (∃ tree, (Forest.ofRules rules).trees.get? mask = some tree) ↔
      ∃ g ∈ t.groups, g.mask = mask) ∧
    ∀ mask (tree : MaskTree mask), (Forest.ofRules rules).trees.get? mask = some tree →
      ∀ g ∈ t.groups, g.mask = mask → ∀ w,
        (∀ i, (tree.find? w).map (·.index) = some i ↔
          ∃ e, g.MadeOf registry rules tree i e ∧ g.find? w = some e) ∧
        (tree.find? w = none ↔ g.find? w = none) := by
  have built := built_of_ofRules ok
  refine ⟨fun mask => Forest.exists_tree_iff.trans (built.masks mask).symm, ?_⟩
  rintro _ tree planted g mem rfl w
  obtain ⟨tree', planted', made⟩ := exists_tree_of_mem_groups ok mem
  obtain rfl : tree' = tree := Option.some.inj (planted'.symm.trans planted)
  have fits := (Forest.grown_ofRules rules).fits _ _ planted
  have ordered := built.ordered.groups g mem
  refine ⟨fun i => ?_, Group.find?_tree_eq_none_iff made fits ordered⟩
  rw [Option.map_eq_some_iff]
  constructor
  · rintro ⟨leaf, led, rfl⟩
    obtain ⟨e, beside, found⟩ := (Group.find?_tree_eq_some_iff made fits ordered).1 led
    exact ⟨e, madeOf_of_beside planted made beside, found⟩
  · rintro ⟨e, ⟨⟨leaf, index, beside⟩, -⟩, found⟩
    exact ⟨leaf, (Group.find?_tree_eq_some_iff made fits ordered).2 ⟨e, beside, found⟩, index⟩

/-- The tree of the whole word leads the no-op to its second rule, and another word nowhere. -/
theorem find?_group_nopRules : ∃ t, ofRules .riscv nopRules = .ok t ∧
    ∃ tree, (Forest.ofRules nopRules).trees.get? 0xFFFFFFFF = some tree ∧
    ∃ g ∈ t.groups, g.mask = 0xFFFFFFFF ∧
      (∃ e, g.MadeOf .riscv nopRules tree 1 e ∧ g.find? 0x13 = some e) ∧ g.find? 0x93 = none := by
  obtain ⟨t, ok⟩ := exists_ofRules_nopRules
  obtain ⟨masks, agree⟩ := find?_tree_iff_find?_group ok
  obtain ⟨tree, planted⟩ : ∃ tree, (Forest.ofRules nopRules).trees.get? 0xFFFFFFFF = some tree :=
    Forest.exists_tree_iff.2 (by decide)
  obtain ⟨g, mem, mask⟩ := (masks 0xFFFFFFFF).1 ⟨tree, planted⟩
  have walk : ∀ w, tree.find? w = (Forest.ofRules nopRules).find? 0xFFFFFFFF w := by
    intro w
    rw [Forest.find?, planted, Option.bind_some]
  have led : (tree.find? 0x13).map (·.index) = some 1 := by
    rw [walk]
    decide +kernel
  have lost : tree.find? 0x93 = none := by
    rw [walk]
    decide +kernel
  exact ⟨t, ok, tree, planted, g, mem, mask,
    ((agree 0xFFFFFFFF tree planted g mem mask 0x13).1 1).1 led,
    (agree 0xFFFFFFFF tree planted g mem mask 0x93).2.1 lost⟩

end Table

end Opcodes
