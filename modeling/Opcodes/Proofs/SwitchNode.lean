import Opcodes.Proofs.Census
import Opcodes.SwitchTree.Node

/-!
# Insertion along the paths of a mask

`SwitchTree.stored` writes the ranges that a tree has in its type into its switches. What is grown
from one path of a mask along others is the stored form of a tree over the runs of the mask, so a
path of the mask fits it everywhere and no leaf goes astray: the leaf is put in if the tree has none
with the same bits under the mask, and else nothing changes.
-/
set_option autoImplicit false

namespace Opcodes

/-! ## Lists that ascend by their keys -/

section Put

variable {α β : Type} {key : Word} {a : α} {as bs : List (Word × α)} {x : Word × α}

/-- The keys ascend. -/
def Ascending (as : List (Word × α)) : Prop := as.Pairwise fun x y => x.1 < y.1

namespace Ascending

theorem cons_iff : Ascending (x :: as) ↔ (∀ y ∈ as, x.1 < y.1) ∧ Ascending as := List.pairwise_cons

theorem nodup (h : Ascending as) : as.Nodup :=
  h.imp fun less eq => by
    rw [eq] at less
    exact BitVec.lt_irrefl _ less

/-- Lists that ascend and have the same elements are equal. -/
theorem ext (h : Ascending as) (h' : Ascending bs) (same : ∀ x, x ∈ as ↔ x ∈ bs) : as = bs := by
  have perm : as.Perm bs := (List.perm_ext_iff_of_nodup h.nodup h'.nodup).2 same
  exact perm.eq_of_pairwise (fun _ _ _ _ less greater => absurd greater (BitVec.lt_asymm less)) h h'

theorem toList (m : Std.TreeMap Word α compare) : Ascending m.toList :=
  Std.TreeMap.ordered_keys_toList.imp Word.compare_eq_lt_iff.1

theorem lookup_eq_some_iff (h : Ascending as) : as.lookup key = some a ↔ (key, a) ∈ as := by
  induction as with
  | nil => simp
  | cons y as ih =>
    obtain ⟨k, b⟩ := y
    obtain ⟨first, h⟩ := cons_iff.1 h
    rw [List.mem_cons, Prod.mk.injEq, List.lookup_cons]
    by_cases same : key = k
    · subst same
      have other : (key, a) ∉ as := fun mem => BitVec.lt_irrefl key (first (key, a) mem)
      simp [other, eq_comm]
    · rw [beq_false_of_ne same]
      simp [same, ih h]

theorem mem_put_iff (h : Ascending as) :
    x ∈ SwitchNode.put key a as ↔ x = (key, a) ∨ x ∈ as ∧ x.1 ≠ key := by
  induction as with
  | nil => simp [SwitchNode.put]
  | cons y as ih =>
    obtain ⟨k, b⟩ := y
    obtain ⟨first, h⟩ := cons_iff.1 h
    have later : x ∈ as → x.1 = key → k < key := by
      rintro mem rfl
      exact first x mem
    rw [SwitchNode.put]
    split
    · rename_i less
      -- all keys are greater, so the list has none to replace
      have other : x ∈ (k, b) :: as → x.1 ≠ key := by
        intro mem same
        rcases List.mem_cons.1 mem with rfl | mem
        · exact BitVec.lt_irrefl _ (same ▸ less)
        · exact BitVec.lt_asymm less (later mem same)
      rw [List.mem_cons]
      exact or_congr_right ⟨fun mem => ⟨mem, other mem⟩, And.left⟩
    · split
      · rename_i same
        subst same
        have other : x ∈ as → x.1 ≠ key := fun mem same => BitVec.lt_irrefl _ (later mem same)
        rw [List.mem_cons, List.mem_cons]
        constructor
        · rintro (rfl | mem)
          · exact .inl rfl
          · exact .inr ⟨.inr mem, other mem⟩
        · rintro (rfl | ⟨rfl | mem, ne⟩)
          · exact .inl rfl
          · exact absurd rfl ne
          · exact .inr mem
      · rename_i ne
        rw [List.mem_cons, ih h, List.mem_cons]
        constructor
        · rintro (rfl | new | ⟨mem, other⟩)
          · exact .inr ⟨.inl rfl, Ne.symm ne⟩
          · exact .inl new
          · exact .inr ⟨.inr mem, other⟩
        · rintro (new | ⟨rfl | mem, other⟩)
          · exact .inr (.inl new)
          · exact .inl rfl
          · exact .inr (.inr ⟨mem, other⟩)

theorem put (h : Ascending as) : Ascending (SwitchNode.put key a as) := by
  induction as with
  | nil => exact List.pairwise_singleton _ _
  | cons y as ih =>
    obtain ⟨k, b⟩ := y
    obtain ⟨first, tail⟩ := cons_iff.1 h
    rw [SwitchNode.put]
    split
    · rename_i less
      refine cons_iff.2 ⟨fun x mem => ?_, h⟩
      rcases List.mem_cons.1 mem with rfl | mem
      · exact less
      · exact BitVec.lt_trans less (first x mem)
    · split
      · rename_i same
        subst same
        exact cons_iff.2 ⟨first, tail⟩
      · rename_i not_less ne
        refine cons_iff.2 ⟨fun x mem => ?_, ih tail⟩
        rcases tail.mem_put_iff.1 mem with rfl | ⟨mem, -⟩
        · exact BitVec.lt_of_le_ne (BitVec.not_lt.1 not_less) (Ne.symm ne)
        · exact first x mem

/-- An element put in where it is changes nothing. -/
theorem put_of_mem (h : Ascending as) (mem : (key, a) ∈ as) : SwitchNode.put key a as = as := by
  refine h.put.ext h fun x => ?_
  rw [h.mem_put_iff]
  constructor
  · rintro (rfl | ⟨old, -⟩)
    · exact mem
    · exact old
  · intro old
    by_cases same : x.1 = key
    · left
      have found := h.lookup_eq_some_iff.2 mem
      rw [← same, h.lookup_eq_some_iff.2 old] at found
      exact Prod.ext same (Option.some.inj found)
    · exact .inr ⟨old, same⟩

theorem map (h : Ascending as) (f : α → β) : Ascending (as.map fun c => (c.1, f c.2)) :=
  List.pairwise_map.2 h

end Ascending

/-- A map with one more key lists its entries as its list with the key put in. -/
theorem toList_insert (m : Std.TreeMap Word α compare) (key : Word) (a : α) :
    (m.insert key a).toList = SwitchNode.put key a m.toList := by
  refine (Ascending.toList _).ext (Ascending.toList m).put fun ⟨k, b⟩ => ?_
  rw [(Ascending.toList m).mem_put_iff, Std.TreeMap.mem_toList_iff_getElem?_eq_some,
    Std.TreeMap.getElem?_insert, Std.TreeMap.mem_toList_iff_getElem?_eq_some]
  simp only [Std.LawfulEqCmp.compare_eq_iff_eq]
  by_cases same : key = k
  · simp [same, eq_comm]
  · simp [same, Ne.symm same]

theorem lookup_toList (m : Std.TreeMap Word α compare) (key : Word) :
    m.toList.lookup key = m[key]? := by
  ext a
  rw [(Ascending.toList m).lookup_eq_some_iff, Std.TreeMap.mem_toList_iff_getElem?_eq_some]

variable (f : α → β)

theorem lookup_map (key : Word) (as : List (Word × α)) :
    (as.map fun c => (c.1, f c.2)).lookup key = (as.lookup key).map f := by
  induction as with
  | nil => rfl
  | cons c as ih =>
    rw [List.map_cons, List.lookup_cons, List.lookup_cons, ih]
    split <;> rfl

theorem put_map (key : Word) (a : α) (as : List (Word × α)) :
    SwitchNode.put key (f a) (as.map fun c => (c.1, f c.2)) =
      (SwitchNode.put key a as).map fun c => (c.1, f c.2) := by
  induction as with
  | nil => rfl
  | cons c as ih =>
    rw [List.map_cons, SwitchNode.put, SwitchNode.put, ih]
    split
    · rfl
    · split <;> rfl

end Put

namespace SwitchNode

variable {index : Nat} {r : BitRange} {w : Word} {path : List FixedBits}
  {children : List (Word × SwitchNode)} {child : SwitchNode}

theorem insert_of_vacant (vacant : children.lookup (r.read w) = none) :
    (switch r children).insert index (⟨r, r.read w⟩ :: path) =
      (.vacant, .switch r (put (r.read w) (chain index path) children)) := by
  simp only [insert, vacant, if_true]

theorem insert_of_child (found : children.lookup (r.read w) = some child) :
    (switch r children).insert index (⟨r, r.read w⟩ :: path) =
      ((child.insert index path).1,
        .switch r (put (r.read w) (child.insert index path).2 children)) := by
  simp only [insert, found, if_true]

theorem collectAll_eq_flatMap (before : Word) (r : BitRange) (children : List (Word × SwitchNode)) :
    collectAll before r children =
      children.flatMap fun c => c.2.collect (before ||| r.place c.1) := by
  induction children with
  | nil => rfl
  | cons c children ih => rw [collectAll, ih, List.flatMap_cons]

/-- Leaves that ascend by their words are in order. -/
theorem leaves_eq_collect (sorted : Ascending (child.collect 0)) : child.leaves = child.collect 0 :=
  List.mergeSort_of_pairwise <| sorted.imp fun less => by simp [less]

end SwitchNode

/-! ## The stored form of a tree -/

namespace SwitchTree

variable {α : Type} (index : α → Nat)

/-- The tree with its ranges written into the switches, and of each leaf only its place. -/
def stored (ranges : List BitRange) (t : SwitchTree α ranges) : SwitchNode :=
  fold (fun a => .leaf (index a)) .switch ranges t

/-- The values of a word in the ranges, which lead it through a tree over them. -/
def steps (ranges : List BitRange) (w : Word) : List FixedBits := ranges.map fun r => ⟨r, r.read w⟩

theorem steps_cons (r : BitRange) (ranges : List BitRange) (w : Word) :
    steps (r :: ranges) w = ⟨r, r.read w⟩ :: steps ranges w := rfl

theorem stored_cons (r : BitRange) (ranges : List BitRange) (t : SwitchTree α (r :: ranges)) :
    stored index (r :: ranges) t =
      .switch r ((children t).toList.map fun c => (c.1, stored index ranges c.2)) := rfl

theorem stored_single (w : Word) (a : α) (ranges : List BitRange) :
    stored index ranges (single w a ranges) = .chain (index a) (steps ranges w) := by
  induction ranges with
  | nil => rfl
  | cons r ranges ih =>
    rw [stored_cons, single, children_switch, toList_insert, ← put_map, ih]
    rfl

/-- The path of a word fits the stored tree all the way. -/
theorem insert_stored (w : Word) (a : α) (ranges : List BitRange) (t : SwitchTree α ranges) :
    (stored index ranges t).insert (index a) (steps ranges w) =
      match find? w ranges t with
      | some occupant => (.occupied (index occupant), stored index ranges t)
      | none => (.vacant, stored index ranges (insert w a ranges t)) := by
  induction ranges with
  | nil => rfl
  | cons r ranges ih =>
    have found := lookup_map (stored index ranges) (r.read w) (children t).toList
    rw [lookup_toList] at found
    rw [stored_cons, stored_cons, steps_cons, find?, insert, children_switch,
      toList_insert, ← put_map]
    cases at_child : (children t)[r.read w]? with
    | none =>
      rw [at_child, Option.map_none] at found
      rw [SwitchNode.insert_of_vacant found, Option.bind_none, stored_single]
    | some child =>
      rw [at_child, Option.map_some] at found
      rw [SwitchNode.insert_of_child found, ih, Option.bind_some]
      cases find? w ranges child with
      | none => rfl
      | some occupant =>
        -- the child goes back to where it was
        have sorted := (Ascending.toList (children t)).map (stored index ranges)
        have same := sorted.put_of_mem (sorted.lookup_eq_some_iff.1 found)
        simp only [same]

/-- The leaves of the stored form are those of the tree, in the same order. -/
theorem collect_stored (before : Word) (ranges : List BitRange) (t : SwitchTree α ranges) :
    (stored index ranges t).collect before =
      (leaves ranges t).map fun leaf => (before ||| leaf.1, index leaf.2) := by
  induction ranges generalizing before with
  | nil => simp [stored, leaves, fold, SwitchNode.collect]
  | cons r ranges ih =>
    rw [stored_cons, SwitchNode.collect, SwitchNode.collectAll_eq_flatMap, leaves_cons,
      List.map_flatMap, List.flatMap_map]
    simp only [ih, List.map_map, Function.comp_def, BitVec.or_assoc]

theorem collect_zero_stored (ranges : List BitRange) (t : SwitchTree α ranges) :
    (stored index ranges t).collect 0 = (leaves ranges t).map fun leaf => (leaf.1, index leaf.2) := by
  simp [collect_stored]

theorem ascending_collect_stored {ranges : List BitRange} (apart : BitRange.Apart ranges)
    {t : SwitchTree α ranges} (fits : Fits ranges t) :
    Ascending ((stored index ranges t).collect 0) := by
  rw [collect_zero_stored]
  exact Ascending.map (pairwise_leaves apart fits) index

theorem leaves_stored {ranges : List BitRange} (apart : BitRange.Apart ranges)
    {t : SwitchTree α ranges} (fits : Fits ranges t) :
    (stored index ranges t).leaves = (leaves ranges t).map fun leaf => (leaf.1, index leaf.2) := by
  rw [SwitchNode.leaves_eq_collect (ascending_collect_stored index apart fits), collect_zero_stored]

end SwitchTree

/-! ## Trees over the runs of a mask -/

namespace SwitchTree

variable {α : Type} {mask w : Word} {a : α} {t : SwitchTree α (Word.runs mask)}

theorem mem_leaves_runs_iff (fits : Fits (Word.runs mask) t) :
    (w, a) ∈ leaves (Word.runs mask) t ↔
      find? w (Word.runs mask) t = some a ∧ Word.covers mask w = true := by
  rw [mem_leaves_iff (Word.apart_runs mask) fits, Word.within_runs_iff]

/-- A word leads to the leaf that is listed with its bits under the mask. -/
theorem masked_mem_leaves_iff (fits : Fits (Word.runs mask) t) :
    (w &&& mask, a) ∈ leaves (Word.runs mask) t ↔ find? w (Word.runs mask) t = some a := by
  have masked := Word.and_and_self w mask
  rw [mem_leaves_runs_iff fits, find?_congr t (Word.forall_read_runs_iff.2 masked),
    and_iff_left (Word.and_eq_self_iff.1 masked)]

/-- A leaf put in where there was none is one more leaf. -/
theorem leaves_insert_perm (fits : Fits (Word.runs mask) t)
    (vacant : find? w (Word.runs mask) t = none) :
    (leaves (Word.runs mask) (insert w a (Word.runs mask) t)).Perm
      ((w &&& mask, a) :: leaves (Word.runs mask) t) := by
  have sorted : ∀ t : SwitchTree α (Word.runs mask), Fits (Word.runs mask) t →
      Ascending (leaves (Word.runs mask) t) := fun t => pairwise_leaves (Word.apart_runs mask)
  have grown := fits_insert w a (Word.runs mask) t fits
  have fresh : (w &&& mask, a) ∉ leaves (Word.runs mask) t := by
    rw [masked_mem_leaves_iff fits, vacant]
    simp
  refine (List.perm_ext_iff_of_nodup (sorted _ grown).nodup
    (List.nodup_cons.2 ⟨fresh, (sorted t fits).nodup⟩)).2 fun ⟨v, b⟩ => ?_
  rw [mem_leaves_runs_iff grown, find?_insert, List.mem_cons, mem_leaves_runs_iff fits,
    Prod.mk.injEq]
  split
  · rename_i same
    have same := Word.forall_read_runs_iff.1 same
    have gone : find? v (Word.runs mask) t = none := by
      rw [← vacant]
      exact find?_congr t (Word.forall_read_runs_iff.2 same.symm)
    rw [gone, same, Option.some.injEq, ← Word.and_eq_self_iff]
    simp [eq_comm, and_comm]
  · rename_i other
    refine ⟨.inr, fun h => h.resolve_left ?_⟩
    rintro ⟨rfl, -⟩
    exact other (Word.forall_read_runs_iff.2 (Word.and_and_self w mask).symm)

end SwitchTree

/-! ## Trees that are grown -/

namespace SwitchNode

variable {mask : Word} {node : SwitchNode}

/-- Trees that are grown from one path of the mask along others. -/
inductive Grown (mask : Word) : SwitchNode → Prop where
  | chain (w : Word) (index : Nat) : Grown mask (.chain index (Word.path mask w))
  | insert {node : SwitchNode} (grown : Grown mask node) (w : Word) (index : Nat) :
      Grown mask (node.insert index (Word.path mask w)).2

namespace Grown

/-- The trees that are grown are stored forms of trees over the runs of the mask. -/
theorem exists_stored (grown : Grown mask node) :
    ∃ t : SwitchTree Nat (Word.runs mask),
      SwitchTree.Fits (Word.runs mask) t ∧ SwitchTree.stored id (Word.runs mask) t = node := by
  induction grown with
  | chain w index =>
    exact ⟨.single w index (Word.runs mask), SwitchTree.fits_single _ _ _,
      SwitchTree.stored_single id _ _ _⟩
  | insert grown w index ih =>
    obtain ⟨t, fits, rfl⟩ := ih
    have step := SwitchTree.insert_stored id w index (Word.runs mask) t
    cases found : SwitchTree.find? w (Word.runs mask) t with
    | some occupant =>
      rw [found] at step
      exact ⟨t, fits, (congrArg Prod.snd step).symm⟩
    | none =>
      rw [found] at step
      exact ⟨t.insert w index (Word.runs mask), SwitchTree.fits_insert _ _ _ _ fits,
        (congrArg Prod.snd step).symm⟩

theorem ascending_collect (grown : Grown mask node) : Ascending (node.collect 0) := by
  obtain ⟨t, fits, rfl⟩ := grown.exists_stored
  exact SwitchTree.ascending_collect_stored id (Word.apart_runs mask) fits

/-- What a grown tree does with one more leaf. -/
theorem insert_cases (grown : Grown mask node) (w : Word) (index : Nat) :
    (∃ i, (∀ j, (w &&& mask, j) ∈ node.leaves ↔ j = i) ∧
      node.insert index (Word.path mask w) = (.occupied i, node)) ∨
    ((∀ i, (w &&& mask, i) ∉ node.leaves) ∧
      (node.insert index (Word.path mask w)).1 = .vacant ∧
      (node.insert index (Word.path mask w)).2.leaves.Perm ((w &&& mask, index) :: node.leaves)) := by
  obtain ⟨t, fits, rfl⟩ := grown.exists_stored
  have listed : ∀ t : SwitchTree Nat (Word.runs mask), SwitchTree.Fits (Word.runs mask) t →
      (SwitchTree.stored id (Word.runs mask) t).leaves = SwitchTree.leaves (Word.runs mask) t := by
    intro t fits
    rw [SwitchTree.leaves_stored id (Word.apart_runs mask) fits]
    exact List.map_id _
  have step : (SwitchTree.stored id (Word.runs mask) t).insert index (Word.path mask w) = _ :=
    SwitchTree.insert_stored id w index (Word.runs mask) t
  rw [listed t fits]
  cases found : SwitchTree.find? w (Word.runs mask) t with
  | some occupant =>
    rw [found] at step
    refine .inl ⟨occupant, fun j => ?_, step⟩
    rw [SwitchTree.masked_mem_leaves_iff fits, found, Option.some.injEq, eq_comm]
  | none =>
    rw [found] at step
    refine .inr ⟨fun i mem => ?_, congrArg Prod.fst step, ?_⟩
    · rw [SwitchTree.masked_mem_leaves_iff fits, found] at mem
      cases mem
    · rw [step, listed _ (SwitchTree.fits_insert _ _ _ _ fits)]
      exact SwitchTree.leaves_insert_perm fits found

end Grown

end SwitchNode

namespace MaskTree

variable {mask : Word}

/-- The tree with its ranges written into the switches, and of each leaf only its place. -/
def stored (t : MaskTree mask) : SwitchNode := SwitchTree.stored Leaf.index t.ranges t.root

theorem path_eq_steps (t : MaskTree mask) (w : Word) :
    Word.path mask w = SwitchTree.steps t.ranges w := by
  rw [t.ranges_eq]
  rfl

theorem stored_single (leaf : Leaf) :
    (single leaf (Word.runs mask) rfl : MaskTree mask).stored =
      .chain leaf.index (Word.path mask leaf.rule.pattern) :=
  SwitchTree.stored_single _ _ _ _

theorem insert_stored (t : MaskTree mask) (leaf : Leaf) :
    t.stored.insert leaf.index (Word.path mask leaf.rule.pattern) =
      match t.place leaf with
      | (some occupant, t) => (.occupied occupant.index, t.stored)
      | (none, t) => (.vacant, t.stored) := by
  rw [t.path_eq_steps, stored, SwitchTree.insert_stored, place, find?]
  cases SwitchTree.find? leaf.rule.pattern t.ranges t.root <;> rfl

theorem leaves_stored (t : MaskTree mask) (fits : t.Fits) :
    t.stored.leaves = t.leaves.map fun leaf => (leaf.1, leaf.2.index) :=
  SwitchTree.leaves_stored _ t.apart fits

end MaskTree

namespace Forest

/-- What holds of trees with one leaf, and of a tree with one more leaf if it held before, holds of
all trees of a merge. -/
theorem forall_trees_ofRules (P : ∀ mask, MaskTree mask → Prop)
    (single : ∀ leaf : Leaf, P leaf.rule.mask (.single leaf (Word.runs leaf.rule.mask) rfl))
    (insert : ∀ (leaf : Leaf) (t : MaskTree leaf.rule.mask), P _ t →
      t.find? leaf.rule.pattern = none → P _ (t.insert leaf))
    (rules : List Rule) (mask : Word) (t : MaskTree mask)
    (tree : (ofRules rules).trees.get? mask = some t) : P mask t := by
  induction rules using List.reverseRecOn generalizing mask with
  | nil => simp [ofRules, get?_empty] at tree
  | append_singleton rules rule ih =>
    rw [ofRules_append_singleton] at tree
    by_cases eq : rule.mask = mask
    · subst eq
      have step := (ofRules rules).added ⟨rules.length, rule⟩
      generalize (ofRules rules).add ⟨rules.length, rule⟩ = g at step tree
      cases step with
      | planted fresh =>
        rw [Std.DTreeMap.get?_insert_self] at tree
        cases tree
        exact single ⟨rules.length, rule⟩
      | inserted t' old vacant =>
        rw [Std.DTreeMap.get?_insert_self] at tree
        cases tree
        exact insert ⟨rules.length, rule⟩ t' (ih _ t' old) vacant
      | repeated | refused => exact ih _ t tree
    · exact ih mask t (by rwa [get?_add_of_ne _ ⟨rules.length, rule⟩ eq] at tree)

theorem grown_stored_ofRules (rules : List Rule) (mask : Word) (t : MaskTree mask)
    (tree : (ofRules rules).trees.get? mask = some t) : SwitchNode.Grown mask t.stored := by
  refine forall_trees_ofRules (fun mask t => SwitchNode.Grown mask t.stored) ?_ ?_ rules mask t tree
  · intro leaf
    rw [MaskTree.stored_single]
    exact .chain _ _
  · intro leaf t grown vacant
    have step := t.insert_stored leaf
    rw [MaskTree.place, vacant] at step
    have grown := grown.insert leaf.rule.pattern leaf.index
    rwa [step] at grown

end Forest

namespace SwitchNode

/-- A tree that is grown along the paths of a mask lists its leaves in ascending order of their
words, so putting them in order changes nothing. No path of the mask leads a new leaf astray: if the
tree has a leaf with the same bits under the mask, that leaf and the whole tree stay, and else the
new one is added. The trees of a merge are grown like this. Stored with their ranges they have the
same leaves, and a rule takes its place in one as insertion along its path does. -/
theorem insert_exact (mask : Word) :
    (∀ node, Grown mask node →
      Ascending (node.collect 0) ∧ node.leaves = node.collect 0 ∧
      ∀ w index,
        (∀ i, (node.insert index (Word.path mask w)).1 ≠ .astray i) ∧
        (∀ i, (w &&& mask, i) ∈ node.leaves →
          node.insert index (Word.path mask w) = (.occupied i, node)) ∧
        ((∀ i, (w &&& mask, i) ∉ node.leaves) →
          (node.insert index (Word.path mask w)).1 = .vacant ∧
          (node.insert index (Word.path mask w)).2.leaves.Perm ((w &&& mask, index) :: node.leaves))) ∧
    ∀ rules (t : MaskTree mask), (Forest.ofRules rules).trees.get? mask = some t →
      Grown mask t.stored ∧ (t.stored.leaves = t.leaves.map fun leaf => (leaf.1, leaf.2.index)) ∧
      ∀ leaf : Leaf, t.stored.insert leaf.index (Word.path mask leaf.rule.pattern) =
        match t.place leaf with
        | (some occupant, t) => (.occupied occupant.index, t.stored)
        | (none, t) => (.vacant, t.stored) := by
  refine ⟨fun node grown => ⟨grown.ascending_collect, leaves_eq_collect grown.ascending_collect,
    fun w index => ?_⟩, fun rules t tree => ⟨Forest.grown_stored_ofRules rules mask t tree,
    t.leaves_stored ((Forest.grown_ofRules rules).fits mask t tree), t.insert_stored⟩⟩
  rcases grown.insert_cases w index with ⟨i, only, step⟩ | ⟨fresh, vacant, perm⟩
  · refine ⟨fun j => ?_, fun j mem => ?_, fun fresh => absurd ((only i).2 rfl) (fresh i)⟩
    · rw [step]
      exact Arrival.noConfusion
    · rw [step, (only j).1 mem]
  · refine ⟨fun i => ?_, fun i mem => absurd mem (fresh i), fun _ => ⟨vacant, perm⟩⟩
    rw [vacant]
    exact Arrival.noConfusion

/-- A rule that fixes the bits of `0xF0F`. -/
def forkRule : Rule := ⟨"fork", [], [⟨⟨11, 8⟩, 3⟩, ⟨⟨3, 0⟩, 5⟩], 1⟩

/-- The rule's word and another one, which is less. -/
def forkNode : SwitchNode :=
  ((SwitchNode.chain 0 (Word.path 0xF0F forkRule.pattern)).insert 1 (Word.path 0xF0F 0x102)).2

/-- The middle bits do not count, so the second word of the tree comes back with others. -/
theorem insert_forkNode :
    forkNode.leaves = [(0x102, 1), (0x305, 0)] ∧
    forkNode.insert 2 (Word.path 0xF0F 0x1F2) = (.occupied 1, forkNode) ∧
    (forkNode.insert 2 (Word.path 0xF0F 0x103)).1 = .vacant ∧
    (forkNode.insert 2 (Word.path 0xF0F 0x103)).2.leaves.Perm [(0x103, 2), (0x102, 1), (0x305, 0)] ∧
    ∃ t : MaskTree 0xF0F, (Forest.ofRules [forkRule]).trees.get? 0xF0F = some t ∧
      Grown 0xF0F t.stored := by
  obtain ⟨trees, merged⟩ := insert_exact 0xF0F
  obtain ⟨-, in_order, step⟩ := trees forkNode ((Grown.chain _ 0).insert 0x102 1)
  have listed : forkNode.leaves = [(0x102, 1), (0x305, 0)] := by
    rw [in_order]
    decide +kernel
  have fresh : ∀ i, ((0x103 : Word) &&& 0xF0F, i) ∉ forkNode.leaves := by
    simp [listed]
  have mask : forkRule.mask = 0xF0F := by decide +kernel
  obtain ⟨t, tree⟩ := Forest.exists_tree_iff.2 ⟨forkRule, List.mem_singleton_self _, mask⟩
  obtain ⟨vacant, perm⟩ := (step 0x103 2).2.2 fresh
  rw [listed] at perm
  refine ⟨listed, (step 0x1F2 2).2.1 1 ?_, vacant, perm, t, tree, (merged _ t tree).1⟩
  rw [listed]
  decide +kernel

end SwitchNode

end Opcodes
