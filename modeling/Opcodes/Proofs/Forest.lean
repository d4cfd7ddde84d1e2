import Opcodes.Forest
import Opcodes.Proofs.Rule
import Opcodes.Proofs.Runs
import Opcodes.Proofs.SwitchTree

/-!
# What a merge keeps

A word leads to the first rule taken in that has the tree's mask and matches the word. `Grown` says
so of a forest and of the leaves it has taken in, `Grown.add` is the step, and `grown_ofRules` the
run. A leaf is never replaced: a later rival is a duplicate or a conflict.
-/
set_option autoImplicit false

namespace Opcodes

/-- Places in a list ascend. -/
theorem pairwise_zipIdx {α : Type} (as : List α) (n : Nat) :
    (as.zipIdx n).Pairwise fun a b => a.2 < b.2 := by
  have indices : ((as.zipIdx n).map Prod.snd).Pairwise (· < ·) := by
    rw [List.zipIdx_map_snd]
    exact List.pairwise_lt_range'
  exact List.pairwise_map.1 indices

namespace Word

theorem apart_runs (mask : Word) : BitRange.Apart (runs mask) :=
  ⟨fun _ => inWord_of_mem_runs, (pairwise_runs mask).imp fun h => by omega⟩

/-- The words within the runs of a mask are those that it covers. -/
theorem within_runs_iff {mask w : Word} : BitRange.Within (runs mask) w ↔ covers mask w = true := by
  rw [covers_iff]
  simp only [BitRange.Within, mem_runs_iff]

end Word

namespace MaskTree

variable {mask : Word}

/-- Every value switched on fits its range. -/
def Fits (t : MaskTree mask) : Prop := SwitchTree.Fits t.ranges t.root

theorem apart (t : MaskTree mask) : BitRange.Apart t.ranges := by
  rw [t.ranges_eq]
  exact Word.apart_runs mask

theorem forall_read_ranges_iff (t : MaskTree mask) {v w : Word} :
    (∀ r ∈ t.ranges, r.read v = r.read w) ↔ v &&& mask = w &&& mask := by
  rw [t.ranges_eq]
  exact Word.forall_read_runs_iff

theorem within_ranges_iff (t : MaskTree mask) {w : Word} :
    BitRange.Within t.ranges w ↔ Word.covers mask w = true := by
  rw [t.ranges_eq]
  exact Word.within_runs_iff

theorem find?_congr (t : MaskTree mask) {v w : Word} (h : v &&& mask = w &&& mask) :
    t.find? v = t.find? w :=
  SwitchTree.find?_congr t.root (t.forall_read_ranges_iff.2 h)

theorem find?_single (leaf : Leaf) (w : Word) :
    (single leaf (Word.runs mask) rfl : MaskTree mask).find? w =
      if leaf.rule.pattern &&& mask = w &&& mask then some leaf else none := by
  rw [find?, single, SwitchTree.find?_single]
  simp only [Word.forall_read_runs_iff]

theorem find?_insert (t : MaskTree mask) (leaf : Leaf) (w : Word) :
    (t.insert leaf).find? w =
      if leaf.rule.pattern &&& mask = w &&& mask then some leaf else t.find? w := by
  rw [find?, insert, SwitchTree.find?_insert]
  simp only [t.forall_read_ranges_iff]
  rfl

theorem fits_single (leaf : Leaf) :
    (single leaf (Word.runs mask) rfl : MaskTree mask).Fits :=
  SwitchTree.fits_single _ _ _

theorem Fits.insert {t : MaskTree mask} (fits : t.Fits) (leaf : Leaf) : (t.insert leaf).Fits :=
  SwitchTree.fits_insert _ _ _ _ fits

/-- The leaves are the pairs of a pattern within the mask and the rule that it leads to. -/
theorem mem_leaves_iff (t : MaskTree mask) (fits : t.Fits) {pattern : Word} {leaf : Leaf} :
    (pattern, leaf) ∈ t.leaves ↔
      t.find? pattern = some leaf ∧ Word.covers mask pattern = true := by
  rw [← t.within_ranges_iff]
  exact SwitchTree.mem_leaves_iff t.apart fits

theorem pairwise_leaves (t : MaskTree mask) (fits : t.Fits) :
    t.leaves.Pairwise fun x y => x.1 < y.1 :=
  SwitchTree.pairwise_leaves t.apart fits

end MaskTree

namespace Forest

/-- Masks that compare as equal are equal, so a tree can be looked up by its mask. -/
local instance lawfulEqCmp : Std.LawfulEqCmp (compare : Word → Word → Ordering) := inferInstance

/-- The leaf that a word leads to in the tree of a mask. -/
def find? (f : Forest) (mask w : Word) : Option Leaf := (f.trees.get? mask).bind (·.find? w)

theorem find?_congr (f : Forest) {mask v w : Word} (h : v &&& mask = w &&& mask) :
    f.find? mask v = f.find? mask w := by
  rw [find?, find?]
  congr 1
  funext t
  exact t.find?_congr h

/-- The trees come in ascending order of their masks. -/
theorem pairwise_trees (f : Forest) : f.trees.toList.Pairwise fun x y => x.1 < y.1 :=
  Std.DTreeMap.ordered_keys_toList.imp Word.compare_eq_lt_iff.1

theorem get?_empty (mask : Word) : empty.trees.get? mask = none := Std.DTreeMap.get?_emptyc

/-- The trees after one more rule: that of its mask alone can change. -/
theorem get?_add_of_ne (f : Forest) (leaf : Leaf) {mask : Word} (ne : leaf.rule.mask ≠ mask) :
    (f.add leaf).trees.get? mask = f.trees.get? mask := by
  have other : ∀ t, (f.trees.insert leaf.rule.mask t).get? mask = f.trees.get? mask := by
    intro t
    rw [Std.DTreeMap.get?_insert, dif_neg]
    exact fun eq => ne (Std.LawfulEqCmp.compare_eq_iff_eq.1 eq)
  rw [add]
  split
  · exact other _
  · split
    · exact other _
    · split <;> rfl

/-- What the merge does with one more rule, by the leaf that its pattern leads to. -/
inductive Added (f : Forest) (leaf : Leaf) : Forest → Prop where
  | planted (fresh : f.trees.get? leaf.rule.mask = none) :
      Added f leaf { f with
        trees := f.trees.insert leaf.rule.mask (.single leaf (Word.runs leaf.rule.mask) rfl) }
  | inserted (t : MaskTree leaf.rule.mask) (tree : f.trees.get? leaf.rule.mask = some t)
      (vacant : t.find? leaf.rule.pattern = none) :
      Added f leaf { f with trees := f.trees.insert leaf.rule.mask (t.insert leaf) }
  | repeated (occupant : Leaf) (found : f.find? leaf.rule.mask leaf.rule.pattern = some occupant)
      (same : occupant.rule.same leaf.rule = true) :
      Added f leaf { f with duplicates := f.duplicates + 1 }
  | refused (occupant : Leaf) (found : f.find? leaf.rule.mask leaf.rule.pattern = some occupant)
      (other : occupant.rule.same leaf.rule = false) :
      Added f leaf { f with conflicts := f.conflicts ++ [⟨occupant.rule, leaf.rule⟩] }

theorem added (f : Forest) (leaf : Leaf) : Added f leaf (f.add leaf) := by
  rw [add]
  cases tree : f.trees.get? leaf.rule.mask with
  | none => exact .planted tree
  | some t =>
    have found : f.find? leaf.rule.mask leaf.rule.pattern = t.find? leaf.rule.pattern := by
      rw [find?, tree, Option.bind_some]
    simp only [MaskTree.place]
    cases occupied : t.find? leaf.rule.pattern with
    | none => exact .inserted t tree occupied
    | some occupant =>
      rw [occupied] at found
      cases same : occupant.rule.same leaf.rule with
      | true => simpa [same] using Added.repeated occupant found same
      | false => simpa [same] using Added.refused occupant found same

/-- Growing a tree by a leaf gives the leaf to the words that match it and led nowhere. -/
theorem find?_insert (f : Forest) (leaf : Leaf) {t : MaskTree leaf.rule.mask}
    (grown : ∀ w, t.find? w =
      if leaf.rule.pattern &&& leaf.rule.mask = w &&& leaf.rule.mask then some leaf
      else f.find? leaf.rule.mask w)
    (vacant : f.find? leaf.rule.mask leaf.rule.pattern = none) (mask w : Word) :
    find? { f with trees := f.trees.insert leaf.rule.mask t } mask w =
      (f.find? mask w).or
        (if leaf.rule.mask = mask ∧ leaf.rule.Matches w then some leaf else none) := by
  by_cases eq : leaf.rule.mask = mask
  · subst eq
    rw [find?, Std.DTreeMap.get?_insert_self, Option.bind_some, grown w]
    simp only [Rule.matches_iff, true_and]
    split
    · rename_i same
      rw [← f.find?_congr same, vacant, Option.none_or]
    · rw [Option.or_none]
  · rw [find?, Std.DTreeMap.get?_insert, dif_neg, if_neg (fun h => eq h.1), Option.or_none, find?]
    exact fun h => eq (Std.LawfulEqCmp.compare_eq_iff_eq.1 h)

/-- An occupied leaf keeps all words that lead to it from the rules to come. -/
theorem find?_or_occupied (f : Forest) {leaf occupant : Leaf}
    (found : f.find? leaf.rule.mask leaf.rule.pattern = some occupant) (mask w : Word) :
    f.find? mask w = (f.find? mask w).or
      (if leaf.rule.mask = mask ∧ leaf.rule.Matches w then some leaf else none) := by
  split
  · rename_i h
    obtain ⟨rfl, h⟩ := h
    rw [← f.find?_congr (Rule.matches_iff.1 h), found, Option.some_or]
  · rw [Option.or_none]

/-- The rule taken in gets the words that match it and led nowhere in the tree of its mask. -/
theorem find?_add (f : Forest) (leaf : Leaf) (mask w : Word) :
    (f.add leaf).find? mask w = (f.find? mask w).or
      (if leaf.rule.mask = mask ∧ leaf.rule.Matches w then some leaf else none) := by
  have step := f.added leaf
  generalize f.add leaf = g at step ⊢
  cases step with
  | planted fresh =>
    have empty : ∀ w, f.find? leaf.rule.mask w = none := fun w => by
      rw [find?, fresh, Option.bind_none]
    refine find?_insert f leaf (fun w => ?_) (empty _) mask w
    rw [MaskTree.find?_single, empty]
  | inserted t tree vacant =>
    have found : ∀ w, f.find? leaf.rule.mask w = t.find? w := fun w => by
      rw [find?, tree, Option.bind_some]
    refine find?_insert f leaf (fun w => ?_) ((found _).trans vacant) mask w
    rw [MaskTree.find?_insert, found]
  | repeated occupant found => exact find?_or_occupied f found mask w
  | refused occupant found => exact find?_or_occupied f found mask w

/-- A leaf claims the words that its rule matches, in the tree of its mask. -/
def Claims (mask w : Word) (leaf : Leaf) : Bool :=
  leaf.rule.mask == mask && decide (leaf.rule.Matches w)

theorem claims_iff {mask w : Word} {leaf : Leaf} :
    Claims mask w leaf = true ↔ leaf.rule.mask = mask ∧ leaf.rule.Matches w := by
  simp [Claims]

/-- The forest is the merge of the leaves, in the order in which they were taken in. -/
structure Grown (leaves : List Leaf) (f : Forest) : Prop where
  /-- A word leads to the first leaf that claims it. -/
  find : ∀ mask w, f.find? mask w = leaves.find? (Claims mask w)
  /-- There is a tree for each mask of a rule and for no other. -/
  planted : ∀ mask, (∃ t, f.trees.get? mask = some t) ↔ ∃ leaf ∈ leaves, leaf.rule.mask = mask
  fits : ∀ mask t, f.trees.get? mask = some t → t.Fits
  /-- There is no conflict just when all rivals are spellings of one rule. -/
  clear : f.conflicts = [] ↔
    ∀ a ∈ leaves, ∀ b ∈ leaves, a.rule.Rivals b.rule → a.rule.same b.rule = true

theorem grown_empty : Grown [] empty where
  find mask w := by rw [find?, get?_empty, Option.bind_none, List.find?_nil]
  planted mask := by simp [get?_empty]
  fits mask t h := by simp [get?_empty] at h
  clear := by simp [empty]

namespace Grown

variable {leaves : List Leaf} {f : Forest} {leaf occupant : Leaf}

theorem mem_of_find (h : Grown leaves f) {mask w : Word} (found : f.find? mask w = some leaf) :
    leaf ∈ leaves ∧ leaf.rule.mask = mask ∧ leaf.rule.Matches w := by
  rw [h.find] at found
  exact ⟨List.mem_of_find?_eq_some found, claims_iff.1 (List.find?_some found)⟩

/-- A new rule whose leaf is taken is a rival of the occupant. -/
theorem rivals_occupant (h : Grown leaves f)
    (found : f.find? leaf.rule.mask leaf.rule.pattern = some occupant) :
    occupant ∈ leaves ∧ occupant.rule.Rivals leaf.rule := by
  obtain ⟨mem, mask, hit⟩ := h.mem_of_find found
  exact ⟨mem, Rule.rivals_of_matches mask hit leaf.rule.matches_pattern⟩

/-- A new rule whose leaf is free has no rival. -/
theorem not_rivals_of_vacant (h : Grown leaves f)
    (vacant : f.find? leaf.rule.mask leaf.rule.pattern = none) :
    ∀ a ∈ leaves, ¬a.rule.Rivals leaf.rule := by
  intro a mem rivals
  rw [h.find, List.find?_eq_none] at vacant
  exact vacant a mem (claims_iff.2 ⟨rivals.1, rivals.matches_iff.2 leaf.rule.matches_pattern⟩)

/-- All rivals stay spellings of one rule when the new one is a spelling of its rivals. -/
theorem clear_append (agree : ∀ a ∈ leaves, a.rule.Rivals leaf.rule → a.rule.same leaf.rule = true) :
    (∀ a ∈ leaves ++ [leaf], ∀ b ∈ leaves ++ [leaf],
        a.rule.Rivals b.rule → a.rule.same b.rule = true) ↔
      ∀ a ∈ leaves, ∀ b ∈ leaves, a.rule.Rivals b.rule → a.rule.same b.rule = true := by
  constructor
  · intro h a ha b hb
    exact h a (List.mem_append_left _ ha) b (List.mem_append_left _ hb)
  · intro h a ha b hb rivals
    rw [List.mem_append, List.mem_singleton] at ha hb
    rcases ha with ha | rfl <;> rcases hb with hb | rfl
    · exact h a ha b hb rivals
    · exact agree a ha rivals
    · exact Rule.same_symm (agree b hb rivals.symm)
    · exact Rule.same_refl _

theorem find_add (h : Grown leaves f) (leaf : Leaf) (mask w : Word) :
    (f.add leaf).find? mask w = (leaves ++ [leaf]).find? (Claims mask w) := by
  rw [f.find?_add, h.find, List.find?_append, List.find?_singleton]
  simp only [claims_iff]

theorem planted_add (h : Grown leaves f) (leaf : Leaf) (mask : Word) :
    (∃ t, (f.add leaf).trees.get? mask = some t) ↔ ∃ a ∈ leaves ++ [leaf], a.rule.mask = mask := by
  have old := h.planted mask
  by_cases eq : leaf.rule.mask = mask
  · subst eq
    refine iff_of_true ?_ ⟨leaf, List.mem_append_right _ (List.mem_singleton_self leaf), rfl⟩
    have step := f.added leaf
    generalize f.add leaf = g at step ⊢
    cases step with
    | planted fresh => exact ⟨_, Std.DTreeMap.get?_insert_self⟩
    | inserted t tree vacant => exact ⟨_, Std.DTreeMap.get?_insert_self⟩
    | repeated occupant found | refused occupant found =>
      obtain ⟨mem, rivals⟩ := h.rivals_occupant found
      exact old.2 ⟨occupant, mem, rivals.1⟩
  · rw [f.get?_add_of_ne leaf eq, old]
    simp [or_and_right, exists_or, eq]

theorem fits_add (h : Grown leaves f) (leaf : Leaf) (mask : Word) (t : MaskTree mask)
    (tree : (f.add leaf).trees.get? mask = some t) : t.Fits := by
  by_cases eq : leaf.rule.mask = mask
  · subst eq
    have step := f.added leaf
    generalize f.add leaf = g at step tree
    cases step with
    | planted fresh =>
      rw [Std.DTreeMap.get?_insert_self] at tree
      cases tree
      exact MaskTree.fits_single leaf
    | inserted t' old vacant =>
      rw [Std.DTreeMap.get?_insert_self] at tree
      cases tree
      exact (h.fits _ t' old).insert leaf
    | repeated | refused => exact h.fits _ t tree
  · exact h.fits mask t (by rwa [f.get?_add_of_ne leaf eq] at tree)

theorem clear_add (h : Grown leaves f) (leaf : Leaf) :
    (f.add leaf).conflicts = [] ↔ ∀ a ∈ leaves ++ [leaf], ∀ b ∈ leaves ++ [leaf],
      a.rule.Rivals b.rule → a.rule.same b.rule = true := by
  have step := f.added leaf
  generalize f.add leaf = g at step ⊢
  cases step with
  | planted fresh =>
    have vacant : f.find? leaf.rule.mask leaf.rule.pattern = none := by
      rw [find?, fresh, Option.bind_none]
    rw [clear_append fun a mem rivals => absurd rivals (h.not_rivals_of_vacant vacant a mem)]
    exact h.clear
  | inserted t tree vacant =>
    have vacant : f.find? leaf.rule.mask leaf.rule.pattern = none := by
      rw [find?, tree, Option.bind_some, vacant]
    rw [clear_append fun a mem rivals => absurd rivals (h.not_rivals_of_vacant vacant a mem)]
    exact h.clear
  | repeated occupant found same =>
    obtain ⟨mem, rivals⟩ := h.rivals_occupant found
    show f.conflicts = [] ↔ _
    rw [h.clear]
    constructor
    · intro agree
      refine (clear_append fun a ha near => ?_).2 agree
      exact Rule.same_trans (agree a ha occupant mem (near.trans rivals.symm)) same
    · intro agree a ha b hb
      exact agree a (List.mem_append_left _ ha) b (List.mem_append_left _ hb)
  | refused occupant found other =>
    obtain ⟨mem, rivals⟩ := h.rivals_occupant found
    refine iff_of_false (by simp) fun agree => ?_
    have := agree occupant (List.mem_append_left _ mem) leaf
      (List.mem_append_right _ (List.mem_singleton_self leaf)) rivals
    rw [other] at this
    cases this

/-- The step: one more rule is taken in. -/
theorem add (h : Grown leaves f) (leaf : Leaf) : Grown (leaves ++ [leaf]) (f.add leaf) :=
  ⟨h.find_add leaf, h.planted_add leaf, h.fits_add leaf, h.clear_add leaf⟩

end Grown

theorem grown_foldl (leaves : List Leaf) : Grown leaves (leaves.foldl add empty) := by
  induction leaves using List.reverseRecOn with
  | nil => exact grown_empty
  | append_singleton leaves leaf ih =>
    rw [List.foldl_append]
    exact ih.add leaf

/-- The rules of a list with their places in it. -/
def leavesOf (rules : List Rule) : List Leaf := rules.zipIdx.map fun (rule, index) => ⟨index, rule⟩

theorem mem_leavesOf_iff {rules : List Rule} {leaf : Leaf} :
    leaf ∈ leavesOf rules ↔ rules[leaf.index]? = some leaf.rule := by
  rw [leavesOf, List.mem_map]
  constructor
  · intro parts
    obtain ⟨⟨rule, index⟩, mem, rfl⟩ := parts
    exact List.mem_zipIdx_iff_getElem?.1 mem
  · intro h
    exact ⟨(leaf.rule, leaf.index), List.mem_zipIdx_iff_getElem?.2 h, rfl⟩

theorem pairwise_leavesOf (rules : List Rule) :
    (leavesOf rules).Pairwise fun a b => a.index < b.index := by
  rw [leavesOf, List.pairwise_map]
  exact pairwise_zipIdx rules 0

/-- The run: the merge of a list of rules. -/
theorem grown_ofRules (rules : List Rule) : Grown (leavesOf rules) (ofRules rules) := by
  have h := grown_foldl (leavesOf rules)
  rwa [leavesOf, List.foldl_map] at h

end Forest

/-- In a list that ascends by a key the first element with a property is the one with the least key. -/
theorem find?_eq_some_iff_least {α : Type} {key : α → Nat} {p : α → Bool} {as : List α}
    (ascending : as.Pairwise fun a b => key a < key b) {a : α} :
    as.find? p = some a ↔ a ∈ as ∧ p a = true ∧ ∀ b ∈ as, p b = true → key a ≤ key b := by
  induction as with
  | nil => simp
  | cons x as ih =>
    obtain ⟨less, ascending⟩ := List.pairwise_cons.1 ascending
    cases hx : p x with
    | true =>
      rw [List.find?_cons_of_pos hx, Option.some.injEq]
      constructor
      · rintro rfl
        refine ⟨List.mem_cons_self, hx, fun b hb _ => ?_⟩
        rcases List.mem_cons.1 hb with rfl | hb
        · exact Nat.le_refl _
        · exact Nat.le_of_lt (less b hb)
      · intro h
        obtain ⟨mem, -, least⟩ := h
        rcases List.mem_cons.1 mem with rfl | mem
        · rfl
        · have := less a mem
          have := least x List.mem_cons_self hx
          omega
    | false =>
      rw [List.find?_cons_of_neg (by simp [hx]), ih ascending]
      constructor
      · intro h
        obtain ⟨mem, ha, least⟩ := h
        refine ⟨List.mem_cons_of_mem _ mem, ha, fun b hb pb => ?_⟩
        rcases List.mem_cons.1 hb with rfl | hb
        · simp [hx] at pb
        · exact least b hb pb
      · intro h
        obtain ⟨mem, ha, least⟩ := h
        rcases List.mem_cons.1 mem with rfl | mem
        · simp [hx] at ha
        · exact ⟨mem, ha, fun b hb pb => least b (List.mem_cons_of_mem _ hb) pb⟩

namespace Leaf

/-- The rule is the first of the list with its encoding. -/
structure First (rules : List Rule) (leaf : Leaf) : Prop where
  place : rules[leaf.index]? = some leaf.rule
  first : ∀ j rule, rules[j]? = some rule → rule.Rivals leaf.rule → leaf.index ≤ j

variable {rules : List Rule} {leaf a b : Leaf}

theorem First.mem (h : First rules leaf) : leaf.rule ∈ rules := List.mem_of_getElem? h.place

theorem First.eq (ha : First rules a) (hb : First rules b) (rivals : a.rule.Rivals b.rule) :
    a = b := by
  have index : a.index = b.index :=
    Nat.le_antisymm (ha.first _ _ hb.place rivals.symm) (hb.first _ _ ha.place rivals)
  have rule : a.rule = b.rule := by
    have place := ha.place
    rw [index, hb.place] at place
    exact (Option.some.inj place).symm
  cases a
  cases b
  simp_all

end Leaf

namespace Forest

variable {rules : List Rule} {leaf : Leaf}

/-- A merge leads a word to the first rule with the tree's mask that matches it. -/
theorem find?_ofRules_eq_some_iff {mask w : Word} :
    (ofRules rules).find? mask w = some leaf ↔
      leaf.First rules ∧ leaf.rule.mask = mask ∧ leaf.rule.Matches w := by
  rw [(grown_ofRules rules).find, find?_eq_some_iff_least (pairwise_leavesOf rules)]
  simp only [mem_leavesOf_iff, claims_iff]
  constructor
  · intro h
    obtain ⟨place, ⟨mask, hit⟩, least⟩ := h
    refine ⟨⟨place, fun j rule at_j rivals => ?_⟩, mask, hit⟩
    exact least ⟨j, rule⟩ at_j ⟨rivals.1.trans mask, rivals.matches_iff.2 hit⟩
  · intro h
    obtain ⟨first, mask, hit⟩ := h
    refine ⟨first.place, ⟨mask, hit⟩, fun other at_j claims => ?_⟩
    exact first.first _ _ at_j (Rule.rivals_of_matches (claims.1.trans mask.symm) claims.2 hit)

/-- A merge has no conflict just when all rivals are spellings of one rule. -/
theorem conflicts_ofRules_eq_nil_iff (rules : List Rule) :
    (ofRules rules).conflicts = [] ↔
      ∀ a ∈ rules, ∀ b ∈ rules, a.Rivals b → a.same b = true := by
  rw [(grown_ofRules rules).clear]
  constructor
  · intro agree a ha b hb
    obtain ⟨i, at_i⟩ := List.mem_iff_getElem?.1 ha
    obtain ⟨j, at_j⟩ := List.mem_iff_getElem?.1 hb
    exact agree ⟨i, a⟩ (mem_leavesOf_iff.2 at_i) ⟨j, b⟩ (mem_leavesOf_iff.2 at_j)
  · intro agree a ha b hb
    exact agree a.rule (List.mem_of_getElem? (mem_leavesOf_iff.1 ha)) b.rule
      (List.mem_of_getElem? (mem_leavesOf_iff.1 hb))

/-- A merge has a tree for each mask of a rule. -/
theorem exists_tree_iff {mask : Word} :
    (∃ t, (ofRules rules).trees.get? mask = some t) ↔ ∃ rule ∈ rules, rule.mask = mask := by
  rw [(grown_ofRules rules).planted]
  constructor
  · intro h
    obtain ⟨leaf, mem, rfl⟩ := h
    exact ⟨leaf.rule, List.mem_of_getElem? (mem_leavesOf_iff.1 mem), rfl⟩
  · intro h
    obtain ⟨rule, mem, rfl⟩ := h
    obtain ⟨i, place⟩ := List.mem_iff_getElem?.1 mem
    exact ⟨⟨i, rule⟩, mem_leavesOf_iff.2 place, rfl⟩

/-- The leaves of a tree are the first rules with its mask, each listed by its encoding. -/
theorem mem_leaves_ofRules_iff {mask pattern : Word} {t : MaskTree mask}
    (tree : (ofRules rules).trees.get? mask = some t) :
    (pattern, leaf) ∈ t.leaves ↔
      leaf.First rules ∧ leaf.rule.mask = mask ∧ pattern = leaf.rule.encoding := by
  have found : (ofRules rules).find? mask pattern = t.find? pattern := by
    rw [find?, tree, Option.bind_some]
  rw [t.mem_leaves_iff ((grown_ofRules rules).fits mask t tree), ← found,
    find?_ofRules_eq_some_iff, and_assoc, and_assoc]
  refine and_congr_right fun _ => and_congr_right fun eq => ?_
  subst eq
  constructor
  · intro h
    obtain ⟨hit, inside⟩ := h
    exact (Word.and_eq_self_iff.2 inside).symm.trans hit
  · rintro rfl
    exact ⟨Word.and_and_self _ _, leaf.rule.covers_encoding⟩

theorem pairwise_leaves_ofRules {mask : Word} {t : MaskTree mask}
    (tree : (ofRules rules).trees.get? mask = some t) :
    t.leaves.Pairwise fun x y => x.1 < y.1 :=
  t.pairwise_leaves ((grown_ofRules rules).fits mask t tree)

/-- Every rule of the list has a rival that is the first with its encoding. -/
theorem exists_first {rule : Rule} (mem : rule ∈ rules) :
    ∃ leaf : Leaf, leaf.First rules ∧ leaf.rule.Rivals rule := by
  cases found : (ofRules rules).find? rule.mask rule.pattern with
  | some leaf =>
    obtain ⟨first, mask, hit⟩ := find?_ofRules_eq_some_iff.1 found
    exact ⟨leaf, first, Rule.rivals_of_matches mask hit rule.matches_pattern⟩
  | none =>
    rw [(grown_ofRules rules).find, List.find?_eq_none] at found
    obtain ⟨i, place⟩ := List.mem_iff_getElem?.1 mem
    refine absurd ?_ (found ⟨i, rule⟩ (mem_leavesOf_iff.2 place))
    exact claims_iff.2 ⟨rfl, rule.matches_pattern⟩

end Forest

end Opcodes
