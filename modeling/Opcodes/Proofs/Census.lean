import Opcodes.Proofs.Forest

/-!
# What becomes of each rule

A merge gives a leaf to the first rule with an encoding. Every later rule with that encoding has an
`Encounter` with it: it is counted as a duplicate if it is a spelling of the occupant, and else it
makes a conflict. So the leaves, the duplicates and the conflicts are as many as the rules.
-/
set_option autoImplicit false

namespace Opcodes

/-- A rule that comes to a leaf and the rule that has it. -/
structure Encounter where
  occupant : Leaf
  late : Leaf
deriving DecidableEq, Repr

namespace Encounter

/-- The rule that comes is a spelling of the occupant. -/
def repeats (e : Encounter) : Bool := e.occupant.rule.same e.late.rule

def conflict (e : Encounter) : Conflict := ⟨e.occupant.rule, e.late.rule⟩

/-- The occupant is the first rule of the list with its encoding, and the other a later one. -/
structure Occurs (rules : List Rule) (e : Encounter) : Prop where
  first : e.occupant.First rules
  place : rules[e.late.index]? = some e.late.rule
  rivals : e.occupant.rule.Rivals e.late.rule
  late : e.occupant.index < e.late.index

end Encounter

namespace Forest

variable {rules : List Rule} {rule : Rule} {leaf a b : Leaf} {e : Encounter}

theorem leavesOf_append_singleton (rules : List Rule) (rule : Rule) :
    leavesOf (rules ++ [rule]) = leavesOf rules ++ [⟨rules.length, rule⟩] := by
  simp [leavesOf, List.zipIdx_append]

theorem ofRules_append_singleton (rules : List Rule) (rule : Rule) :
    ofRules (rules ++ [rule]) = (ofRules rules).add ⟨rules.length, rule⟩ := by
  simp [ofRules, List.zipIdx_append]

/-- The first rule in front of the leaf that has its encoding. -/
def occupant? (rules : List Rule) (leaf : Leaf) : Option Leaf :=
  (leavesOf (rules.take leaf.index)).find? fun a => a.rule.Rivals leaf.rule

/-- The encounters of a list of rules, in the order of the rules that come late. -/
def encounters (rules : List Rule) : List Encounter :=
  (leavesOf rules).filterMap fun leaf => (occupant? rules leaf).map (⟨·, leaf⟩)

theorem mem_leavesOf_take_iff {n : Nat} :
    leaf ∈ leavesOf (rules.take n) ↔ leaf.index < n ∧ rules[leaf.index]? = some leaf.rule := by
  rw [mem_leavesOf_iff, List.getElem?_take]
  split <;> simp_all

theorem occupant?_eq_some_iff : occupant? rules leaf = some a ↔
    a.First rules ∧ a.rule.Rivals leaf.rule ∧ a.index < leaf.index := by
  rw [occupant?, find?_eq_some_iff_least (pairwise_leavesOf _)]
  simp only [mem_leavesOf_take_iff, decide_eq_true_eq]
  constructor
  · intro h
    obtain ⟨⟨early, place⟩, rivals, least⟩ := h
    refine ⟨⟨place, fun j rule at_j near => ?_⟩, rivals, early⟩
    by_cases late : j < leaf.index
    · exact least ⟨j, rule⟩ ⟨late, at_j⟩ (near.trans rivals)
    · omega
  · intro h
    obtain ⟨first, rivals, early⟩ := h
    exact ⟨⟨early, first.place⟩, rivals, fun b place near =>
      first.first _ _ place.2 (near.trans rivals.symm)⟩

theorem occupant?_eq_none_iff (place : rules[leaf.index]? = some leaf.rule) :
    occupant? rules leaf = none ↔ leaf.First rules := by
  rw [occupant?, List.find?_eq_none]
  simp only [mem_leavesOf_take_iff, decide_eq_true_eq]
  constructor
  · intro free
    refine ⟨place, fun j rule at_j rivals => ?_⟩
    by_contra early
    exact free ⟨j, rule⟩ ⟨Nat.lt_of_not_le early, at_j⟩ rivals
  · intro first b early rivals
    have := first.first _ _ early.2 rivals
    omega

theorem mem_encounters_iff : e ∈ encounters rules ↔ e.Occurs rules := by
  obtain ⟨occupant, late⟩ := e
  rw [encounters, List.mem_filterMap]
  constructor
  · intro h
    obtain ⟨leaf, place, h⟩ := h
    obtain ⟨a, found, eq⟩ := Option.map_eq_some_iff.1 h
    cases eq
    obtain ⟨first, rivals, early⟩ := occupant?_eq_some_iff.1 found
    exact ⟨first, mem_leavesOf_iff.1 place, rivals, early⟩
  · intro h
    obtain ⟨first, place, rivals, early⟩ := h
    refine ⟨late, mem_leavesOf_iff.2 place, ?_⟩
    rw [occupant?_eq_some_iff.2 ⟨first, rivals, early⟩]
    rfl

/-- The encounters come in the order of the rules. -/
theorem pairwise_encounters (rules : List Rule) :
    (encounters rules).Pairwise fun x y => x.late.index < y.late.index := by
  rw [encounters, List.pairwise_filterMap]
  refine (pairwise_leavesOf rules).imp fun {a b} less x hx y hy => ?_
  obtain ⟨_, -, rfl⟩ := Option.map_eq_some_iff.1 hx
  obtain ⟨_, -, rfl⟩ := Option.map_eq_some_iff.1 hy
  exact less

/-- What a merge has found out about a list of rules, from the encounters alone. -/
structure Tallied (rules : List Rule) (f : Forest) : Prop where
  conflicts : f.conflicts = ((encounters rules).filter (!·.repeats)).map Encounter.conflict
  duplicates : f.duplicates = (encounters rules).countP (·.repeats)

/-- A word leads to the first rule with the tree's mask that matches it, so a rule's own pattern
leads to its first rival. -/
theorem find?_pattern_ofRules (rules : List Rule) (rule : Rule) :
    (ofRules rules).find? rule.mask rule.pattern =
      (leavesOf rules).find? fun a => a.rule.Rivals rule := by
  rw [(grown_ofRules rules).find]
  congr 1
  funext a
  rw [Bool.eq_iff_iff, claims_iff, decide_eq_true_iff]
  constructor
  · intro h
    obtain ⟨mask, hit⟩ := h
    exact Rule.rivals_of_matches mask hit rule.matches_pattern
  · intro rivals
    exact ⟨rivals.1, rivals.matches_iff.2 rule.matches_pattern⟩

/-- One more rule has an encounter if its leaf is taken, and changes none of the others. -/
theorem encounters_append_singleton (rules : List Rule) (rule : Rule) :
    encounters (rules ++ [rule]) = encounters rules ++
      (((ofRules rules).find? rule.mask rule.pattern).map (⟨·, ⟨rules.length, rule⟩⟩)).toList := by
  have old : ∀ leaf ∈ leavesOf rules, occupant? (rules ++ [rule]) leaf = occupant? rules leaf := by
    intro leaf mem
    have inside : leaf.index < rules.length :=
      (List.getElem?_eq_some_iff.1 (mem_leavesOf_iff.1 mem)).1
    rw [occupant?, occupant?, List.take_append_of_le_length (by omega)]
  have new : occupant? (rules ++ [rule]) ⟨rules.length, rule⟩ =
      (ofRules rules).find? rule.mask rule.pattern := by
    rw [occupant?, List.take_left, find?_pattern_ofRules]
  rw [encounters, leavesOf_append_singleton, List.filterMap_append, encounters]
  congr 1
  · exact List.filterMap_congr fun leaf mem => by rw [old leaf mem]
  · simp only [List.filterMap_cons, List.filterMap_nil, new]
    cases (ofRules rules).find? rule.mask rule.pattern <;> rfl

/-- The run: a merge has one record for each encounter. -/
theorem tallied_ofRules (rules : List Rule) : Tallied rules (ofRules rules) := by
  induction rules using List.reverseRecOn with
  | nil => exact ⟨rfl, rfl⟩
  | append_singleton rules rule ih =>
    have step := (ofRules rules).added ⟨rules.length, rule⟩
    have grown := encounters_append_singleton rules rule
    rw [ofRules_append_singleton]
    generalize (ofRules rules).add ⟨rules.length, rule⟩ = g at step ⊢
    cases step with
    | planted fresh =>
      rw [find?, fresh, Option.bind_none, Option.map_none, Option.toList_none, List.append_nil] at grown
      exact ⟨by rw [grown, ← ih.conflicts], by rw [grown, ← ih.duplicates]⟩
    | inserted t tree vacant =>
      rw [find?, tree, Option.bind_some, vacant, Option.map_none, Option.toList_none,
        List.append_nil] at grown
      exact ⟨by rw [grown, ← ih.conflicts], by rw [grown, ← ih.duplicates]⟩
    | repeated occupant found same =>
      have repeats : Encounter.repeats ⟨occupant, rules.length, rule⟩ = true := same
      rw [found, Option.map_some, Option.toList_some] at grown
      constructor
      · rw [grown, List.filter_append, List.filter_cons_of_neg (by simp [repeats]), List.filter_nil,
          List.append_nil, ← ih.conflicts]
      · rw [grown, List.countP_append, List.countP_cons_of_pos repeats, List.countP_nil,
          ← ih.duplicates]
    | refused occupant found other =>
      have repeats : Encounter.repeats ⟨occupant, rules.length, rule⟩ = false := other
      rw [found, Option.map_some, Option.toList_some] at grown
      constructor
      · rw [grown, List.filter_append, List.filter_cons_of_pos (by simp [repeats]), List.filter_nil,
          List.map_append, ← ih.conflicts]
        rfl
      · rw [grown, List.countP_append, List.countP_cons_of_neg (by simp [repeats]), List.countP_nil,
          ← ih.duplicates]
        rfl

/-! ## The leaves -/

/-- The leaves of all trees. -/
def leaves (f : Forest) : List Leaf := f.trees.toList.flatMap fun tree => tree.2.leaves.map Prod.snd

theorem mem_leaves_iff : leaf ∈ (ofRules rules).leaves ↔ leaf.First rules := by
  rw [leaves, List.mem_flatMap]
  constructor
  · intro h
    obtain ⟨⟨mask, t⟩, mem, h⟩ := h
    obtain ⟨⟨pattern, leaf⟩, listed, rfl⟩ := List.mem_map.1 h
    have tree := Std.DTreeMap.mem_toList_iff_get?_eq_some.1 mem
    exact ((mem_leaves_ofRules_iff tree).1 listed).1
  · intro first
    obtain ⟨t, tree⟩ := exists_tree_iff.2 ⟨leaf.rule, first.mem, rfl⟩
    refine ⟨⟨_, t⟩, Std.DTreeMap.mem_toList_iff_get?_eq_some.2 tree, ?_⟩
    exact List.mem_map.2 ⟨_, (mem_leaves_ofRules_iff tree).2 ⟨first, rfl, rfl⟩, rfl⟩

/-- No leaf is listed twice: leaves of one tree differ in their encodings, those of two trees in
their masks. -/
theorem nodup_leaves (rules : List Rule) : (ofRules rules).leaves.Nodup := by
  rw [leaves, List.nodup_flatMap]
  constructor
  · rintro ⟨mask, t⟩ mem
    have tree := Std.DTreeMap.mem_toList_iff_get?_eq_some.1 mem
    rw [List.Nodup, List.pairwise_map]
    refine (pairwise_leaves_ofRules tree).imp_of_mem fun {x y} hx hy less eq => ?_
    obtain ⟨-, -, px⟩ := (mem_leaves_ofRules_iff tree).1 hx
    obtain ⟨-, -, py⟩ := (mem_leaves_ofRules_iff tree).1 hy
    rw [px, py, eq] at less
    exact BitVec.lt_irrefl _ less
  · refine (ofRules rules).pairwise_trees.imp_of_mem fun {s t} hs ht less => ?_
    intro leaf mem mem'
    obtain ⟨x, hx, rfl⟩ := List.mem_map.1 mem
    obtain ⟨y, hy, eq⟩ := List.mem_map.1 mem'
    have mask := ((mem_leaves_ofRules_iff (Std.DTreeMap.mem_toList_iff_get?_eq_some.1 hs)).1 hx).2.1
    have mask' := ((mem_leaves_ofRules_iff (Std.DTreeMap.mem_toList_iff_get?_eq_some.1 ht)).1 hy).2.1
    rw [← mask, ← mask', eq] at less
    exact BitVec.lt_irrefl _ less

/-- Every rule has a leaf or an encounter. -/
theorem length_leaves_add_length_encounters (rules : List Rule) :
    (ofRules rules).leaves.length + (encounters rules).length = rules.length := by
  have nodup : (leavesOf rules).Nodup := (pairwise_leavesOf rules).imp fun less eq => by
    rw [eq] at less
    exact Nat.lt_irrefl _ less
  have firsts : (ofRules rules).leaves.Perm
      ((leavesOf rules).filter fun leaf => (occupant? rules leaf).isNone) := by
    refine (List.perm_ext_iff_of_nodup (nodup_leaves rules) (nodup.filter _)).2 fun leaf => ?_
    rw [mem_leaves_iff, List.mem_filter, mem_leavesOf_iff, Option.isNone_iff_eq_none]
    constructor
    · intro first
      exact ⟨first.place, (occupant?_eq_none_iff first.place).2 first⟩
    · intro h
      exact (occupant?_eq_none_iff h.1).1 h.2
  have late : (encounters rules).length =
      (leavesOf rules).countP fun leaf => ¬(occupant? rules leaf).isNone = true := by
    rw [encounters, List.length_filterMap_eq_countP]
    exact List.countP_congr fun leaf _ => by cases occupant? rules leaf <;> simp
  have all : (leavesOf rules).length = rules.length := by simp [leavesOf]
  rw [firsts.length_eq, late, ← List.countP_eq_length_filter, ← all]
  exact (List.length_eq_countP_add_countP _).symm

/-- Every rule has a leaf, is a duplicate or makes a conflict. -/
theorem length_leaves_add_duplicates_add_length_conflicts (rules : List Rule) :
    (ofRules rules).leaves.length + (ofRules rules).duplicates + (ofRules rules).conflicts.length =
      rules.length := by
  have tallied := tallied_ofRules rules
  have parts := List.length_eq_countP_add_countP (l := encounters rules) (·.repeats)
  rw [tallied.duplicates, tallied.conflicts, List.length_map, ← List.countP_eq_length_filter,
    ← length_leaves_add_length_encounters rules, parts, Nat.add_assoc]
  simp

/-- A merge has one tree for each mask, and the tree has one leaf for each encoding under the mask,
in ascending order: the first rule of the list with it. Every other rule has one encounter, with the
leaf of its encoding. Taken in the order of the rules, the encounters with a spelling of the same
rule are counted, and the others are the conflicts. So no rule is lost and none is counted twice. -/
theorem census_ofRules (rules : List Rule) :
    (ofRules rules).trees.keys.Pairwise (· < ·) ∧
    (∀ mask, mask ∈ (ofRules rules).trees.keys ↔ ∃ rule ∈ rules, rule.mask = mask) ∧
    (∀ mask t, (ofRules rules).trees.get? mask = some t →
      (t.leaves.Pairwise fun x y => x.1 < y.1) ∧
      (∀ pattern, (∃ leaf, (pattern, leaf) ∈ t.leaves) ↔
        ∃ rule ∈ rules, rule.mask = mask ∧ rule.encoding = pattern) ∧
      ∀ pattern leaf, (pattern, leaf) ∈ t.leaves ↔
        leaf.First rules ∧ leaf.rule.mask = mask ∧ pattern = leaf.rule.encoding) ∧
    (∃ es : List Encounter, (∀ e, e ∈ es ↔ e.Occurs rules) ∧
      (es.Pairwise fun x y => x.late.index < y.late.index) ∧
      (∀ leaf : Leaf, rules[leaf.index]? = some leaf.rule →
        ((∃ e ∈ es, e.late = leaf) ↔ ¬leaf.First rules)) ∧
      (ofRules rules).duplicates = es.countP (·.repeats) ∧
      (ofRules rules).conflicts = (es.filter (!·.repeats)).map Encounter.conflict) ∧
    (∀ c ∈ (ofRules rules).conflicts, c.first.Rivals c.second ∧ c.pattern = c.second.pattern ∧
      Word.MaximalRuns c.second.mask c.ranges) ∧
    (ofRules rules).leaves.length + (ofRules rules).duplicates + (ofRules rules).conflicts.length =
      rules.length := by
  have tallied := tallied_ofRules rules
  refine ⟨?_, fun mask => ?_, fun mask t tree => ⟨pairwise_leaves_ofRules tree, fun pattern => ?_,
    fun _ _ => mem_leaves_ofRules_iff tree⟩, ⟨encounters rules, fun _ => mem_encounters_iff,
    pairwise_encounters rules, fun leaf place => ?_, tallied.duplicates, tallied.conflicts⟩,
    fun c mem => ?_, length_leaves_add_duplicates_add_length_conflicts rules⟩
  · exact Std.DTreeMap.ordered_keys.imp Word.compare_eq_lt_iff.1
  · rw [Std.DTreeMap.mem_keys, ← exists_tree_iff, Std.DTreeMap.mem_iff_isSome_get?,
      Option.isSome_iff_exists]
  · constructor
    · rintro ⟨leaf, listed⟩
      obtain ⟨first, mask, rfl⟩ := (mem_leaves_ofRules_iff tree).1 listed
      exact ⟨leaf.rule, first.mem, mask, rfl⟩
    · rintro ⟨rule, mem, mask, rfl⟩
      obtain ⟨leaf, first, rivals⟩ := exists_first mem
      exact ⟨leaf, (mem_leaves_ofRules_iff tree).2 ⟨first, rivals.1.trans mask, rivals.2.symm⟩⟩
  · rw [← occupant?_eq_none_iff place, Option.eq_none_iff_forall_ne_some, not_forall]
    simp only [not_not, ne_eq]
    constructor
    · rintro ⟨e, mem, rfl⟩
      obtain ⟨first, -, rivals, late⟩ := mem_encounters_iff.1 mem
      exact ⟨e.occupant, occupant?_eq_some_iff.2 ⟨first, rivals, late⟩⟩
    · rintro ⟨occupant, found⟩
      obtain ⟨first, rivals, late⟩ := occupant?_eq_some_iff.1 found
      exact ⟨⟨occupant, leaf⟩, mem_encounters_iff.2 ⟨first, place, rivals, late⟩, rfl⟩
  · rw [tallied.conflicts, List.mem_map] at mem
    obtain ⟨e, mem, rfl⟩ := mem
    have rivals := (mem_encounters_iff.1 (List.mem_of_mem_filter mem)).rivals
    exact ⟨rivals, rfl, Word.maximalRuns_runs _⟩

def stayRule : Rule := ⟨"stay", [], [⟨⟨3, 0⟩, 1⟩], 1⟩

def leaveRule : Rule := ⟨"leave", [], [⟨⟨3, 0⟩, 1⟩], 3⟩

/-- A rule, another spelling of it, a rule with the same encoding and one with another. -/
def crowdedRules : List Rule := [
  stayRule,
  ⟨"stay", [], [⟨⟨3, 2⟩, 0⟩, ⟨⟨1, 0⟩, 1⟩], 2⟩,
  leaveRule,
  ⟨"leave", [], [⟨⟨3, 0⟩, 2⟩], 4⟩]

theorem census_crowdedRules : ∃ t, (ofRules crowdedRules).trees.get? 0xF = some t ∧
    (0x1, ⟨0, stayRule⟩) ∈ t.leaves ∧ Encounter.Occurs crowdedRules ⟨⟨0, stayRule⟩, ⟨2, leaveRule⟩⟩ ∧
    (ofRules crowdedRules).duplicates = 1 ∧
    (ofRules crowdedRules).conflicts = [⟨stayRule, leaveRule⟩] := by
  obtain ⟨-, -, leaves, ⟨es, occurs, -, late, -, -⟩, -⟩ := census_ofRules crowdedRules
  have first : Leaf.First crowdedRules ⟨0, stayRule⟩ := ⟨rfl, fun _ _ _ _ => Nat.zero_le _⟩
  have mask : stayRule.mask = 0xF := by decide +kernel
  have encoding : 0x1 = stayRule.encoding := by decide +kernel
  have rivals : stayRule.Rivals leaveRule := by decide +kernel
  obtain ⟨t, tree⟩ := exists_tree_iff.2 ⟨stayRule, first.mem, mask⟩
  obtain ⟨⟨occupant, _⟩, mem, rfl⟩ := (late ⟨2, leaveRule⟩ rfl).2 fun h =>
    absurd (h.first 0 stayRule rfl rivals) (by decide)
  have meets := (occurs _).1 mem
  obtain rfl := meets.first.eq first (meets.rivals.trans rivals.symm)
  refine ⟨t, tree, ((leaves _ t tree).2.2 _ _).2 ⟨first, mask, encoding⟩, meets, ?_, ?_⟩
  · decide +kernel
  · decide +kernel

end Forest

end Opcodes
