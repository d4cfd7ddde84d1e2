import Opcodes.Proofs.Census
import Opcodes.Proofs.RuleOrder

/-!
# What a build sees of its rules

A build sees of a rule its operator, its operands, its line, its mask and its pattern, and nothing of
the constraints they come from. Lists of rules that agree on these at every place, `Rule.Restates`,
have the same encounters and the same trees. So both build one table, or both fail with an error that
says the same.
-/
set_option autoImplicit false

namespace Opcodes

theorem forall₂_zipIdx {α β : Type} {R : α → β → Prop} {as : List α} {bs : List β}
    (h : List.Forall₂ R as bs) (n : Nat) :
    List.Forall₂ (fun x y => x.2 = y.2 ∧ R x.1 y.1) (as.zipIdx n) (bs.zipIdx n) := by
  induction h generalizing n with
  | nil => exact .nil
  | cons head _ ih =>
    rw [List.zipIdx_cons, List.zipIdx_cons]
    exact .cons ⟨rfl, head⟩ (ih (n + 1))

/-- The rules have all in common that a build sees. -/
structure Rule.Restates (a b : Rule) : Prop where
  operator : a.operator = b.operator
  operands : a.operands = b.operands
  line : a.line = b.line
  mask : a.mask = b.mask
  pattern : a.pattern = b.pattern

namespace Rule.Restates

variable {a b c d : Rule}

theorem refl (a : Rule) : a.Restates a := ⟨rfl, rfl, rfl, rfl, rfl⟩

theorem encoding (h : a.Restates b) : a.encoding = b.encoding := by
  rw [Rule.encoding, Rule.encoding, h.mask, h.pattern]

theorem rivals (h : a.Restates b) : a.Rivals b := ⟨h.mask, h.encoding⟩

theorem rivals_iff (hab : a.Restates b) (hcd : c.Restates d) : a.Rivals c ↔ b.Rivals d := by
  rw [Rivals, Rivals, hab.mask, hab.encoding, hcd.mask, hcd.encoding]

theorem same_eq (hab : a.Restates b) (hcd : c.Restates d) : a.same c = b.same d := by
  simp only [same, sortedOperands, hab.operator, hab.mask, hab.pattern, hab.operands, hcd.operator,
    hcd.mask, hcd.pattern, hcd.operands]

end Rule.Restates

/-- The same place and rules that a build cannot tell apart. -/
structure Leaf.Restates (a b : Leaf) : Prop where
  index : a.index = b.index
  rule : a.rule.Restates b.rule

structure Encounter.Restates (e f : Encounter) : Prop where
  occupant : e.occupant.Restates f.occupant
  late : e.late.Restates f.late

/-- The same two rules over the same bits. -/
structure Conflict.Restates (c d : Conflict) : Prop where
  first : c.first.Restates d.first
  second : c.second.Restates d.second
  ranges : c.ranges = d.ranges
  pattern : c.pattern = d.pattern

theorem Conflict.Restates.message {c d : Conflict} (h : c.Restates d) : c.message = d.message := by
  simp only [Conflict.message, h.first.operator, h.first.line, h.second.operator, h.second.line,
    h.ranges, h.pattern]

theorem Encounter.Restates.conflict {e f : Encounter} (h : e.Restates f) :
    e.conflict.Restates f.conflict :=
  ⟨h.occupant.rule, h.late.rule, congrArg Word.runs h.late.rule.mask, h.late.rule.pattern⟩

/-- The same failure of rules that a build cannot tell apart. -/
inductive BuildError.Restates : BuildError → BuildError → Prop
  | unknownOperands {a b : Rule} : a.Restates b →
      Restates (.unknownOperands a) (.unknownOperands b)
  | invalidLayout {a b : Rule} {field : Field} {fault : LayoutFault} : a.Restates b →
      Restates (.invalidLayout a field fault) (.invalidLayout b field fault)
  | conflicts {cs ds : List Conflict} : List.Forall₂ Conflict.Restates cs ds →
      Restates (.conflicts cs) (.conflicts ds)

theorem BuildError.Restates.message {e e' : BuildError} (h : e.Restates e') :
    e.message = e'.message := by
  unfold BuildError.message
  cases h with
  | unknownOperands rules => simp only [rules.operator, rules.operands]
  | invalidLayout rules => simp only [rules.operator, rules.line]
  | conflicts each =>
    have messages := map_eq_map_of_forall₂ each fun _ _ related => related.message
    simp only [messages, each.length_eq]

namespace Forest

variable {rules rules' : List Rule} {a b : Leaf}

section Related

variable (related : List.Forall₂ Rule.Restates rules rules')

include related

theorem leavesOf_restates : List.Forall₂ Leaf.Restates (leavesOf rules) (leavesOf rules') := by
  rw [leavesOf, leavesOf, List.forall₂_map_left_iff, List.forall₂_map_right_iff]
  exact (forall₂_zipIdx related 0).imp fun _ _ h => ⟨h.1, h.2⟩

/-! ## The same conflicts -/

theorem occupant?_restates (h : a.Restates b) :
    Option.Rel Leaf.Restates (occupant? rules a) (occupant? rules' b) := by
  rw [occupant?, occupant?, h.index]
  refine rel_find? (leavesOf_restates (List.forall₂_take b.index related)) fun x y pair => ?_
  rw [decide_eq_decide]
  exact pair.rule.rivals_iff h.rule

theorem encounters_restate :
    List.Forall₂ Encounter.Restates (encounters rules) (encounters rules') :=
  List.rel_filterMap (fun _ _ late => rel_option_map (occupant?_restates related late)
    fun _ _ occupant => ⟨occupant, late⟩) (leavesOf_restates related)

theorem conflicts_restate :
    List.Forall₂ Conflict.Restates (ofRules rules).conflicts (ofRules rules').conflicts := by
  rw [(tallied_ofRules rules).conflicts, (tallied_ofRules rules').conflicts]
  refine List.rel_map (fun _ _ h => h.conflict) (List.rel_filter (fun e f h => ?_)
    (encounters_restate related))
  have repeats : e.repeats = f.repeats := h.occupant.rule.same_eq h.late.rule
  simp only [repeats]

/-! ## The same trees -/

theorem first_of_restates (first : a.First rules) (h : a.Restates b) (mem : b ∈ leavesOf rules') :
    b.First rules' := by
  refine ⟨mem_leavesOf_iff.1 mem, fun j rule place rivals => ?_⟩
  obtain ⟨⟨_, rule'⟩, mem', rfl, twin⟩ := exists_of_mem_right (leavesOf_restates related)
    (mem_leavesOf_iff.2 place : (⟨j, rule⟩ : Leaf) ∈ leavesOf rules')
  rw [← h.index]
  exact first.first _ rule' (mem_leavesOf_iff.1 mem') ((twin.rivals_iff h.rule).2 rivals)

/-- The rules that come first with an encoding stand at the same place. -/
theorem restates_of_first (first : a.First rules) (first' : b.First rules')
    (rivals : a.rule.Rivals b.rule) : a.Restates b := by
  obtain ⟨c, mem, h⟩ :=
    exists_of_mem_left (leavesOf_restates related) (mem_leavesOf_iff.2 first.place)
  have same := (first_of_restates related first h mem).eq first' (h.rule.rivals.symm.trans rivals)
  rwa [← same]

theorem trees_restate : List.Forall₂ (fun x y => x.1 = y.1 ∧
    List.Forall₂ (fun u v => u.1 = v.1 ∧ u.2.Restates v.2) x.2.leaves y.2.leaves)
    (ofRules rules).trees.toList (ofRules rules').trees.toList := by
  refine trees_forall₂ (P := fun _ u v => u.1 = v.1 ∧ u.2.Restates v.2)
    (fun mask pattern => ?_) fun a b first first' rivals =>
      ⟨rivals.2, restates_of_first related first first' rivals⟩
  constructor
  · rintro ⟨r, mem, mask, encoding⟩
    obtain ⟨s, mem', h⟩ := exists_of_mem_left related mem
    exact ⟨s, mem', h.mask.symm.trans mask, h.encoding.symm.trans encoding⟩
  · rintro ⟨s, mem, mask, encoding⟩
    obtain ⟨r, mem', h⟩ := exists_of_mem_right related mem
    exact ⟨r, mem', h.mask.trans mask, h.encoding.trans encoding⟩

end Related

end Forest

theorem Registry.soundLayout_restates (registry : Registry) {a b : Rule} (h : a.Restates b) :
    Alike BuildError.Restates Eq (registry.soundLayout a) (registry.soundLayout b) :=
  registry.soundLayout_alike_of (congrArg registry.find? h.operands) (.unknownOperands h)
    fun _ _ => .invalidLayout h

theorem Group.ofTree_restates (registry : Registry) {mask mask' : Word} {t : MaskTree mask}
    {u : MaskTree mask'} (eq : mask = mask')
    (leaves : List.Forall₂ (fun x y => x.1 = y.1 ∧ x.2.Restates y.2) t.leaves u.leaves) :
    Alike BuildError.Restates Eq (ofTree registry t) (ofTree registry u) := by
  subst eq
  refine (Alike.mapM (R := Eq) leaves ?_).bind fun es es' entries => .ok ?_
  · rintro ⟨p, leaf⟩ ⟨q, leaf'⟩ ⟨rfl : p = q, -, h⟩
    apply (registry.soundLayout_restates h).bind
    rintro layout _ rfl
    refine .ok ?_
    rw [Entry.ofRule, Entry.ofRule, h.operator, h.operands, h.mask, h.line]
  · rw [List.forall₂_eq_eq_eq.le _ _ entries]

/-- Rules that agree in what a build sees build one table, or fail with errors that say the same. -/
theorem Table.ofRules_restates (registry : Registry) {rules rules' : List Rule}
    (related : List.Forall₂ Rule.Restates rules rules') :
    Alike BuildError.Restates Eq (ofRules registry rules) (ofRules registry rules') := by
  have conflicts := Forest.conflicts_restate related
  have clear_iff : (Forest.ofRules rules).conflicts = [] ↔
      (Forest.ofRules rules').conflicts = [] := by
    rw [← List.length_eq_zero_iff, conflicts.length_eq, List.length_eq_zero_iff]
  refine ofRules_alike_of (Q := Eq) registry clear_iff (.conflicts conflicts) (fun _ => ?_) ?_
  · refine (Forest.trees_restate related).imp ?_
    rintro ⟨mask, t⟩ ⟨mask', u⟩ ⟨eq, leaves⟩
    exact Group.ofTree_restates registry eq leaves
  · intro gs hs groups
    rw [List.forall₂_eq_eq_eq.le _ _ groups]

end Opcodes
