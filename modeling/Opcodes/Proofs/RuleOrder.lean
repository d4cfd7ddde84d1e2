import Opcodes.Proofs.Build
import Opcodes.Table.Ambiguity

/-!
# The order of the rules

Two orders of one list of rules build alike. Their merges have trees with the same leaves, up to the
spelling of the rules; so the builds fail on the same leaf or make the same groups, and the tables
list the same ambiguities and decode every word to the same. `Alike` relates the two builds step by
step.
-/
set_option autoImplicit false

namespace Opcodes

section Lists

variable {α β : Type} {as : List α} {bs : List β}

/-- Lists that ascend by a word and have the same words agree word by word. -/
theorem forall₂_of_ascending (f : α → Word) (g : β → Word) (has : as.Pairwise fun a b => f a < f b)
    (hbs : bs.Pairwise fun a b => g a < g b)
    (words : ∀ w, (∃ a ∈ as, f a = w) ↔ ∃ b ∈ bs, g b = w) :
    List.Forall₂ (fun a b => a ∈ as ∧ b ∈ bs ∧ f a = g b) as bs := by
  have ha := List.pairwise_map.2 has
  have hb := List.pairwise_map.2 hbs
  have nodup : ∀ {ws : List Word}, ws.Pairwise (· < ·) → ws.Nodup := fun ascending =>
    ascending.imp fun less => BitVec.ne_of_lt less
  have perm : (as.map f).Perm (bs.map g) :=
    (List.perm_ext_iff_of_nodup (nodup ha) (nodup hb)).2 fun w => by
      rw [List.mem_map, List.mem_map, words]
  have eq := perm.eq_of_pairwise (fun a b _ _ h h' => absurd h' (BitVec.lt_asymm h)) ha hb
  rw [← List.forall₂_eq_eq_eq, List.forall₂_map_left_iff, List.forall₂_map_right_iff] at eq
  refine List.forall₂_iff_zip.2 ⟨eq.length_eq, fun {a b} mem => ?_⟩
  exact ⟨(List.of_mem_zip mem).1, (List.of_mem_zip mem).2, List.forall₂_zip eq mem⟩

/-- Where at most one element has a property, two with the property are the same. -/
theorem eq_of_countP_le_one {p : α → Bool} {a b : α} (once : as.countP p ≤ 1) (ha : a ∈ as)
    (hb : b ∈ as) (pa : p a = true) (pb : p b = true) : a = b := by
  rw [List.countP_eq_length_filter] at once
  have ha := List.mem_filter.2 ⟨ha, pa⟩
  have hb := List.mem_filter.2 ⟨hb, pb⟩
  obtain ⟨x, eq⟩ := List.length_eq_one_iff.1 (Nat.le_antisymm once (List.length_pos_of_mem ha))
  rw [eq] at ha hb
  rw [List.mem_singleton.1 ha, List.mem_singleton.1 hb]

theorem rel_find? {R : α → β → Prop} {p : α → Bool} {q : β → Bool} (h : List.Forall₂ R as bs)
    (agree : ∀ a b, R a b → p a = q b) : Option.Rel R (as.find? p) (bs.find? q) := by
  induction h with
  | nil => exact .none
  | cons head _ ih =>
    rw [List.find?_cons, List.find?_cons, agree _ _ head]
    split
    · exact .some head
    · exact ih

theorem rel_findSome? {γ δ : Type} {R : α → β → Prop} {S : γ → δ → Prop} {f : α → Option γ}
    {g : β → Option δ} (h : List.Forall₂ R as bs)
    (each : ∀ a ∈ as, ∀ b ∈ bs, R a b → Option.Rel S (f a) (g b)) :
    Option.Rel S (as.findSome? f) (bs.findSome? g) := by
  induction h with
  | nil => exact .none
  | cons head _ ih =>
    rw [List.findSome?_cons, List.findSome?_cons]
    have first := each _ List.mem_cons_self _ List.mem_cons_self head
    revert first
    generalize f _ = x
    generalize g _ = y
    intro first
    rcases first with found | -
    · exact .some found
    · exact ih fun a ha b hb => each a (List.mem_cons_of_mem _ ha) b (List.mem_cons_of_mem _ hb)

theorem rel_option_map {γ δ : Type} {R : α → β → Prop} {S : γ → δ → Prop} {x : Option α}
    {y : Option β} {f : α → γ} {g : β → δ} (h : Option.Rel R x y)
    (each : ∀ a b, R a b → S (f a) (g b)) : Option.Rel S (x.map f) (y.map g) := by
  cases h with
  | some related => exact .some (each _ _ related)
  | none => exact .none

end Lists

/-- Both computations give related results, or both fail for related reasons. -/
inductive Alike {ε α β : Type} (E : ε → ε → Prop) (R : α → β → Prop) :
    Except ε α → Except ε β → Prop
  | ok {a b} : R a b → Alike E R (.ok a) (.ok b)
  | error {e e'} : E e e' → Alike E R (.error e) (.error e')

namespace Alike

variable {ε α β γ δ : Type} {E : ε → ε → Prop} {R : α → β → Prop} {S : γ → δ → Prop}
  {P : γ → δ → Prop} {x : Except ε α} {y : Except ε β}

theorem imp {E' : ε → ε → Prop} {R' : α → β → Prop} (h : Alike E R x y)
    (error : ∀ e e', E e e' → E' e e') (ok : ∀ a b, R a b → R' a b) : Alike E' R' x y := by
  cases h with
  | ok related => exact .ok (ok _ _ related)
  | error related => exact .error (error _ _ related)

theorem bind {f : α → Except ε γ} {g : β → Except ε δ} (h : Alike E R x y)
    (next : ∀ a b, R a b → Alike E S (f a) (g b)) : Alike E S (x >>= f) (y >>= g) := by
  cases h with
  | ok related => exact next _ _ related
  | error related => exact .error related

/-- Two walks through related lists stop at related elements, if they stop. -/
theorem mapM {as : List γ} {bs : List δ} {f : γ → Except ε α} {g : δ → Except ε β}
    (h : List.Forall₂ P as bs) (each : ∀ a b, P a b → Alike E R (f a) (g b)) :
    Alike E (List.Forall₂ R) (as.mapM f) (bs.mapM g) := by
  induction h with
  | nil => exact .ok .nil
  | cons head _ ih =>
    rw [List.mapM_cons, List.mapM_cons]
    exact (each _ _ head).bind fun _ _ first => ih.bind fun _ _ rest => .ok (.cons first rest)

end Alike

/-- Failures of one kind, for the same rule up to its spelling where one leaf is at fault. -/
inductive BuildError.SameCause : BuildError → BuildError → Prop
  | unknownOperands {a b : Rule} : a.same b = true →
      SameCause (.unknownOperands a) (.unknownOperands b)
  | invalidLayout {a b : Rule} {field : Field} {fault : LayoutFault} : a.same b = true →
      SameCause (.invalidLayout a field fault) (.invalidLayout b field fault)
  | conflicts {cs ds : List Conflict} : SameCause (.conflicts cs) (.conflicts ds)

/-- One layout passes or fails for both rules. -/
theorem Layout.check_alike_of (l : Layout) {E : BuildError → BuildError → Prop} {a b : Rule}
    (invalid : ∀ field fault, E (.invalidLayout a field fault) (.invalidLayout b field fault)) :
    Alike E Eq (l.check a) (l.check b) := by
  rw [Layout.check, Layout.check]
  cases l.fault? with
  | none => exact .ok rfl
  | some fault => exact .error (invalid _ _)

namespace Registry

/-- Rules for which the registry has one answer resolve alike. -/
theorem resolve_alike_of (registry : Registry) {E : BuildError → BuildError → Prop} {a b : Rule}
    (known : registry.find? a.operands = registry.find? b.operands)
    (unknown : E (.unknownOperands a) (.unknownOperands b)) :
    Alike E Eq (registry.resolve a) (registry.resolve b) := by
  rw [resolve, resolve, ← known]
  cases registry.find? a.operands with
  | none => exact .error unknown
  | some layout => exact .ok rfl

/-- Rules for which the registry has one answer have one layout, or fail alike. -/
theorem soundLayout_alike_of (registry : Registry) {E : BuildError → BuildError → Prop} {a b : Rule}
    (known : registry.find? a.operands = registry.find? b.operands)
    (unknown : E (.unknownOperands a) (.unknownOperands b))
    (invalid : ∀ field fault, E (.invalidLayout a field fault) (.invalidLayout b field fault)) :
    Alike E Eq (registry.soundLayout a) (registry.soundLayout b) := by
  refine (registry.resolve_alike_of known unknown).bind ?_
  rintro layout _ rfl
  exact (layout.check_alike_of invalid).bind fun _ _ _ => .ok rfl

/-- Spellings of one rule have the same layout, or lack one for the same reason. -/
theorem soundLayout_alike (registry : Registry) {a b : Rule} (same : a.same b = true) :
    Alike BuildError.SameCause Eq (registry.soundLayout a) (registry.soundLayout b) :=
  registry.soundLayout_alike_of (registry.find?_perm (Rule.same_iff.1 same).2.2.2)
    (.unknownOperands same) fun _ _ => .invalidLayout same

end Registry

/-- How often the list has a rule that fixes the bits of the mask to the pattern. -/
def Rule.occurrences (rules : List Rule) (mask pattern : Word) : Nat :=
  rules.countP fun r => r.mask == mask && r.encoding == pattern

/-- Entries of one rule, whose line and order of operands may differ. -/
structure Entry.Respells (a b : Entry) : Prop where
  pattern : a.pattern = b.pattern
  operator : a.operator = b.operator
  operands : a.operands.Perm b.operands
  layout : a.layout = b.layout
  length : a.length = b.length

/-- Groups that agree entry by entry, up to the spelling of the rules that are repeated. -/
structure Group.Respells (rules : List Rule) (g h : Group) : Prop where
  mask : g.mask = h.mask
  entries : List.Forall₂ (fun a b => a.Respells b ∧
    (Rule.occurrences rules g.mask a.pattern ≤ 1 → a = b)) g.entries h.entries

/-- Ambiguities of the same rules with the same word. -/
structure Ambiguity.Respells (a b : Ambiguity) : Prop where
  winner : a.winner.Respells b.winner
  shadowed : a.shadowed.Respells b.shadowed
  word : a.word = b.word

/-- Leaves for one pattern that hold spellings of one rule, or the same rule if it is not repeated. -/
structure Leaf.Respells (rules : List Rule) (mask : Word) (x y : Word × Leaf) : Prop where
  pattern : x.1 = y.1
  same : x.2.rule.same y.2.rule = true
  once : Rule.occurrences rules mask x.1 ≤ 1 → x.2.rule = y.2.rule

namespace Forest

variable {rules rules' : List Rule} {mask pattern : Word} {t u : MaskTree mask}

/-- A tree has a leaf for each encoding of a rule with its mask. -/
theorem exists_leaf_iff (planted : (ofRules rules).trees.get? mask = some t) :
    (∃ x ∈ t.leaves, x.1 = pattern) ↔ ∃ r ∈ rules, r.mask = mask ∧ r.encoding = pattern := by
  constructor
  · intro h
    obtain ⟨⟨p, leaf⟩, listed, rfl⟩ := h
    obtain ⟨first, mask, encoding⟩ := (mem_leaves_ofRules_iff planted).1 listed
    exact ⟨leaf.rule, first.mem, mask, encoding.symm⟩
  · intro h
    obtain ⟨r, mem, mask, rfl⟩ := h
    obtain ⟨leaf, first, rivals⟩ := exists_first mem
    exact ⟨_, (mem_leaves_ofRules_iff planted).2 ⟨first, rivals.1.trans mask, rfl⟩, rivals.2⟩

section Related

variable {P : Word → Word × Leaf → Word × Leaf → Prop}
  (claimed : ∀ mask pattern, (∃ r ∈ rules, r.mask = mask ∧ r.encoding = pattern) ↔
    ∃ r ∈ rules', r.mask = mask ∧ r.encoding = pattern)
  (related : ∀ a b : Leaf, a.First rules → b.First rules' → a.rule.Rivals b.rule →
    P a.rule.mask (a.rule.encoding, a) (b.rule.encoding, b))

include claimed related

theorem leaves_forall₂ (ht : (ofRules rules).trees.get? mask = some t)
    (hu : (ofRules rules').trees.get? mask = some u) :
    List.Forall₂ (P mask) t.leaves u.leaves := by
  have patterns : ∀ p, (∃ x ∈ t.leaves, x.1 = p) ↔ ∃ y ∈ u.leaves, y.1 = p := fun p => by
    rw [exists_leaf_iff ht, exists_leaf_iff hu, claimed]
  refine (forall₂_of_ascending Prod.fst Prod.fst
    (pairwise_leaves_ofRules ht) (pairwise_leaves_ofRules hu) patterns).imp ?_
  rintro ⟨p, leaf⟩ ⟨q, leaf'⟩ ⟨listed, listed', eq⟩
  obtain ⟨first, rfl, rfl⟩ := (mem_leaves_ofRules_iff ht).1 listed
  obtain ⟨first', mask', rfl⟩ := (mem_leaves_ofRules_iff hu).1 listed'
  exact related leaf leaf' first first' ⟨mask'.symm, eq⟩

/-- Merges of rules with the same encodings have the same trees, and their leaves are related as the
rules are that come first with an encoding in the one list and in the other. -/
theorem trees_forall₂ : List.Forall₂
    (fun x y => x.1 = y.1 ∧ List.Forall₂ (P x.1) x.2.leaves y.2.leaves)
    (ofRules rules).trees.toList (ofRules rules').trees.toList := by
  have tree_iff : ∀ (rules : List Rule) mask, (∃ x ∈ (ofRules rules).trees.toList, x.1 = mask) ↔
      ∃ r ∈ rules, r.mask = mask := by
    intro rules mask
    rw [← exists_tree_iff]
    constructor
    · intro h
      obtain ⟨⟨mask, t⟩, listed, rfl⟩ := h
      exact ⟨t, Std.DTreeMap.mem_toList_iff_get?_eq_some.1 listed⟩
    · intro h
      obtain ⟨t, planted⟩ := h
      exact ⟨⟨mask, t⟩, Std.DTreeMap.mem_toList_iff_get?_eq_some.2 planted, rfl⟩
  have masks : ∀ mask, (∃ r ∈ rules, r.mask = mask) ↔ ∃ r ∈ rules', r.mask = mask := by
    intro mask
    constructor
    · rintro ⟨r, mem, eq⟩
      obtain ⟨s, mem', eq', -⟩ := (claimed mask _).1 ⟨r, mem, eq, rfl⟩
      exact ⟨s, mem', eq'⟩
    · rintro ⟨r, mem, eq⟩
      obtain ⟨s, mem', eq', -⟩ := (claimed mask _).2 ⟨r, mem, eq, rfl⟩
      exact ⟨s, mem', eq'⟩
  refine (forall₂_of_ascending Sigma.fst Sigma.fst (pairwise_trees _) (pairwise_trees _)
    fun mask => by rw [tree_iff, tree_iff, masks]).imp ?_
  rintro ⟨mask, t⟩ ⟨mask', u⟩ ⟨ht, hu, rfl : mask = mask'⟩
  exact ⟨rfl, leaves_forall₂ claimed related (Std.DTreeMap.mem_toList_iff_get?_eq_some.1 ht)
    (Std.DTreeMap.mem_toList_iff_get?_eq_some.1 hu)⟩

end Related

/-- The merges of two orders of one list have the same trees, up to the spelling of the rules. -/
theorem trees_respell (perm : rules.Perm rules')
    (clear : ∀ a ∈ rules, ∀ b ∈ rules, a.Rivals b → a.same b = true) :
    List.Forall₂ (fun x y => x.1 = y.1 ∧
      List.Forall₂ (Leaf.Respells rules x.1) x.2.leaves y.2.leaves)
      (ofRules rules).trees.toList (ofRules rules').trees.toList := by
  refine trees_forall₂ (fun mask pattern => by simp only [perm.mem_iff]) ?_
  intro a b first first' rivals
  have mem' := perm.mem_iff.2 first'.mem
  refine ⟨rivals.2, clear _ first.mem _ mem' rivals, fun once => ?_⟩
  exact eq_of_countP_le_one once first.mem mem' (by simp) (by simp [rivals.1, rivals.2])

end Forest

namespace Group

variable {rules : List Rule} {mask mask' w : Word} {t : MaskTree mask} {u : MaskTree mask'}
  {g h : Group} {gs hs : List Group}

theorem ofTree_alike (registry : Registry) (eq : mask = mask')
    (leaves : List.Forall₂ (Leaf.Respells rules mask) t.leaves u.leaves) :
    Alike BuildError.SameCause (Respells rules) (ofTree registry t) (ofTree registry u) := by
  subst eq
  refine (Alike.mapM (R := fun a b : Entry => a.Respells b ∧
    (Rule.occurrences rules mask a.pattern ≤ 1 → a = b)) leaves ?_).bind
    fun es es' entries => .ok ⟨rfl, entries⟩
  rintro ⟨p, leaf⟩ ⟨q, leaf'⟩ ⟨rfl : p = q, same, once⟩
  apply (registry.soundLayout_alike same).bind
  rintro layout _ rfl
  obtain ⟨operator, mask, -, operands⟩ := Rule.same_iff.1 same
  refine .ok ⟨⟨rfl, operator, operands, rfl, ?_⟩, fun alone => ?_⟩
  · rw [Entry.ofRule, Entry.ofRule, mask]
  · have eq : leaf.rule = leaf'.rule := once alone
    rw [eq]

theorem precedes_congr {g' h' : Group} (hg : g.mask = g'.mask) (hh : h.mask = h'.mask) :
    g.precedes h = g'.precedes h' := by
  unfold precedes specificity
  rw [hg, hh]

theorem insertByPriority_respells (hg : g.Respells rules h)
    (hgs : List.Forall₂ (Respells rules) gs hs) :
    List.Forall₂ (Respells rules) (insertByPriority g gs) (insertByPriority h hs) := by
  induction hgs with
  | nil => exact .cons hg .nil
  | cons head tail ih =>
    rw [insertByPriority, insertByPriority, precedes_congr hg.mask head.mask]
    split
    · exact .cons hg (.cons head tail)
    · exact .cons head ih

theorem sortByPriority_respells (hgs : List.Forall₂ (Respells rules) gs hs) :
    List.Forall₂ (Respells rules) (sortByPriority gs) (sortByPriority hs) := by
  induction hgs with
  | nil => exact .nil
  | cons head _ ih => exact insertByPriority_respells head ih

theorem find?_respells (hg : g.Respells rules h) (ordered : g.Ordered) (ordered' : h.Ordered)
    (w : Word) : Option.Rel Entry.Respells (g.find? w) (h.find? w) := by
  rw [ordered.find?_eq, ordered'.find?_eq, hg.mask]
  refine rel_find? (hg.entries.imp fun _ _ related => related.1) fun a b related => ?_
  rw [related.pattern]

theorem ambiguities_respells {g' h' : Group} (hg : g.Respells rules g')
    (hh : h.Respells rules h') :
    List.Forall₂ Ambiguity.Respells (g.ambiguities h) (g'.ambiguities h') := by
  unfold ambiguities unrelated
  rw [hg.mask, hh.mask]
  split
  · refine List.rel_flatMap hg.entries fun a a' ha => List.rel_filterMap (fun b b' hb => ?_) hh.entries
    rw [ha.1.pattern, hb.1.pattern]
    split
    · exact .some ⟨ha.1, hb.1, rfl⟩
    · exact .none
  · exact .nil

end Group

namespace Table

variable {rules : List Rule} {t u : Table} {gs hs : List Group}

theorem ambiguitiesOf_respells (h : List.Forall₂ (Group.Respells rules) gs hs) :
    List.Forall₂ Ambiguity.Respells (ambiguitiesOf gs) (ambiguitiesOf hs) := by
  induction h with
  | nil => exact .nil
  | cons head tail ih =>
    refine List.rel_append (List.rel_flatMap tail fun _ _ later => ?_) ih
    exact Group.ambiguities_respells head later

/-- Tables whose groups agree up to the spelling of the rules decode alike. -/
theorem decode_eq_of_respells (ht : ∀ g ∈ t.groups, g.Ordered) (hu : ∀ g ∈ u.groups, g.Ordered)
    (h : List.Forall₂ (Group.Respells rules) t.groups u.groups) (w : Word) :
    t.decode w = u.decode w := by
  have found : Option.Rel (fun x y => x.2.Respells y.2) (t.find? w) (u.find? w) :=
    rel_findSome? h fun g hg g' hg' related =>
      rel_option_map (Group.find?_respells related (ht g hg) (hu g' hg') w) fun _ _ entry => entry
  unfold decode
  generalize t.find? w = x at found
  generalize u.find? w = y at found
  cases found with
  | none => rfl
  | some entry =>
    simp only [Entry.instruction, entry.operator, entry.layout, entry.length]

/-- Two builds are alike if both have conflicts or neither, and the groups of their trees are. -/
theorem ofRules_alike_of (registry : Registry) {rules rules' : List Rule}
    {E : BuildError → BuildError → Prop} {Q : Group → Group → Prop} {R : Table → Table → Prop}
    (clear_iff : (Forest.ofRules rules).conflicts = [] ↔ (Forest.ofRules rules').conflicts = [])
    (conflicts : E (.conflicts (Forest.ofRules rules).conflicts)
      (.conflicts (Forest.ofRules rules').conflicts))
    (trees : (Forest.ofRules rules).conflicts = [] → List.Forall₂
      (fun x y => Alike E Q (Group.ofTree registry x.2) (Group.ofTree registry y.2))
      (Forest.ofRules rules).trees.toList (Forest.ofRules rules').trees.toList)
    (sorted : ∀ gs hs, List.Forall₂ Q gs hs →
      R ⟨Group.sortByPriority gs⟩ ⟨Group.sortByPriority hs⟩) :
    Alike E R (ofRules registry rules) (ofRules registry rules') := by
  by_cases clear : (Forest.ofRules rules).conflicts = []
  · simp only [ofRules, clear, clear_iff.1 clear, ne_eq, not_true_eq_false, if_false]
    exact (Alike.mapM (trees clear) fun _ _ tree => tree).bind fun gs hs groups =>
      .ok (sorted gs hs groups)
  · have clear' := mt clear_iff.2 clear
    simp only [ofRules, clear, clear', ne_eq, not_false_eq_true, if_true]
    exact .error conflicts

/-- Two orders of one list of rules build alike. -/
theorem ofRules_alike (registry : Registry) {rules rules' : List Rule} (perm : rules.Perm rules') :
    Alike BuildError.SameCause
      (fun t u => List.Forall₂ (Group.Respells rules) t.groups u.groups)
      (ofRules registry rules) (ofRules registry rules') := by
  have clear_iff : (Forest.ofRules rules).conflicts = [] ↔
      (Forest.ofRules rules').conflicts = [] := by
    simp only [Forest.conflicts_ofRules_eq_nil_iff, perm.mem_iff]
  refine ofRules_alike_of registry clear_iff .conflicts (fun clear => ?_) fun _ _ groups =>
    Group.sortByPriority_respells groups
  refine (Forest.trees_respell perm ((Forest.conflicts_ofRules_eq_nil_iff rules).1 clear)).imp ?_
  rintro ⟨mask, t⟩ ⟨mask', u⟩ ⟨eq, leaves⟩
  exact Group.ofTree_alike registry eq leaves

/-- The order of the rules does not count. Two orders of one list both build or both fail, and fail
for one cause; the tables have the same groups and the same ambiguities, up to the spelling of the
rules that are repeated, and decode every word to the same. -/
theorem ofRules_perm (registry : Registry) {rules rules' : List Rule} (perm : rules.Perm rules') :
    ((∃ t, ofRules registry rules = .ok t) ↔ ∃ u, ofRules registry rules' = .ok u) ∧
    (∀ e e', ofRules registry rules = .error e → ofRules registry rules' = .error e' →
      e.SameCause e') ∧
    ∀ t u, ofRules registry rules = .ok t → ofRules registry rules' = .ok u →
      List.Forall₂ (Group.Respells rules) t.groups u.groups ∧
      List.Forall₂ Ambiguity.Respells t.ambiguities u.ambiguities ∧
      ∀ w, t.decode w = u.decode w := by
  have alike := ofRules_alike registry perm
  have ordered : ∀ (rules : List Rule) (t : Table), ofRules registry rules = .ok t →
      ∀ g ∈ t.groups, g.Ordered := fun _ _ ok => (built_of_ofRules ok).ordered.groups
  have ht := ordered rules
  have hu := ordered rules'
  generalize ofRules registry rules = x at alike ht
  generalize ofRules registry rules' = y at alike hu
  cases alike with
  | ok groups =>
    refine ⟨⟨fun _ => ⟨_, rfl⟩, fun _ => ⟨_, rfl⟩⟩, ?_, ?_⟩
    · rintro _ _ ⟨⟩
    · rintro t u ⟨⟩ ⟨⟩
      exact ⟨groups, ambiguitiesOf_respells groups,
        decode_eq_of_respells (ht _ rfl) (hu _ rfl) groups⟩
  | error cause =>
    refine ⟨⟨?_, ?_⟩, ?_, ?_⟩
    · intro h
      obtain ⟨_, ⟨⟩⟩ := h
    · intro h
      obtain ⟨_, ⟨⟩⟩ := h
    · rintro _ _ ⟨⟩ ⟨⟩
      exact cause
    · rintro _ _ ⟨⟩

theorem decode_nopRules_reverse : nopRules.Perm nopRules.reverse ∧
    ∃ t u, ofRules .riscv nopRules = .ok t ∧ ofRules .riscv nopRules.reverse = .ok u ∧ t ≠ u ∧
      ∀ w, t.decode w = u.decode w := by
  have perm := (List.reverse_perm nopRules).symm
  obtain ⟨builds, -, agree⟩ := ofRules_perm .riscv perm
  obtain ⟨t, ht⟩ := exists_ofRules_nopRules
  obtain ⟨u, hu⟩ := builds.1 ⟨t, ht⟩
  have differ : ofRules .riscv nopRules ≠ ofRules .riscv nopRules.reverse := by decide +kernel
  refine ⟨perm, t, u, ht, hu, ?_, (agree t u ht hu).2.2⟩
  rintro rfl
  exact differ (ht.trans hu.symm)

end Table

end Opcodes
