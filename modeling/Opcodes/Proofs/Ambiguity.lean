import Opcodes.Proofs.Build
import Opcodes.Table.Ambiguity

/-!
# Ambiguities

Patterns under masks have a word in common just when they agree on the bits that both masks fix, and
then their union is such a word. So `Table.ambiguities` has one record for each `Table.Clash`, and a
table without a record tries comparable masks only: its answer does not depend on the order of the
groups, as long as a mask comes before those that it covers.
-/
set_option autoImplicit false

namespace Opcodes

namespace Word

variable {p q m n w : Word}

theorem xor_and_eq_zero_iff : (p ^^^ q) &&& (m &&& n) = 0 ↔
    ∀ i, m.getLsbD i = true → n.getLsbD i = true → p.getLsbD i = q.getLsbD i := by
  have zero : (0 : Word) = 0 &&& (m &&& n) := BitVec.zero_and.symm
  rw [zero, and_eq_and_iff]
  simp

theorem or_and_eq_left (hp : covers m p = true) (hq : covers n q = true)
    (agree : (p ^^^ q) &&& (m &&& n) = 0) : (p ||| q) &&& m = p := by
  apply BitVec.eq_of_getLsbD_eq
  intro i _
  have agree := xor_and_eq_zero_iff.1 agree i
  have hp := covers_iff.1 hp i
  have hq := covers_iff.1 hq i
  rw [BitVec.getLsbD_and, BitVec.getLsbD_or]
  grind

theorem or_and_eq_right (hp : covers m p = true) (hq : covers n q = true)
    (agree : (p ^^^ q) &&& (m &&& n) = 0) : (p ||| q) &&& n = q := by
  rw [BitVec.or_comm]
  rw [BitVec.xor_comm, BitVec.and_comm m] at agree
  exact or_and_eq_left hq hp agree

theorem xor_and_eq_zero_of_common (hp : w &&& m = p) (hq : w &&& n = q) :
    (p ^^^ q) &&& (m &&& n) = 0 := by
  rw [xor_and_eq_zero_iff]
  intro i hm hn
  simp [← hp, ← hq, hm, hn]

/-- One of the masks covers the other. -/
def Comparable (a b : Word) : Prop := covers a b = true ∨ covers b a = true

theorem Comparable.refl (m : Word) : Comparable m m := .inl (covers_refl m)

theorem Comparable.symm (h : Comparable m n) : Comparable n m := Or.symm h

end Word

namespace Group

variable {g h : Group} {a b : Entry}

theorem unrelated_iff : g.unrelated h = true ↔ ¬g.mask.Comparable h.mask := by
  simp [unrelated, Word.Comparable]

/-- The pairs of entries that have an ambiguity. -/
def clashes (g h : Group) : List (Entry × Entry) :=
  if g.unrelated h then
    (g.entries ×ˢ h.entries).filter fun (a, b) =>
      (a.pattern ^^^ b.pattern) &&& (g.mask &&& h.mask) = 0
  else []

theorem ambiguities_eq_map : g.ambiguities h =
    (g.clashes h).map fun (a, b) => ⟨a, b, a.pattern ||| b.pattern⟩ := by
  unfold ambiguities clashes
  split
  · induction g.entries with
    | nil => rfl
    | cons a as ih =>
      rw [List.flatMap_cons, ih, List.product_cons, List.filter_append, List.map_append]
      congr 1
      induction h.entries with
      | nil => rfl
      | cons b bs ih =>
        rw [List.filterMap_cons, ih, List.map_cons, List.filter_cons]
        split <;> simp_all
  · rfl

theorem mem_clashes_iff (hg : g.Ordered) (hh : h.Ordered) : (a, b) ∈ g.clashes h ↔
    g.unrelated h = true ∧ a ∈ g.entries ∧ b ∈ h.entries ∧
      ∃ w, a.Hits g.mask w ∧ b.Hits h.mask w := by
  unfold clashes
  split
  · rename_i unrelated
    simp only [List.mem_filter, List.mem_product, decide_eq_true_eq, unrelated, true_and, and_assoc]
    refine and_congr_right fun ha => and_congr_right fun hb => ⟨fun agree => ?_, ?_⟩
    · have inside := hg.inside a ha
      have inside' := hh.inside b hb
      exact ⟨_, Word.or_and_eq_left inside inside' agree, Word.or_and_eq_right inside inside' agree⟩
    · intro parts
      obtain ⟨w, hits, hits'⟩ := parts
      exact Word.xor_and_eq_zero_of_common hits hits'
  · rename_i related
    simp [related]

theorem Ordered.nodup (hg : g.Ordered) : g.entries.Nodup :=
  hg.ascending.imp fun less eq => BitVec.ne_of_lt less (congrArg Entry.pattern eq)

theorem nodup_clashes (hg : g.Ordered) (hh : h.Ordered) : (g.clashes h).Nodup := by
  unfold clashes
  split
  · exact (hg.nodup.product hh.nodup).filter _
  · exact List.nodup_nil

end Group

namespace Table

variable {registry : Registry} {rules : List Rule} {t : Table} {w : Word} {g h : Group}
  {a b e : Entry} {gs : List Group}

/-- An entry of a group and one of a later group, of which neither mask covers the other, match a
word together. -/
structure Clash (t : Table) (g : Group) (a : Entry) (h : Group) (b : Entry) : Prop where
  earlier : [g, h].Sublist t.groups
  winner : a ∈ g.entries
  shadowed : b ∈ h.entries
  unrelated : ¬g.mask.Comparable h.mask
  common : ∃ w, a.Hits g.mask w ∧ b.Hits h.mask w

/-- The groups with the later ones. -/
def groupPairs : List Group → List (Group × Group)
  | [] => []
  | g :: later => later.map (g, ·) ++ groupPairs later

theorem mem_groupPairs_iff : (g, h) ∈ groupPairs gs ↔ [g, h].Sublist gs := by
  induction gs with
  | nil => simp [groupPairs]
  | cons x later ih =>
    rw [groupPairs, List.mem_append, ih, List.mem_map]
    constructor
    · intro parts
      rcases parts with ⟨y, mem, ⟨⟩⟩ | sub
      · exact (List.singleton_sublist.2 mem).cons_cons g
      · exact sub.cons x
    · intro parts
      rcases parts with _ | ⟨_, sub⟩ | ⟨_, sub⟩
      · exact .inr ‹_›
      · exact .inl ⟨h, List.singleton_sublist.1 sub, rfl⟩

theorem mem_of_earlier (earlier : [g, h].Sublist gs) : g ∈ gs ∧ h ∈ gs :=
  ⟨earlier.subset List.mem_cons_self, earlier.subset (List.mem_cons_of_mem _ List.mem_cons_self)⟩

theorem nodup_groupPairs (nodup : gs.Nodup) : (groupPairs gs).Nodup := by
  induction gs with
  | nil => exact List.nodup_nil
  | cons g later ih =>
    obtain ⟨fresh, nodup_later⟩ := List.nodup_cons.1 nodup
    refine List.nodup_append'.2 ⟨nodup_later.map fun _ _ eq => (Prod.mk.inj eq).2, ih nodup_later, ?_⟩
    rintro ⟨x, y⟩ first later
    obtain ⟨z, -, ⟨⟩⟩ := List.mem_map.1 first
    exact fresh (mem_of_earlier (mem_groupPairs_iff.1 later)).1

theorem ambiguitiesOf_eq (gs : List Group) :
    ambiguitiesOf gs = (groupPairs gs).flatMap fun (g, h) => g.ambiguities h := by
  induction gs with
  | nil => rfl
  | cons g later ih => rw [ambiguitiesOf, groupPairs, List.flatMap_append, List.flatMap_map, ih]

/-- The clashes of a table, in the order in which they are reported. -/
def clashes (t : Table) : List ((Group × Entry) × Group × Entry) :=
  (groupPairs t.groups).flatMap fun (g, h) => (g.clashes h).map fun (a, b) => ((g, a), (h, b))

theorem ambiguities_eq_map (t : Table) : t.ambiguities =
    t.clashes.map fun c => ⟨c.1.2, c.2.2, c.1.2.pattern ||| c.2.2.pattern⟩ := by
  simp only [ambiguities, ambiguitiesOf_eq, clashes, Group.ambiguities_eq_map, List.map_flatMap,
    List.map_map]
  rfl

namespace Clash

theorem winner_group (clash : t.Clash g a h b) : g ∈ t.groups :=
  (mem_of_earlier clash.earlier).1

theorem shadowed_group (clash : t.Clash g a h b) : h ∈ t.groups :=
  (mem_of_earlier clash.earlier).2

/-- The union of the patterns is a word that both match. -/
theorem hits_union (clash : t.Clash g a h b) (ordered : t.Ordered) :
    a.Hits g.mask (a.pattern ||| b.pattern) ∧ b.Hits h.mask (a.pattern ||| b.pattern) := by
  obtain ⟨w, hits, hits'⟩ := clash.common
  have agree := Word.xor_and_eq_zero_of_common hits hits'
  have inside := (ordered.groups g clash.winner_group).inside a clash.winner
  have inside' := (ordered.groups h clash.shadowed_group).inside b clash.shadowed
  exact ⟨Word.or_and_eq_left inside inside' agree, Word.or_and_eq_right inside inside' agree⟩

/-- The shadowed entry does not decide about a word that both match. -/
theorem find?_ne (clash : t.Clash g a h b) (ordered : t.Ordered) (ha : a.Hits g.mask w) :
    t.find? w ≠ some (h, b) := by
  intro found
  have outranks := List.pairwise_iff_forall_sublist.1 ordered.ranked clash.earlier
  have top := (ordered.find?_eq_some_iff.1 found).2
  exact top g a ⟨clash.winner_group, clash.winner, ha⟩ outranks

end Clash

theorem mem_clashes_iff (ordered : t.Ordered) : ((g, a), (h, b)) ∈ t.clashes ↔ t.Clash g a h b := by
  rw [clashes, List.mem_flatMap]
  constructor
  · intro parts
    obtain ⟨⟨g', h'⟩, pair, mem⟩ := parts
    obtain ⟨⟨a', b'⟩, mem, ⟨⟩⟩ := List.mem_map.1 mem
    have earlier := mem_groupPairs_iff.1 pair
    have hg := ordered.groups g (mem_of_earlier earlier).1
    have hh := ordered.groups h (mem_of_earlier earlier).2
    obtain ⟨unrelated, ha, hb, common⟩ := (Group.mem_clashes_iff hg hh).1 mem
    exact ⟨earlier, ha, hb, Group.unrelated_iff.1 unrelated, common⟩
  · intro clash
    have hg := ordered.groups g clash.winner_group
    have hh := ordered.groups h clash.shadowed_group
    refine ⟨(g, h), mem_groupPairs_iff.2 clash.earlier, List.mem_map.2 ⟨(a, b), ?_, rfl⟩⟩
    exact (Group.mem_clashes_iff hg hh).2
      ⟨Group.unrelated_iff.2 clash.unrelated, clash.winner, clash.shadowed, clash.common⟩

theorem nodup_clashes (ordered : t.Ordered) : t.clashes.Nodup := by
  rw [clashes, List.nodup_flatMap]
  constructor
  · rintro ⟨g, h⟩ pair
    have earlier := mem_groupPairs_iff.1 pair
    have hg := ordered.groups g (mem_of_earlier earlier).1
    have hh := ordered.groups h (mem_of_earlier earlier).2
    apply (Group.nodup_clashes hg hh).map
    rintro ⟨a, b⟩ ⟨a', b'⟩ ⟨⟩
    rfl
  · apply (nodup_groupPairs ordered.ranked.nodup).imp
    rintro ⟨g, h⟩ ⟨g', h'⟩ ne c first second
    obtain ⟨⟨a, b⟩, -, rfl⟩ := List.mem_map.1 first
    obtain ⟨⟨a', b'⟩, -, ⟨⟩⟩ := List.mem_map.1 second
    exact ne rfl

theorem ambiguities_eq_nil_iff_forall_not_clash (ordered : t.Ordered) :
    t.ambiguities = [] ↔ ∀ g a h b, ¬t.Clash g a h b := by
  rw [ambiguities_eq_map, List.map_eq_nil_iff, List.eq_nil_iff_forall_not_mem]
  constructor
  · intro none g a h b clash
    exact none _ ((mem_clashes_iff ordered).2 clash)
  · rintro none ⟨⟨g, a⟩, h, b⟩ mem
    exact none g a h b ((mem_clashes_iff ordered).1 mem)

/-- A table reports nothing just when the masks of the entries that match one word are comparable. -/
theorem ambiguities_eq_nil_iff (ordered : t.Ordered) : t.ambiguities = [] ↔
    ∀ w g a h b, t.Hit w g a → t.Hit w h b → g.mask.Comparable h.mask := by
  rw [ambiguities_eq_nil_iff_forall_not_clash ordered]
  constructor
  · intro none w g a h b ha hb
    -- symmetric, so it holds of any two groups once it holds of each with the later ones
    have symm : Std.Symm fun g h => ∀ a b, t.Hit w g a → t.Hit w h b → g.mask.Comparable h.mask :=
      ⟨fun g h related a b ha hb => (related b a hb ha).symm⟩
    have comparable : t.groups.Pairwise fun g h =>
        ∀ a b, t.Hit w g a → t.Hit w h b → g.mask.Comparable h.mask := by
      apply List.pairwise_iff_forall_sublist.2
      intro g h earlier a b ha hb
      by_contra unrelated
      exact none g a h b ⟨earlier, ha.entry, hb.entry, unrelated, w, ha.hits, hb.hits⟩
    have same : ∀ g ∈ t.groups, ∀ a b, t.Hit w g a → t.Hit w g b → g.mask.Comparable g.mask :=
      fun g _ _ _ _ _ => .refl g.mask
    exact comparable.forall_of_forall same ha.group hb.group a b ha hb
  · rintro comparable g a h b clash
    obtain ⟨w, hits, hits'⟩ := clash.common
    exact clash.unrelated (comparable w g a h b ⟨clash.winner_group, clash.winner, hits⟩
      ⟨clash.shadowed_group, clash.shadowed, hits'⟩)

/-- Where the masks of all matches are comparable, the look-up gives the match whose mask covers the
others. -/
theorem Ordered.covers_of_find? (ordered : t.Ordered)
    (comparable : ∀ w g a h b, t.Hit w g a → t.Hit w h b → g.mask.Comparable h.mask)
    (found : t.find? w = some (g, e)) {x : Entry} (hit : t.Hit w h x) :
    Word.covers g.mask h.mask = true := by
  obtain ⟨top, not_outranked⟩ := ordered.find?_eq_some_iff.1 found
  rcases comparable w g e h x top hit with above | below
  · exact above
  · by_cases eq : h.mask = g.mask
    · rw [eq]
      exact Word.covers_refl g.mask
    · exact absurd (Word.outranks_of_covers below eq) (not_outranked h x hit)

/-- The order of groups with comparable masks does not count, as long as a mask is tried before
those that it strictly covers. -/
theorem Ordered.find?_eq_of_perm (ordered : t.Ordered)
    (comparable : ∀ w g a h b, t.Hit w g a → t.Hit w h b → g.mask.Comparable h.mask)
    (perm : gs.Perm t.groups)
    (order : gs.Pairwise fun g h => ¬(Word.covers h.mask g.mask = true ∧ h.mask ≠ g.mask))
    (w : Word) : Table.find? ⟨gs⟩ w = t.find? w := by
  have groups : ∀ g ∈ (Table.mk gs).groups, g.Ordered := fun g hg =>
    ordered.groups g (perm.mem_iff.1 hg)
  have hit_iff : ∀ {g e}, (Table.mk gs).Hit w g e ↔ t.Hit w g e := fun {g e} =>
    ⟨fun hit => ⟨perm.mem_iff.1 hit.group, hit.entry, hit.hits⟩,
      fun hit => ⟨perm.mem_iff.2 hit.group, hit.entry, hit.hits⟩⟩
  cases found : t.find? w with
  | none =>
    rw [find?_eq_none_iff groups]
    intro g e hit
    exact (find?_eq_none_iff ordered.groups).1 found g e (hit_iff.1 hit)
  | some top =>
    obtain ⟨g, e⟩ := top
    have hit := (ordered.find?_eq_some_iff.1 found).1
    cases found' : (Table.mk gs).find? w with
    | none => exact absurd (hit_iff.2 hit) ((find?_eq_none_iff groups).1 found' g e)
    | some top' =>
      obtain ⟨g', e'⟩ := top'
      obtain ⟨hit', first⟩ := hit_of_find? groups order found'
      have covers := ordered.covers_of_find? comparable found (hit_iff.1 hit')
      have same : g = g' := by
        rcases first g e (hit_iff.2 hit) with same | not_above
        · exact same
        · have mask := not_not.1 (not_and.1 not_above covers)
          exact ordered.ranked.eq_of_mask_eq hit.group (hit_iff.1 hit').group mask
      subst same
      rw [hit.entry_eq (hit_iff.1 hit') (ordered.groups g hit.group)]

/-- A table that a list of rules builds reports nothing just when the masks of the entries that
match one word are comparable. Then the look-up gives the entry whose mask covers those of all
entries that match, and gives it in whatever order the groups are tried, as long as a mask comes
before those that it strictly covers. -/
theorem find?_of_ambiguities_eq_nil (ok : ofRules registry rules = .ok t) :
    (t.ambiguities = [] ↔
      ∀ w g a h b, t.Hit w g a → t.Hit w h b → g.mask.Comparable h.mask) ∧
    (t.ambiguities = [] →
      (∀ w g e, t.Hit w g e → ∃ g' e', t.find? w = some (g', e') ∧
        (g' = g ∧ e' = e ∨ Word.covers g'.mask g.mask = true ∧ g'.mask ≠ g.mask) ∧
        ∀ h x, t.Hit w h x → Word.covers g'.mask h.mask = true) ∧
      ∀ gs : List Group, gs.Perm t.groups →
        (gs.Pairwise fun g h => ¬(Word.covers h.mask g.mask = true ∧ h.mask ≠ g.mask)) →
        ∀ w, Table.find? ⟨gs⟩ w = t.find? w) := by
  have ordered := (built_of_ofRules ok).ordered
  refine ⟨ambiguities_eq_nil_iff ordered, fun none => ?_⟩
  have comparable := (ambiguities_eq_nil_iff ordered).1 none
  refine ⟨fun w g e hit => ?_, fun gs perm order => ordered.find?_eq_of_perm comparable perm order⟩
  cases found : t.find? w with
  | none => exact absurd hit ((find?_eq_none_iff ordered.groups).1 found g e)
  | some top =>
    obtain ⟨g', e'⟩ := top
    refine ⟨g', e', rfl, ?_, fun h x => ordered.covers_of_find? comparable found⟩
    have top := (ordered.find?_eq_some_iff.1 found).1
    by_cases eq : g'.mask = g.mask
    · obtain rfl := ordered.ranked.eq_of_mask_eq top.group hit.group eq
      exact .inl ⟨rfl, top.entry_eq hit (ordered.groups _ top.group)⟩
    · exact .inr ⟨ordered.covers_of_find? comparable found hit, eq⟩

theorem find?_nopRules_of_perm : ∃ t, ofRules .riscv nopRules = .ok t ∧ t.ambiguities = [] ∧
    ∀ gs : List Group, gs.Perm t.groups →
      (gs.Pairwise fun g h => ¬(Word.covers h.mask g.mask = true ∧ h.mask ≠ g.mask)) →
      ∀ w, Table.find? ⟨gs⟩ w = t.find? w := by
  obtain ⟨t, ok⟩ := exists_ofRules_nopRules
  have none : t.ambiguities = [] := by
    have computed : (ofRules .riscv nopRules).map ambiguities = .ok [] := by decide +kernel
    rw [ok] at computed
    exact Except.ok.inj computed
  exact ⟨t, ok, none, ((find?_of_ambiguities_eq_nil ok).2 none).2⟩

/-- The records of a table are its clashes, each once. A record names the two entries of its clash
and a word that both match, and the second entry decides about no such word. -/
theorem ambiguities_exact (ok : ofRules registry rules = .ok t) :
    ∃ clashes : List ((Group × Entry) × Group × Entry),
      clashes.Nodup ∧
      (∀ g a h b, ((g, a), (h, b)) ∈ clashes ↔ t.Clash g a h b) ∧
      List.Forall₂ (fun c x => x.winner = c.1.2 ∧ x.shadowed = c.2.2 ∧
        c.1.2.Hits c.1.1.mask x.word ∧ c.2.2.Hits c.2.1.mask x.word) clashes t.ambiguities ∧
      ∀ g a h b, t.Clash g a h b → ∀ w, a.Hits g.mask w → b.Hits h.mask w →
        t.find? w ≠ some (h, b) := by
  have ordered := (built_of_ofRules ok).ordered
  refine ⟨t.clashes, nodup_clashes ordered, fun g a h b => mem_clashes_iff ordered, ?_,
    fun g a h b clash w hits _ => clash.find?_ne ordered hits⟩
  rw [ambiguities_eq_map, List.forall₂_map_right_iff, List.forall₂_same]
  rintro ⟨⟨g, a⟩, h, b⟩ mem
  have clash := (mem_clashes_iff ordered).1 mem
  obtain ⟨hits, hits'⟩ := clash.hits_union ordered
  exact ⟨rfl, rfl, hits, hits'⟩

/-- Two rules over different halves of the low byte. -/
def crossedRules : List Rule := [
  ⟨"low", [], [⟨⟨3, 0⟩, 1⟩], 1⟩,
  ⟨"high", [], [⟨⟨7, 4⟩, 2⟩], 2⟩]

theorem ambiguities_crossedRules : ∃ t g a h b, ofRules .riscv crossedRules = .ok t ∧
    t.Clash g a h b ∧ a.operator = "high" ∧ b.operator = "low" ∧
    t.ambiguities = [⟨a, b, 0x21⟩] ∧ a.Hits g.mask 0x21 ∧ b.Hits h.mask 0x21 := by
  have computed : (ofRules .riscv crossedRules).map ambiguities =
      .ok [⟨⟨0x20, "high", [], [], 2, 2⟩, ⟨0x01, "low", [], [], 2, 1⟩, 0x21⟩] := by decide +kernel
  cases ok : ofRules .riscv crossedRules with
  | error e =>
    rw [ok] at computed
    cases computed
  | ok t =>
    rw [ok] at computed
    have listed := Except.ok.inj computed
    obtain ⟨clashes, -, mem, records, -⟩ := ambiguities_exact ok
    rw [listed] at records
    obtain ⟨⟨⟨g, a⟩, h, b⟩, rest, ⟨rfl, rfl, hits, hits'⟩, -, rfl⟩ :=
      List.forall₂_cons_right_iff.1 records
    exact ⟨t, g, _, h, _, rfl, (mem _ _ _ _).1 List.mem_cons_self, rfl, rfl, listed, hits, hits'⟩

end Table

end Opcodes
