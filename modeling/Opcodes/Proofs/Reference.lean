import Opcodes.Proofs.Build
import Opcodes.Proofs.Layout

/-!
# Decoding without a table

What a word decodes to can be said of the list of rules alone: `Rule.Decides` names the rule that
decides about the word, and a table that the list builds answers with that rule's entry, or calls
the word illegal where no rule matches.
-/
set_option autoImplicit false

namespace Opcodes

/-- The rule decides about the word: it matches, no rule that matches fixes more bits, or as many
with a larger mask, and no earlier rule with its mask matches. -/
structure Rule.Decides (rules : List Rule) (w : Word) (i : Nat) (r : Rule) : Prop where
  place : rules[i]? = some r
  hit : r.Matches w
  greatest : ∀ s ∈ rules, s.Matches w →
    s.specificity < r.specificity ∨ s.specificity = r.specificity ∧ s.mask ≤ r.mask
  first : ∀ s ∈ rules.take i, s.Matches w → s.mask ≠ r.mask

namespace Rule

variable {rules : List Rule} {w : Word} {i j : Nat} {r s : Rule}

theorem not_outranks_iff : ¬s.mask.Outranks r.mask ↔
    s.specificity < r.specificity ∨ s.specificity = r.specificity ∧ s.mask ≤ r.mask := by
  rw [Word.Outranks, specificity, specificity, ← BitVec.not_lt]
  constructor
  · intro h
    rcases Nat.lt_trichotomy (Word.weight s.mask) (Word.weight r.mask) with lt | eq | lt
    · exact .inl lt
    · exact .inr ⟨eq, fun lt => h (.inr ⟨eq.symm, lt⟩)⟩
    · exact absurd (.inl lt) h
  · rintro (lt | ⟨eq, le⟩) (lt' | ⟨eq', lt'⟩)
    · omega
    · omega
    · omega
    · exact le lt'

/-- One rule decides about a word. -/
theorem Decides.unique (hr : Decides rules w i r) (hs : Decides rules w j s) : i = j ∧ r = s := by
  have mask : r.mask = s.mask := by
    by_contra ne
    rcases Word.outranks_or_outranks ne with above | above
    · exact not_outranks_iff.2 (hs.greatest r (List.mem_of_getElem? hr.place) hr.hit) above
    · exact not_outranks_iff.2 (hr.greatest s (List.mem_of_getElem? hs.place) hs.hit) above
  have le : ∀ {i j : Nat} {r s : Rule}, rules[i]? = some r → r.Matches w → r.mask = s.mask →
      Decides rules w j s → j ≤ i := by
    intro i j r s place hit mask hs
    by_contra lt
    refine hs.first r (List.mem_of_getElem? (i := i) ?_) hit mask
    rw [List.getElem?_take_of_lt (by omega), place]
  have index : i = j :=
    Nat.le_antisymm (le hs.place hs.hit mask.symm hr) (le hr.place hr.hit mask hs)
  refine ⟨index, Option.some.inj ?_⟩
  rw [← hr.place, index, hs.place]

end Rule

namespace Table

variable {registry : Registry} {rules : List Rule} {t : Table} {w : Word} {g : Group} {e : Entry}

/-- The entry that a look-up gives is made from the rule that decides. -/
theorem Built.decides_of_find? (built : Built registry rules t) (found : t.find? w = some (g, e)) :
    ∃ leaf : Leaf, leaf.rule.Decides rules w leaf.index ∧ g.mask = leaf.rule.mask ∧
      ∃ layout, registry.soundLayout leaf.rule = .ok layout ∧
        e = Entry.ofRule leaf.rule.encoding leaf.rule layout := by
  obtain ⟨hit, top⟩ := built.ordered.find?_eq_some_iff.1 found
  obtain ⟨leaf, first, mask, matched, layout, ok, made⟩ := built.rule_of_hit hit
  refine ⟨leaf, ⟨first.place, matched, fun s mem hs => ?_, fun s mem hs eq => ?_⟩, mask.symm,
    layout, ok, made⟩
  · obtain ⟨h, x, other, hmask⟩ := built.hit_of_matches mem hs
    rw [← Rule.not_outranks_iff, mask, ← hmask]
    exact top h x other
  · obtain ⟨j, hj⟩ := List.mem_iff_getElem?.1 mem
    have early : j < leaf.index := by
      by_contra late
      rw [List.getElem?_eq_none (by rw [List.length_take]; omega)] at hj
      cases hj
    rw [List.getElem?_take_of_lt early] at hj
    have := first.first j s hj (Rule.rivals_of_matches eq hs matched)
    omega

/-- A word is illegal just when no rule matches it. -/
theorem Built.find?_eq_none_iff (built : Built registry rules t) :
    t.find? w = none ↔ ∀ r ∈ rules, ¬r.Matches w := by
  rw [Table.find?_eq_none_iff built.ordered.groups]
  constructor
  · intro miss r mem hit
    obtain ⟨g, e, hit, -⟩ := built.hit_of_matches mem hit
    exact miss g e hit
  · intro miss g e hit
    obtain ⟨leaf, first, -, matched, -⟩ := built.rule_of_hit hit
    exact miss leaf.rule first.mem matched

/-- An encoding is two bytes long when nothing in the upper half is fixed or read, else four. -/
theorem encodedLength_eq {mask : Word} {layout : Layout} (sound : layout.fault? = none) :
    (Entry.encodedLength (mask ||| layout.bits) = 2 ∨
      Entry.encodedLength (mask ||| layout.bits) = 4) ∧
    (Entry.encodedLength (mask ||| layout.bits) = 2 ↔
      ∀ i, mask.getLsbD i = true ∨ layout.Reads i → i < 16) := by
  have low : (mask ||| layout.bits) >>> 16 = 0 ↔
      ∀ i, mask.getLsbD i = true ∨ layout.Reads i → i < 16 := by
    rw [Word.ushiftRight_eq_zero_iff]
    apply forall_congr'
    intro i
    rw [BitVec.getLsbD_or, Bool.or_eq_true, Layout.getLsbD_bits_iff]
    have := Layout.lt_of_reads sound (i := i)
    tauto
  rw [Entry.encodedLength, ← low]
  split <;> simp_all

end Table

end Opcodes
