import Opcodes.Proofs.Ambiguity

/-!
# Who decides about an ambiguous word

The word of an ambiguity matches two entries of unrelated groups, and the winner is the one tried
first. It decides about the word unless a third rule, one that outranks it, matches the word too:
`refinedRules` has such a rule.
-/
set_option autoImplicit false

namespace Opcodes.Table

variable {registry : Registry} {rules : List Rule} {t : Table} {w : Word} {g h : Group}
  {a b : Entry}

/-- Some entry decides about a word that an entry matches: this one, or one that outranks it. -/
theorem Hit.exists_find? (hit : t.Hit w g a) (ordered : t.Ordered) :
    ∃ k e, t.find? w = some (k, e) ∧ (k = g ∧ e = a ∨ k.mask.Outranks g.mask) := by
  cases found : t.find? w with
  | none => exact absurd hit ((find?_eq_none_iff ordered.groups).1 found g a)
  | some top =>
    obtain ⟨k, e⟩ := top
    obtain ⟨top, later⟩ := hit_of_find? ordered.groups ordered.ranked found
    refine ⟨k, e, rfl, ?_⟩
    rcases later g a hit with rfl | outranks
    · exact .inl ⟨rfl, top.entry_eq hit (ordered.groups _ hit.group)⟩
    · exact .inr outranks

/-- An entry that matches decides just when no rule that matches outranks it. -/
theorem Built.find?_eq_some_iff (built : Built registry rules t) (hit : t.Hit w g a) :
    t.find? w = some (g, a) ↔ ∀ r ∈ rules, r.Matches w → ¬r.mask.Outranks g.mask := by
  rw [built.ordered.find?_eq_some_iff, and_iff_right hit]
  constructor
  · intro top r mem matched
    obtain ⟨k, e, other, mask⟩ := built.hit_of_matches mem matched
    rw [← mask]
    exact top k e other
  · intro top k e other
    obtain ⟨leaf, first, mask, matched, -⟩ := built.rule_of_hit other
    rw [← mask]
    exact top leaf.rule first.mem matched

/-- A record of a table names the entries of a clash, and its word matches both. -/
theorem exists_clash_of_mem_ambiguities (ordered : t.Ordered) {x : Ambiguity}
    (mem : x ∈ t.ambiguities) :
    ∃ g h, t.Clash g x.winner h x.shadowed ∧ t.Hit x.word g x.winner ∧ t.Hit x.word h x.shadowed := by
  rw [ambiguities_eq_map, List.mem_map] at mem
  obtain ⟨⟨⟨g, a⟩, h, b⟩, listed, rfl⟩ := mem
  have clash := (mem_clashes_iff ordered).1 listed
  obtain ⟨hits, hits'⟩ := clash.hits_union ordered
  exact ⟨g, h, clash, ⟨clash.winner_group, clash.winner, hits⟩,
    ⟨clash.shadowed_group, clash.shadowed, hits'⟩⟩

/-- The word of an ambiguity is an instruction, and what decides about it is the winner or outranks
the winner, so it is never the shadowed entry. It is the winner just when no rule of the list that
matches the word outranks the winner's group. -/
theorem find?_word_of_mem_ambiguities (ok : ofRules registry rules = .ok t) {x : Ambiguity}
    (mem : x ∈ t.ambiguities) :
    ∃ g h, t.Clash g x.winner h x.shadowed ∧ t.Hit x.word g x.winner ∧
      t.Hit x.word h x.shadowed ∧
      (∃ k e, t.find? x.word = some (k, e) ∧
        t.decode x.word = .instruction (e.instruction x.word) ∧
        (k = g ∧ e = x.winner ∨ k.mask.Outranks g.mask)) ∧
      t.find? x.word ≠ some (h, x.shadowed) ∧
      (t.find? x.word = some (g, x.winner) ↔
        ∀ r ∈ rules, r.Matches x.word → ¬r.mask.Outranks g.mask) := by
  have built := built_of_ofRules ok
  obtain ⟨g, h, clash, winner, shadowed⟩ := exists_clash_of_mem_ambiguities built.ordered mem
  obtain ⟨k, e, found, top⟩ := winner.exists_find? built.ordered
  refine ⟨g, h, clash, winner, shadowed, ⟨k, e, found, ?_, top⟩,
    clash.find?_ne built.ordered winner.hits, built.find?_eq_some_iff winner⟩
  rw [decode, found]

theorem find?_word_crossedRules : ∃ t x, ofRules .riscv crossedRules = .ok t ∧
    x ∈ t.ambiguities ∧ x.winner.operator = "high" ∧ x.winner.line = 2 ∧ x.word = 0x21 ∧
    ∃ g, t.find? x.word = some (g, x.winner) := by
  have ok : ofRules .riscv crossedRules = .ok
      ⟨[⟨0xF0, [⟨0x20, "high", [], [], 2, 2⟩]⟩, ⟨0x0F, [⟨0x01, "low", [], [], 2, 1⟩]⟩]⟩ := by
    decide +kernel
  obtain ⟨g, h, clash, -, -, -, -, decides⟩ :=
    find?_word_of_mem_ambiguities ok (List.mem_singleton_self _)
  have mask : g.mask = 0xF0 := by
    have place := clash.winner_group
    have entry := clash.winner
    simp only [List.mem_cons, List.not_mem_nil, or_false] at place
    rcases place with rfl | rfl
    · rfl
    · simp at entry
  refine ⟨_, _, ok, List.mem_singleton_self _, rfl, rfl, rfl, g, decides.2 ?_⟩
  rw [mask]
  decide +kernel

/-- Two rules over crossing ranges and a third that fixes the bits of both. -/
def refinedRules : List Rule := [
  ⟨"left", [], [⟨⟨3, 0⟩, 0xC⟩], 1⟩,
  ⟨"right", [], [⟨⟨5, 2⟩, 0x3⟩], 2⟩,
  ⟨"both", [], [⟨⟨5, 0⟩, 0xC⟩], 3⟩]

/-- The winner of an ambiguity need not decide about its word: a third rule can outrank it. -/
theorem decode_word_refinedRules : ∃ t x, ofRules .riscv refinedRules = .ok t ∧
    t.ambiguities = [x] ∧ x.winner.operator = "right" ∧ x.winner.line = 2 ∧ x.word = 0xC ∧
    (t.find? x.word).map (fun top => (top.2.operator, top.2.line)) = some ("both", 3) ∧
    t.decode x.word = .instruction ⟨0xC, "both", [], 2⟩ := by
  refine ⟨⟨[⟨0x3F, [⟨0x0C, "both", [], [], 2, 3⟩]⟩, ⟨0x3C, [⟨0x0C, "right", [], [], 2, 2⟩]⟩,
    ⟨0x0F, [⟨0x0C, "left", [], [], 2, 1⟩]⟩]⟩, ⟨_, _, 0x0C⟩, ?_, rfl, rfl, rfl, rfl, ?_, ?_⟩
  · decide +kernel
  · decide +kernel
  · decide +kernel

end Opcodes.Table
