import Opcodes.Proofs.Outcome
import Opcodes.Proofs.Reference
import Opcodes.Proofs.Winner

/-!
# Rules added behind a list

What is added to the end of a list of rules changes the answer for a word only where an added rule
matches it and outranks what decided before. `Rule.Decides` of the longer list says so: the rule
that decides there stands in the front, and then it decides in the front too, or behind it, and then
no rule of the front that matches has its mask or a mask that outranks it.
-/
set_option autoImplicit false

namespace Opcodes

namespace Rule

variable {rules more : List Rule} {w : Word} {i : Nat} {r s : Rule}

/-- What decides in a list and stands in its front decides in the front. -/
theorem Decides.of_append_left (decides : Decides (rules ++ more) w i r) (inside : i < rules.length) :
    Decides rules w i r := by
  refine ⟨?_, decides.hit, fun s mem => ?_, ?_⟩
  · rw [← List.getElem?_append_left inside]
    exact decides.place
  · exact decides.greatest s (List.mem_append_left _ mem)
  · have first := decides.first
    rwa [List.take_append_of_le_length (Nat.le_of_lt inside)] at first

theorem Decides.mem_of_append_right (decides : Decides (rules ++ more) w i r)
    (behind : rules.length ≤ i) : r ∈ more := by
  have place := decides.place
  rw [List.getElem?_append_right behind] at place
  exact List.mem_of_getElem? place

/-- What decides in a list and stands behind its front outranks all that matches in the front. -/
theorem Decides.outranks_of_append_right (decides : Decides (rules ++ more) w i r)
    (behind : rules.length ≤ i) (mem : s ∈ rules) (hit : s.Matches w) : r.mask.Outranks s.mask := by
  have early : s ∈ (rules ++ more).take i := by
    rw [List.take_append, List.take_of_length_le behind]
    exact List.mem_append_left _ mem
  have ne : r.mask ≠ s.mask := (decides.first s early hit).symm
  exact Word.outranks_of_not ne
    (not_outranks_iff.2 (decides.greatest s (List.mem_append_left _ mem) hit))

end Rule

namespace Table

variable {registry : Registry} {rules more : List Rule} {t u : Table} {w : Word}

/-- The entry that decides about a word and the mask under which it was found. -/
def answer? (t : Table) (w : Word) : Option (Word × Entry) :=
  (t.find? w).map fun (g, e) => (g.mask, e)

theorem answer?_eq_some_iff {mask : Word} {e : Entry} :
    t.answer? w = some (mask, e) ↔ ∃ g, t.find? w = some (g, e) ∧ g.mask = mask := by
  simp [answer?]

theorem decode_eq_of_answer?_eq (eq : u.answer? w = t.answer? w) : u.decode w = t.decode w := by
  have instruction : ∀ t : Table, t.decode w =
      ((t.answer? w).map fun (_, e) => Decoded.instruction (e.instruction w)).getD (.illegal w) := by
    intro t
    rw [decode, answer?]
    cases t.find? w <;> rfl
  rw [instruction u, eq, ← instruction t]

namespace Built

/-- The rule that decides about a word gives the answer. -/
theorem answer?_of_decides (built : Built registry rules t) {i : Nat} {r : Rule}
    (decides : r.Decides rules w i) : ∃ layout, registry.soundLayout r = .ok layout ∧
      t.answer? w = some (r.mask, Entry.ofRule r.encoding r layout) := by
  cases found : t.find? w with
  | none =>
    exact absurd decides.hit
      (built.find?_eq_none_iff.1 found r (List.mem_of_getElem? decides.place))
  | some top =>
    obtain ⟨g, e⟩ := top
    obtain ⟨leaf, decides', mask, layout, resolved, rfl⟩ := built.decides_of_find? found
    obtain ⟨-, rfl⟩ := decides.unique decides'
    exact ⟨layout, resolved, answer?_eq_some_iff.2 ⟨g, found, mask⟩⟩

theorem answer?_eq_none_iff (built : Built registry rules t) :
    t.answer? w = none ↔ ∀ r ∈ rules, ¬r.Matches w := by
  rw [answer?, Option.map_eq_none_iff, built.find?_eq_none_iff]

/-- Some rule decides about a word that a rule matches. -/
theorem exists_decides (built : Built registry rules t) {r : Rule} (mem : r ∈ rules)
    (hit : r.Matches w) : ∃ i s, Rule.Decides rules w i s := by
  cases found : t.find? w with
  | none => exact absurd hit (built.find?_eq_none_iff.1 found r mem)
  | some top =>
    obtain ⟨leaf, decides, -⟩ := built.decides_of_find? found
    exact ⟨leaf.index, leaf.rule, decides⟩

end Built

/-- The front of a list that builds builds too. -/
theorem exists_ofRules_of_append (ok : ofRules registry (rules ++ more) = .ok u) :
    ∃ t, ofRules registry rules = .ok t := by
  obtain ⟨clear, usable⟩ := exists_ofRules_iff.1 ⟨u, ok⟩
  refine exists_ofRules_iff.2 ⟨fun a ha b hb => ?_, fun rule mem => ?_⟩
  · exact clear a (List.mem_append_left _ ha) b (List.mem_append_left _ hb)
  · exact usable rule (List.mem_append_left _ mem)

/-- Rules added behind a list only change the answers for words that they match and take over. If the
longer list builds, so does its front; and for every word the two tables have the same answer, or the
longer one answers with an added rule that matches the word and outranks the answer of the front. -/
theorem ofRules_append (ok : ofRules registry (rules ++ more) = .ok u) :
    ∃ t, ofRules registry rules = .ok t ∧ ∀ w,
      u.answer? w = t.answer? w ∧ u.decode w = t.decode w ∨
      ∃ rule ∈ more, rule.Matches w ∧ ∃ layout, registry.soundLayout rule = .ok layout ∧
        u.answer? w = some (rule.mask, Entry.ofRule rule.encoding rule layout) ∧
        ∀ mask e, t.answer? w = some (mask, e) → rule.mask.Outranks mask := by
  obtain ⟨t, front⟩ := exists_ofRules_of_append ok
  have whole := built_of_ofRules ok
  have part := built_of_ofRules front
  refine ⟨t, front, fun w => ?_⟩
  by_cases some_match : ∃ r ∈ rules ++ more, r.Matches w
  · obtain ⟨r, mem, hit⟩ := some_match
    obtain ⟨i, rule, decides⟩ := whole.exists_decides mem hit
    obtain ⟨layout, resolved, answer⟩ := whole.answer?_of_decides decides
    by_cases inside : i < rules.length
    · obtain ⟨layout', resolved', answer'⟩ := part.answer?_of_decides (decides.of_append_left inside)
      rw [resolved] at resolved'
      cases resolved'
      have same := answer.trans answer'.symm
      exact .inl ⟨same, decode_eq_of_answer?_eq same⟩
    · have behind := Nat.le_of_not_lt inside
      refine .inr ⟨rule, decides.mem_of_append_right behind, decides.hit, layout, resolved, answer, ?_⟩
      intro mask e before
      obtain ⟨g, found, rfl⟩ := answer?_eq_some_iff.1 before
      obtain ⟨leaf, decides', mask, -⟩ := part.decides_of_find? found
      rw [mask]
      exact decides.outranks_of_append_right behind (List.mem_of_getElem? decides'.place) decides'.hit
  · have miss : ∀ r ∈ rules ++ more, ¬r.Matches w := fun r mem hit => some_match ⟨r, mem, hit⟩
    have same : u.answer? w = t.answer? w := by
      rw [whole.answer?_eq_none_iff.2 miss,
        part.answer?_eq_none_iff.2 fun r mem => miss r (List.mem_append_left _ mem)]
    exact .inl ⟨same, decode_eq_of_answer?_eq same⟩

/-- The third of these rules takes the words over that it matches and leaves the others alone. -/
theorem answer?_refinedRules : ∃ t u, ofRules .riscv (refinedRules.take 2) = .ok t ∧
    ofRules .riscv refinedRules = .ok u ∧
    (∀ w, w &&& 0x3F ≠ 0xC → u.answer? w = t.answer? w) ∧
    (t.answer? 0xC).map (·.2.operator) = some "right" ∧
    (u.answer? 0xC).map (·.2.operator) = some "both" := by
  have whole : ofRules .riscv refinedRules = .ok ⟨[⟨0x3F, [⟨0x0C, "both", [], [], 2, 3⟩]⟩,
      ⟨0x3C, [⟨0x0C, "right", [], [], 2, 2⟩]⟩, ⟨0x0F, [⟨0x0C, "left", [], [], 2, 1⟩]⟩]⟩ := by
    decide +kernel
  have part : ofRules .riscv (refinedRules.take 2) = .ok
      ⟨[⟨0x3C, [⟨0x0C, "right", [], [], 2, 2⟩]⟩, ⟨0x0F, [⟨0x0C, "left", [], [], 2, 1⟩]⟩]⟩ := by
    decide +kernel
  have joined : ofRules .riscv (refinedRules.take 2 ++ refinedRules.drop 2) = _ := whole
  obtain ⟨t, front, agree⟩ := ofRules_append joined
  obtain rfl : _ = t := Except.ok.inj (part.symm.trans front)
  refine ⟨_, _, part, whole, fun w other => ?_, by decide +kernel, by decide +kernel⟩
  rcases agree w with ⟨same, -⟩ | ⟨rule, mem, hit, -⟩
  · exact same
  · obtain rfl := List.mem_singleton.1 mem
    refine absurd ?_ other
    have known : (0x3F : Word) = Rule.mask ⟨"both", [], [⟨⟨5, 0⟩, 0xC⟩], 3⟩ ∧
        (0xC : Word) = Rule.encoding ⟨"both", [], [⟨⟨5, 0⟩, 0xC⟩], 3⟩ := by
      decide +kernel
    rw [known.1, known.2]
    exact hit

end Table

end Opcodes
