import Opcodes.Proofs.FieldValue
import Opcodes.Proofs.Reference
import Opcodes.Proofs.Winner

/-!
# What an instruction says of its encoding

Two properties of the rules of a table carry over to what the table decodes. Where the fixed and the
read bits of every rule make up its encoding, an operator and its operands stand for one encoding.
Where every rule fixes the two lowest bits, both set just when the encoding takes four bytes, a word
tells the length of its encoding, and what lies above a short one does not count.
-/
set_option autoImplicit false

namespace Opcodes

namespace Rule

/-- Every bit of the encoding is fixed or read, and no two bits that a field reads are put in one
place. -/
structure Lossless (rule : Rule) (layout : Layout) : Prop where
  injective : ∀ f ∈ layout, f.Injective
  complete : Word.covers (rule.mask ||| layout.bits)
    (Word.ones (8 * Entry.encodedLength (rule.mask ||| layout.bits))) = true

instance (rule : Rule) (layout : Layout) : Decidable (rule.Lossless layout) :=
  decidable_of_iff (_ ∧ _) ⟨fun h => ⟨h.1, h.2⟩, fun h => ⟨h.1, h.2⟩⟩

/-- The two lowest bits of the encoding are fixed, and both are set just when it takes four bytes. -/
structure TellsLength (rule : Rule) (layout : Layout) : Prop where
  fixed : Word.covers rule.mask 3 = true
  long : rule.encoding &&& 3 = 3 ↔ Entry.encodedLength (rule.mask ||| layout.bits) = 4

instance (rule : Rule) (layout : Layout) : Decidable (rule.TellsLength layout) :=
  decidable_of_iff (_ ∧ _) ⟨fun h => ⟨h.1, h.2⟩, fun h => ⟨h.1, h.2⟩⟩

variable {rule : Rule} {layout : Layout} {v w : Word}

theorem agree_of_matches (hv : rule.Matches v) (hw : rule.Matches w) {k : Nat}
    (fixed : rule.mask.getLsbD k = true) : v.getLsbD k = w.getLsbD k :=
  Word.and_eq_and_iff.1 (hv.trans hw.symm) k fixed

/-- Words that match a lossless rule with the same values agree on the whole encoding. -/
theorem Lossless.agree (lossless : rule.Lossless layout) (sound : layout.fault? = none)
    (hv : rule.Matches v) (hw : rule.Matches w) (values : ∀ f ∈ layout, f.extract v = f.extract w)
    {k : Nat} (inside : k < 8 * Entry.encodedLength (rule.mask ||| layout.bits)) :
    v.getLsbD k = w.getLsbD k := by
  by_cases bound : k < 32
  · have covered := Word.covers_iff.1 lossless.complete k (by simp [Word.getLsbD_ones, bound, inside])
    rw [BitVec.getLsbD_or, Bool.or_eq_true, Layout.getLsbD_bits_iff] at covered
    rcases covered with fixed | ⟨-, reads⟩
    · exact agree_of_matches hv hw fixed
    · exact Layout.agree_of_extract_eq sound lossless.injective values reads
  · rw [BitVec.getLsbD_of_ge v k (by omega), BitVec.getLsbD_of_ge w k (by omega)]

theorem TellsLength.long_iff (tells : rule.TellsLength layout) (hit : rule.Matches w) :
    Entry.encodedLength (rule.mask ||| layout.bits) = 4 ↔ w &&& 3 = 3 := by
  rw [← tells.long, ← show w &&& rule.mask = rule.encoding from hit, BitVec.and_assoc,
    (beq_iff_eq.1 tells.fixed : rule.mask &&& 3 = 3)]

end Rule

namespace Table

variable {registry : Registry} {rules : List Rule} {t : Table} {v w : Word} {i j : Instruction}

theorem decode_eq_instruction_iff :
    t.decode w = .instruction i ↔ ∃ g e, t.find? w = some (g, e) ∧ e.instruction w = i := by
  unfold decode
  cases t.find? w with
  | none => simp
  | some top =>
    obtain ⟨g, e⟩ := top
    simp

/-- An instruction is read off the word by the layout of a rule that matches. -/
theorem Built.rule_of_decode (built : Built registry rules t)
    (decoded : t.decode w = .instruction i) :
    ∃ rule ∈ rules, rule.Matches w ∧ ∃ layout, registry.soundLayout rule = .ok layout ∧
      i = (Entry.ofRule rule.encoding rule layout).instruction w := by
  obtain ⟨g, e, found, rfl⟩ := decode_eq_instruction_iff.1 decoded
  obtain ⟨hit, -⟩ := built.ordered.find?_eq_some_iff.1 found
  obtain ⟨leaf, first, -, matched, layout, ok, rfl⟩ := built.rule_of_hit hit
  exact ⟨leaf.rule, first.mem, matched, layout, ok, rfl⟩

/-- A rule that matches and is outranked by none that does gives the instruction. -/
theorem Built.decode_eq (built : Built registry rules t) {rule : Rule} (mem : rule ∈ rules)
    (hit : rule.Matches w) (top : ∀ r ∈ rules, r.Matches w → ¬r.mask.Outranks rule.mask)
    {layout : Layout} (resolved : registry.soundLayout rule = .ok layout) :
    t.decode w = .instruction ((Entry.ofRule rule.encoding rule layout).instruction w) := by
  obtain ⟨g, e, first, mask⟩ := built.hit_of_matches mem hit
  have found := (built.find?_eq_some_iff first).2 (mask ▸ top)
  obtain ⟨leaf, place, mask', matched, layout', resolved', rfl⟩ := built.rule_of_hit first
  have rivals := Rule.rivals_of_matches (mask.symm.trans mask'.symm) hit matched
  have same := built.clear rule mem leaf.rule place.mem rivals
  have layouts := soundLayout_of_same same resolved
  rw [resolved'] at layouts
  cases layouts
  rw [decode, found]
  simp only [Entry.instruction, Entry.ofRule, (Rule.same_iff.1 same).1, rivals.1]

/-- Where rules are lossless and an operator is that of one rule, the operator and the operands of
an instruction determine its length and every bit of its encoding. -/
theorem Built.agree_of_operands_eq (built : Built registry rules t)
    (lossless : ∀ rule ∈ rules, ∀ layout, registry.soundLayout rule = .ok layout →
      rule.Lossless layout)
    (operators : ∀ a ∈ rules, ∀ b ∈ rules, a.operator = b.operator → a.same b = true)
    (hv : t.decode v = .instruction i) (hw : t.decode w = .instruction j)
    (operator : i.operator = j.operator) (operands : i.operands = j.operands) :
    i.length = j.length ∧ ∀ k < 8 * i.length, v.getLsbD k = w.getLsbD k := by
  obtain ⟨a, ha, match_a, layout, resolved, rfl⟩ := built.rule_of_decode hv
  obtain ⟨b, hb, match_b, layout', resolved', rfl⟩ := built.rule_of_decode hw
  have same := operators a ha b hb operator
  have layouts := soundLayout_of_same same resolved
  rw [resolved'] at layouts
  cases layouts
  have rivals := Rule.rivals_of_same same
  have values : ∀ f ∈ layout, f.extract v = f.extract w := by
    simpa [Entry.instruction, Entry.ofRule] using operands
  refine ⟨by simp only [Entry.instruction, Entry.ofRule, rivals.1], fun k inside => ?_⟩
  exact (lossless a ha layout resolved).agree (Registry.soundLayout_eq_ok_iff.1 resolved).2 match_a
    (rivals.matches_iff.2 match_b) values inside

/-- An instruction takes two bytes or four, and what lies above them in a word does not count. -/
def SelfDelimiting (t : Table) : Prop :=
  ∀ w i, t.decode w = .instruction i → (i.length = 2 ∨ i.length = 4) ∧
    ∀ v, (∀ k < 8 * i.length, v.getLsbD k = w.getLsbD k) →
      t.decode v = .instruction { i with word := v }

/-- What matches a word without the mark of a long encoding has nothing to do with the upper half. -/
theorem Built.hit_of_agree_low (built : Built registry rules t)
    (tells : ∀ rule ∈ rules, ∀ layout, registry.soundLayout rule = .ok layout →
      rule.TellsLength layout)
    (short : w &&& 3 ≠ 3) (low : ∀ k < 16, v.getLsbD k = w.getLsbD k) {g : Group} {e : Entry}
    (hit : t.Hit w g e) :
    t.Hit v g e ∧ e.length = 2 ∧ e.instruction v = { e.instruction w with word := v } := by
  obtain ⟨leaf, first, mask, matched, layout, resolved, rfl⟩ := built.rule_of_hit hit
  obtain ⟨lengths, two_iff⟩ := @encodedLength_eq leaf.rule.mask layout
    (Registry.soundLayout_eq_ok_iff.1 resolved).2
  have two := lengths.resolve_right
    (mt ((tells leaf.rule first.mem layout resolved).long_iff matched).1 short)
  have below := two_iff.1 two
  refine ⟨⟨hit.group, hit.entry, ?_⟩, two, ?_⟩
  · have agree : v &&& g.mask = w &&& g.mask := Word.and_eq_and_iff.2 fun k fixed =>
      low k (below k (.inl (mask ▸ fixed)))
    exact agree.trans hit.hits
  · have values : ∀ f ∈ layout, f.extract v = f.extract w := fun f mem =>
      f.extract_congr fun k reads => low k (below k (.inr ⟨f, mem, reads⟩))
    simpa [Entry.instruction, Entry.ofRule] using values

/-- A word without the mark of a long encoding decodes by its low half. -/
theorem Built.decode_of_agree_low (built : Built registry rules t)
    (tells : ∀ rule ∈ rules, ∀ layout, registry.soundLayout rule = .ok layout →
      rule.TellsLength layout)
    (short : w &&& 3 ≠ 3) (low : ∀ k < 16, v.getLsbD k = w.getLsbD k)
    (decoded : t.decode w = .instruction i) : t.decode v = .instruction { i with word := v } := by
  obtain ⟨g, e, found, rfl⟩ := decode_eq_instruction_iff.1 decoded
  obtain ⟨hit, top⟩ := built.ordered.find?_eq_some_iff.1 found
  obtain ⟨hit', -, same⟩ := built.hit_of_agree_low tells short low hit
  have short' : v &&& 3 ≠ 3 := by
    have mark : ∀ k, (3 : Word).getLsbD k = true → k < 16 :=
      Word.ushiftRight_eq_zero_iff.1 (by decide)
    have agree : v &&& 3 = w &&& 3 := Word.and_eq_and_iff.2 fun k bit => low k (mark k bit)
    rwa [agree]
  refine decode_eq_instruction_iff.2 ⟨g, e, built.ordered.find?_eq_some_iff.2 ⟨hit', ?_⟩, same⟩
  intro h x other
  exact top h x (built.hit_of_agree_low tells short' (fun k lt => (low k lt).symm) other).1

/-- A table whose rules tell the length of their encodings delimits its instructions. -/
theorem Built.selfDelimiting (built : Built registry rules t)
    (tells : ∀ rule ∈ rules, ∀ layout, registry.soundLayout rule = .ok layout →
      rule.TellsLength layout) : t.SelfDelimiting := by
  intro w i decoded
  obtain ⟨g, e, found, made⟩ := decode_eq_instruction_iff.1 decoded
  obtain ⟨hit, -⟩ := built.ordered.find?_eq_some_iff.1 found
  have length : i.length = e.length := by rw [← made, Entry.instruction]
  by_cases long : w &&& 3 = 3
  · have four : e.length = 4 := by
      obtain ⟨leaf, first, -, matched, layout, resolved, rfl⟩ := built.rule_of_hit hit
      exact ((tells leaf.rule first.mem layout resolved).long_iff matched).2 long
    refine ⟨.inr (length.trans four), fun v agree => ?_⟩
    rw [length, four] at agree
    have same : v = w := BitVec.eq_of_getLsbD_eq agree
    rw [same, decoded, ← made]
    rfl
  · have two := (built.hit_of_agree_low tells long (fun _ _ => rfl) hit).2.1
    refine ⟨.inl (length.trans two), fun v agree => ?_⟩
    rw [length, two] at agree
    exact built.decode_of_agree_low tells long agree decoded

end Table

end Opcodes
