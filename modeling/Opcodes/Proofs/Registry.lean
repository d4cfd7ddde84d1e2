import Opcodes.Proofs.Encoding
import Opcodes.Proofs.LaterRules
import Opcodes.Proofs.RuleOrder

/-!
# Layouts by combination of operands

A registry is a map from combinations of operand names, in which the order of the names does not count
but their number does. The last layout that is registered for a combination stays, and there are as
many layouts as combinations. So the order in which a rule declares its operands is seen in its error
messages and nowhere else: the rule resolves to one layout in every order, and a table decodes as
before when its rules declare their operands in another order.
-/
set_option autoImplicit false

namespace Opcodes

namespace Registry

variable {g : Registry} {names : List OperandName} {layout : Layout}
  {calls : List (List OperandName × Layout)}

theorem registerAll_append_singleton (g : Registry) (calls : List (List OperandName × Layout))
    (names : List OperandName) (layout : Layout) :
    g.registerAll (calls ++ [(names, layout)]) = (g.registerAll calls).register names layout := by
  rw [registerAll, List.foldl_append]
  rfl

/-- Of all calls for a combination the last one counts. -/
theorem find?_registerAll (g : Registry) (calls : List (List OperandName × Layout))
    (names : List OperandName) : (g.registerAll calls).find? names =
      ((calls.reverse.find? fun call => call.1.Perm names).map Prod.snd).or (g.find? names) := by
  induction calls using List.reverseRecOn with
  | nil => rfl
  | append_singleton calls call ih =>
    obtain ⟨last, layout⟩ := call
    rw [registerAll_append_singleton, find?_register, List.reverse_append, List.reverse_singleton,
      List.singleton_append, List.find?_cons]
    by_cases asked : last.Perm names
    · simp [asked]
    · simp [asked, ih]

/-- A combination is known if it was known before or one of the calls is for it. -/
theorem exists_find?_registerAll_iff : (∃ layout, (g.registerAll calls).find? names = some layout) ↔
    (∃ layout, g.find? names = some layout) ∨ ∃ call ∈ calls, call.1.Perm names := by
  simp only [← Option.isSome_iff_exists, find?_registerAll, Option.isSome_or, Option.isSome_map,
    Bool.or_eq_true, List.find?_isSome, List.mem_reverse, decide_eq_true_eq, or_comm]

/-- The keys are the known combinations, each in its order. -/
theorem mem_layouts_iff : OperandName.sort names ∈ g.layouts ↔ ∃ layout, g.find? names = some layout := by
  rw [← Option.isSome_iff_exists]
  exact Std.TreeMap.mem_iff_isSome_getElem?

/-- There are as many layouts as known combinations. -/
theorem exists_combinations (g : Registry) : ∃ combinations : Finset (Multiset OperandName),
    (∀ names : List OperandName, ↑names ∈ combinations ↔ ∃ layout, g.find? names = some layout) ∧
      g.size = combinations.card := by
  refine ⟨(g.layouts.keys.map Multiset.ofList).toFinset, fun names => ?_, ?_⟩
  · rw [List.mem_toFinset, List.mem_map, ← mem_layouts_iff]
    constructor
    · rintro ⟨key, mem, same⟩
      have known := Std.TreeMap.mem_keys.1 mem
      rwa [OperandName.sort_eq_sort_iff.2 (Multiset.coe_eq_coe.1 same.symm), g.sorted key known]
    · intro known
      exact ⟨_, Std.TreeMap.mem_keys.2 known, Multiset.coe_eq_coe.2 (OperandName.sort_perm names)⟩
  · have inj : ∀ a ∈ g.layouts.keys, ∀ b ∈ g.layouts.keys,
        Multiset.ofList a = Multiset.ofList b → a = b := by
      intro a ha b hb same
      rw [← g.sorted a (Std.TreeMap.mem_keys.1 ha), ← g.sorted b (Std.TreeMap.mem_keys.1 hb)]
      exact OperandName.sort_eq_sort_iff.2 (Multiset.coe_eq_coe.1 same)
    rw [List.toFinset_card_of_nodup (Std.TreeMap.nodup_keys.map_on inj), List.length_map,
      Std.TreeMap.length_keys, size]

end Registry

/-- The same rule with its operands declared in another order. -/
structure Rule.Redeclares (a b : Rule) : Prop where
  operator : a.operator = b.operator
  operands : a.operands.Perm b.operands
  constraints : a.constraints = b.constraints
  line : a.line = b.line

theorem Rule.Redeclares.same {a b : Rule} (h : a.Redeclares b) : a.same b = true := by
  refine same_iff.2 ⟨h.operator, ?_, ?_, h.operands⟩
  · rw [mask, mask, h.constraints]
  · rw [pattern, pattern, h.constraints]

/-- In every order the operands of a rule have one layout, or none. -/
theorem Registry.resolve_cases (g : Registry) {a b : Rule} (h : a.Redeclares b) :
    (∃ layout, g.resolve a = .ok layout ∧ g.resolve b = .ok layout) ∨
    (g.resolve a = .error (.unknownOperands a) ∧ g.resolve b = .error (.unknownOperands b)) := by
  have same := g.find?_perm h.operands
  cases known : g.find? a.operands with
  | some layout =>
    exact .inl ⟨layout, resolve_eq_ok_iff.2 known, resolve_eq_ok_iff.2 (same ▸ known)⟩
  | none =>
    exact .inr ⟨resolve_eq_error_iff.2 ⟨known, rfl⟩, resolve_eq_error_iff.2 ⟨same ▸ known, rfl⟩⟩

namespace Table

variable {registry : Registry} {rules rules' : List Rule} {t u : Table}

section Spellings

variable (related : List.Forall₂ (fun a b => Rule.same a b = true) rules rules')

include related

/-- A list builds if a list of other spellings of its rules does. -/
theorem exists_ofRules_of_same (ok : ofRules registry rules = .ok t) :
    ∃ u, ofRules registry rules' = .ok u := by
  obtain ⟨clear, usable⟩ := exists_ofRules_iff.1 ⟨t, ok⟩
  refine exists_ofRules_iff.2 ⟨fun a' ha' b' hb' rivals => ?_, fun rule' mem' => ?_⟩
  · obtain ⟨a, ha, same_a⟩ := exists_of_mem_right related ha'
    obtain ⟨b, hb, same_b⟩ := exists_of_mem_right related hb'
    have same : a.same b = true := clear a ha b hb
      (((Rule.rivals_of_same same_a).trans rivals).trans (Rule.rivals_of_same same_b).symm)
    exact Rule.same_trans (Rule.same_symm same_a) (Rule.same_trans same same_b)
  · obtain ⟨rule, mem, same⟩ := exists_of_mem_right related mem'
    obtain ⟨layout, resolved⟩ := Rule.usable_iff.1 (usable rule mem)
    exact Rule.usable_iff.2 ⟨layout, soundLayout_of_same same resolved⟩

/-- Tables of other spellings of the same rules decode alike. -/
theorem Built.decode_eq_of_same (built : Built registry rules t) (built' : Built registry rules' u)
    (w : Word) : t.decode w = u.decode w := by
  by_cases some_match : ∃ r ∈ rules, r.Matches w
  · obtain ⟨_, mem, hit⟩ := some_match
    obtain ⟨i, r, decides⟩ := built.exists_decides mem hit
    have mem := List.mem_of_getElem? decides.place
    obtain ⟨r', mem', same⟩ := exists_of_mem_left related mem
    obtain ⟨operator, mask, -⟩ := Rule.same_iff.1 same
    have hit' := (Rule.rivals_of_same same).matches_iff.1 decides.hit
    have top : ∀ s ∈ rules, s.Matches w → ¬s.mask.Outranks r.mask := fun s hs matched =>
      Rule.not_outranks_iff.2 (decides.greatest s hs matched)
    have top' : ∀ s' ∈ rules', s'.Matches w → ¬s'.mask.Outranks r'.mask := by
      intro s' hs' matched
      obtain ⟨s, hs, twin⟩ := exists_of_mem_right related hs'
      have rivals := Rule.rivals_of_same twin
      rw [← rivals.1, ← mask]
      exact top s hs (rivals.matches_iff.2 matched)
    obtain ⟨layout, resolved⟩ := built.resolved r mem
    rw [built.decode_eq mem decides.hit top resolved,
      built'.decode_eq mem' hit' top' (soundLayout_of_same same resolved)]
    simp only [Entry.instruction, Entry.ofRule, operator, mask]
  · have miss : ∀ r ∈ rules, ¬r.Matches w := fun r mem hit => some_match ⟨r, mem, hit⟩
    have miss' : ∀ r' ∈ rules', ¬r'.Matches w := by
      intro r' mem' hit'
      obtain ⟨r, mem, same⟩ := exists_of_mem_right related mem'
      exact miss r mem ((Rule.rivals_of_same same).matches_iff.2 hit')
    rw [decode, decode, built.find?_eq_none_iff.2 miss, built'.find?_eq_none_iff.2 miss']

end Spellings

end Table

namespace Registry

/-- A registry after any calls. A combination of names has the layout of the last call for it, in
whatever order the names stood there, and without one what it had before; there are as many layouts
as combinations that were registered before or by the calls. In every order the operands of a rule
resolve to one layout, sound or not, or to none; where they have none the error names the operands as
the rule declares them. So lists of rules that differ in the order of operands only build both
or not, and their tables decode every word to the same. -/
theorem registerAll_lastWrite (g : Registry) (calls : List (List OperandName × Layout)) :
    (∀ names, (g.registerAll calls).find? names =
      ((calls.reverse.find? fun call => call.1.Perm names).map Prod.snd).or (g.find? names)) ∧
    (∃ combinations : Finset (Multiset OperandName),
      (∀ names : List OperandName, ↑names ∈ combinations ↔
        (∃ layout, g.find? names = some layout) ∨ ∃ call ∈ calls, call.1.Perm names) ∧
      (g.registerAll calls).size = combinations.card) ∧
    (∀ names names', names.Perm names' → g.find? names = g.find? names') ∧
    (∀ rule rule' : Rule, rule.Redeclares rule' →
      (∃ layout, g.resolve rule = .ok layout ∧ g.resolve rule' = .ok layout) ∨
      (g.resolve rule = .error (.unknownOperands rule) ∧
        g.resolve rule' = .error (.unknownOperands rule'))) ∧
    ∀ rules rules', List.Forall₂ Rule.Redeclares rules rules' →
      ((∃ t, Table.ofRules g rules = .ok t) ↔ ∃ u, Table.ofRules g rules' = .ok u) ∧
      ∀ t u, Table.ofRules g rules = .ok t → Table.ofRules g rules' = .ok u →
        ∀ w, t.decode w = u.decode w := by
  refine ⟨find?_registerAll g calls, ?_, fun _ _ => g.find?_perm,
    fun _ _ => g.resolve_cases, fun rules rules' redeclare => ?_⟩
  · obtain ⟨combinations, mem_iff, card⟩ := (g.registerAll calls).exists_combinations
    refine ⟨combinations, fun names => ?_, card⟩
    rw [mem_iff, exists_find?_registerAll_iff]
  · have related := redeclare.imp fun _ _ h => h.same
    have related' := related.flip.imp fun _ _ => Rule.same_symm
    refine ⟨⟨fun ⟨_, ok⟩ => Table.exists_ofRules_of_same related ok,
      fun ⟨_, ok⟩ => Table.exists_ofRules_of_same related' ok⟩, fun t u ok ok' => ?_⟩
    exact (Table.built_of_ofRules ok).decode_eq_of_same related (Table.built_of_ofRules ok')

/-- Two calls for one combination, in different orders, and one for a name that is there twice. -/
def overlappingCalls : List (List OperandName × Layout) := [
  ([.rd, .rs2], []),
  ([.rd, .rd], []),
  ([.rs2, .rd], [⟨.imm, [⟨⟨31, 20⟩, 0⟩], 12, .signed⟩])]

/-- The rules of `nopRules`, the first of them with its operands in another order. -/
def reorderedRules : List Rule := [
  ⟨"addi", [.imm12, .rs1, .rd], [⟨⟨14, 12⟩, 0⟩, ⟨⟨6, 0⟩, 0x13⟩], 1⟩,
  ⟨"nop", [], [⟨⟨31, 7⟩, 0⟩, ⟨⟨6, 0⟩, 0x13⟩], 2⟩,
  ⟨"nop", [], [⟨⟨31, 0⟩, 0x13⟩], 3⟩]

theorem registerAll_overlappingCalls :
    (riscv.registerAll overlappingCalls).find? [.rd, .rs2] =
      some [⟨.imm, [⟨⟨31, 20⟩, 0⟩], 12, .signed⟩] ∧
    (riscv.registerAll overlappingCalls).find? [.rd] = none ∧
    (riscv.registerAll overlappingCalls).find? [.rs1, .rd, .imm12] =
      riscv.find? [.rd, .rs1, .imm12] ∧
    (∃ combinations : Finset (Multiset OperandName), {.rd, .rd} ∈ combinations ∧
      {.rd} ∉ combinations ∧ combinations.card = riscv.size + 2) ∧
    ∃ t u, Table.ofRules .riscv Table.nopRules = .ok t ∧
      Table.ofRules .riscv reorderedRules = .ok u ∧ ∀ w, t.decode w = u.decode w := by
  obtain ⟨last, ⟨combinations, mem_iff, card⟩, order, -, decoding⟩ :=
    registerAll_lastWrite riscv overlappingCalls
  have redeclare : List.Forall₂ Rule.Redeclares Table.nopRules reorderedRules :=
    .cons ⟨rfl, by decide, rfl, rfl⟩ (.cons ⟨rfl, .refl _, rfl, rfl⟩
      (.cons ⟨rfl, .refl _, rfl, rfl⟩ .nil))
  obtain ⟨builds, agree⟩ := decoding _ _ redeclare
  obtain ⟨t, ok⟩ := Table.exists_ofRules_nopRules
  obtain ⟨u, ok'⟩ := builds.1 ⟨t, ok⟩
  have unknown : riscv.find? [.rd] = none := by decide +kernel
  refine ⟨(last _).trans (by decide +kernel), (last _).trans (by decide +kernel), ?_,
    ⟨combinations, (mem_iff [.rd, .rd]).2 (.inr ⟨([.rd, .rd], []), by decide, .refl _⟩), ?_, ?_⟩,
    t, u, ok, ok', agree t u ok ok'⟩
  · rw [order [.rd, .rs1, .imm12] [.rs1, .rd, .imm12] (by decide)]
    exact (last _).trans (by decide +kernel)
  · refine mt (mem_iff [.rd]).1 ?_
    rw [unknown]
    simp [overlappingCalls]
  · rw [← card]
    decide +kernel

/-- A rule whose operands have no layout together. -/
def moveRule (operands : List OperandName) : Rule := ⟨"move", operands, [⟨⟨6, 0⟩, 0x0B⟩], 1⟩

/-- An error names the operands in the order of the rule, so it is not the same in every order. -/
theorem resolve_moveRule_ne : (moveRule [.rd, .rs2]).Redeclares (moveRule [.rs2, .rd]) ∧
    (∃ e, riscv.resolve (moveRule [.rd, .rs2]) = .error e ∧
      e.message = "no operand layout for `move` with operands (rd rs2)") ∧
    (∃ e, riscv.resolve (moveRule [.rs2, .rd]) = .error e ∧
      e.message = "no operand layout for `move` with operands (rs2 rd)") ∧
    riscv.resolve (moveRule [.rd, .rs2]) ≠ riscv.resolve (moveRule [.rs2, .rd]) := by
  have first : riscv.resolve (moveRule [.rd, .rs2]) =
      .error (.unknownOperands (moveRule [.rd, .rs2])) := by decide +kernel
  have second : riscv.resolve (moveRule [.rs2, .rd]) =
      .error (.unknownOperands (moveRule [.rs2, .rd])) := by decide +kernel
  refine ⟨⟨rfl, by decide, rfl, rfl⟩, ⟨_, first, by decide +kernel⟩,
    ⟨_, second, by decide +kernel⟩, ?_⟩
  rw [first, second]
  decide

end Registry

end Opcodes
