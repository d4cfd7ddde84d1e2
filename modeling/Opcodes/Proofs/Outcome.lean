import Opcodes.Proofs.Build
import Opcodes.Proofs.Layout

/-!
# What a build comes to

A build has one of three outcomes. Rivals that are not spellings of one rule end it with conflicts,
whatever else is wrong; else a rule without a usable layout ends it with an error that is true of
such a rule; else there is a table. Only the first rule with an encoding is ever looked up, and that
is enough: without a conflict the rules behind it share its operands and so its layout.
-/
set_option autoImplicit false

namespace Opcodes

section Lists

variable {α β ε : Type}

/-- A walk through a list fails at the first element that does. -/
theorem exists_split_of_mapM_eq_error {f : α → Except ε β} {as : List α} {e : ε}
    (h : as.mapM f = .error e) :
    ∃ before a after, as = before ++ a :: after ∧ (∀ x ∈ before, ∃ b, f x = .ok b) ∧
      f a = .error e := by
  induction as with
  | nil => cases h
  | cons a as ih =>
    rw [List.mapM_cons, bind_eq_error_iff] at h
    rcases h with first | ⟨b, ok, h⟩
    · exact ⟨[], a, as, rfl, by simp, first⟩
    · rcases bind_eq_error_iff.1 h with later | ⟨bs, -, done⟩
      · obtain ⟨before, x, after, rfl, sound, fails⟩ := ih later
        exact ⟨a :: before, x, after, rfl, List.forall_mem_cons.2 ⟨⟨b, ok⟩, sound⟩, fails⟩
      · cases done

end Lists

theorem Layout.fault?_eq_some_iff {l : Layout} {field : Field} {fault : LayoutFault} :
    l.fault? = some (field, fault) ↔ ∃ before f after, l = before ++ f :: after ∧
      (∀ x ∈ before, x.fault? = none) ∧ f.field = field ∧ f.fault? = some fault := by
  rw [fault?, List.findSome?_eq_some_iff]
  simp only [Option.map_eq_some_iff, Option.map_eq_none_iff, Prod.mk.injEq]
  constructor
  · rintro ⟨before, f, after, split, ⟨_, found, field, rfl⟩, sound⟩
    exact ⟨before, f, after, split, sound, field, found⟩
  · rintro ⟨before, f, after, split, sound, field, found⟩
    exact ⟨before, f, after, split, ⟨fault, found, field, rfl⟩, sound⟩

namespace Rule

variable {registry : Registry} {rules : List Rule} {rule : Rule} {e : BuildError}

/-- Rivals are spellings of one rule. -/
def Clear (rules : List Rule) : Prop := ∀ a ∈ rules, ∀ b ∈ rules, a.Rivals b → a.same b = true

instance (rules : List Rule) : Decidable (Clear rules) :=
  inferInstanceAs (Decidable (∀ a ∈ rules, ∀ b ∈ rules, _))

/-- The rule's operands are registered with a layout of which no field has a fault. -/
def Usable (registry : Registry) (rule : Rule) : Prop :=
  ∃ layout, registry.find? rule.operands = some layout ∧ ∀ f ∈ layout, f.fault? = none

instance (registry : Registry) (rule : Rule) : Decidable (Usable registry rule) :=
  inferInstanceAs (Decidable (∃ layout, _ = some layout ∧ _))

/-- The error is true of the rule: its operands are not registered, or it names the first field of
their layout that has a fault, and the fault. -/
inductive Blames (registry : Registry) (rule : Rule) : BuildError → Prop
  | unknownOperands (unknown : registry.find? rule.operands = none) :
      Blames registry rule (.unknownOperands rule)
  | invalidLayout {before after : Layout} {f : FieldLayout} {fault : LayoutFault}
      (known : registry.find? rule.operands = some (before ++ f :: after))
      (sound : ∀ x ∈ before, x.fault? = none) (found : f.fault? = some fault) :
      Blames registry rule (.invalidLayout rule f.field fault)

theorem usable_iff : rule.Usable registry ↔ ∃ layout, registry.soundLayout rule = .ok layout := by
  simp only [Usable, Registry.soundLayout_eq_ok_iff, Layout.fault?_eq_none_iff]

theorem Blames.not_usable (blames : rule.Blames registry e) : ¬rule.Usable registry := by
  rintro ⟨layout, known, sound⟩
  cases blames with
  | unknownOperands unknown =>
    rw [unknown] at known
    cases known
  | @invalidLayout before after f fault known' _ found =>
    rw [known', Option.some.injEq] at known
    subst known
    rw [sound f (List.mem_append_right _ List.mem_cons_self)] at found
    cases found

theorem blames_of_soundLayout (failed : registry.soundLayout rule = .error e) :
    rule.Blames registry e := by
  rcases Registry.soundLayout_eq_error_iff.1 failed with unresolved | ⟨layout, resolved, faulty⟩
  · obtain ⟨unknown, rfl⟩ := Registry.resolve_eq_error_iff.1 unresolved
    exact .unknownOperands unknown
  · obtain ⟨field, fault, first, rfl⟩ := Layout.check_eq_error_iff.1 faulty
    obtain ⟨before, f, after, rfl, sound, rfl, found⟩ := Layout.fault?_eq_some_iff.1 first
    exact .invalidLayout (Registry.resolve_eq_ok_iff.1 resolved) sound found

end Rule

/-- A tree fails to become a group at its first leaf whose layout fails. -/
theorem Group.exists_split_of_ofTree_eq_error {registry : Registry} {mask : Word} {t : MaskTree mask}
    {e : BuildError} (failed : ofTree registry t = .error e) :
    ∃ before leaf after, t.leaves = before ++ leaf :: after ∧
      (∀ x ∈ before, x.2.rule.Usable registry) ∧ registry.soundLayout leaf.2.rule = .error e := by
  rw [ofTree, bind_eq_error_iff] at failed
  rcases failed with failed | ⟨entries, -, done⟩
  · obtain ⟨before, leaf, after, split, sound, failed⟩ := exists_split_of_mapM_eq_error failed
    refine ⟨before, leaf, after, split, fun x mem => ?_, ?_⟩
    · obtain ⟨e, made⟩ := sound x mem
      obtain ⟨layout, ok, -⟩ := bind_eq_ok_iff.1 made
      exact Rule.usable_iff.2 ⟨layout, ok⟩
    · exact (bind_eq_error_iff.1 failed).resolve_right fun h => by
        obtain ⟨layout, -, done⟩ := h
        cases done
  · cases done

namespace Table

variable {registry : Registry} {rules : List Rule} {e : BuildError} {conflicts : List Conflict}

/-- A list without a conflict fails to build only by a rule that has the fault. -/
theorem exists_blames_of_ofRules (clear : (Forest.ofRules rules).conflicts = [])
    (failed : ofRules registry rules = .error e) : ∃ rule ∈ rules, rule.Blames registry e := by
  simp only [ofRules, clear, ne_eq, not_true_eq_false, if_false] at failed
  rcases bind_eq_error_iff.1 failed with failed | ⟨groups, -, done⟩
  · obtain ⟨smaller, ⟨mask, tree⟩, larger, trees, -, failed⟩ := exists_split_of_mapM_eq_error failed
    obtain ⟨lower, ⟨p, leaf⟩, higher, leaves, -, failed⟩ :=
      Group.exists_split_of_ofTree_eq_error failed
    have planted : (Forest.ofRules rules).trees.get? mask = some tree :=
      Std.DTreeMap.mem_toList_iff_get?_eq_some.1 (by simp [trees])
    have listed : (p, leaf) ∈ tree.leaves := by simp [leaves]
    obtain ⟨first, -, -⟩ := (Forest.mem_leaves_ofRules_iff planted).1 listed
    exact ⟨leaf.rule, first.mem, Rule.blames_of_soundLayout failed⟩
  · cases done

/-- A build ends with conflicts just when the merge has some, and then with all of them. -/
theorem ofRules_eq_conflicts_iff : ofRules registry rules = .error (.conflicts conflicts) ↔
    (Forest.ofRules rules).conflicts = conflicts ∧ conflicts ≠ [] := by
  by_cases clear : (Forest.ofRules rules).conflicts = []
  · refine iff_of_false (fun failed => ?_) fun h => h.2 (h.1 ▸ clear)
    obtain ⟨rule, -, blames⟩ := exists_blames_of_ofRules clear failed
    cases blames
  · rw [ofRules, if_pos clear, Except.error.injEq, BuildError.conflicts.injEq]
    exact ⟨fun eq => ⟨eq, eq ▸ clear⟩, And.left⟩

/-- A list of rules builds a table just when rivals are spellings of one rule and every rule has a
usable layout, the repeated ones too. -/
theorem exists_ofRules_iff : (∃ t, ofRules registry rules = .ok t) ↔
    Rule.Clear rules ∧ ∀ rule ∈ rules, rule.Usable registry := by
  constructor
  · rintro ⟨t, ok⟩
    have built := built_of_ofRules ok
    exact ⟨built.clear, fun rule mem => Rule.usable_iff.2 (built.resolved rule mem)⟩
  · rintro ⟨clear, usable⟩
    cases result : ofRules registry rules with
    | ok t => exact ⟨t, rfl⟩
    | error e =>
      have clear := (Forest.conflicts_ofRules_eq_nil_iff rules).2 clear
      obtain ⟨rule, mem, blames⟩ := exists_blames_of_ofRules clear result
      exact absurd (usable rule mem) blames.not_usable

/-- A build has three outcomes: a table just when rivals are spellings of one rule and every rule
has a usable layout; conflicts whenever some rivals are not; and where only layouts are at fault, an
error that is true of a rule of the list. -/
theorem ofRules_outcome (registry : Registry) (rules : List Rule) :
    ((∃ t, ofRules registry rules = .ok t) ↔
      Rule.Clear rules ∧ ∀ rule ∈ rules, rule.Usable registry) ∧
    (¬Rule.Clear rules → ∃ cs, cs ≠ [] ∧ ofRules registry rules = .error (.conflicts cs)) ∧
    (Rule.Clear rules → (¬∀ rule ∈ rules, rule.Usable registry) →
      ∃ rule ∈ rules, ∃ e, rule.Blames registry e ∧ ofRules registry rules = .error e) := by
  have clear_iff := Forest.conflicts_ofRules_eq_nil_iff rules
  refine ⟨exists_ofRules_iff, fun rivals => ?_, fun clear unusable => ?_⟩
  · have conflicts := mt clear_iff.1 rivals
    exact ⟨_, conflicts, by rw [ofRules, if_pos conflicts]⟩
  · cases result : ofRules registry rules with
    | ok t => exact absurd (exists_ofRules_iff.1 ⟨t, result⟩).2 unusable
    | error e =>
      obtain ⟨rule, mem, blames⟩ := exists_blames_of_ofRules (clear_iff.2 clear) result
      exact ⟨rule, mem, e, blames, rfl⟩

/-- Two spellings of a rule whose operand has no layout by itself. -/
def strayRules : List Rule := [
  ⟨"jump", [.rd], [⟨⟨6, 0⟩, 0x6F⟩], 1⟩,
  ⟨"jump", [.rd], [⟨⟨6, 4⟩, 6⟩, ⟨⟨3, 0⟩, 0xF⟩], 2⟩]

theorem ofRules_strayRules : (∃ t, ofRules .riscv nopRules = .ok t) ∧
    (∃ rule ∈ strayRules, ∃ e, rule.Blames .riscv e ∧ ofRules .riscv strayRules = .error e) ∧
    ∃ cs, cs ≠ [] ∧
      ofRules .riscv (⟨"leap", [], [⟨⟨6, 0⟩, 0x6F⟩], 0⟩ :: strayRules) = .error (.conflicts cs) := by
  refine ⟨(ofRules_outcome .riscv nopRules).1.2 ?_, (ofRules_outcome .riscv strayRules).2.2 ?_ ?_,
    (ofRules_outcome .riscv (_ :: strayRules)).2.1 ?_⟩
  · decide +kernel
  · decide +kernel
  · decide +kernel
  · decide +kernel

end Table

end Opcodes
