import Opcodes.Layout.Stepwise
import Opcodes.Proofs.FieldValue
import Opcodes.Proofs.Outcome

/-!
# The faults of a layout

A layout is checked field by field and slice by slice, and the first fault ends the check. `Sound`
says in plain numbers what a slice or a field must be, and `Faulty` when a fault is true of it, so
that of two faults of a slice or a field one has precedence. Whatever numbers a layout holds, the
check gets to its end in steps that are all in range: where the end of a slice would lie beyond the
largest number of a word, its target alone is above the width.
-/
set_option autoImplicit false

namespace Opcodes

theorem difference?_eq_some {a b : Nat} (le : b ≤ a) : difference? a b = some (a - b) := if_pos le

namespace Slice

variable {s : Slice} {width : Nat} {fault : LayoutFault}

/-- The slice lies in the word and its place ends at the width or below. -/
def Sound (width : Nat) (s : Slice) : Prop :=
  s.source.InWord ∧ s.target + (s.source.hi - s.source.lo + 1) ≤ width

instance (width : Nat) (s : Slice) : Decidable (Sound width s) :=
  inferInstanceAs (Decidable (_ ∧ _))

/-- The fault is true of the slice. A slice outside the word does not count as too long. -/
inductive Faulty (width : Nat) (s : Slice) : LayoutFault → Prop where
  | outOfWord (outside : ¬s.source.InWord) : Faulty width s (.outOfWord s.source)
  | overrun (inside : s.source.InWord) (long : width < s.target + (s.source.hi - s.source.lo + 1)) :
      Faulty width s (.overrun s width)

theorem width_source (inside : s.source.InWord) :
    s.source.width = s.source.hi - s.source.lo + 1 := by
  have ordered := inside.1
  unfold BitRange.width
  omega

theorem fault?_eq_none_iff_sound : s.fault? width = none ↔ s.Sound width := by
  rw [fault?_eq_none_iff, Sound]
  refine and_congr_right fun inside => ?_
  rw [width_source inside]

theorem fault?_eq_some_iff : s.fault? width = some fault ↔ s.Faulty width fault := by
  unfold fault?
  split
  · rename_i outside
    rw [Option.some.injEq]
    constructor
    · rintro rfl
      exact .outOfWord outside
    · rintro (- | ⟨inside, -⟩)
      · rfl
      · exact absurd inside outside
  · rename_i inside
    have inside : s.source.InWord := not_not.1 inside
    rw [width_source inside]
    split
    · rename_i overrun
      rw [Option.some.injEq]
      constructor
      · rintro rfl
        exact .overrun inside (by omega)
      · rintro (outside | -)
        · exact absurd inside outside
        · rfl
    · rename_i fits
      refine iff_of_false nofun ?_
      rintro (outside | ⟨-, long⟩)
      · exact outside inside
      · omega

/-- The check of a slice takes no step out of range. -/
theorem check?_eq (width : Nat) (s : Slice) : s.check? width = some (s.fault? width) := by
  have outside_iff : (s.source.hi < s.source.lo ∨ 32 ≤ s.source.hi) ↔ ¬s.source.InWord := by
    unfold BitRange.InWord
    omega
  rw [check?, fault?]
  simp only [outside_iff]
  by_cases inside : s.source.InWord
  · have small := inside.2
    have length : sum? (s.source.hi - s.source.lo) 1 = some (s.source.hi - s.source.lo + 1) :=
      if_pos (by omega)
    rw [if_neg (not_not.2 inside), if_neg (not_not.2 inside), width_source inside,
      difference?_eq_some inside.1]
    simp only [Option.bind_eq_bind, Option.bind_some, length]
    by_cases above : width < s.target
    · rw [if_pos above, if_pos (.inl above)]
      rfl
    · rw [if_neg above, difference?_eq_some (Nat.le_of_not_lt above), Option.bind_some]
      simp only [above, false_or]
      split <;> rfl
  · rw [if_pos inside, if_pos inside]

end Slice

/-- A search takes no step out of range when the test of each element takes none. -/
theorem findSomeM?_eq_some {α β : Type} {f : α → Option (Option β)} {g : α → Option β}
    (each : ∀ a, f a = some (g a)) (as : List α) : as.findSomeM? f = some (as.findSome? g) := by
  rw [funext each]
  exact List.findSomeM?_pure

namespace FieldLayout

variable {f : FieldLayout} {fault : LayoutFault}

/-- The width is one of a word, and every slice is sound for it. -/
def Sound (f : FieldLayout) : Prop :=
  (1 ≤ f.width ∧ f.width ≤ 32) ∧ ∀ s ∈ f.slices, s.Sound f.width

instance (f : FieldLayout) : Decidable f.Sound := inferInstanceAs (Decidable (_ ∧ _))

/-- The fault is the first of the field: of its width, else of the first slice that is not sound. -/
inductive Faulty (f : FieldLayout) : LayoutFault → Prop where
  | width (outside : ¬(1 ≤ f.width ∧ f.width ≤ 32)) : Faulty f (.width f.width)
  | slice {before after : List Slice} {s : Slice} {fault : LayoutFault}
      (inside : 1 ≤ f.width ∧ f.width ≤ 32) (split : f.slices = before ++ s :: after)
      (sound : ∀ x ∈ before, x.Sound f.width) (faulty : s.Faulty f.width fault) : Faulty f fault

theorem fault?_eq_none_iff_sound : f.fault? = none ↔ f.Sound := by
  unfold fault? Sound
  split
  · rename_i outside
    refine iff_of_false nofun fun sound => ?_
    have inside := sound.1
    omega
  · rename_i inside
    rw [List.findSome?_eq_none_iff]
    simp only [Slice.fault?_eq_none_iff_sound]
    exact (and_iff_right (by omega)).symm

theorem fault?_eq_some_iff : f.fault? = some fault ↔ f.Faulty fault := by
  unfold fault?
  split
  · rename_i outside
    rw [Option.some.injEq]
    constructor
    · rintro rfl
      exact .width (by omega)
    · rintro (- | inside)
      · rfl
      · omega
  · rename_i inside
    rw [List.findSome?_eq_some_iff]
    simp only [Slice.fault?_eq_some_iff, Slice.fault?_eq_none_iff_sound]
    constructor
    · rintro ⟨before, s, after, split, faulty, sound⟩
      exact .slice (by omega) split sound faulty
    · rintro (outside | ⟨-, split, sound, faulty⟩)
      · omega
      · exact ⟨_, _, _, split, faulty, sound⟩

/-- The check of a field takes no step out of range. -/
theorem check?_eq (f : FieldLayout) : f.check? = some f.fault? := by
  rw [check?, fault?]
  split
  · rfl
  · exact findSomeM?_eq_some (Slice.check?_eq f.width) f.slices

end FieldLayout

namespace Layout

variable {l : Layout} {registry : Registry} {rule : Rule}

/-- The check of a layout takes no step out of range. -/
theorem check?_eq (l : Layout) : l.check? = some l.fault? :=
  findSomeM?_eq_some (fun f => by rw [f.check?_eq, Option.map_some]) l

theorem fault?_eq_some_iff_faulty {field : Field} {fault : LayoutFault} :
    l.fault? = some (field, fault) ↔ ∃ before f after, l = before ++ f :: after ∧
      (∀ x ∈ before, x.Sound) ∧ f.field = field ∧ f.Faulty fault := by
  simp only [fault?_eq_some_iff, FieldLayout.fault?_eq_none_iff_sound,
    FieldLayout.fault?_eq_some_iff]

/-- A rule whose operands have a layout fails just when the layout does not pass the check. -/
theorem soundLayout_eq_error_iff_check (found : registry.find? rule.operands = some l)
    {e : BuildError} : registry.soundLayout rule = .error e ↔ l.check rule = .error e := by
  have resolved := Registry.resolve_eq_ok_iff.2 found
  simp only [Registry.soundLayout_eq_error_iff, resolved, Except.ok.injEq, exists_eq_left',
    reduceCtorEq, false_or]

/-- The check of a field and of a layout, whatever numbers they hold. All its steps are in range. A
field passes just when it is sound: its width is one of a word, and each slice lies in the word and
ends at the width or below. Otherwise the fault is that of its width, or else of the first slice that
is not sound, where a slice outside the word does not count as too long. A layout passes for a rule
just when all its fields do, and otherwise the error has the rule, the first faulty field and the
fault of that. A rule whose operands have the layout gets it if it passes, and else that error. -/
theorem check?_exact (f : FieldLayout) (l : Layout) :
    (f.check? = some f.fault? ∧ (f.fault? = none ↔ f.Sound) ∧
      ∀ fault, f.fault? = some fault ↔ f.Faulty fault) ∧
    (l.check? = some l.fault? ∧ (l.fault? = none ↔ ∀ f ∈ l, f.Sound) ∧
      ∀ field fault, l.fault? = some (field, fault) ↔ ∃ before f after, l = before ++ f :: after ∧
        (∀ x ∈ before, x.Sound) ∧ f.field = field ∧ f.Faulty fault) ∧
    (∀ rule : Rule, (l.check rule = .ok () ↔ ∀ f ∈ l, f.Sound) ∧
      ∀ e, l.check rule = .error e ↔
        ∃ field fault, l.fault? = some (field, fault) ∧ e = .invalidLayout rule field fault) ∧
    ∀ (registry : Registry) (rule : Rule), registry.find? rule.operands = some l →
      (∀ layout, registry.soundLayout rule = .ok layout ↔ layout = l ∧ ∀ f ∈ l, f.Sound) ∧
      ∀ e, registry.soundLayout rule = .error e ↔
        ∃ field fault, l.fault? = some (field, fault) ∧ e = .invalidLayout rule field fault := by
  have passes : l.fault? = none ↔ ∀ f ∈ l, f.Sound := by
    simp only [fault?_eq_none_iff, FieldLayout.fault?_eq_none_iff_sound]
  refine ⟨⟨f.check?_eq, FieldLayout.fault?_eq_none_iff_sound, fun _ =>
    FieldLayout.fault?_eq_some_iff⟩, ⟨l.check?_eq, passes, fun _ _ => fault?_eq_some_iff_faulty⟩,
    fun rule => ⟨check_eq_ok_iff.trans passes, fun _ => check_eq_error_iff⟩,
    fun registry rule found => ⟨fun layout => ?_, fun _ =>
      (soundLayout_eq_error_iff_check found).trans check_eq_error_iff⟩⟩
  rw [Registry.soundLayout_eq_ok_iff, found, Option.some.injEq, ← passes]
  constructor
  · rintro ⟨rfl, sound⟩
    exact ⟨rfl, sound⟩
  · rintro ⟨rfl, sound⟩
    exact ⟨rfl, sound⟩

/-- A field that takes the whole word and one whose second slice is put at the largest number. -/
def brimLayout : Layout := [
  ⟨.imm, [⟨⟨31, 0⟩, 0⟩], 32, .signed⟩,
  ⟨.shamt, [⟨⟨4, 0⟩, 0⟩, ⟨⟨7, 7⟩, 0xFFFFFFFF⟩, ⟨⟨3, 7⟩, 0⟩], 32, .unsigned⟩]

def brimRule : Rule := ⟨"brim", [.imm20], [⟨⟨1, 0⟩, 3⟩], 1⟩

theorem check?_brimLayout :
    brimLayout.check? = some (some (.shamt, .overrun ⟨⟨7, 7⟩, 0xFFFFFFFF⟩ 32)) ∧
    FieldLayout.fault? ⟨.imm, [⟨⟨3, 7⟩, 40⟩], 32, .unsigned⟩ = some (.outOfWord ⟨3, 7⟩) ∧
    brimLayout.check brimRule =
      .error (.invalidLayout brimRule .shamt (.overrun ⟨⟨7, 7⟩, 0xFFFFFFFF⟩ 32)) ∧
    (Registry.empty.register [.imm20] brimLayout).soundLayout brimRule =
      .error (.invalidLayout brimRule .shamt (.overrun ⟨⟨7, 7⟩, 0xFFFFFFFF⟩ 32)) := by
  obtain ⟨⟨-, -, faults⟩, ⟨steps, -, first⟩, checks, gets⟩ :=
    check?_exact ⟨.imm, [⟨⟨3, 7⟩, 40⟩], 32, .unsigned⟩ brimLayout
  have fault : brimLayout.fault? = some (.shamt, .overrun ⟨⟨7, 7⟩, 0xFFFFFFFF⟩ 32) := by
    refine (first _ _).2 ⟨[_], _, [], rfl, by decide, rfl, ?_⟩
    have split : [(⟨⟨4, 0⟩, 0⟩ : Slice), ⟨⟨7, 7⟩, 0xFFFFFFFF⟩, ⟨⟨3, 7⟩, 0⟩] = [_] ++ _ :: _ := rfl
    exact .slice (by decide) split (by decide) (.overrun (by decide) (by decide))
  have found : (Registry.empty.register [.imm20] brimLayout).find? brimRule.operands =
      some brimLayout := by
    rw [Registry.find?_register]
    exact if_pos (.refl _)
  refine ⟨steps.trans (congrArg some fault), (faults _).2 ?_,
    ((checks brimRule).2 _).2 ⟨_, _, fault, rfl⟩, ((gets _ _ found).2 _).2 ⟨_, _, fault, rfl⟩⟩
  have split : [(⟨⟨3, 7⟩, 40⟩ : Slice)] = [] ++ _ :: _ := rfl
  exact .slice (by decide) split nofun (.outOfWord (by decide))

end Layout

end Opcodes
