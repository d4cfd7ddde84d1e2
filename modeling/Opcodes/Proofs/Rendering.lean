import Opcodes.Proofs.Diagnostics
import Opcodes.Proofs.Encoding
import Opcodes.Proofs.Printing

/-!
# What the text of a decoded word tells

The text of an instruction can be taken apart again. The operator has no blank, so it ends at the
first space; no operand has a comma, so the commas stand between the operands; no field has an
equals sign, so what stands behind the first one is the value. The field says how the value is
written, and each of the three forms has one value for a text. An illegal word has no equals sign
behind its space, where an instruction has one. So the text tells the operator and the operands of
an instruction, or the illegal word (`Decoded.render_eq_iff`).
-/
set_option autoImplicit false

namespace Opcodes

/-- Lists are told apart by the images of their elements if the elements are. -/
theorem eq_of_map_eq_map {α β : Type} {f : α → β} {as bs : List α}
    (apart : ∀ a ∈ as, ∀ b ∈ bs, f a = f b → a = b) (h : as.map f = bs.map f) : as = bs := by
  induction as generalizing bs with
  | nil => exact (List.map_eq_nil_iff.1 h.symm).symm
  | cons a as ih =>
    obtain ⟨b, bs, rfl, head, tail⟩ := List.map_eq_cons_iff.1 h.symm
    have first := apart a List.mem_cons_self b List.mem_cons_self head.symm
    have rest := ih (fun a ha b hb =>
      apart a (List.mem_cons_of_mem _ ha) b (List.mem_cons_of_mem _ hb)) tail.symm
    rw [first, rest]

namespace Text

variable {c : Char} {gap as bs as' bs' : List Char} {css dss : List (List Char)}

/-- Two texts are cut alike at the first place of a character. -/
theorem eq_and_eq_of_append_cons_eq (absent : c ∉ as) (absent' : c ∉ bs)
    (h : as ++ c :: as' = bs ++ c :: bs') : as = bs ∧ as' = bs' := by
  have cut : cut? [c] (as ++ c :: as') = some (as, as') :=
    cut?_singleton_eq_some_iff.2 ⟨rfl, absent⟩
  rw [h, cut?_singleton_eq_some_iff.2 ⟨rfl, absent'⟩, Option.some.injEq, Prod.mk.injEq] at cut
  exact ⟨cut.1.symm, cut.2.symm⟩

/-- Tokens without the first character of the separator are told apart in the joined text. -/
theorem eq_of_intercalate_eq (plain : ∀ cs ∈ css, c ∉ cs) (plain' : ∀ ds ∈ dss, c ∉ ds)
    (nonempty : css ≠ []) (nonempty' : dss ≠ [])
    (h : (c :: gap).intercalate css = (c :: gap).intercalate dss) : css = dss := by
  induction css generalizing dss with
  | nil => exact absurd rfl nonempty
  | cons cs css ih =>
    obtain ⟨head, tail⟩ := List.forall_mem_cons.1 plain
    cases dss with
    | nil => exact absurd rfl nonempty'
    | cons ds dss =>
      obtain ⟨head', tail'⟩ := List.forall_mem_cons.1 plain'
      cases css with
      | nil =>
        cases dss with
        | nil => rw [List.intercalate_singleton, List.intercalate_singleton] at h; rw [h]
        | cons ds' dss =>
          rw [List.intercalate_singleton, List.intercalate_cons_cons] at h
          exact absurd (by simp [h]) head
      | cons cs' css =>
        cases dss with
        | nil =>
          rw [List.intercalate_singleton, List.intercalate_cons_cons] at h
          exact absurd (by simp [← h]) head'
        | cons ds' dss =>
          rw [List.intercalate_cons_cons, List.intercalate_cons_cons, List.append_assoc,
            List.append_assoc, List.cons_append, List.cons_append] at h
          obtain ⟨first, rest⟩ := eq_and_eq_of_append_cons_eq head head' h
          rw [first, ih tail tail' (List.cons_ne_nil _ _) (List.cons_ne_nil _ _)
            (List.append_cancel_left rest)]

end Text

namespace Numeral

variable {radix m n width : Nat} {cs : List Char} {c : Char}

/-- Digits stand for one number. -/
theorem Digits.unique (hm : Digits radix cs m) (hn : Digits radix cs n) : m = n := by
  obtain ⟨-, ds, digits, rfl⟩ := hm
  obtain ⟨-, ds', digits', rfl⟩ := hn
  have functional : Relator.RightUnique fun c d => digit? radix c = some d := by
    intro c d d' hd hd'
    exact Option.some.inj (hd.symm.trans hd')
  rw [List.right_unique_forall₂' functional digits digits']

/-- Zeros in front do not change the number. -/
theorem Digits.leftpad (radix_pos : 0 < radix) (number : Digits radix cs n) (width : Nat) :
    Digits radix (cs.leftpad width '0') n := by
  obtain ⟨nonempty, ds, digits, rfl⟩ := number
  have zero : digit? radix '0' = some 0 := by simp [digit?, radix_pos]
  refine ⟨fun h => nonempty (List.append_eq_nil_iff.1 h).2,
    List.replicate (width - cs.length) 0 ++ ds, ?_, ?_⟩
  · refine List.rel_append ?_ digits
    induction width - cs.length with
    | zero => exact .nil
    | succ k ih => exact .cons zero ih
  · rw [List.reverse_append, List.reverse_replicate, Nat.ofDigits_append_replicate_zero]

/-- Hexadecimal is a mark and the digits of the number. -/
theorem exists_hexPadded_eq (width n : Nat) :
    ∃ ds, (hexPadded width n).toList = '0' :: 'x' :: ds ∧ Digits 16 ds n :=
  ⟨_, by simp [hexPadded], (digits_toDigits (by decide) (by decide) n).leftpad (by decide) width⟩

theorem hexPadded_inj (h : hexPadded width m = hexPadded width n) : m = n := by
  obtain ⟨ds, hm, number⟩ := exists_hexPadded_eq width m
  obtain ⟨ds', hn, number'⟩ := exists_hexPadded_eq width n
  rw [h, hn] at hm
  obtain rfl : ds' = ds := by simpa using hm
  exact number.unique number'

/-- A character that is no digit and not the letter of the mark does not stand in hexadecimal. -/
theorem not_mem_hexPadded (letter : digit? 16 c = none) (ne : c ≠ 'x') (width n : Nat) :
    c ∉ (hexPadded width n).toList := by
  obtain ⟨ds, text, number⟩ := exists_hexPadded_eq width n
  rw [text, List.mem_cons, List.mem_cons, not_or, not_or]
  refine ⟨?_, ne, fun mem => ?_⟩
  · rintro rfl
    cases letter
  · have digit := isSome_digit?_of_digits number mem
    rw [letter] at digit
    cases digit

/-- Nothing stands in a decimal integer but digits and a minus sign. -/
theorem not_mem_repr (letter : digit? 10 c = none) (ne : c ≠ '-') (v : Int) :
    c ∉ v.repr.toList := by
  have natural : ∀ n : Nat, c ∉ n.repr.toList := by
    intro n mem
    rw [Nat.toList_repr] at mem
    have digit := isSome_digit?_of_digits (digits_toDigits (by decide) (by decide) n) mem
    rw [letter] at digit
    cases digit
  rw [Int.repr_eq_if]
  split
  · exact natural _
  · rw [String.toList_append, List.mem_append, not_or]
    exact ⟨by simpa using ne, natural _⟩

end Numeral

theorem Field.text_inj {f g : Field} (h : f.text = g.text) : f = g := by
  revert h
  cases f <;> cases g <;> decide

/-- No name of a field has an equals sign or a comma. -/
theorem Field.not_mem_text (f : Field) : '=' ∉ f.text.toList ∧ ',' ∉ f.text.toList := by
  cases f <;> decide

namespace Operand

variable {o p : Operand}

/-- The value is one of sixty-four bits. -/
def InRange (o : Operand) : Prop := -0x8000000000000000 ≤ o.value ∧ o.value < 0x8000000000000000

instance (o : Operand) : Decidable o.InRange := inferInstanceAs (Decidable (_ ∧ _))

/-- What stands behind the equals sign. -/
def valueText (o : Operand) : String :=
  if o.field.isRegister then "x" ++ o.value.repr
  else if o.field = .csr then Numeral.hexPadded 3 (BitVec.ofInt 64 o.value).toNat
  else o.value.repr

theorem render_toList (o : Operand) :
    o.render.toList = o.field.text.toList ++ '=' :: o.valueText.toList := by
  rw [render, valueText]
  split
  · simp [toString]
  · split
    · rename_i csr
      simp [csr, Field.text, toString]
    · simp [toString]

theorem comma_not_mem_render (o : Operand) : ',' ∉ o.render.toList := by
  have value : ',' ∉ o.valueText.toList := by
    rw [valueText]
    split
    · rw [String.toList_append, List.mem_append, not_or]
      exact ⟨by decide, Numeral.not_mem_repr (by decide) (by decide) _⟩
    · split
      · exact Numeral.not_mem_hexPadded (by decide) (by decide) _ _
      · exact Numeral.not_mem_repr (by decide) (by decide) _
  rw [render_toList, List.mem_append, List.mem_cons, not_or, not_or]
  exact ⟨o.field.not_mem_text.2, by decide, value⟩

/-- In each form a text has one value. -/
theorem value_eq_of_valueText_eq (ho : o.InRange) (hp : p.InRange) (field : o.field = p.field)
    (h : o.valueText = p.valueText) : o.value = p.value := by
  rw [valueText, valueText, field] at h
  split at h
  · exact Int.repr_injective ((String.append_right_inj "x").1 h)
  · split at h
    · have bits := BitVec.toNat_inj.1 (Numeral.hexPadded_inj h)
      have back : ∀ q : Operand, q.InRange → (BitVec.ofInt 64 q.value).toInt = q.value :=
        fun q range => BitVec.toInt_ofInt_eq_self (by decide) range.1 range.2
      rw [← back o ho, bits, back p hp]
    · exact Int.repr_injective h

theorem eq_of_render_eq (ho : o.InRange) (hp : p.InRange) (h : o.render = p.render) : o = p := by
  have text := congrArg String.toList h
  rw [render_toList, render_toList] at text
  obtain ⟨name, value⟩ :=
    Text.eq_and_eq_of_append_cons_eq o.field.not_mem_text.1 p.field.not_mem_text.1 text
  have field := Field.text_inj (String.toList_inj.1 name)
  have value := value_eq_of_valueText_eq ho hp field (String.toList_inj.1 value)
  cases o
  cases p
  simp_all

end Operand

namespace Instruction

variable {i j : Instruction}

/-- The operator has no blank, and the values are of sixty-four bits. -/
structure Printable (i : Instruction) : Prop where
  operator : ∀ c ∈ i.operator.toList, Text.isBlank c = false
  operands : ∀ o ∈ i.operands, o.InRange

/-- The operands with a comma and a space between any two. -/
def operandText (i : Instruction) : List Char :=
  [',', ' '].intercalate (i.operands.map fun o => o.render.toList)

theorem render_toList_of_nil (none : i.operands = []) : i.render.toList = i.operator.toList := by
  rw [render, if_pos none]

theorem render_toList_of_ne_nil (some : i.operands ≠ []) :
    i.render.toList = i.operator.toList ++ ' ' :: i.operandText := by
  rw [render, if_neg some, String.toList_append, String.toList_intercalate, List.map_map]
  simp [toString, operandText, Function.comp_def]

/-- Where there are operands there is an equals sign. -/
theorem mem_operandText (some : i.operands ≠ []) : '=' ∈ i.operandText := by
  obtain ⟨o, rest, split⟩ := List.exists_cons_of_ne_nil some
  have first : '=' ∈ o.render.toList := by simp [Operand.render_toList]
  rw [operandText, split, List.map_cons]
  cases rest with
  | nil => rwa [List.map_nil, List.intercalate_singleton]
  | cons p rest =>
    rw [List.map_cons, List.intercalate_cons_cons]
    exact List.mem_append_left _ (List.mem_append_left _ first)

theorem Printable.space_not_mem (printable : i.Printable) : ' ' ∉ i.operator.toList :=
  fun mem => absurd (printable.operator ' ' mem) (by decide)

theorem eq_of_operandText_eq (hi : i.Printable) (hj : j.Printable) (some : i.operands ≠ [])
    (some' : j.operands ≠ []) (h : i.operandText = j.operandText) : i.operands = j.operands := by
  have plain : ∀ os : List Operand, ∀ cs ∈ os.map fun o => o.render.toList, ',' ∉ cs :=
    fun os => List.forall_mem_map.2 fun o _ => o.comma_not_mem_render
  have texts := Text.eq_of_intercalate_eq (plain i.operands) (plain j.operands)
    (by simpa using some) (by simpa using some') h
  exact eq_of_map_eq_map (fun o mem p mem' eq => Operand.eq_of_render_eq (hi.operands o mem)
    (hj.operands p mem') (String.toList_inj.1 eq)) texts

/-- The text of an instruction tells its operator and its operands. -/
theorem eq_of_render_eq (hi : i.Printable) (hj : j.Printable) (h : i.render = j.render) :
    i.operator = j.operator ∧ i.operands = j.operands := by
  have text := congrArg String.toList h
  by_cases none : i.operands = [] <;> by_cases none' : j.operands = []
  · rw [render_toList_of_nil none, render_toList_of_nil none'] at text
    exact ⟨String.toList_inj.1 text, none.trans none'.symm⟩
  · rw [render_toList_of_nil none, render_toList_of_ne_nil none'] at text
    exact absurd (by simp [text]) hi.space_not_mem
  · rw [render_toList_of_ne_nil none, render_toList_of_nil none'] at text
    exact absurd (by simp [← text]) hj.space_not_mem
  · rw [render_toList_of_ne_nil none, render_toList_of_ne_nil none'] at text
    obtain ⟨operator, operands⟩ :=
      Text.eq_and_eq_of_append_cons_eq hi.space_not_mem hj.space_not_mem text
    exact ⟨String.toList_inj.1 operator, eq_of_operandText_eq hi hj none none' operands⟩

end Instruction

namespace Decoded

/-- An instruction is one that can be printed; an illegal word always can. -/
def Printable : Decoded → Prop
  | instruction i => i.Printable
  | illegal _ => True

end Decoded

namespace FieldLayout

/-- The values of a layout without a fault have no more than the thirty-two bits of a word. -/
theorem extract_inRange {f : FieldLayout} (sound : f.fault? = none) (w : Word) :
    Operand.InRange ⟨f.field, f.extract w⟩ := by
  have gathered := (f.gather w).isLt
  have bound : f.width ≤ 32 := (fault?_eq_none_iff.1 sound).1.2
  rw [Operand.InRange, extract]
  cases f.reading with
  | signed =>
    have low := BitVec.le_toInt ((f.gather w).setWidth f.width)
    have high := @BitVec.toInt_lt f.width ((f.gather w).setWidth f.width)
    have size : (2 : Int) ^ (f.width - 1) ≤ 2 ^ 31 :=
      pow_le_pow_right₀ (by decide) (by omega)
    simp only
    omega
  | unsigned | register | compressedRegister =>
    simp only
    omega

end FieldLayout

/-- What the table of a text decodes can be printed. -/
theorem Table.printable_decode {registry : Registry} {text : String} {t : Table}
    (ok : ofText registry text = .ok t) (w : Word) : (t.decode w).Printable := by
  obtain ⟨rules, parsed, ok⟩ := ofText_eq_ok_iff.1 ok
  cases decoded : t.decode w with
  | illegal w => trivial
  | instruction i =>
    obtain ⟨rule, mem, -, layout, resolved, rfl⟩ := (built_of_ofRules ok).rule_of_decode decoded
    refine ⟨(Rule.wellFormed_of_parseTable parsed rule mem).operator.2, ?_⟩
    have sound := Layout.fault?_eq_none_iff.1 (Registry.soundLayout_eq_ok_iff.1 resolved).2
    exact List.forall_mem_map.2 fun f mem => FieldLayout.extract_inRange (sound f mem) w

namespace Decoded

variable {d e : Decoded}

theorem render_illegal_toList (w : Word) : (illegal w).render.toList =
    ['.', 'w', 'o', 'r', 'd'] ++ ' ' :: (Numeral.hexPadded 8 w.toNat).toList := by
  simp [render, toString]

/-- No instruction has the text of an illegal word, not even with an operator `.word`. -/
theorem render_instruction_ne_illegal {i : Instruction} (printable : i.Printable) (w : Word) :
    (instruction i).render ≠ (illegal w).render := by
  intro h
  have text : i.render.toList = (illegal w).render.toList := congrArg String.toList h
  rw [render_illegal_toList] at text
  by_cases none : i.operands = []
  · rw [Instruction.render_toList_of_nil none] at text
    exact absurd (by simp [text]) printable.space_not_mem
  · rw [Instruction.render_toList_of_ne_nil none] at text
    obtain ⟨-, number⟩ :=
      Text.eq_and_eq_of_append_cons_eq printable.space_not_mem (by decide) text
    have sign := Instruction.mem_operandText none
    rw [number] at sign
    exact Numeral.not_mem_hexPadded (by decide) (by decide) _ _ sign

/-- The text of a decoded word is unambiguous: two have the same text just when they are the same
illegal word, or instructions with the same operator and the same operands in the same order. -/
theorem render_eq_iff (hd : d.Printable) (he : e.Printable) : d.render = e.render ↔
    (∃ w, d = .illegal w ∧ e = .illegal w) ∨
    ∃ i j, d = .instruction i ∧ e = .instruction j ∧ i.operator = j.operator ∧
      i.operands = j.operands := by
  constructor
  · intro h
    cases d with
    | instruction i =>
      cases e with
      | instruction j => exact .inr ⟨i, j, rfl, rfl, Instruction.eq_of_render_eq hd he h⟩
      | illegal w => exact absurd h (render_instruction_ne_illegal hd w)
    | illegal w =>
      cases e with
      | instruction j => exact absurd h.symm (render_instruction_ne_illegal he w)
      | illegal v =>
        have text := congrArg String.toList h
        rw [render_illegal_toList, render_illegal_toList] at text
        have number := Numeral.hexPadded_inj (String.toList_inj.1 (by simpa using text))
        exact .inl ⟨w, rfl, by rw [BitVec.toNat_inj.1 number]⟩
  · rintro (⟨w, rfl, rfl⟩ | ⟨i, j, rfl, rfl, operator, operands⟩)
    · rfl
    · rw [render, render, Instruction.render, Instruction.render, operator, operands]

/-- An operator may be the word that announces an illegal word, and a control register may have a
negative number. -/
def wordCsr (word : Word) : Decoded := .instruction ⟨word, ".word", [⟨.csr, -1⟩], 4⟩

theorem render_wordCsr : (wordCsr 0x73).Printable ∧ (wordCsr 0xF3).Printable ∧
    (illegal 0xFFFFFFFF).Printable ∧ (wordCsr 0x73).render = (wordCsr 0xF3).render ∧
    (wordCsr 0x73).render ≠ (illegal 0xFFFFFFFF).render := by
  have plain : ∀ c ∈ ".word".toList, Text.isBlank c = false := by
    simp [Text.isBlank, Text.blankRanges]
  have first : (wordCsr 0x73).Printable := ⟨plain, by decide⟩
  have second : (wordCsr 0xF3).Printable := ⟨plain, by decide⟩
  have third : (illegal 0xFFFFFFFF).Printable := trivial
  refine ⟨first, second, third, ?_, ?_⟩
  · exact (render_eq_iff first second).2 (.inr ⟨_, _, rfl, rfl, rfl, rfl⟩)
  · intro h
    rcases (render_eq_iff first third).1 h with ⟨_, ⟨⟩, -⟩ | ⟨_, _, -, ⟨⟩, -⟩

end Decoded

end Opcodes
