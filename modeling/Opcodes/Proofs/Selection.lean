import Opcodes.Proofs.Masks
import Opcodes.Rv32.Extensions

/-!
# Lists of extensions as sets of names

What counts of a list are its items: the texts between the commas without the blanks around them,
where blank ones do not count. An item stands for the flags that its upper-case spelling names, and a
list for the base and the flags of all its items, or else for its first item that names none. So the
list is read as the set of the names in it, and two lists joined by a comma as their union.
-/
set_option autoImplicit false

namespace Opcodes.Extensions

variable {list list' : String} {x : Extensions} {e : UnknownExtension}

/-- The items of a list, in order. -/
def items (list : String) : List (List Char) :=
  ((Text.pieces ',' list.toList).map Text.trim).filter (· ≠ [])

/-- What an item is looked up by. -/
def key (item : List Char) : String := String.ofList (item.map Char.toUpper)

/-- The item is the name of a flag or of several. -/
def Known (item : List Char) : Prop := (ofName? (key item)).isSome = true

instance (item : List Char) : Decidable (Known item) := inferInstanceAs (Decidable (_ = true))

/-- The flags of all items that are known. -/
def flagsOf (is : List (List Char)) : Extensions :=
  ⟨Word.union ((is.filterMap fun item => ofName? (key item)).map bits)⟩

theorem mem_flagsOf_iff {is : List (List Char)} {i : Nat} :
    (flagsOf is).bits.getLsbD i = true ↔
      ∃ name ∈ is.map key, ∃ b, ofName? name = some b ∧ b.bits.getLsbD i = true := by
  simp only [flagsOf, Word.getLsbD_union, List.any_map, List.any_eq_true, List.mem_filterMap,
    List.mem_map, Function.comp_apply]
  grind

theorem flagsOf_cons {item : List Char} {b : Extensions} (known : ofName? (key item) = some b)
    (is : List (List Char)) : flagsOf (item :: is) = b.union (flagsOf is) := by
  simp only [flagsOf, List.filterMap_cons, known]
  rfl

theorem flagsOf_append (is js : List (List Char)) :
    flagsOf (is ++ js) = (flagsOf is).union (flagsOf js) := by
  rw [flagsOf, List.filterMap_append, List.map_append, Word.union_append]
  rfl

theorem flagsOf_congr {is js : List (List Char)}
    (same : ∀ name, name ∈ is.map key ↔ name ∈ js.map key) : flagsOf is = flagsOf js := by
  have bits : (flagsOf is).bits = (flagsOf js).bits := by
    apply BitVec.eq_of_getLsbD_eq
    intro i _
    rw [Bool.eq_iff_iff, mem_flagsOf_iff, mem_flagsOf_iff]
    simp only [same]
  exact congrArg Extensions.mk bits

theorem contains_union_left {a : Extensions} {f : Extension} (h : a.contains f = true)
    (b : Extensions) : (a.union b).contains f = true := by
  refine Word.covers_iff.2 fun i bit => ?_
  rw [union, BitVec.getLsbD_or, Word.covers_iff.1 h i bit, Bool.true_or]

/-- The items are added up to the first that is unknown. -/
theorem addItems_eq (a : Extensions) (ps : List (List Char)) :
    addItems a ps =
      match ((ps.map Text.trim).filter (· ≠ [])).find? (fun item => !decide (Known item)) with
      | some item => .error ⟨String.ofList item⟩
      | none => .ok (a.union (flagsOf ((ps.map Text.trim).filter (· ≠ [])))) := by
  induction ps generalizing a with
  | nil => simp [addItems, flagsOf, union, Word.union]
  | cons p ps ih =>
    rw [addItems, List.map_cons]
    by_cases blank : Text.trim p = []
    · simp only [blank, if_true, ih]
      rfl
    · rw [List.filter_cons_of_pos (by simpa using blank)]
      simp only [blank, if_false]
      rw [← key]
      cases known : ofName? (key (Text.trim p)) with
      | none =>
        rw [List.find?_cons_of_pos (by simp [Known, known])]
      | some b =>
        rw [List.find?_cons_of_neg (by simp [Known, known]), flagsOf_cons known]
        simp only [ih]
        rw [union, union, union, union, BitVec.or_assoc]

theorem parseList_eq (list : String) :
    parseList list = match (items list).find? (fun item => !decide (Known item)) with
      | some item => .error ⟨String.ofList item⟩
      | none => .ok (base.union (flagsOf (items list))) :=
  addItems_eq base (Text.pieces ',' list.toList)

theorem items_append (a b : String) : items (a ++ "," ++ b) = items a ++ items b := by
  have joined : (a ++ "," ++ b).toList = a.toList ++ ',' :: b.toList := by simp
  rw [items, joined, Text.pieces_append, List.map_append, List.filter_append]
  rfl

theorem parseList_eq_ok_iff : parseList list = .ok x ↔
    (∀ item ∈ items list, Known item) ∧ x = base.union (flagsOf (items list)) := by
  rw [parseList_eq]
  cases found : (items list).find? fun item => !decide (Known item) with
  | some item =>
    have unknown := List.find?_some found
    refine iff_of_false nofun fun h => ?_
    simp [h.1 item (List.mem_of_find?_eq_some found)] at unknown
  | none =>
    have all : ∀ item ∈ items list, Known item := by simpa using found
    rw [and_iff_right all, Except.ok.injEq, eq_comm]

theorem parseList_eq_error_iff : parseList list = .error e ↔
    ∃ before item after, items list = before ++ item :: after ∧
      (∀ i ∈ before, Known i) ∧ ¬Known item ∧ e = ⟨String.ofList item⟩ := by
  have first : parseList list = .error e ↔ ∃ item,
      (items list).find? (fun item => !decide (Known item)) = some item ∧
        e = ⟨String.ofList item⟩ := by
    rw [parseList_eq]
    cases (items list).find? fun item => !decide (Known item) with
    | some item => simp [eq_comm]
    | none => simp
  simp only [first, List.find?_eq_some_iff_append, Bool.not_eq_true', decide_eq_false_iff_not,
    Bool.not_not, decide_eq_true_eq]
  constructor
  · rintro ⟨item, ⟨unknown, before, after, split, known⟩, message⟩
    exact ⟨before, item, after, split, known, unknown, message⟩
  · rintro ⟨before, item, after, split, known, unknown, message⟩
    exact ⟨item, ⟨unknown, before, after, split, known⟩, message⟩

theorem parseList_append (a b : String) : parseList (a ++ "," ++ b) = do
    let x ← parseList a
    let y ← parseList b
    return x.union y := by
  simp only [parseList_eq, items_append, List.find?_append]
  cases (items a).find? fun item => !decide (Known item) with
  | some item => rfl
  | none =>
    cases (items b).find? fun item => !decide (Known item) with
    | some item => rfl
    | none =>
      refine congrArg Except.ok ?_
      simp only [flagsOf_append, union, Extensions.mk.injEq]
      -- the base is in both parts
      rw [BitVec.or_assoc, Word.or_left_comm (flagsOf (items a)).bits,
        ← BitVec.or_assoc base.bits base.bits, BitVec.or_self]

/-- The result hangs on the set of names alone. -/
theorem parseList_congr (same : ∀ name, name ∈ (items list).map key ↔ name ∈ (items list').map key)
    (ok : parseList list = .ok x) : parseList list' = .ok x := by
  obtain ⟨known, rfl⟩ := parseList_eq_ok_iff.1 ok
  refine parseList_eq_ok_iff.2 ⟨fun item mem => ?_, ?_⟩
  · obtain ⟨twin, mem, eq⟩ := List.mem_map.1 ((same _).2 (List.mem_map_of_mem mem))
    have := known twin mem
    rwa [Known, eq] at this
  · rw [flagsOf_congr same]

/-- Two lists joined by a comma are read as the one and then the other: the error is that of the
first list that has one, and else the flags are those of both. A list gives the base and the flags
that its items name, in upper case, or the error for its first item that names none, as it stands in
the list without the blanks around it. So lists of items with the same names give the same flags, in
whatever order, however often and in whatever case the names stand there. -/
theorem parseList_combines (a b : String) :
    (parseList (a ++ "," ++ b) = do
      let x ← parseList a
      let y ← parseList b
      return x.union y) ∧
    (∀ x, parseList a = .ok x ↔
      (∀ item ∈ items a, Known item) ∧ x = base.union (flagsOf (items a))) ∧
    (∀ x, parseList a = .ok x → x.contains .base = true) ∧
    (∀ e, parseList a = .error e ↔ ∃ before item after, items a = before ++ item :: after ∧
      (∀ i ∈ before, Known i) ∧ ¬Known item ∧ e = ⟨String.ofList item⟩) ∧
    ((∀ name, name ∈ (items a).map key ↔ name ∈ (items b).map key) →
      ∀ x, parseList a = .ok x ↔ parseList b = .ok x) := by
  refine ⟨parseList_append a b, fun _ => parseList_eq_ok_iff, fun x ok => ?_,
    fun _ => parseList_eq_error_iff, fun same x =>
    ⟨parseList_congr same, parseList_congr fun name => (same name).symm⟩⟩
  obtain ⟨-, rfl⟩ := parseList_eq_ok_iff.1 ok
  exact contains_union_left (by decide) _

/-- A list with a blank item and a repeated name, one with the same names, the first with a third
list behind it, and a list with a letter that is `I` in upper case but not of ASCII. -/
theorem parseList_looseLists :
    parseList " m,C,, M\t" = .ok (ofList [.base, .multiply, .compressed]) ∧
    parseList "c ,m" = .ok (ofList [.base, .multiply, .compressed]) ∧
    parseList (" m,C,, M\t" ++ "," ++ "ZicsR") =
      .ok (ofList [.base, .multiply, .controlRegister, .compressed]) ∧
    parseList "m, ı ,V" = .error ⟨"ı"⟩ := by
  obtain ⟨joined, ok_iff, -, -, -⟩ := parseList_combines " m,C,, M\t" "ZicsR"
  obtain ⟨-, -, -, -, congr⟩ := parseList_combines " m,C,, M\t" "c ,m"
  obtain ⟨-, -, -, error_iff, -⟩ := parseList_combines "m, ı ,V" ""
  have names : (items " m,C,, M\t").map key = ["M", "C", "M"] := by decide +kernel
  have names' : (items "c ,m").map key = ["C", "M"] := by decide +kernel
  have first : parseList " m,C,, M\t" = .ok (ofList [.base, .multiply, .compressed]) :=
    (ok_iff _).2 ⟨by decide +kernel, by decide +kernel⟩
  have second : parseList "ZicsR" = .ok (ofList [.base, .controlRegister]) := by decide +kernel
  refine ⟨first, (congr ?_ _).1 first, ?_, (error_iff _).2 ?_⟩
  · rw [names, names']
    simp [or_comm]
  · rw [joined, first, second]
    decide +kernel
  · refine ⟨[['m']], ['ı'], [['V']], ?_, ?_, ?_, rfl⟩
    · decide +kernel
    · decide +kernel
    · decide +kernel

end Opcodes.Extensions
