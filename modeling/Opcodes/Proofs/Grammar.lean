import Opcodes.Proofs.Masks
import Opcodes.Proofs.Numeral
import Opcodes.Proofs.Tokens

/-!
# What the tokens of a line say

A token behind the operator spells a constraint, `hi..lo=value` or `position=value`, or names an
operand. `Rule.Tokens` puts constraints and operands into one list of tokens and keeps the order
within each kind, and `Draft.Sound` says what they must not do together. Of every token behind sound
ones, either it can be added to them or it offends, and in one way only (`Draft.Offends`).
-/
set_option autoImplicit false

namespace Opcodes

open Text

namespace Word

theorem union_and_eq_zero_iff {ws : List Word} {w : Word} :
    union ws &&& w = 0 ↔ ∀ v ∈ ws, v &&& w = 0 := by
  induction ws with
  | nil => simp [union]
  | cons v ws ih =>
    have split : union (v :: ws) &&& w = (v &&& w) ||| (union ws &&& w) :=
      BitVec.and_or_distrib_right
    rw [split, List.forall_mem_cons, ← ih]
    exact BitVec.or_eq_zero_iff

end Word

theorem OperandName.not_mem_text (n : OperandName) : '=' ∉ n.text.toList := by
  cases n <;> decide +kernel

namespace BitRange

variable {cs : List Char} {hi lo : Nat} {a b r : BitRange}

/-- The text is `hi..lo`, or one position. -/
inductive Spelled : List Char → BitRange → Prop
  | position {cs : List Char} {n : Nat} (number : Numeral.Spells 10 Numeral.bound32 cs n) :
      Spelled cs ⟨n, n⟩
  | ends {left right : List Char} {hi lo : Nat} (high : Numeral.Spells 10 Numeral.bound32 left hi)
      (low : Numeral.Spells 10 Numeral.bound32 right lo) :
      Spelled (left ++ '.' :: '.' :: right) ⟨hi, lo⟩

/-- A range has no equals sign, so the first one stands behind it. -/
theorem Spelled.not_mem (spelled : Spelled cs r) : '=' ∉ cs := by
  have plain : ∀ {cs : List Char} {n : Nat}, Numeral.Spells 10 Numeral.bound32 cs n → '=' ∉ cs :=
    Numeral.not_mem_of_spells rfl (by decide)
  cases spelled with
  | position number => exact plain number
  | ends high low => simp [plain high, plain low]

theorem read_decimal_iff {n : Nat} :
    Numeral.read 10 Numeral.bound32 cs = .ok n ↔ Numeral.Spells 10 Numeral.bound32 cs n :=
  Numeral.read_eq_ok_iff (by decide) (by decide)

/-- The two numerals are what stands before and after the first two dots, or both are the text. -/
theorem spelled_iff : Spelled cs ⟨hi, lo⟩ ↔
    Numeral.Spells 10 Numeral.bound32 ((cut? ['.', '.'] cs).getD (cs, cs)).1 hi ∧
      Numeral.Spells 10 Numeral.bound32 ((cut? ['.', '.'] cs).getD (cs, cs)).2 lo := by
  have plain : ∀ {cs : List Char} {n : Nat}, Numeral.Spells 10 Numeral.bound32 cs n → '.' ∉ cs :=
    Numeral.not_mem_of_spells rfl (by decide)
  constructor
  · intro spelled
    cases spelled with
    | position number =>
      rw [cut?_eq_none (plain number)]
      exact ⟨number, number⟩
    | @ends left right _ _ high low =>
      have found : cut? ['.', '.'] (left ++ '.' :: '.' :: right) = some (left, right) :=
        cut?_append (plain high) ['.'] right
      rw [found]
      exact ⟨high, low⟩
  · rintro ⟨high, low⟩
    cases found : cut? ['.', '.'] cs with
    | none =>
      rw [found] at high low
      have same := (read_decimal_iff.2 high).symm.trans (read_decimal_iff.2 low)
      cases same
      exact .position high
    | some pair =>
      obtain ⟨left, right⟩ := pair
      rw [found] at high low
      rw [eq_append_of_cut? found]
      exact .ends high low

instance (cs : List Char) (r : BitRange) : Decidable (Spelled cs r) :=
  decidable_of_iff _ ((read_decimal_iff.and read_decimal_iff).trans spelled_iff.symm)

theorem parse_of_spelled (spelled : Spelled cs r) : parse cs =
    if r.hi < r.lo then .error (.invertedRange r)
    else if 32 ≤ r.hi then .error (.outOfWord r.hi)
    else .ok r := by
  obtain ⟨high, low⟩ := spelled_iff.1 spelled
  rw [← read_decimal_iff] at high low
  unfold parse
  simp only [high, low, Except.mapError, bind, Except.bind]

theorem parse_of_not_spelled (malformed : ∀ r, ¬Spelled cs r) :
    parse cs = .error (.malformedRange (String.ofList cs)) := by
  unfold parse
  cases high : Numeral.read 10 Numeral.bound32 ((cut? ['.', '.'] cs).getD (cs, cs)).1 with
  | error _ => simp only [high, Except.mapError, bind, Except.bind]
  | ok hi =>
    cases low : Numeral.read 10 Numeral.bound32 ((cut? ['.', '.'] cs).getD (cs, cs)).2 with
    | error _ => simp only [high, low, Except.mapError, bind, Except.bind]
    | ok lo =>
      rw [read_decimal_iff] at high low
      exact absurd (spelled_iff.2 ⟨high, low⟩) (malformed ⟨hi, lo⟩)

/-- No position lies in both. -/
def Separate (a b : BitRange) : Prop := a.hi < b.lo ∨ b.hi < a.lo

instance (a b : BitRange) : Decidable (Separate a b) := inferInstanceAs (Decidable (_ ∨ _))

theorem mask_and_mask_eq_zero_iff (ha : a.InWord) (hb : b.InWord) :
    a.mask &&& b.mask = 0 ↔ Separate a b := by
  obtain ⟨ha, ha32⟩ := ha
  obtain ⟨hb, hb32⟩ := hb
  constructor
  · intro none
    by_contra meet
    rw [Separate, not_or, Nat.not_lt, Nat.not_lt] at meet
    have bit := congrArg (BitVec.getLsbD · (max a.lo b.lo)) none
    simp only [BitVec.getLsbD_and, getLsbD_mask, BitVec.ofNat_eq_ofNat, BitVec.getLsbD_zero,
      Bool.and_eq_false_iff, decide_eq_false_iff_not] at bit
    omega
  · intro apart
    apply BitVec.eq_of_getLsbD_eq
    intro i _
    simp only [BitVec.getLsbD_and, getLsbD_mask, BitVec.ofNat_eq_ofNat, BitVec.getLsbD_zero,
      Bool.and_eq_false_iff, decide_eq_false_iff_not]
    rw [Separate] at apart
    omega

end BitRange

namespace FixedBits

variable {left right token : List Char} {c : FixedBits}

/-- The token is the range, an equals sign and the value. -/
def Spelled (c : FixedBits) (token : List Char) : Prop :=
  ∃ left right, token = left ++ '=' :: right ∧ BitRange.Spelled left c.range ∧
    Numeral.Literal right c.value.toNat

/-- The first equals sign is the only one that can end the range. -/
theorem spelled_iff : c.Spelled token ↔ ∃ pair ∈ cut? ['='] token,
    BitRange.Spelled pair.1 c.range ∧ Numeral.literal? pair.2 = some c.value.toNat := by
  constructor
  · rintro ⟨left, right, rfl, range, value⟩
    have found : cut? ['='] (left ++ '=' :: right) = some (left, right) :=
      cut?_singleton_eq_some_iff.2 ⟨rfl, range.not_mem⟩
    exact ⟨_, found, range, Numeral.literal?_eq_some_iff.2 value⟩
  · rintro ⟨⟨left, right⟩, found, range, value⟩
    exact ⟨left, right, eq_append_of_cut? found, range, Numeral.literal?_eq_some_iff.1 value⟩

instance (c : FixedBits) (token : List Char) : Decidable (c.Spelled token) :=
  decidable_of_iff _ spelled_iff.symm

/-- The range lies in a word, and the value has no more bits than the range. -/
def Fits (c : FixedBits) : Prop := c.range.InWord ∧ c.value.toNat < 2 ^ c.range.width

instance (c : FixedBits) : Decidable c.Fits := inferInstanceAs (Decidable (_ ∧ _))

theorem parse_of_inWord {r : BitRange} (spelled : BitRange.Spelled left r) (inWord : r.InWord) :
    parse left right = match Numeral.literal? right with
      | none => .error (.malformedValue (String.ofList right))
      | some value =>
        if value < 2 ^ r.width then .ok ⟨r, BitVec.ofNat 32 value⟩
        else .error (.valueTooWide value r.width) := by
  have range : BitRange.parse left = .ok r := by
    rw [BitRange.parse_of_spelled spelled, if_neg (Nat.not_lt.2 inWord.1),
      if_neg (Nat.not_le.2 inWord.2)]
  have narrow : ∀ value, value >>> r.width = 0 ↔ value < 2 ^ r.width := by
    intro value
    rw [Nat.shiftRight_eq_div_pow, Nat.div_eq_zero_iff_lt (Nat.two_pow_pos _)]
  cases literal : Numeral.literal? right with
  | none => simp only [parse, parseValue, range, literal, bind, Except.bind]
  | some value => simp only [parse, parseValue, range, literal, narrow, bind, Except.bind]

/-- A number that has no more bits than a range in a word is a word. -/
theorem exists_of_lt {r : BitRange} {value : Nat} (inWord : r.InWord)
    (narrow : value < 2 ^ r.width) : ∃ c : FixedBits, c.range = r ∧ c.value.toNat = value := by
  have width : r.width ≤ 32 := by
    have := inWord.2
    rw [BitRange.width]
    omega
  have small : value < 2 ^ 32 := narrow.trans_le (Nat.pow_le_pow_right (by decide) width)
  exact ⟨⟨r, BitVec.ofNat 32 value⟩, rfl, (BitVec.toNat_ofNat ..).trans (Nat.mod_eq_of_lt small)⟩

theorem parse_of_fits (spelled : BitRange.Spelled left c.range)
    (value : Numeral.Literal right c.value.toNat) (fits : c.Fits) : parse left right = .ok c := by
  rw [parse_of_inWord spelled fits.1, Numeral.literal?_eq_some_iff.2 value]
  simp [fits.2]

end FixedBits

namespace Rule

variable {ns : List OperandName} {cs : List FixedBits} {token : List Char}
  {tokens : List (List Char)} {fault : LineFault}

/-- The tokens of operands and constraints, in any order that keeps the order within each. -/
inductive Tokens : List OperandName → List FixedBits → List (List Char) → Prop
  | nil : Tokens [] [] []
  | operand {ns : List OperandName} {cs : List FixedBits} {tokens : List (List Char)}
      (n : OperandName) (rest : Tokens ns cs tokens) : Tokens (n :: ns) cs (n.text.toList :: tokens)
  | constraint {ns : List OperandName} {cs : List FixedBits} {tokens : List (List Char)}
      {c : FixedBits} {token : List Char} (spelled : c.Spelled token) (rest : Tokens ns cs tokens) :
      Tokens ns (c :: cs) (token :: tokens)

theorem Tokens.append {ns' : List OperandName} {cs' : List FixedBits} {tokens' : List (List Char)}
    (first : Tokens ns cs tokens) (second : Tokens ns' cs' tokens') :
    Tokens (ns ++ ns') (cs ++ cs') (tokens ++ tokens') := by
  induction first with
  | nil => exact second
  | operand n _ ih => exact .operand n ih
  | constraint spelled _ ih => exact .constraint spelled ih

namespace Draft

variable {d : Draft} {c : FixedBits} {n : OperandName}

/-- No operand is declared twice, and no bit is fixed twice. -/
structure Sound (d : Draft) : Prop where
  operands : d.operands.Nodup
  fits : ∀ c ∈ d.constraints, c.Fits
  apart : d.constraints.Pairwise fun a b => a.range.Separate b.range

/-- More operands and more constraints. -/
def append (d : Draft) (ns : List OperandName) (cs : List FixedBits) : Draft :=
  ⟨d.operands ++ ns, d.constraints ++ cs⟩

/-- What is wrong with a token that stands behind those of a draft. In a constraint the range counts
before the value, and what stands before the constraint counts last. -/
inductive Offends (d : Draft) : List Char → LineFault → Prop
  | malformedRange {left right : List Char} (first : '=' ∉ left)
      (malformed : ∀ r, ¬BitRange.Spelled left r) :
      Offends d (left ++ '=' :: right) (.malformedRange (String.ofList left))
  | invertedRange {left right : List Char} {r : BitRange} (spelled : BitRange.Spelled left r)
      (inverted : r.hi < r.lo) : Offends d (left ++ '=' :: right) (.invertedRange r)
  | outOfWord {left right : List Char} {r : BitRange} (spelled : BitRange.Spelled left r)
      (ordered : r.lo ≤ r.hi) (outside : 32 ≤ r.hi) :
      Offends d (left ++ '=' :: right) (.outOfWord r.hi)
  | malformedValue {left right : List Char} {r : BitRange} (spelled : BitRange.Spelled left r)
      (inWord : r.InWord) (malformed : ∀ n, ¬Numeral.Literal right n) :
      Offends d (left ++ '=' :: right) (.malformedValue (String.ofList right))
  | valueTooWide {left right : List Char} {r : BitRange} {value : Nat}
      (spelled : BitRange.Spelled left r) (inWord : r.InWord)
      (literal : Numeral.Literal right value) (wide : 2 ^ r.width ≤ value) :
      Offends d (left ++ '=' :: right) (.valueTooWide value r.width)
  | overlap {token : List Char} {c earlier : FixedBits} (spelled : c.Spelled token) (fits : c.Fits)
      (mem : earlier ∈ d.constraints) (meet : ¬earlier.range.Separate c.range) :
      Offends d token (.overlap c.range)
  | unknownOperand {token : List Char} (plain : '=' ∉ token)
      (unknown : ∀ n : OperandName, n.text.toList ≠ token) :
      Offends d token (.unknownOperand (String.ofList token))
  | repeatedOperand {n : OperandName} (mem : n ∈ d.operands) :
      Offends d n.text.toList (.repeatedOperand n.text)

theorem append_append (d : Draft) (ns ns' : List OperandName) (cs cs' : List FixedBits) :
    (d.append ns cs).append ns' cs' = d.append (ns ++ ns') (cs ++ cs') := by
  simp only [append, List.append_assoc]

theorem Sound.of_append (sound : (d.append ns cs).Sound) : d.Sound where
  operands := (List.nodup_append.1 sound.operands).1
  fits c mem := sound.fits c (List.mem_append_left cs mem)
  apart := (List.pairwise_append.1 sound.apart).1

theorem sound_append_operand_iff : (d.append [n] []).Sound ↔ d.Sound ∧ n ∉ d.operands := by
  have nodup : (d.operands ++ [n]).Nodup ↔ n ∉ d.operands ∧ d.operands.Nodup :=
    List.nodup_append_comm.trans List.nodup_cons
  constructor
  · intro sound
    exact ⟨sound.of_append, (nodup.1 sound.operands).1⟩
  · rintro ⟨⟨operands, fits, apart⟩, fresh⟩
    refine ⟨nodup.2 ⟨fresh, operands⟩, ?_, ?_⟩
    · simpa [append] using fits
    · simpa [append] using apart

theorem sound_append_constraint_iff : (d.append [] [c]).Sound ↔
    d.Sound ∧ c.Fits ∧ ∀ e ∈ d.constraints, e.range.Separate c.range := by
  constructor
  · intro sound
    obtain ⟨-, -, apart⟩ := List.pairwise_append.1 sound.apart
    exact ⟨sound.of_append, sound.fits c (List.mem_append_right _ List.mem_cons_self),
      fun e mem => apart e mem c List.mem_cons_self⟩
  · rintro ⟨⟨operands, fits, apart⟩, here, free⟩
    refine ⟨by simpa [append] using operands, ?_, ?_⟩
    · exact List.forall_mem_append.2 ⟨fits, List.forall_mem_singleton.2 here⟩
    · refine List.pairwise_append.2 ⟨apart, List.pairwise_singleton _ _, ?_⟩
      exact fun e mem => List.forall_mem_singleton.2 (free e mem)

/-- The bits fixed so far are free of a constraint's just when no earlier constraint meets it. -/
theorem mask_and_mask_eq_zero_iff (sound : d.Sound) (fits : c.Fits) :
    d.mask &&& c.mask = 0 ↔ ∀ e ∈ d.constraints, e.range.Separate c.range := by
  have one : ∀ e ∈ d.constraints, (e.mask &&& c.mask = 0 ↔ e.range.Separate c.range) :=
    fun e mem => BitRange.mask_and_mask_eq_zero_iff (sound.fits e mem).1 fits.1
  rw [← forall₂_congr one, mask, Word.union_and_eq_zero_iff, List.forall_mem_map]

/-! ## One token -/

theorem add_operand (fresh : n ∉ d.operands) : d.add n.text.toList = .ok (d.append [n] []) := by
  rw [add, cut?_eq_none n.not_mem_text]
  simp [declare, OperandName.ofText?_text, fresh, append]

theorem add_eq_bind {left : List Char} (first : '=' ∉ left) (d : Draft) (right : List Char) :
    d.add (left ++ '=' :: right) = FixedBits.parse left right >>= d.constrain := by
  rw [add, cut?_singleton_eq_some_iff.2 ⟨rfl, first⟩]

theorem add_constraint (spelled : c.Spelled token) (sound : (d.append [] [c]).Sound) :
    d.add token = .ok (d.append [] [c]) := by
  obtain ⟨left, right, rfl, range, value⟩ := spelled
  obtain ⟨sound, fits, apart⟩ := sound_append_constraint_iff.1 sound
  have free := (mask_and_mask_eq_zero_iff sound fits).2 apart
  rw [add_eq_bind range.not_mem, FixedBits.parse_of_fits range value fits]
  simp only [bind, Except.bind, constrain, if_pos free, append, List.append_nil]

theorem add_of_offends (sound : d.Sound) (offends : d.Offends token fault) :
    d.add token = .error fault := by
  cases offends with
  | malformedRange first malformed =>
    rw [add_eq_bind first, FixedBits.parse, BitRange.parse_of_not_spelled malformed]
    rfl
  | invertedRange spelled inverted =>
    rw [add_eq_bind spelled.not_mem, FixedBits.parse, BitRange.parse_of_spelled spelled,
      if_pos inverted]
    rfl
  | outOfWord spelled ordered outside =>
    rw [add_eq_bind spelled.not_mem, FixedBits.parse, BitRange.parse_of_spelled spelled,
      if_neg (Nat.not_lt.2 ordered), if_pos outside]
    rfl
  | @malformedValue left right _ spelled inWord malformed =>
    have none : Numeral.literal? right = none := by
      rw [Option.eq_none_iff_forall_ne_some]
      exact fun n found => malformed n (Numeral.literal?_eq_some_iff.1 found)
    rw [add_eq_bind spelled.not_mem, FixedBits.parse_of_inWord spelled inWord, none]
    rfl
  | valueTooWide spelled inWord literal wide =>
    rw [add_eq_bind spelled.not_mem, FixedBits.parse_of_inWord spelled inWord,
      Numeral.literal?_eq_some_iff.2 literal]
    simp only [if_neg (Nat.not_lt.2 wide)]
    rfl
  | overlap spelled fits mem meet =>
    obtain ⟨left, right, rfl, range, value⟩ := spelled
    rw [add_eq_bind range.not_mem, FixedBits.parse_of_fits range value fits]
    refine if_neg fun free => meet ?_
    exact (mask_and_mask_eq_zero_iff sound fits).1 free _ mem
  | unknownOperand plain unknown =>
    have none : OperandName.ofText? (String.ofList token) = none := by
      rw [Option.eq_none_iff_forall_ne_some]
      intro n found
      refine unknown n ?_
      rw [OperandName.text_of_ofText? found, String.toList_ofList]
    rw [add, cut?_eq_none plain]
    simp only [declare, none]
  | @repeatedOperand n mem =>
    rw [add, cut?_eq_none n.not_mem_text]
    simp [declare, OperandName.ofText?_text, mem]

/-- Nothing else can be wrong with a token. -/
theorem extends_or_offends (sound : d.Sound) (token : List Char) :
    (∃ ns cs, Tokens ns cs [token] ∧ (d.append ns cs).Sound) ∨ ∃ fault, d.Offends token fault := by
  by_cases mem : '=' ∈ token
  · obtain ⟨left, right, rfl, first⟩ := List.eq_append_cons_of_mem mem
    by_cases spelled : ∃ r, BitRange.Spelled left r
    case neg => exact .inr ⟨_, .malformedRange first (not_exists.1 spelled)⟩
    obtain ⟨r, spelled⟩ := spelled
    by_cases ordered : r.lo ≤ r.hi
    case neg => exact .inr ⟨_, .invertedRange spelled (Nat.not_le.1 ordered)⟩
    by_cases inside : r.hi < 32
    case neg => exact .inr ⟨_, .outOfWord spelled ordered (Nat.not_lt.1 inside)⟩
    by_cases literal : ∃ n, Numeral.Literal right n
    case neg => exact .inr ⟨_, .malformedValue spelled ⟨ordered, inside⟩ (not_exists.1 literal)⟩
    obtain ⟨value, literal⟩ := literal
    by_cases narrow : value < 2 ^ r.width
    case neg =>
      exact .inr ⟨_, .valueTooWide spelled ⟨ordered, inside⟩ literal (Nat.not_lt.1 narrow)⟩
    obtain ⟨c, rfl, rfl⟩ := FixedBits.exists_of_lt ⟨ordered, inside⟩ narrow
    have written : c.Spelled (left ++ '=' :: right) := ⟨left, right, rfl, spelled, literal⟩
    have fits : c.Fits := ⟨⟨ordered, inside⟩, narrow⟩
    by_cases apart : ∀ e ∈ d.constraints, e.range.Separate c.range
    case neg =>
      obtain ⟨e, mem, meet⟩ : ∃ e ∈ d.constraints, ¬e.range.Separate c.range := by simpa using apart
      exact .inr ⟨_, .overlap written fits mem meet⟩
    refine .inl ⟨[], [c], .constraint written .nil, ?_⟩
    exact sound_append_constraint_iff.2 ⟨sound, fits, apart⟩
  · by_cases known : ∃ n : OperandName, n.text.toList = token
    case neg => exact .inr ⟨_, .unknownOperand mem (not_exists.1 known)⟩
    obtain ⟨n, rfl⟩ := known
    by_cases fresh : n ∈ d.operands
    case pos => exact .inr ⟨_, .repeatedOperand fresh⟩
    exact .inl ⟨[n], [], .operand n .nil, sound_append_operand_iff.2 ⟨sound, fresh⟩⟩

/-! ## All tokens of a line -/

/-- Tokens that are sound behind a draft are added to it. -/
theorem foldlM_add (read : Tokens ns cs tokens) (sound : (d.append ns cs).Sound) :
    tokens.foldlM add d = .ok (d.append ns cs) := by
  induction read generalizing d with
  | nil => simp [append, pure, Except.pure]
  | @operand ns cs tokens n _ ih =>
    have split : d.append (n :: ns) cs = (d.append [n] []).append ns cs :=
      (append_append d [n] ns [] cs).symm
    rw [split] at sound ⊢
    have fresh := (sound_append_operand_iff.1 sound.of_append).2
    rw [List.foldlM_cons, add_operand fresh]
    exact ih sound
  | @constraint ns cs tokens c token spelled _ ih =>
    have split : d.append ns (c :: cs) = (d.append [] [c]).append ns cs :=
      (append_append d [] ns [c] cs).symm
    rw [split] at sound ⊢
    rw [List.foldlM_cons, add_constraint spelled sound.of_append]
    exact ih sound

/-- The leftmost token that offends decides the fault. -/
theorem foldlM_add_of_offends (read : Tokens ns cs tokens) (sound : (d.append ns cs).Sound)
    (offends : (d.append ns cs).Offends token fault) (rest : List (List Char)) :
    (tokens ++ token :: rest).foldlM add d = .error fault := by
  rw [List.foldlM_append, foldlM_add read sound]
  simp only [bind, Except.bind, List.foldlM_cons, add_of_offends sound offends]

/-- Either all tokens are sound together or there is a first that offends. -/
theorem reads_or_offends (sound : d.Sound) (tokens : List (List Char)) :
    (∃ ns cs, Tokens ns cs tokens ∧ (d.append ns cs).Sound) ∨
      ∃ good token rest ns cs fault, tokens = good ++ token :: rest ∧ Tokens ns cs good ∧
        (d.append ns cs).Sound ∧ (d.append ns cs).Offends token fault := by
  -- from the end: one more token leaves the first that offends where it is
  induction tokens using List.reverseRecOn with
  | nil => exact .inl ⟨[], [], .nil, by simpa [append] using sound⟩
  | append_singleton tokens token ih =>
    rcases ih with ⟨ns, cs, read, sound⟩ |
      ⟨good, bad, rest, ns, cs, fault, rfl, read, sound, offends⟩
    · rcases extends_or_offends sound token with ⟨ns', cs', more, sound⟩ | ⟨fault, offends⟩
      · rw [append_append] at sound
        exact .inl ⟨_, _, read.append more, sound⟩
      · exact .inr ⟨tokens, token, [], ns, cs, fault, rfl, read, sound, offends⟩
    · refine .inr ⟨good, bad, rest ++ [token], ns, cs, fault, ?_, read, sound, offends⟩
      rw [List.append_assoc, List.cons_append]

end Draft

end Rule

end Opcodes
