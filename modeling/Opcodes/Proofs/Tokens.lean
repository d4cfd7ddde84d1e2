import Mathlib
import Opcodes.Rule.Parser

/-!
# Lines as tokens between blanks

`Text.Laid tokens cs` says that the text is the tokens in order, with blanks between any two of them
and with any blanks around them. The words of a text are the only tokens that it is laid out of
(`words_eq_iff`), and trimming takes away blanks only. A mark cuts a text where it stands first.
-/
set_option autoImplicit false

namespace Opcodes.Text

variable {c : Char} {cs gap rest token : List Char} {tokens : List (List Char)}

/-- Nothing but blanks. -/
def Blanks (cs : List Char) : Prop := ∀ c ∈ cs, isBlank c = true

-- The instance is named, as the one that is found runs through all characters.
instance (cs : List Char) : Decidable (Blanks cs) := List.decidableBAll (isBlank · = true) cs

/-- Not empty, and without a blank. -/
def Token (cs : List Char) : Prop := cs ≠ [] ∧ ∀ c ∈ cs, isBlank c = false

instance (cs : List Char) : Decidable (Token cs) :=
  @instDecidableAnd _ _ _ (List.decidableBAll (isBlank · = false) cs)

/-- The tokens in order, with blanks in front of them, between any two and behind them. -/
def Laid : List (List Char) → List Char → Prop
  | [], cs => Blanks cs
  | token :: tokens, cs => ∃ gap rest, cs = gap ++ (token ++ rest) ∧ Blanks gap ∧ Token token ∧
      (∀ c ∈ rest.head?, isBlank c = true) ∧ Laid tokens rest

theorem Blanks.append {cs' : List Char} (h : Blanks cs) (h' : Blanks cs') : Blanks (cs ++ cs') :=
  List.forall_mem_append.2 ⟨h, h'⟩

theorem Laid.prepend (laid : Laid tokens cs) (blanks : Blanks gap) : Laid tokens (gap ++ cs) := by
  cases tokens with
  | nil => exact blanks.append laid
  | cons token tokens =>
    obtain ⟨gap', rest, rfl, blanks', isToken, ends, laid⟩ := laid
    exact ⟨gap ++ gap', rest, (List.append_assoc ..).symm, blanks.append blanks', isToken, ends,
      laid⟩

theorem Laid.append (laid : Laid tokens cs) (blanks : Blanks gap) : Laid tokens (cs ++ gap) := by
  induction tokens generalizing cs with
  | nil => exact Blanks.append laid blanks
  | cons token tokens ih =>
    obtain ⟨gap', rest, rfl, blanks', isToken, ends, laid⟩ := laid
    refine ⟨gap', rest ++ gap, by simp only [List.append_assoc], blanks', isToken, ?_, ih laid⟩
    cases rest with
    | nil => exact fun c mem => blanks c (List.mem_of_mem_head? mem)
    | cons d rest => exact ends

theorem words_cons_of_blank (blank : isBlank c = true) (cs : List Char) :
    words (c :: cs) = words cs := by
  cases cs with
  | nil => simp [words, blank]
  | cons d cs => rw [words, if_pos blank]

theorem words_append_of_blanks (blanks : Blanks gap) (cs : List Char) :
    words (gap ++ cs) = words cs := by
  induction gap with
  | nil => rfl
  | cons c gap ih =>
    obtain ⟨head, tail⟩ := List.forall_mem_cons.1 blanks
    rw [List.cons_append, words_cons_of_blank head, ih tail]

/-- A token ends where a blank or nothing follows. -/
theorem words_append_of_token (isToken : Token token)
    (ends : ∀ c ∈ rest.head?, isBlank c = true) : words (token ++ rest) = token :: words rest := by
  induction token with
  | nil => exact absurd rfl isToken.1
  | cons c token ih =>
    obtain ⟨head, tail⟩ := List.forall_mem_cons.1 isToken.2
    cases token with
    | nil =>
      cases rest with
      | nil => simp [words, head]
      | cons d rest =>
        have blank := ends d rfl
        rw [List.singleton_append, words, if_neg (by simp [head]), if_pos blank]
    | cons d token =>
      have more := ih ⟨List.cons_ne_nil _ _, tail⟩
      have next : isBlank d = false := tail d List.mem_cons_self
      rw [List.cons_append] at more
      rw [List.cons_append, List.cons_append, words, if_neg (by simp [head]),
        if_neg (by simp [next]), more]

theorem words_eq_of_laid (laid : Laid tokens cs) : words cs = tokens := by
  induction tokens generalizing cs with
  | nil =>
    have skipped := words_append_of_blanks laid []
    rwa [List.append_nil] at skipped
  | cons token tokens ih =>
    obtain ⟨gap, rest, rfl, blanks, isToken, ends, laid⟩ := laid
    rw [words_append_of_blanks blanks, words_append_of_token isToken ends, ih laid]

/-- A token goes in front of what is laid out behind it. -/
theorem Laid.token_append (isToken : Token token) (ends : ∀ c ∈ rest.head?, isBlank c = true)
    (laid : Laid tokens rest) : Laid (token :: tokens) (token ++ rest) :=
  ⟨[], rest, rfl, List.forall_mem_nil _, isToken, ends, laid⟩

/-- A character that is no blank extends the token that follows. -/
theorem Laid.extend {d : Char} (laid : Laid (token :: tokens) (d :: cs)) (head : isBlank c = false)
    (next : isBlank d = false) : Laid ((c :: token) :: tokens) (c :: d :: cs) := by
  obtain ⟨gap, rest, split, blanks, ⟨-, plain⟩, ends, laid⟩ := laid
  cases gap with
  | nil =>
    have isToken : Token (c :: token) :=
      ⟨List.cons_ne_nil _ _, List.forall_mem_cons.2 ⟨head, plain⟩⟩
    rw [split]
    exact laid.token_append isToken ends
  | cons b gap =>
    obtain ⟨rfl, -⟩ := List.cons.inj split
    exact absurd (blanks d List.mem_cons_self) (by simp [next])

theorem laid_words (cs : List Char) : Laid (words cs) cs := by
  fun_induction words cs with
  | case1 => exact List.forall_mem_nil _
  | case2 c blank => exact List.forall_mem_singleton.2 blank
  | case3 c plain =>
    have isToken : Token [c] := ⟨List.cons_ne_nil _ _, by simpa using plain⟩
    have nothing : Laid [] [] := List.forall_mem_nil _
    exact nothing.token_append isToken (by simp)
  | case4 c d cs blank ih => exact ih.prepend (List.forall_mem_singleton.2 blank)
  | case5 c d cs plain blank ih =>
    have isToken : Token [c] := ⟨List.cons_ne_nil _ _, by simpa using plain⟩
    exact ih.token_append isToken (by simpa using blank)
  | case6 c d cs _ plain none ih =>
    rw [none] at ih
    exact absurd (ih d List.mem_cons_self) plain
  | case7 c d cs plain plain' w ws found ih =>
    rw [found] at ih
    exact ih.extend (by simpa using plain) (by simpa using plain')

/-- The words of a text are the tokens that it is laid out of. -/
theorem words_eq_iff : words cs = tokens ↔ Laid tokens cs :=
  ⟨fun h => h ▸ laid_words cs, words_eq_of_laid⟩

instance (tokens : List (List Char)) (cs : List Char) : Decidable (Laid tokens cs) :=
  decidable_of_iff _ words_eq_iff

/-! ## Trimming -/

/-- A text is a trimmed text between blanks. -/
theorem exists_eq_append_trim (cs : List Char) : ∃ before after, Blanks before ∧ Blanks after ∧
    cs = before ++ cs.dropWhile isBlank ∧ cs.dropWhile isBlank = trim cs ++ after := by
  refine ⟨cs.takeWhile isBlank, ((cs.dropWhile isBlank).reverse.takeWhile isBlank).reverse,
    fun _ => List.mem_takeWhile_imp, ?_, List.takeWhile_append_dropWhile.symm, ?_⟩
  · intro c mem
    exact List.mem_takeWhile_imp (List.mem_reverse.1 mem)
  · rw [trim, ← List.reverse_append, List.takeWhile_append_dropWhile, List.reverse_reverse]

theorem words_trim (cs : List Char) : words (trim cs) = words cs := by
  obtain ⟨before, after, blanks, blanks', split, split'⟩ := exists_eq_append_trim cs
  have laid := ((laid_words (trim cs)).append blanks').prepend blanks
  rw [← split', ← split] at laid
  exact (words_eq_of_laid laid).symm

theorem head?_trim (cs : List Char) : (trim cs).head? = (cs.dropWhile isBlank).head? := by
  obtain ⟨-, after, -, blanks, -, split⟩ := exists_eq_append_trim cs
  cases trimmed : trim cs with
  | cons c rest =>
    rw [split, trimmed]
    rfl
  | nil =>
    rw [trimmed, List.nil_append] at split
    have plain := List.head?_dropWhile_not isBlank cs
    rw [split] at plain ⊢
    cases after with
    | nil => rfl
    | cons c after => exact absurd (blanks c List.mem_cons_self) (by simpa using plain)

/-- A line that says nothing: nothing but blanks, or a comment. -/
def Silent (cs : List Char) : Prop := Blanks cs ∨ ∃ gap rest, cs = gap ++ '#' :: rest ∧ Blanks gap

theorem isSkipped_trim_iff : Rule.isSkipped (trim cs) = true ↔ Silent cs := by
  rw [Rule.isSkipped, head?_trim]
  constructor
  · intro skipped
    cases first : cs.dropWhile isBlank with
    | nil => exact .inl (List.dropWhile_eq_nil_iff.1 first)
    | cons c rest =>
      obtain ⟨before, -, blanks, -, split, -⟩ := exists_eq_append_trim cs
      have comment : c = '#' := by simpa [first] using skipped
      exact .inr ⟨before, rest, by rw [← comment, ← first, ← split], blanks⟩
  · rintro (blanks | ⟨gap, rest, rfl, blanks⟩)
    · rw [List.dropWhile_eq_nil_iff.2 blanks]
      rfl
    · rw [List.dropWhile_append_of_pos blanks]
      rfl

instance (cs : List Char) : Decidable (Silent cs) := decidable_of_iff _ isSkipped_trim_iff

/-! ## Cutting -/

variable {m : Char} {mark left right : List Char}

theorem eq_append_of_cut? (found : cut? mark cs = some (left, right)) :
    cs = left ++ (mark ++ right) := by
  induction cs generalizing left with
  | nil => cases found
  | cons c cs ih =>
    rw [cut?] at found
    split at found
    · rename_i here
      obtain ⟨rest, split⟩ := List.isPrefixOf_iff_prefix.1 here
      rw [← split, List.drop_left, Option.some.injEq, Prod.mk.injEq] at found
      obtain ⟨rfl, rfl⟩ := found
      exact split.symm
    · obtain ⟨⟨before, after⟩, later, pair⟩ := Option.map_eq_some_iff.1 found
      cases pair
      rw [ih later]
      rfl

/-- A mark is found at once where its first character did not stand before. -/
theorem cut?_append (absent : m ∉ left) (mark right : List Char) :
    cut? (m :: mark) (left ++ (m :: mark ++ right)) = some (left, right) := by
  induction left with
  | nil =>
    have here : (m :: mark).isPrefixOf (m :: (mark ++ right)) = true :=
      List.isPrefixOf_iff_prefix.2 (List.prefix_append _ _)
    rw [List.nil_append, List.cons_append, cut?, if_pos here]
    simp
  | cons c left ih =>
    rw [List.mem_cons, not_or] at absent
    rw [List.cons_append, cut?, ih absent.2, if_neg]
    · rfl
    · simp [absent.1]

theorem cut?_eq_none (absent : m ∉ cs) (mark : List Char) : cut? (m :: mark) cs = none := by
  cases found : cut? (m :: mark) cs with
  | none => rfl
  | some pair =>
    refine absurd ?_ absent
    rw [eq_append_of_cut? found]
    simp

/-- One character cuts a text at its first occurrence. -/
theorem cut?_singleton_eq_some_iff :
    cut? [m] cs = some (left, right) ↔ cs = left ++ m :: right ∧ m ∉ left := by
  constructor
  · intro found
    by_cases mem : m ∈ cs
    · obtain ⟨before, after, rfl, absent⟩ := List.eq_append_cons_of_mem mem
      have first : cut? [m] (before ++ m :: after) = some (before, after) :=
        cut?_append absent [] after
      rw [first, Option.some.injEq, Prod.mk.injEq] at found
      obtain ⟨rfl, rfl⟩ := found
      exact ⟨rfl, absent⟩
    · rw [cut?_eq_none mem] at found
      cases found
  · rintro ⟨rfl, absent⟩
    exact cut?_append absent [] right

end Opcodes.Text
