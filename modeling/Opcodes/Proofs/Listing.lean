import Opcodes.Proofs.Sweep

/-!
# Runs of a sweep

A sweep is a loop, and its state is the address it stands at. `line?` is one turn of the loop,
`Reaches` is a part of a run and `Halts` a run that comes to an end; none of them counts turns. A run
that ends stands at no address twice, so `sweep`, which takes a turn for each address there is, shows
all of it (`Halts.sweep_eq`).

A turn adds two or four to the address, modulo the size of the address space. As long as it stays
below the top, the sweep climbs through its range and ends. A turn that passes the top leads back to
the lowest addresses, and the sweep goes on there (`sweep_inRange_or_wraps`), in the worst case for
ever (`not_halts_of_full`).
-/
set_option autoImplicit false

namespace Opcodes

theorem Table.Built.length_of_decode {registry : Registry} {rules : List Rule} {t : Table} {w : Word}
    {i : Instruction} (built : Built registry rules t) (decoded : t.decode w = .instruction i) :
    i.length = 2 ∨ i.length = 4 := by
  obtain ⟨rule, -, -, layout, resolved, rfl⟩ := built.rule_of_decode decoded
  exact (encodedLength_eq (Registry.soundLayout_eq_ok_iff.1 resolved).2).1

/-- The address at which a sweep goes on behind a line. -/
def Line.behind (illegalStep : Nat) (l : Line) : Word :=
  l.address + BitVec.ofNat 32 (Listing.advance illegalStep l.decoded)

namespace Listing

section Runs

variable (t : Table) (m : Image) (stop : Word) (illegalStep : Nat)

/-- The line that a sweep writes at an address, if it does not end there. -/
def line? (pc : Word) : Option Line :=
  if pc < stop then
    (m.fetch? pc).map fun w => ⟨pc, (List.range (advance illegalStep (t.decode w))).filterMap fun k =>
      m.byte? (pc + BitVec.ofNat 32 k), t.decode w⟩
  else none

/-- A sweep that stands at the first address writes the lines and then stands at the second. -/
inductive Reaches : Word → List Line → Word → Prop where
  | refl (pc : Word) : Reaches pc [] pc
  | step {pc next : Word} {l : Line} {ls : List Line} : line? t m stop illegalStep pc = some l →
      Reaches (l.behind illegalStep) ls next → Reaches pc (l :: ls) next

/-- A sweep from the address on comes to an end, and these are its lines. -/
def Halts (pc : Word) (ls : List Line) : Prop :=
  ∃ next, Reaches t m stop illegalStep pc ls next ∧ line? t m stop illegalStep next = none

end Runs

variable {t : Table} {m : Image} {stop pc next next' : Word} {illegalStep : Nat} {l : Line}
  {ls ls' : List Line}

theorem line?_eq_some_iff : line? t m stop illegalStep pc = some l ↔
    pc < stop ∧ ∃ w, m.fetch? pc = some w ∧ l = ⟨pc,
      (List.range (advance illegalStep (t.decode w))).filterMap fun k =>
        m.byte? (pc + BitVec.ofNat 32 k), t.decode w⟩ := by
  rw [line?]
  split
  · rename_i below
    rw [Option.map_eq_some_iff]
    simp only [below, true_and, eq_comm]
  · rename_i out
    simp [out]

theorem address_of_line? (turn : line? t m stop illegalStep pc = some l) : l.address = pc := by
  obtain ⟨-, w, -, rfl⟩ := line?_eq_some_iff.1 turn
  rfl

theorem sweepFrom_succ (fuel : Nat) (pc : Word) : sweepFrom t m stop illegalStep (fuel + 1) pc =
    match line? t m stop illegalStep pc with
    | none => []
    | some l => l :: sweepFrom t m stop illegalStep fuel (l.behind illegalStep) := by
  rw [sweepFrom, line?]
  split
  · cases m.fetch? pc <;> rfl
  · rfl

/-- A counted sweep takes the turns of a run one by one. -/
theorem Reaches.sweepFrom_add (reaches : Reaches t m stop illegalStep pc ls next) (fuel : Nat) :
    sweepFrom t m stop illegalStep (ls.length + fuel) pc =
      ls ++ sweepFrom t m stop illegalStep fuel next := by
  induction reaches with
  | refl pc => rw [List.length_nil, Nat.zero_add, List.nil_append]
  | step turn _ ih =>
    rw [List.length_cons, Nat.add_right_comm, sweepFrom_succ, turn, List.cons_append, ← ih]

theorem sweepFrom_of_line?_eq_none (done : line? t m stop illegalStep pc = none) (fuel : Nat) :
    sweepFrom t m stop illegalStep fuel pc = [] := by
  cases fuel with
  | zero => rfl
  | succ fuel => rw [sweepFrom_succ, done]

/-- What a counted sweep shows is a part of a run. -/
theorem exists_reaches_sweepFrom (t : Table) (m : Image) (stop : Word) (illegalStep fuel : Nat)
    (pc : Word) : ∃ next, Reaches t m stop illegalStep pc (sweepFrom t m stop illegalStep fuel pc)
      next := by
  induction fuel generalizing pc with
  | zero => exact ⟨pc, .refl pc⟩
  | succ fuel ih =>
    rw [sweepFrom_succ]
    cases turn : line? t m stop illegalStep pc with
    | none => exact ⟨pc, .refl pc⟩
    | some l =>
      obtain ⟨next, reaches⟩ := ih (l.behind illegalStep)
      exact ⟨next, .step turn reaches⟩

/-- From each of its lines on, a run is a run. -/
theorem Reaches.exists_split (reaches : Reaches t m stop illegalStep pc ls next) (mem : l ∈ ls) :
    ∃ before after, ls = before ++ l :: after ∧
      Reaches t m stop illegalStep l.address (l :: after) next := by
  induction reaches with
  | refl => cases mem
  | @step pc next first rest turn later ih =>
    rcases List.mem_cons.1 mem with rfl | mem
    · refine ⟨[], rest, rfl, ?_⟩
      rw [address_of_line? turn]
      exact .step turn later
    · obtain ⟨before, after, rfl, tail⟩ := ih mem
      exact ⟨first :: before, after, rfl, tail⟩

/-- The lines of a sweep are those that it writes at their addresses. -/
theorem line?_of_mem_sweep {start : Word} (mem : l ∈ sweep t m start stop illegalStep) :
    line? t m stop illegalStep l.address = some l := by
  obtain ⟨next, reaches⟩ := exists_reaches_sweepFrom t m stop illegalStep 0x100000000 start
  obtain ⟨before, after, -, tail⟩ := reaches.exists_split mem
  cases tail with
  | step turn _ => exact turn

/-- Two runs from one address that end are one. -/
theorem Reaches.eq_of_halts (reaches : Reaches t m stop illegalStep pc ls next)
    (done : line? t m stop illegalStep next = none)
    (reaches' : Reaches t m stop illegalStep pc ls' next')
    (done' : line? t m stop illegalStep next' = none) : ls = ls' := by
  induction reaches generalizing ls' with
  | refl =>
    cases reaches' with
    | refl => rfl
    | step turn _ => rw [done] at turn; cases turn
  | step turn _ ih =>
    cases reaches' with
    | refl => rw [done'] at turn; cases turn
    | step turn' later =>
      rw [turn] at turn'
      cases turn'
      rw [ih done later]

/-- A run that ends stands at no address twice: from there on it would have to end in two ways. -/
theorem Halts.nodup (halts : Halts t m stop illegalStep pc ls) : (ls.map Line.address).Nodup := by
  obtain ⟨next, reaches, done⟩ := halts
  induction reaches with
  | refl => exact List.nodup_nil
  | @step pc next l ls turn later ih =>
    rw [List.map_cons, List.nodup_cons]
    refine ⟨fun twice => ?_, ih done⟩
    obtain ⟨l', mem, same⟩ := List.mem_map.1 twice
    obtain ⟨before, after, split, tail⟩ := later.exists_split mem
    rw [same, address_of_line? turn] at tail
    have eq := tail.eq_of_halts done (.step turn later) done
    have length := congrArg List.length eq
    rw [split, List.length_cons, List.length_cons, List.length_append, List.length_cons] at length
    omega

/-- A run that ends has no more lines than there are addresses. -/
theorem Halts.length_le (halts : Halts t m stop illegalStep pc ls) : ls.length ≤ 0x100000000 := by
  have nodup := halts.nodup.map (f := BitVec.toFin) fun _ _ => BitVec.eq_of_toFin_eq
  have short := nodup.length_le_card
  rwa [List.length_map, List.length_map, Fintype.card_fin] at short

/-- A sweep begins with every part of its run that is no longer than there are addresses. -/
theorem Reaches.sweep_eq_append {start : Word} (reaches : Reaches t m stop illegalStep start ls next)
    (short : ls.length ≤ 0x100000000) : sweep t m start stop illegalStep =
      ls ++ sweepFrom t m stop illegalStep (0x100000000 - ls.length) next := by
  rw [sweep, ← reaches.sweepFrom_add, Nat.add_sub_of_le short]

/-- A sweep that ends is shown to its end. -/
theorem Halts.sweep_eq {start : Word} (halts : Halts t m stop illegalStep start ls) :
    sweep t m start stop illegalStep = ls := by
  have short := halts.length_le
  obtain ⟨next, reaches, done⟩ := halts
  rw [reaches.sweep_eq_append short, sweepFrom_of_line?_eq_none done, List.append_nil]

/-- Each turn goes on by two bytes or by four. -/
def Strides (t : Table) (illegalStep : Nat) : Prop :=
  ∀ w, advance illegalStep (t.decode w) = 2 ∨ advance illegalStep (t.decode w) = 4

theorem strides_of_built {registry : Registry} {rules : List Rule}
    (built : Table.Built registry rules t) (step : illegalStep = 2 ∨ illegalStep = 4) :
    Strides t illegalStep := by
  intro w
  cases decoded : t.decode w with
  | illegal => exact step
  | instruction i => exact built.length_of_decode decoded

/-- The lines ascend from the first address on and stay below the second. -/
structure InRange (start stop : Word) (ls : List Line) : Prop where
  ascending : ls.Pairwise fun l l' => l.address < l'.address
  inside : ∀ l ∈ ls, start ≤ l.address ∧ l.address < stop
  few : ls.length ≤ (stop.toNat + 1 - start.toNat) / 2

theorem InRange.nil (start stop : Word) : InRange start stop [] :=
  ⟨.nil, fun _ mem => absurd mem List.not_mem_nil, Nat.zero_le _⟩

theorem InRange.cons (rest : InRange next stop ls) (below : l.address < stop)
    (climbs : l.address.toNat + 2 ≤ next.toNat) : InRange l.address stop (l :: ls) := by
  have above : ∀ l' ∈ ls, l.address < l'.address := fun l' mem => by
    have later := (rest.inside l' mem).1
    rw [BitVec.le_def] at later
    rw [BitVec.lt_def]
    omega
  refine ⟨List.pairwise_cons.2 ⟨above, rest.ascending⟩, ?_, ?_⟩
  · rw [List.forall_mem_cons]
    exact ⟨⟨BitVec.le_refl _, below⟩, fun l' mem =>
      ⟨BitVec.le_of_lt (above l' mem), (rest.inside l' mem).2⟩⟩
  · have few := rest.few
    rw [BitVec.lt_def] at below
    rw [List.length_cons]
    omega

theorem InRange.singleton (below : l.address < stop) : InRange l.address stop [l] := by
  refine ⟨List.pairwise_singleton _ _, ?_, ?_⟩
  · rw [List.forall_mem_singleton]
    exact ⟨BitVec.le_refl _, below⟩
  · rw [BitVec.lt_def] at below
    rw [List.length_singleton]
    omega

/-- A turn climbs, or it passes the top of the address space. -/
theorem climbs_or_wraps (strides : Strides t illegalStep)
    (turn : line? t m stop illegalStep pc = some l) :
    pc.toNat + 2 ≤ (l.behind illegalStep).toNat ∨ 0xFFFFFFFC ≤ pc ∧ l.behind illegalStep < 4 := by
  obtain ⟨-, w, -, rfl⟩ := line?_eq_some_iff.1 turn
  have sum : (pc + BitVec.ofNat 32 (advance illegalStep (t.decode w))).toNat =
      (pc.toNat + advance illegalStep (t.decode w)) % 0x100000000 := by
    rw [BitVec.toNat_add, BitVec.toNat_ofNat, Nat.add_mod_mod]
  have bound := pc.isLt
  simp only [Line.behind, BitVec.le_def, BitVec.lt_def, sum, BitVec.reduceToNat]
  -- two or four bytes pass the top only from the last four addresses
  rcases strides w with two | four <;> omega

/-- A sweep climbs through its range and ends there, or it passes the top of the address space and
goes on at the bottom. -/
theorem exists_halts_or_wraps (m : Image) (stop : Word) (strides : Strides t illegalStep)
    (pc : Word) :
    (∃ ls, Halts t m stop illegalStep pc ls ∧ InRange pc stop ls) ∨
    ∃ ls l next, Reaches t m stop illegalStep pc (ls ++ [l]) next ∧ InRange pc stop ls ∧
      (∃ top ∈ ls, 0xFFFFFFFC ≤ top.address) ∧ l.address < 4 := by
  induction height : stop.toNat - pc.toNat using Nat.strong_induction_on generalizing pc with
  | h height' ih =>
  cases turn : line? t m stop illegalStep pc with
  | none => exact .inl ⟨[], ⟨pc, .refl pc, turn⟩, .nil pc stop⟩
  | some l =>
    have below := (line?_eq_some_iff.1 turn).1
    obtain rfl := address_of_line? turn
    rcases climbs_or_wraps strides turn with climbs | ⟨top, bottom⟩
    -- the way left to `stop` gets shorter only here; behind the top it is as long as it can be
    · have lower : stop.toNat - (l.behind illegalStep).toNat < height' := by
        rw [BitVec.lt_def] at below
        omega
      rcases ih _ lower (l.behind illegalStep) rfl with
        ⟨ls, ⟨next, reaches, done⟩, range⟩ | ⟨ls, l', next, reaches, range, ⟨top, mem, high⟩, low⟩
      · exact .inl ⟨l :: ls, ⟨next, .step turn reaches, done⟩, range.cons below climbs⟩
      · exact .inr ⟨l :: ls, l', next, .step turn reaches, range.cons below climbs,
          ⟨top, List.mem_cons_of_mem l mem, high⟩, low⟩
    · cases turn' : line? t m stop illegalStep (l.behind illegalStep) with
      | none => exact .inl ⟨[l], ⟨_, .step turn (.refl _), turn'⟩, .singleton below⟩
      | some l' =>
        refine .inr ⟨[l], l', _, .step turn (.step turn' (.refl _)), .singleton below,
          ⟨l, List.mem_singleton.2 rfl, top⟩, ?_⟩
        rwa [address_of_line? turn']

/-- A sweep ends inside its range, with ascending addresses and at most one line for two bytes, or
it passes the top of the address space and goes on at the lowest addresses. The second needs a range
that reaches into the last four bytes. -/
theorem sweep_inRange_or_wraps {registry : Registry} {rules : List Rule}
    (ok : Table.ofRules registry rules = .ok t) (step : illegalStep = 2 ∨ illegalStep = 4)
    (m : Image) (start stop : Word) :
    Halts t m stop illegalStep start (sweep t m start stop illegalStep) ∧
      InRange start stop (sweep t m start stop illegalStep) ∨
    0xFFFFFFFC < stop ∧ ∃ ls l, ls ++ [l] <+: sweep t m start stop illegalStep ∧
      InRange start stop ls ∧ (∃ top ∈ ls, 0xFFFFFFFC ≤ top.address) ∧ l.address < 4 := by
  have strides := strides_of_built (Table.built_of_ofRules ok) step
  rcases exists_halts_or_wraps m stop strides start with
    ⟨ls, halts, range⟩ | ⟨ls, l, next, reaches, range, ⟨top, mem, high⟩, low⟩
  · rw [halts.sweep_eq]
    exact .inl ⟨halts, range⟩
  · have short : (ls ++ [l]).length ≤ 0x100000000 := by
      have few := range.few
      have bound := stop.isLt
      rw [List.length_append, List.length_singleton]
      omega
    rw [reaches.sweep_eq_append short]
    exact .inr ⟨Std.lt_of_le_of_lt high (range.inside top mem).2, ls, l,
      List.prefix_append _ _, range, ⟨top, mem, high⟩, low⟩

theorem sweep_inRange_nopRules : ∃ t, Table.ofRules .riscv Table.nopRules = .ok t ∧
    Halts t (.ofBytes 0 #[0x13, 0, 0, 0]) 8 2 0
      (sweep t (.ofBytes 0 #[0x13, 0, 0, 0]) 0 8 2) ∧
    InRange 0 8 (sweep t (.ofBytes 0 #[0x13, 0, 0, 0]) 0 8 2) := by
  obtain ⟨t, ok⟩ := Table.exists_ofRules_nopRules
  refine ⟨t, ok, ?_⟩
  rcases sweep_inRange_or_wraps ok (.inl rfl) (.ofBytes 0 #[0x13, 0, 0, 0]) 0 8 with
    ends | ⟨high, -⟩
  · exact ends
  · exact absurd high (by decide)

/-- A word at the top of the address space and one at its bottom. -/
def splitImage : Image :=
  [⟨"high", 0xFFFFFFFC, #[0x13, 0, 0, 0]⟩, ⟨"low", 0, #[0x13, 0, 0, 0]⟩]

/-- A sweep to the last address lists the bottom of the address space below its range. -/
theorem sweep_splitImage : ∃ t, Table.ofRules .riscv [⟨"nop", [], [⟨⟨31, 0⟩, 0x13⟩], 1⟩] = .ok t ∧
    (sweep t splitImage 0xFFFFFFFC 0xFFFFFFFF 4).map Line.address = [0xFFFFFFFC, 0] ∧
    ¬InRange 0xFFFFFFFC 0xFFFFFFFF (sweep t splitImage 0xFFFFFFFC 0xFFFFFFFF 4) := by
  let t : Table := ⟨[⟨0xFFFFFFFF, [⟨0x13, "nop", [], [], 4, 1⟩]⟩]⟩
  let lines : List Line := [0xFFFFFFFC, 0].map fun a =>
    ⟨a, [0x13, 0, 0, 0], .instruction ⟨0x13, "nop", [], 4⟩⟩
  have ok : Table.ofRules .riscv [⟨"nop", [], [⟨⟨31, 0⟩, 0x13⟩], 1⟩] = .ok t := by decide +kernel
  have halts : Halts t splitImage 0xFFFFFFFF 4 0xFFFFFFFC lines :=
    ⟨4, .step (by decide +kernel) (.step (by decide +kernel) (.refl _)), by decide +kernel⟩
  refine ⟨t, ok, ?_, ?_⟩ <;> rw [halts.sweep_eq]
  · rfl
  · exact fun range => absurd range.ascending (by decide)

/-- Where every address of a kind has a line and the turn leads to one of the kind, no sweep ends. -/
theorem not_halts_of_progress {P : Word → Prop}
    (progress : ∀ pc, P pc → ∃ l, line? t m stop illegalStep pc = some l ∧ P (l.behind illegalStep))
    (start : P pc) : ¬Halts t m stop illegalStep pc ls := by
  rintro ⟨next, reaches, done⟩
  induction reaches with
  | refl pc =>
    obtain ⟨l, turn, -⟩ := progress pc start
    rw [done] at turn
    cases turn
  | step turn _ ih =>
    obtain ⟨l, turn', kept⟩ := progress _ start
    rw [turn] at turn'
    cases turn'
    exact ih kept done

/-- A sweep from an even address meets none but even addresses, and so never the last one. Where
all of them can be read it does not end. -/
theorem not_halts_of_readable (strides : Strides t illegalStep) (readable : ∀ a, m.fetch? a ≠ none)
    (even : pc.toNat % 2 = 0) : ¬Halts t m 0xFFFFFFFF illegalStep pc ls := by
  refine not_halts_of_progress (P := fun pc => pc.toNat % 2 = 0) (fun pc even => ?_) even
  obtain ⟨w, fetched⟩ := Option.ne_none_iff_exists'.1 (readable pc)
  have below : pc < 0xFFFFFFFF := by
    have top : (0xFFFFFFFF : Word).toNat = 0xFFFFFFFF := rfl
    rw [BitVec.lt_def]
    omega
  refine ⟨_, line?_eq_some_iff.2 ⟨below, w, fetched, rfl⟩, ?_⟩
  simp only [Line.behind, BitVec.toNat_add, BitVec.toNat_ofNat]
  rcases strides w with two | four <;> omega

/-- Over an image that fills the address space no table's sweep from the first address to the last
ends. -/
theorem not_halts_of_full {registry : Registry} {rules : List Rule}
    (ok : Table.ofRules registry rules = .ok t) (step : illegalStep = 2 ∨ illegalStep = 4)
    {bytes : Array Byte} (full : bytes.size = 0x100000000) :
    ¬Halts t (.ofBytes 0 bytes) 0xFFFFFFFF illegalStep 0 ls := by
  have byte : ∀ a : Word, ∃ b, Image.byte? (.ofBytes 0 bytes) a = some b := fun a => by
    have inside : (a - 0).toNat < bytes.size := full ▸ (a - 0).isLt
    have above : (0 : Word) ≤ a := BitVec.le_def.2 (Nat.zero_le _)
    refine ⟨bytes[(a - 0).toNat], ?_⟩
    rw [Image.byte?, Image.ofBytes, List.findSome?_cons, Segment.byte?, if_pos above,
      Array.getElem?_eq_getElem inside]
  have half : ∀ a : Word, ∃ h, Image.half? (.ofBytes 0 bytes) a = some h := fun a => by
    obtain ⟨low, read⟩ := byte a
    obtain ⟨high, above⟩ := byte (a + 1)
    rw [Image.half?, read, above]
    exact ⟨high ++ low, rfl⟩
  refine not_halts_of_readable (strides_of_built (Table.built_of_ofRules ok) step) (fun a => ?_) rfl
  obtain ⟨low, read⟩ := half a
  obtain ⟨high, above⟩ := half (a + 2)
  rw [Image.fetch?_of_halves read above]
  exact Option.some_ne_none _

end Listing

end Opcodes
