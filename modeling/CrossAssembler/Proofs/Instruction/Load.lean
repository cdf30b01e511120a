import CrossAssembler.Proofs.Instruction.Denotation

/-!
# Loads

The loads of the processor as a table, and the proof that the final pass encodes it and nothing else
(`encode_load_iff`).

* `LoadRow` has one rule for each documented load, with the bytes that its operands fix and the
  value that follows them.
* `Restricted` has the pairs of operands that only the accumulator may be part of.
* `Trailer.Gives` says how the value is written: it has to be there, and it has to fit.

Two genuine operands are a row of the table, or a restricted pair, or neither (`load_sorted`). What
becomes of the three is found out once for each, and the answers of the encoder are told apart from
that (`Verdict`).
-/

namespace CrossAssembler

/-! ### The table of loads -/

/-- What follows the bytes of a load: nothing, or a value of one or two bytes. -/
inductive Trailer where
  | nothing
  | byte (t : Term)
  | word (t : Term)

namespace Operand

/-- **Bytes in memory**: an operand, what it puts in front of the opcode and what behind. An index
register alone has the displacement zero. -/
inductive InMemory : Operand → List UInt8 → List UInt8 → Prop where
  | pointer : InMemory (.atPair .hl) [] []
  | index (r : IndexRegister) : InMemory (.atPair (.index r)) [r.code] [0]
  | indexed (r : IndexRegister) (d : Int) :
      InMemory (.atIndex (some (r.code.toNat : Int)) (lowPart d)) [r.code] [lowByte d]

/-- The operands that no 8-bit register but the accumulator is loaded from or stored to. -/
inductive AccumulatorOnly : Operand → Prop where
  | bc : AccumulatorOnly (.atPair .bc)
  | de : AccumulatorOnly (.atPair .de)
  | address (t : Term) : AccumulatorOnly (.direct t)
  | special (s : SpecialRegister) : AccumulatorOnly (.special s)

end Operand

namespace Instruction

/-- **The loads**, with the bytes that their operands fix and the value that follows. One rule for each
row of the instruction table; what stands in no row is no load. -/
inductive LoadRow : Operand → Operand → List UInt8 → Trailer → Prop where
  | registers (r s : Register8) :
      LoadRow (.register (.ok r)) (.register (.ok s)) [(0x40 : UInt8) ||| r.code <<< 3 ||| s.code]
        .nothing
  | registerValue (r : Register8) (t : Term) :
      LoadRow (.register (.ok r)) (.immediate t) [(0x06 : UInt8) ||| r.code <<< 3] (.byte t)
  | fromMemory (r : Register8) {x : Operand} {front back : List UInt8}
      (hx : x.InMemory front back) :
      LoadRow (.register (.ok r)) x (front ++ [(0x46 : UInt8) ||| r.code <<< 3] ++ back) .nothing
  | toMemory {x : Operand} {front back : List UInt8} (hx : x.InMemory front back)
      (s : Register8) :
      LoadRow x (.register (.ok s)) (front ++ [(0x70 : UInt8) ||| s.code] ++ back) .nothing
  | memoryValue {x : Operand} {front back : List UInt8} (hx : x.InMemory front back) (t : Term) :
      LoadRow x (.immediate t) (front ++ [0x36] ++ back) (.byte t)
  | fromBc : LoadRow (.register (.ok .a)) (.atPair .bc) [0x0A] .nothing
  | fromDe : LoadRow (.register (.ok .a)) (.atPair .de) [0x1A] .nothing
  | toBc : LoadRow (.atPair .bc) (.register (.ok .a)) [0x02] .nothing
  | toDe : LoadRow (.atPair .de) (.register (.ok .a)) [0x12] .nothing
  | fromAddress (t : Term) : LoadRow (.register (.ok .a)) (.direct t) [0x3A] (.word t)
  | toAddress (t : Term) : LoadRow (.direct t) (.register (.ok .a)) [0x32] (.word t)
  | fromI : LoadRow (.register (.ok .a)) (.special .i) [0xED, 0x57] .nothing
  | fromR : LoadRow (.register (.ok .a)) (.special .r) [0xED, 0x5F] .nothing
  | toI : LoadRow (.special .i) (.register (.ok .a)) [0xED, 0x47] .nothing
  | toR : LoadRow (.special .r) (.register (.ok .a)) [0xED, 0x4F] .nothing
  | pairValue {p : Pair} {dd : UInt8} (hp : p.code? = some dd) (t : Term) :
      LoadRow (.pair (.ok p)) (.immediate t) [(0x01 : UInt8) ||| dd <<< 4] (.word t)
  | indexValue (r : IndexRegister) (t : Term) :
      LoadRow (.pair (.ok (.index r))) (.immediate t) [r.code, 0x21] (.word t)
  | pointerFrom (t : Term) : LoadRow (.pair (.ok .hl)) (.direct t) [0x2A] (.word t)
  | pairFrom {p : Pair} {dd : UInt8} (hp : p.code? = some dd) (hne : p ≠ .hl) (t : Term) :
      LoadRow (.pair (.ok p)) (.direct t) [0xED, (0x4B : UInt8) ||| dd <<< 4] (.word t)
  | indexFrom (r : IndexRegister) (t : Term) :
      LoadRow (.pair (.ok (.index r))) (.direct t) [r.code, 0x2A] (.word t)
  | pointerTo (t : Term) : LoadRow (.direct t) (.pair (.ok .hl)) [0x22] (.word t)
  | pairTo {p : Pair} {dd : UInt8} (hp : p.code? = some dd) (hne : p ≠ .hl) (t : Term) :
      LoadRow (.direct t) (.pair (.ok p)) [0xED, (0x43 : UInt8) ||| dd <<< 4] (.word t)
  | indexTo (r : IndexRegister) (t : Term) :
      LoadRow (.direct t) (.pair (.ok (.index r))) [r.code, 0x22] (.word t)
  | stackPointer : LoadRow (.pair (.ok .sp)) (.pair (.ok .hl)) [0xF9] .nothing
  | stackIndex (r : IndexRegister) :
      LoadRow (.pair (.ok .sp)) (.pair (.ok (.index r))) [r.code, 0xF9] .nothing

/-- **Restricted loads**: an 8-bit register where only the accumulator is legal. -/
inductive Restricted : Operand → Operand → Prop where
  | destination {r : Register8} (hr : r ≠ .a) {x : Operand} (hx : x.AccumulatorOnly) :
      Restricted (.register (.ok r)) x
  | source {x : Operand} (hx : x.AccumulatorOnly) {r : Register8} (hr : r ≠ .a) :
      Restricted x (.register (.ok r))

theorem LoadRow.ne_other {x y : Operand} {code : List UInt8} {trailer : Trailer}
    (h : LoadRow x y code trailer) : ∀ z ∈ [x, y], z ≠ .other := by
  intro z hz
  rintro rfl
  simp only [List.mem_cons, List.not_mem_nil, or_false] at hz
  rcases hz with rfl | rfl
  · cases h <;> cases ‹Operand.InMemory _ _ _›
  · cases h
    cases ‹Operand.InMemory _ _ _›

theorem Restricted.ne_other {x y : Operand} (h : Restricted x y) : ∀ z ∈ [x, y], z ≠ .other := by
  intro z hz
  rintro rfl
  simp only [List.mem_cons, List.not_mem_nil, or_false] at hz
  rcases hz with rfl | rfl
  · cases h
    cases ‹Operand.AccumulatorOnly _›
  · cases h
    cases ‹Operand.AccumulatorOnly _›

/-! ### Choosing a row -/

/-- The fields that await the value of a trailer. -/
inductive Closes : Template → Trailer → Prop where
  | nothing : Closes [] .nothing
  | byte (t : Term) (what : String) : Closes [.byteOf t what] (.byte t)
  | word (t : Term) (what : String) : Closes [.wordOf t what] (.word t)

/-- The template around an opcode holds the bytes of the table. -/
theorem around_map_byte (front back : List UInt8) (opcode : UInt8) :
    MemoryForm.around ⟨front.map Field.byte, back.map Field.byte⟩ opcode =
      (front ++ [opcode] ++ back).map Field.byte := by
  simp only [MemoryForm.around, List.map_append, List.map_cons, List.map_nil]

theorem load_from_inMemory {x : Operand} {front back : List UInt8} (hx : x.InMemory front back)
    (r : Register8) :
    load (.register (.ok r)) x =
      .ok ((front ++ [Opcode.middle 0x46 r.code] ++ back).map Field.byte) := by
  rw [← around_map_byte]
  cases hx with
  | pointer => rfl
  | index r => rfl
  | indexed r d =>
    change Except.ok (MemoryForm.around ⟨[.ofElement _], [.ofElement _]⟩ _) = _
    rw [Field.ofElement_index, Field.ofElement_lowPart]
    rfl

theorem load_to_inMemory {x : Operand} {front back : List UInt8} (hx : x.InMemory front back)
    (y : Operand) :
    load x y = storeMemory ⟨front.map Field.byte, back.map Field.byte⟩ y := by
  cases hx with
  | pointer => rfl
  | index r => rfl
  | indexed r d =>
    change storeMemory ⟨[.ofElement _], [.ofElement _]⟩ y = _
    rw [Field.ofElement_index, Field.ofElement_lowPart]
    rfl

theorem load_pair_direct (p : Pair) (t : Term) :
    load (.pair (.ok p)) (.direct t) = orForm (p.transfer? true t) := by
  cases p <;> rfl

/-- A pair with a code, other than HL, is exchanged with memory on the extended page. -/
theorem transfer?_eq {p : Pair} {dd : UInt8} (hp : p.code? = some dd) (hne : p ≠ .hl)
    (load : Bool) (t : Term) :
    p.transfer? load t =
      some [.byte extendedPage, .byte (Opcode.pair (if load then 0x4B else 0x43) dd),
        .wordOf t "address"] := by
  cases p with
  | hl => exact absurd rfl hne
  | index r => cases hp
  | _ => cases hp <;> rfl

/-- **The rows are chosen**: the load of two operands of a row has the bytes of the row, and a field for the
value that follows. -/
theorem LoadRow.load_eq {x y : Operand} {code : List UInt8} {trailer : Trailer}
    (h : LoadRow x y code trailer) :
    ∃ w, Closes w trailer ∧ load x y = .ok (code.map Field.byte ++ w) := by
  -- rows with a value end with a field for it, the others with nothing
  cases h with
  | registerValue r t => exact ⟨_, .byte t "8-bit value", rfl⟩
  | fromMemory r hx =>
    refine ⟨[], .nothing, ?_⟩
    rw [List.append_nil]
    exact load_from_inMemory hx r
  | toMemory hx s =>
    refine ⟨[], .nothing, ?_⟩
    rw [List.append_nil, ← around_map_byte]
    exact load_to_inMemory hx _
  | memoryValue hx t =>
    refine ⟨_, .byte t "8-bit value", ?_⟩
    rw [← around_map_byte]
    exact load_to_inMemory hx _
  | fromAddress t => exact ⟨_, .word t "address", rfl⟩
  | toAddress t => exact ⟨_, .word t "address", rfl⟩
  | @pairValue p dd hp t =>
    refine ⟨_, .word t "16-bit value", ?_⟩
    cases p with
    | index r => cases hp
    | _ => cases hp <;> rfl
  | indexValue r t => exact ⟨_, .word t "16-bit value", rfl⟩
  | pointerFrom t => exact ⟨_, .word t "address", rfl⟩
  | pairFrom hp hne t =>
    refine ⟨_, .word t "address", ?_⟩
    rw [load_pair_direct, transfer?_eq hp hne]
    rfl
  | indexFrom r t => exact ⟨_, .word t "address", rfl⟩
  | pointerTo t => exact ⟨_, .word t "address", rfl⟩
  | pairTo hp hne t =>
    refine ⟨_, .word t "address", ?_⟩
    exact congrArg orForm (transfer?_eq hp hne false t)
  | indexTo r t => exact ⟨_, .word t "address", rfl⟩
  | _ => exact ⟨[], .nothing, rfl⟩

/-- **Restricted pairs are refused as such.** -/
theorem Restricted.load_eq {x y : Operand} (h : Restricted x y) :
    ∃ position, load x y = .error (.accumulatorOnly position) := by
  cases h with
  | @destination r hr x hx =>
    refine ⟨1, ?_⟩
    cases hx with
    | special s => cases s <;> exact if_neg hr
    | _ => exact if_neg hr
  | @source x hx r hr =>
    refine ⟨0, ?_⟩
    cases r with
    | a => exact absurd rfl hr
    | _ =>
      cases hx with
      | special s => cases s <;> rfl
      | _ => rfl

/-! Which of the three an operand pair is: one lemma for each kind of destination. -/

/-- A row of the table, a restricted pair, or operands without a form. -/
def Sorted (x y : Operand) : Prop :=
  (∃ code trailer, LoadRow x y code trailer) ∨ Restricted x y ∨ load x y = .error .form

theorem sorted_row {x y : Operand} {code : List UInt8} {trailer : Trailer}
    (h : LoadRow x y code trailer) : Sorted x y := Or.inl ⟨code, trailer, h⟩

theorem sorted_restricted {x y : Operand} (h : Restricted x y) : Sorted x y := Or.inr (Or.inl h)

theorem sorted_form {x y : Operand} (h : load x y = .error .form) : Sorted x y :=
  Or.inr (Or.inr h)

theorem sorted_register (r : Register8) {y : Operand} (hy : y.Genuine) :
    Sorted (.register (.ok r)) y := by
  -- the operands that only the accumulator is loaded from
  have honly : ∀ {z : Operand} {code : List UInt8} {trailer : Trailer}, z.AccumulatorOnly →
      LoadRow (.register (.ok .a)) z code trailer → Sorted (.register (.ok r)) z := by
    intro z code trailer hz hrow
    by_cases hr : r = .a
    · subst hr
      exact sorted_row hrow
    · exact sorted_restricted (.destination hr hz)
  -- the source decides which row of the destination it is
  cases hy with
  | register s => exact sorted_row (.registers r s)
  | immediate t => exact sorted_row (.registerValue r t)
  | atIndex index d hd => exact sorted_row (.fromMemory r (.indexed index d))
  | direct t => exact honly (.address t) (.fromAddress t)
  | special s =>
    cases s with
    | i => exact honly (.special .i) .fromI
    | r => exact honly (.special .r) .fromR
  | atPair p =>
    cases p with
    | hl => exact sorted_row (.fromMemory r .pointer)
    | index index => exact sorted_row (.fromMemory r (.index index))
    | bc => exact honly .bc .fromBc
    | de => exact honly .de .fromDe
    | _ => exact sorted_form rfl
  | _ => exact sorted_form rfl

theorem sorted_inMemory {x : Operand} {front back : List UInt8} (hx : x.InMemory front back)
    {y : Operand} (hy : y.Genuine) : Sorted x y := by
  cases hy with
  | register s => exact sorted_row (.toMemory hx s)
  | immediate t => exact sorted_row (.memoryValue hx t)
  | _ =>
    refine sorted_form ?_
    rw [load_to_inMemory hx]
    rfl

theorem sorted_pair (p : Pair) {y : Operand} (hy : y.Genuine) : Sorted (.pair (.ok p)) y := by
  cases hy with
  | immediate t =>
    cases p with
    | index r => exact sorted_row (.indexValue r t)
    | af => exact sorted_form rfl
    | afShadow => exact sorted_form rfl
    | _ => exact sorted_row (.pairValue rfl t)
  | direct t =>
    cases p with
    | hl => exact sorted_row (.pointerFrom t)
    | index r => exact sorted_row (.indexFrom r t)
    | af => exact sorted_form rfl
    | afShadow => exact sorted_form rfl
    | _ => exact sorted_row (.pairFrom rfl (by intro h; cases h) t)
  | pair q =>
    cases p with
    | sp =>
      cases q with
      | hl => exact sorted_row .stackPointer
      | index r => exact sorted_row (.stackIndex r)
      | _ => exact sorted_form rfl
    | _ => exact sorted_form rfl
  | _ => cases p <;> exact sorted_form rfl

theorem sorted_accumulatorOnly {x : Operand} (hx : x.AccumulatorOnly) {y : Operand}
    (hy : y.Genuine) : Sorted x y := by
  cases hy with
  | register s =>
    -- the accumulator has a row for each of these destinations, and any other register is restricted
    by_cases hs : s = .a
    · subst hs
      cases hx with
      | bc => exact sorted_row .toBc
      | de => exact sorted_row .toDe
      | address t => exact sorted_row (.toAddress t)
      | special s =>
        cases s with
        | i => exact sorted_row .toI
        | r => exact sorted_row .toR
    · exact sorted_restricted (.source hx hs)
  | pair p =>
    cases hx with
    | address t =>
      -- an address is the one destination of this kind that pairs are stored to
      cases p with
      | hl => exact sorted_row (.pointerTo t)
      | index r => exact sorted_row (.indexTo r t)
      | af => exact sorted_form rfl
      | afShadow => exact sorted_form rfl
      | _ => exact sorted_row (.pairTo rfl (by intro h; cases h) t)
    | special s => cases s <;> exact sorted_form rfl
    | _ => exact sorted_form rfl
  | _ =>
    cases hx with
    | special s => cases s <;> exact sorted_form rfl
    | _ => exact sorted_form rfl

/-- **Two genuine operands are a row of the table, a restricted pair, or without a form.** The three
exclude each other, as each of them fixes what the selection answers. -/
theorem load_sorted {x y : Operand} (hx : x.Genuine) (hy : y.Genuine) : Sorted x y := by
  -- one lemma for each kind of destination
  cases hx with
  | register r => exact sorted_register r hy
  | pair p => exact sorted_pair p hy
  | special s => exact sorted_accumulatorOnly (.special s) hy
  | direct t => exact sorted_accumulatorOnly (.address t) hy
  | atIndex r d hd => exact sorted_inMemory (.indexed r d) hy
  | atPair p =>
    cases p with
    | hl => exact sorted_inMemory .pointer hy
    | index r => exact sorted_inMemory (.index r) hy
    | bc => exact sorted_accumulatorOnly .bc hy
    | de => exact sorted_accumulatorOnly .de hy
    | _ => exact sorted_form rfl
  | _ => exact sorted_form rfl

end Instruction

/-! ### The value behind the bytes -/

namespace Trailer

/-- The term of a trailer and the largest value that it may have. -/
def need : Trailer → Option (Term × Int)
  | nothing => none
  | byte t => some (t, 0xFF)
  | word t => some (t, 0xFFFF)

/-- **The bytes of a trailer**: its value is there and fits, and the low byte stands first. -/
inductive Gives (symbols : SymbolTable) : Trailer → List UInt8 → Prop where
  | nothing : Gives symbols .nothing []
  | byte {t : Term} {v : Int} (hv : t.HasValue symbols v) (hlow : 0 ≤ v) (hhigh : v ≤ 0xFF) :
      Gives symbols (.byte t) [lowByte v]
  | word {t : Term} {v : Int} (hv : t.HasValue symbols v) (hlow : 0 ≤ v) (hhigh : v ≤ 0xFFFF) :
      Gives symbols (.word t) [lowByte v, highByte v]

/-- The value is there and does not fit. -/
def Exceeds (symbols : SymbolTable) (trailer : Trailer) : Prop :=
  ∃ t high v, trailer.need = some (t, high) ∧ t.HasValue symbols v ∧ ¬(0 ≤ v ∧ v ≤ high)

/-- The value is that of a label without a definition. -/
def Unbound (symbols : SymbolTable) (trailer : Trailer) : Prop :=
  ∃ t high, trailer.need = some (t, high) ∧ ∀ v, ¬t.HasValue symbols v

/-- The bytes are given, or the value does not fit, or it is not there. -/
theorem gives_or (symbols : SymbolTable) (trailer : Trailer) :
    (∃ bytes, trailer.Gives symbols bytes) ∨ trailer.Exceeds symbols ∨
      trailer.Unbound symbols := by
  -- the value of a term fits, does not fit, or is not there
  have hterm : ∀ (t : Term) (high : Int),
      (∃ v, t.HasValue symbols v ∧ 0 ≤ v ∧ v ≤ high) ∨
      (∃ v, t.HasValue symbols v ∧ ¬(0 ≤ v ∧ v ≤ high)) ∨ ∀ v, ¬t.HasValue symbols v := by
    intro t high
    by_cases hv : ∃ v, t.HasValue symbols v
    · obtain ⟨v, hv⟩ := hv
      by_cases hfits : 0 ≤ v ∧ v ≤ high
      · exact Or.inl ⟨v, hv, hfits⟩
      · exact Or.inr (Or.inl ⟨v, hv, hfits⟩)
    · exact Or.inr (Or.inr fun v h => hv ⟨v, h⟩)
  cases trailer with
  | nothing => exact Or.inl ⟨[], .nothing⟩
  | byte t =>
    rcases hterm t 0xFF with ⟨v, hv, hlow, hhigh⟩ | ⟨v, hv, hfits⟩ | hnone
    · exact Or.inl ⟨_, .byte hv hlow hhigh⟩
    · exact Or.inr (Or.inl ⟨t, _, v, rfl, hv, hfits⟩)
    · exact Or.inr (Or.inr ⟨t, _, rfl, hnone⟩)
  | word t =>
    rcases hterm t 0xFFFF with ⟨v, hv, hlow, hhigh⟩ | ⟨v, hv, hfits⟩ | hnone
    · exact Or.inl ⟨_, .word hv hlow hhigh⟩
    · exact Or.inr (Or.inl ⟨t, _, v, rfl, hv, hfits⟩)
    · exact Or.inr (Or.inr ⟨t, _, rfl, hnone⟩)

end Trailer

namespace Instruction

variable {ctx : Context} {w : Template} {trailer : Trailer}

/-- The fields of a trailer wait for its value, within its bounds. -/
theorem Closes.emit_eq (h : Closes w trailer) {t : Term} {high : Int}
    (hneed : trailer.need = some (t, high)) (ctx : Context) :
    ∃ what g, Template.emit ctx w = (ctx.valueWithin t 0 high what).map g := by
  cases h with
  | nothing => cases hneed
  | byte t what =>
    cases hneed
    refine ⟨what, fun v => [lowByte v], ?_⟩
    simp only [Template.emit, Field.emit]
    cases ctx.valueWithin t 0 0xFF what <;> rfl
  | word t what =>
    cases hneed
    refine ⟨what, fun v => [lowByte v, highByte v], ?_⟩
    simp only [Template.emit, Field.emit]
    cases ctx.valueWithin t 0 0xFFFF what <;> rfl

theorem Closes.emit_of_gives (h : Closes w trailer) (hpass : ctx.pass = .final)
    {rest : List UInt8} (hrest : trailer.Gives ctx.symbols rest) :
    Template.emit ctx w = .ok rest := by
  have hwithin : ∀ {t : Term} {v high : Int} {what : String}, t.HasValue ctx.symbols v →
      0 ≤ v → v ≤ high → ctx.valueWithin t 0 high what = .ok v := fun hv hlow hhigh =>
    Context.valueWithin_eq_ok_iff.2 ⟨Context.valueOf_of_hasValue hpass hv, fun _ => ⟨hlow, hhigh⟩⟩
  cases hrest with
  | nothing =>
    cases h
    rfl
  | byte hv hlow hhigh =>
    cases h
    refine Template.emit_cons_iff.2 ⟨_, [], ?_, rfl, (List.append_nil _).symm⟩
    exact map_eq_ok_iff.2 ⟨_, hwithin hv hlow hhigh, rfl⟩
  | word hv hlow hhigh =>
    cases h
    refine Template.emit_cons_iff.2 ⟨_, [], ?_, rfl, (List.append_nil _).symm⟩
    exact map_eq_ok_iff.2 ⟨_, hwithin hv hlow hhigh, rfl⟩

theorem Closes.reported_of_exceeds (h : Closes w trailer) (hpass : ctx.pass = .final)
    (hexceeds : trailer.Exceeds ctx.symbols) : ReportedAs (Template.emit ctx w) .valueRange := by
  obtain ⟨t, high, v, hneed, hv, hfits⟩ := hexceeds
  obtain ⟨what, g, hemit⟩ := h.emit_eq hneed ctx
  rw [hemit]
  exact (Context.reported_of_exceeds hpass hv hfits).map g

theorem Closes.emit_of_unbound (h : Closes w trailer) (hpass : ctx.pass = .final)
    (hunbound : trailer.Unbound ctx.symbols) :
    (ctx.symbols.AllNamed ∧ ReportedAs (Template.emit ctx w) .undefinedSymbol) ∨
      (¬ctx.symbols.AllNamed ∧ Template.emit ctx w = .error (.fault .namelessLabel)) := by
  obtain ⟨t, high, hneed, hnone⟩ := hunbound
  obtain ⟨what, g, hemit⟩ := h.emit_eq hneed ctx
  rw [hemit]
  unfold Context.valueWithin
  -- the report suggests similar names, which a label without a name does not have
  rcases Context.valueOf_of_unbound hpass hnone with ⟨hnamed, d, hvalue, hd⟩ | ⟨hnamed, hvalue⟩
  · rw [hvalue]
    exact Or.inl ⟨hnamed, d, rfl, hd⟩
  · rw [hvalue]
    exact Or.inr ⟨hnamed, rfl⟩

/-! ### Encoding loads -/

variable {items : List Item} {location : Location} {x y : Operand} {code : List UInt8}

/-- The load of two operands: its form is chosen, and then filled. -/
theorem encode_load_eq (hitems : items.map Operand.ofItem = [x, y]) :
    encode ctx .ld items location =
      (load x y).mapError (·.toFailure Mnemonic.ld.name items location) >>= Template.emit ctx := by
  change (twoOperands load (items.map Operand.ofItem)).mapError _ >>= Template.emit ctx = _
  rw [hitems]
  rfl

theorem encode_of_row (ctx : Context) (location : Location)
    (hitems : items.map Operand.ofItem = [x, y]) (hrow : LoadRow x y code trailer) :
    ∃ w, Closes w trailer ∧
      encode ctx .ld items location = (Template.emit ctx w).map (code ++ ·) := by
  obtain ⟨w, hw, hload⟩ := hrow.load_eq
  refine ⟨w, hw, ?_⟩
  rw [encode_load_eq hitems, hload]
  exact Template.emit_bytes_append ctx code w

theorem reported_of_restricted (ctx : Context) (location : Location)
    (hitems : items.map Operand.ofItem = [x, y]) (h : Restricted x y) :
    ReportedAs (encode ctx .ld items location) .registerRestriction := by
  obtain ⟨position, hload⟩ := h.load_eq
  rw [encode_load_eq hitems, hload]
  exact ⟨_, rfl, rfl⟩

/-- **The three ways of a load**: its operands are a row of the table, they are a restricted pair, or the
addressing mode is reported. -/
theorem encode_load_cases (ctx : Context) (hitems : ∀ i ∈ items, i.Genuine)
    (location : Location) :
    (∃ x y code trailer, items.map Operand.ofItem = [x, y] ∧ LoadRow x y code trailer) ∨
    (∃ x y, items.map Operand.ofItem = [x, y] ∧ Restricted x y) ∨
    ReportedAs (encode ctx .ld items location) .addressingMode := by
  -- any other number of operands than two is refused before a form is looked for
  rcases items with _ | ⟨i, _ | ⟨j, _ | ⟨k, more⟩⟩⟩
  · exact Or.inr (Or.inr ⟨_, rfl, rfl⟩)
  · exact Or.inr (Or.inr ⟨_, rfl, rfl⟩)
  · have hi := (hitems i List.mem_cons_self).operand
    have hj := (hitems j (List.mem_cons_of_mem _ List.mem_cons_self)).operand
    rcases load_sorted hi hj with ⟨code, trailer, hrow⟩ | hrestricted | hform
    · exact Or.inl ⟨_, _, code, trailer, rfl, hrow⟩
    · exact Or.inr (Or.inl ⟨_, _, rfl, hrestricted⟩)
    · refine Or.inr (Or.inr ?_)
      rw [encode_load_eq rfl, hform]
      exact ⟨_, rfl, rfl⟩
  · exact Or.inr (Or.inr ⟨_, rfl, rfl⟩)

/-- **What the final pass answers to a load**, and why. One rule for each answer, with the conditions
under which it is given. -/
inductive Verdict (symbols : SymbolTable) (items : List Item) :
    Except Failure (List UInt8) → Prop where
  | encoded {x y : Operand} {code rest : List UInt8} {trailer : Trailer}
      (hitems : List.Forall₂ Item.Denotes items [x, y]) (hrow : LoadRow x y code trailer)
      (hrest : trailer.Gives symbols rest) : Verdict symbols items (.ok (code ++ rest))
  | restricted {x y : Operand} (hitems : List.Forall₂ Item.Denotes items [x, y])
      (h : Restricted x y) {d : Diagnostic} (hd : d.category = .registerRestriction) :
      Verdict symbols items (.error (.problem d))
  | formless {d : Diagnostic} (hd : d.category = .addressingMode) :
      Verdict symbols items (.error (.problem d))
  | exceeding {x y : Operand} {code : List UInt8} {trailer : Trailer}
      (hitems : List.Forall₂ Item.Denotes items [x, y]) (hrow : LoadRow x y code trailer)
      (h : trailer.Exceeds symbols) {d : Diagnostic} (hd : d.category = .valueRange) :
      Verdict symbols items (.error (.problem d))
  | unbound {x y : Operand} {code : List UInt8} {trailer : Trailer}
      (hitems : List.Forall₂ Item.Denotes items [x, y]) (hrow : LoadRow x y code trailer)
      (h : trailer.Unbound symbols) (hnamed : symbols.AllNamed) {d : Diagnostic}
      (hd : d.category = .undefinedSymbol) : Verdict symbols items (.error (.problem d))
  | nameless (hnamed : ¬symbols.AllNamed) :
      Verdict symbols items (.error (.fault .namelessLabel))

/-- **Every load is judged**: whatever genuine items stand behind the mnemonic, the answer of the final pass
has one of these reasons. -/
theorem verdict_encode (hpass : ctx.pass = .final) (hitems : ∀ i ∈ items, i.Genuine)
    (location : Location) : Verdict ctx.symbols items (encode ctx .ld items location) := by
  rcases encode_load_cases ctx hitems location with ⟨x, y, code, trailer, hmap, hrow⟩ |
    ⟨x, y, hmap, h⟩ | ⟨d, hencode, hd⟩
  · have hdenotes := (Item.forall₂_denotes_iff hitems).2 ⟨hmap, hrow.ne_other⟩
    obtain ⟨w, hw, hencode⟩ := encode_of_row ctx location hmap hrow
    rw [hencode]
    -- the form is settled by the row, so only its value can still be at fault
    rcases trailer.gives_or ctx.symbols with ⟨rest, hrest⟩ | hexceeds | hunbound
    · rw [hw.emit_of_gives hpass hrest]
      exact .encoded hdenotes hrow hrest
    · obtain ⟨d, hemit, hd⟩ := hw.reported_of_exceeds hpass hexceeds
      rw [hemit]
      exact .exceeding hdenotes hrow hexceeds hd
    · rcases hw.emit_of_unbound hpass hunbound with ⟨hnamed, d, hemit, hd⟩ | ⟨hnamed, hemit⟩
      · rw [hemit]
        exact .unbound hdenotes hrow hunbound hnamed hd
      · rw [hemit]
        exact .nameless hnamed
  · obtain ⟨d, hencode, hd⟩ := reported_of_restricted ctx location hmap h
    rw [hencode]
    exact .restricted ((Item.forall₂_denotes_iff hitems).2 ⟨hmap, h.ne_other⟩) h hd
  · rw [hencode]
    exact .formless hd

/-! Each answer, and when it is given. -/

section Answers

variable (hpass : ctx.pass = .final) (hitems : ∀ i ∈ items, i.Genuine)
include hpass hitems

theorem encode_load_ok_iff {bytes : List UInt8} :
    encode ctx .ld items location = .ok bytes ↔
      ∃ x y code trailer rest, List.Forall₂ Item.Denotes items [x, y] ∧
        LoadRow x y code trailer ∧ trailer.Gives ctx.symbols rest ∧ bytes = code ++ rest := by
  constructor
  · intro hok
    have hverdict := verdict_encode hpass hitems location
    rw [hok] at hverdict
    cases hverdict with
    | encoded hdenotes hrow hrest => exact ⟨_, _, _, _, _, hdenotes, hrow, hrest, rfl⟩
  · rintro ⟨x, y, code, trailer, rest, hdenotes, hrow, hrest, rfl⟩
    have hmap := ((Item.forall₂_denotes_iff hitems).1 hdenotes).1
    obtain ⟨w, hw, hencode⟩ := encode_of_row ctx location hmap hrow
    rw [hencode, hw.emit_of_gives hpass hrest]
    rfl

theorem reported_restriction_iff :
    ReportedAs (encode ctx .ld items location) .registerRestriction ↔
      ∃ x y, List.Forall₂ Item.Denotes items [x, y] ∧ Restricted x y := by
  constructor
  · rintro ⟨d, hreport, hd⟩
    have hverdict := verdict_encode hpass hitems location
    rw [hreport] at hverdict
    cases hverdict with
    | restricted hdenotes h hd' => exact ⟨_, _, hdenotes, h⟩
    | formless hd' => cases hd.symm.trans hd'
    | exceeding hdenotes hrow h hd' => cases hd.symm.trans hd'
    | unbound hdenotes hrow h hnamed hd' => cases hd.symm.trans hd'
  · rintro ⟨x, y, hdenotes, h⟩
    exact reported_of_restricted ctx location ((Item.forall₂_denotes_iff hitems).1 hdenotes).1 h

theorem reported_mode_iff :
    ReportedAs (encode ctx .ld items location) .addressingMode ↔
      ¬∃ x y, List.Forall₂ Item.Denotes items [x, y] ∧
        (Restricted x y ∨ ∃ code trailer, LoadRow x y code trailer) := by
  constructor
  · rintro hmode ⟨x, y, hdenotes, h⟩
    have hmap := ((Item.forall₂_denotes_iff hitems).1 hdenotes).1
    rcases h with h | ⟨code, trailer, hrow⟩
    · cases hmode.unique (reported_of_restricted ctx location hmap h)
    · -- a row is encoded, or its value is at fault
      obtain ⟨w, hw, hencode⟩ := encode_of_row ctx location hmap hrow
      rw [hencode] at hmode
      rcases trailer.gives_or ctx.symbols with ⟨rest, hrest⟩ | hexceeds | hunbound
      · rw [hw.emit_of_gives hpass hrest] at hmode
        exact hmode.ne_ok _ rfl
      · cases hmode.unique ((hw.reported_of_exceeds hpass hexceeds).map _)
      · rcases hw.emit_of_unbound hpass hunbound with ⟨-, hreport⟩ | ⟨-, hfault⟩
        · cases hmode.unique (hreport.map _)
        · rw [hfault] at hmode
          obtain ⟨d, hd, -⟩ := hmode
          cases hd
  · intro hnone
    rcases encode_load_cases ctx hitems location with ⟨x, y, code, trailer, hmap, hrow⟩ |
      ⟨x, y, hmap, h⟩ | h
    · have hdenotes := (Item.forall₂_denotes_iff hitems).2 ⟨hmap, hrow.ne_other⟩
      exact absurd ⟨x, y, hdenotes, Or.inr ⟨code, trailer, hrow⟩⟩ hnone
    · have hdenotes := (Item.forall₂_denotes_iff hitems).2 ⟨hmap, h.ne_other⟩
      exact absurd ⟨x, y, hdenotes, Or.inl h⟩ hnone
    · exact h

theorem reported_range_iff :
    ReportedAs (encode ctx .ld items location) .valueRange ↔
      ∃ x y code trailer, List.Forall₂ Item.Denotes items [x, y] ∧ LoadRow x y code trailer ∧
        trailer.Exceeds ctx.symbols := by
  constructor
  · rintro ⟨d, hreport, hd⟩
    have hverdict := verdict_encode hpass hitems location
    rw [hreport] at hverdict
    cases hverdict with
    | restricted hdenotes h hd' => cases hd.symm.trans hd'
    | formless hd' => cases hd.symm.trans hd'
    | exceeding hdenotes hrow h hd' => exact ⟨_, _, _, _, hdenotes, hrow, h⟩
    | unbound hdenotes hrow h hnamed hd' => cases hd.symm.trans hd'
  · rintro ⟨x, y, code, trailer, hdenotes, hrow, h⟩
    have hmap := ((Item.forall₂_denotes_iff hitems).1 hdenotes).1
    obtain ⟨w, hw, hencode⟩ := encode_of_row ctx location hmap hrow
    rw [hencode]
    exact (hw.reported_of_exceeds hpass h).map _

theorem reported_undefined_iff :
    ReportedAs (encode ctx .ld items location) .undefinedSymbol ↔
      ctx.symbols.AllNamed ∧ ∃ x y code trailer, List.Forall₂ Item.Denotes items [x, y] ∧
        LoadRow x y code trailer ∧ trailer.Unbound ctx.symbols := by
  constructor
  · rintro ⟨d, hreport, hd⟩
    have hverdict := verdict_encode hpass hitems location
    rw [hreport] at hverdict
    cases hverdict with
    | restricted hdenotes h hd' => cases hd.symm.trans hd'
    | formless hd' => cases hd.symm.trans hd'
    | exceeding hdenotes hrow h hd' => cases hd.symm.trans hd'
    | unbound hdenotes hrow h hnamed hd' => exact ⟨hnamed, _, _, _, _, hdenotes, hrow, h⟩
  · rintro ⟨hnamed, x, y, code, trailer, hdenotes, hrow, h⟩
    have hmap := ((Item.forall₂_denotes_iff hitems).1 hdenotes).1
    obtain ⟨w, hw, hencode⟩ := encode_of_row ctx location hmap hrow
    rw [hencode]
    rcases hw.emit_of_unbound hpass h with ⟨-, hreport⟩ | ⟨hnot, -⟩
    · exact hreport.map _
    · exact absurd hnamed hnot

end Answers

/-- **Loads are encoded exactly as documented.** The final pass gives bytes for genuine operands
that are a row of the table with a value that fits, and then the bytes of the row and of the value.
An 8-bit register other than A, paired with an operand that only A is loaded from or stored to, is
refused as restricted; all else that is no row is refused as an addressing mode. A row whose value
does not fit, or is that of no label, is reported as such. The codes that the opcodes are packed
from are those of the processor. -/
theorem encode_load_iff (address : Int) (symbols : SymbolTable) (location : Location)
    {items : List Item} (hitems : ∀ i ∈ items, i.Genuine) :
    (Register8.all.map fun r => (r.name, r.code)) =
      [("B", 0), ("C", 1), ("D", 2), ("E", 3), ("H", 4), ("L", 5), ("A", 7)] ∧
    (Pair.all.filterMap fun p => p.code?.map fun dd => (p.name, dd)) =
      [("BC", 0), ("DE", 1), ("HL", 2), ("SP", 3)] ∧
    (IndexRegister.all.map fun r => (r.name, r.code)) = [("IX", 0xDD), ("IY", 0xFD)] ∧
    (∀ bytes, encode ⟨.final, address, symbols⟩ .ld items location = .ok bytes ↔
      ∃ x y code trailer rest, List.Forall₂ Item.Denotes items [x, y] ∧
        LoadRow x y code trailer ∧ trailer.Gives symbols rest ∧ bytes = code ++ rest) ∧
    (ReportedAs (encode ⟨.final, address, symbols⟩ .ld items location) .registerRestriction ↔
      ∃ x y, List.Forall₂ Item.Denotes items [x, y] ∧ Restricted x y) ∧
    (ReportedAs (encode ⟨.final, address, symbols⟩ .ld items location) .addressingMode ↔
      ¬∃ x y, List.Forall₂ Item.Denotes items [x, y] ∧
        (Restricted x y ∨ ∃ code trailer, LoadRow x y code trailer)) ∧
    (ReportedAs (encode ⟨.final, address, symbols⟩ .ld items location) .valueRange ↔
      ∃ x y code trailer, List.Forall₂ Item.Denotes items [x, y] ∧ LoadRow x y code trailer ∧
        trailer.Exceeds symbols) ∧
    (ReportedAs (encode ⟨.final, address, symbols⟩ .ld items location) .undefinedSymbol ↔
      symbols.AllNamed ∧ ∃ x y code trailer, List.Forall₂ Item.Denotes items [x, y] ∧
        LoadRow x y code trailer ∧ trailer.Unbound symbols) :=
  ⟨rfl, rfl, rfl, fun _ => encode_load_ok_iff rfl hitems, reported_restriction_iff rfl hitems,
    reported_mode_iff rfl hitems, reported_range_iff rfl hitems, reported_undefined_iff rfl hitems⟩

/-- A displacement below zero and the value of a label: `LD (IX-1),N` where N is $7F, and a register
that cannot be stored at a pair: `LD (DE),B`. -/
theorem encode_load_indexed_label :
    encode ⟨.final, 0x8000, ⟨[⟨some "N", 0x7F, ⟨"", 1, 1⟩⟩]⟩⟩ .ld
        [Item.ofIndex .ix (-1) ⟨"", 1, 1⟩, Item.ofBareName "N" ⟨"", 1, 1⟩] ⟨"", 1, 1⟩ =
      .ok [0xDD, 0x36, 0xFF, 0x7F] ∧
    ReportedAs (encode ⟨.final, 0x8000, {}⟩ .ld
        [Item.named .indirectRegister16 "DE" ⟨"", 1, 1⟩, Item.ofBareName "B" ⟨"", 1, 1⟩]
        ⟨"", 1, 1⟩) .registerRestriction := by
  have hindexed : ∀ i ∈ [Item.ofIndex .ix (-1) ⟨"", 1, 1⟩, Item.ofBareName "N" ⟨"", 1, 1⟩],
      i.Genuine :=
    List.forall_mem_cons.2 ⟨.indexed .ix (-1) _ (by decide),
      List.forall_mem_singleton.2 (.bareName "N" _)⟩
  have hpair : ∀ i ∈ [Item.named .indirectRegister16 "DE" ⟨"", 1, 1⟩,
      Item.ofBareName "B" ⟨"", 1, 1⟩], i.Genuine :=
    List.forall_mem_cons.2 ⟨.atPair .de _ rfl, List.forall_mem_singleton.2 (.bareName "B" _)⟩
  constructor
  · refine ((encode_load_iff _ _ _ hindexed).2.2.2.1 _).2 ⟨_, _, _, _, [0x7F],
      .cons (.atIndex .ix rfl rfl) (.cons (.label (by decide) rfl) .nil),
      .memoryValue (.indexed .ix (-1)) _, .byte (.label (v := 0x7F) rfl _) ?_ ?_, rfl⟩
    · decide
    · decide
  · exact (encode_load_iff _ _ _ hpair).2.2.2.2.1.2 ⟨_, _,
      .cons (.atPair .de rfl rfl) (.cons (.register .b (by decide) rfl) .nil),
      .source .de (by decide)⟩

end Instruction

end CrossAssembler
