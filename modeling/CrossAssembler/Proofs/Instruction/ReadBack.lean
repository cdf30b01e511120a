import CrossAssembler.Proofs.Instruction.Decode

/-!
# Reading instructions back

Every form of an instruction, filled by the final pass, decodes to its own sentence
(`Instruction.decodes_form`). The proof has one lemma for each family of forms. In each of them the
opcode is looked up in its page, for all registers, pairs, conditions and operations at once, and the
slots of the pattern take the values of the operands back.

* **Transfers** between the accumulator or a pair and an operand are read in both directions at once
  (`Instruction.inOrder`), and so are the ports.
* **Bytes in memory** stand for the memory field of an opcode. Where the field is a register instead, the
  same opcode is read with another slot (`Instruction.fieldSlot`).
* **Sentences** of the forms are normal already, but for the words of conditions and of index registers
  between brackets (`Instruction.Decodes.of_normal`).

With genuine operands this carries over to encodings (`Instruction.decodes_encode`).
-/

namespace CrossAssembler

namespace Instruction

variable {a : Int} {base : Option IndexRegister} {p : Pattern} {opcode : UInt8}
  {bytes : List UInt8} {ws : List Word} {ctx : Context}

/-! ### Transfers -/

/-- The order of the operands of a load, or of the store the other way. -/
def inOrder {α : Type} (load : Bool) (x y : α) : List α :=
  if load then [x, y] else [y, x]

/-- A slot takes the same bytes whether a fixed word stands in front of it or behind it. -/
theorem Takes.inOrder {slot : Slot} {w : Word} (h : Takes a base [slot] bytes [w]) (load : Bool)
    (u : Word) : Takes a base (inOrder load (.fixed u) slot) bytes (inOrder load u w) := by
  -- in front, the fixed word is read without a byte; behind, the slot has taken its bytes already
  cases load with
  | true => exact h.fixed u
  | false =>
    intro rest
    have hread : slot.read a base (bytes ++ rest) = some (w, rest) := by
      have hrest := h rest
      simp only [Slot.readAll, Option.bind_eq_bind] at hrest
      obtain ⟨⟨w', rest'⟩, hslot, hrest⟩ := Option.bind_eq_some_iff.1 hrest
      cases hrest
      exact hslot
    simp only [Instruction.inOrder, Bool.false_eq_true, if_false, Slot.readAll,
      Option.bind_eq_bind, hread, Option.bind_some]
    rfl

/-- Transfers between the accumulator and an operand that no other register is loaded from. -/
theorem decodes_accumulatorTransfer (hpass : ctx.pass = .final) {load : Bool} {x : Operand}
    {w : Template} (h : x.accumulatorTransfer? load = some w)
    (hemit : Template.emit ctx w = .ok bytes) :
    Decodes ctx.address bytes
      ⟨.ld, inOrder load (.register .a) (x.word ctx.symbols).displaced⟩ := by
  -- pairs and addresses are in the first quadrant, the special registers on the extended page
  unfold Operand.accumulatorTransfer? at h
  split at h
  · cases h
    cases hemit
    exact decodes_main (p := ⟨.ld, inOrder load Pattern.accumulator (.fixed (.atPair .bc))⟩)
      (by cases load <;> rfl) (.inOrder (.fixed _ .nil) load _)
  · cases h
    cases hemit
    exact decodes_main (p := ⟨.ld, inOrder load Pattern.accumulator (.fixed (.atPair .de))⟩)
      (by cases load <;> rfl) (.inOrder (.fixed _ .nil) load _)
  · cases h
    obtain ⟨back, hback, rfl⟩ := Template.emit_byte_cons_iff.1 hemit
    cases Template.filled_of_emit_singleton hpass hback with
    | wordOf hv =>
      rw [Operand.word, Word.displaced_direct]
      exact decodes_main (p := ⟨.ld, inOrder load Pattern.accumulator .address⟩)
        (by cases load <;> rfl) (.inOrder (.atAddress hv .nil) load _)
  · cases h
    cases hemit
    exact decodes_extended (p := ⟨.ld, inOrder load Pattern.accumulator (.fixed (.special .i))⟩)
      (by cases load <;> rfl) (.inOrder (.fixed _ .nil) load _)
  · cases h
    cases hemit
    exact decodes_extended (p := ⟨.ld, inOrder load Pattern.accumulator (.fixed (.special .r))⟩)
      (by cases load <;> rfl) (.inOrder (.fixed _ .nil) load _)
  · cases h

/-- The slot that a pair fills where no index register stands in front. -/
def pairSlot : Pair → Slot
  | .hl => .pointer
  | p => .fixed (.pair p)

theorem Takes.pair (p : Pair) {slots : List Slot} (h : Takes a none slots bytes ws) :
    Takes a none (pairSlot p :: slots) bytes (.pair p :: ws) := by
  cases p with
  | hl => exact h.pointer
  | _ => exact h.fixed _

/-- Transfers between a pair and memory: HL and the index registers have an opcode of their own, the
other pairs are on the extended page. -/
theorem decodes_pairTransfer (hpass : ctx.pass = .final) {load : Bool} {t : Term} {q : Pair}
    {w : Template} (h : q.transfer? load t = some w) (hemit : Template.emit ctx w = .ok bytes) :
    Decodes ctx.address bytes
      ⟨.ld, inOrder load (.pair q) (.direct (t.value ctx.symbols))⟩ := by
  unfold Pair.transfer? at h
  split at h
  · cases h
    obtain ⟨back, hback, rfl⟩ := Template.emit_byte_cons_iff.1 hemit
    cases Template.filled_of_emit_singleton hpass hback with
    | wordOf hv =>
      cases load with
      | true =>
        exact decodes_main (p := ⟨.ld, [.pointer, .address]⟩) rfl (.pointer (.atAddress hv .nil))
      | false =>
        exact decodes_main (p := ⟨.ld, [.address, .pointer]⟩) rfl (.atAddress hv (.pointer .nil))
  next r =>
    cases h
    obtain ⟨tail, htail, rfl⟩ := Template.emit_byte_cons_iff.1 hemit
    obtain ⟨back, hback, rfl⟩ := Template.emit_byte_cons_iff.1 htail
    cases Template.filled_of_emit_singleton hpass hback with
    | wordOf hv =>
      cases load with
      | true =>
        exact decodes_index r (p := ⟨.ld, [.pointer, .address]⟩) rfl
          (.pointer (.atAddress hv .nil))
      | false =>
        exact decodes_index r (p := ⟨.ld, [.address, .pointer]⟩) rfl
          (.atAddress hv (.pointer .nil))
  next hhl hindex =>
    obtain ⟨code, hcode, rfl⟩ := Option.map_eq_some_iff.1 h
    obtain ⟨tail, htail, rfl⟩ := Template.emit_byte_cons_iff.1 hemit
    obtain ⟨back, hback, rfl⟩ := Template.emit_byte_cons_iff.1 htail
    -- the pairs that are left have a code, and with it a row of the page
    have hpattern : Pattern.extended (Opcode.pair (if load then 0x4B else 0x43) code) =
        some ⟨.ld, inOrder load (.fixed (.pair q)) .address⟩ := by
      cases q <;> cases hcode <;> first | contradiction | cases load <;> rfl
    cases Template.filled_of_emit_singleton hpass hback with
    | wordOf hv => exact decodes_extended hpattern (.inOrder (.atAddress hv .nil) load _)

/-! ### Families of forms -/

/-- The place at the front of slots that take no bytes. -/
theorem Takes.onPlace (q : Place) {slots : List Slot} (h : Takes a q.base slots [] ws) :
    Takes a q.base (.atPointer :: slots) q.back (q.word :: ws) := by
  have htakes := h.place q
  rwa [List.append_nil] at htakes

/-- The bytes of an instruction on a byte in memory that is nothing but its opcode. -/
theorem exists_place_of_around {x : Operand} (hx : x.Genuine) {m : MemoryForm}
    (h : x.memory? = some m) (hemit : Template.emit ctx (m.around opcode) = .ok bytes) :
    ∃ q : Place, (x.word ctx.symbols).displaced = q.word ∧ bytes = q.front ++ opcode :: q.back := by
  obtain ⟨q, hword, rfl⟩ := hx.exists_place h ctx.symbols
  rw [← List.append_nil (MemoryForm.around _ _), emit_around_iff] at hemit
  obtain ⟨tail, htail, rfl⟩ := hemit
  rw [Template.emit_nil_iff.1 htail, List.append_nil]
  exact ⟨q, hword, rfl⟩

/-- Loads and stores. -/
theorem decodes_load (hpass : ctx.pass = .final) {x y : Operand} {w : Template}
    (h : LoadForm x y w) (hx : x.Genuine) (hy : y.Genuine)
    (hemit : Template.emit ctx w = .ok bytes) :
    Decodes ctx.address bytes
      ⟨.ld, [(x.word ctx.symbols).displaced, (y.word ctx.symbols).displaced]⟩ := by
  -- each form has a pattern; what the opcode does not fix is read from the bytes behind it
  cases h with
  | register r s =>
    cases hemit
    rw [Operand.word, Operand.word, Word.displaced_register, Word.displaced_register]
    exact decodes_main (p := ⟨.ld, [.fixed (.register r), .fixed (.register s)]⟩)
      (by cases r <;> cases s <;> rfl) (.fixed _ (.fixed _ .nil))
  | immediate r t =>
    obtain ⟨back, hback, rfl⟩ := Template.emit_byte_cons_iff.1 hemit
    cases Template.filled_of_emit_singleton hpass hback with
    | byteOf hv =>
      rw [Operand.word, Operand.word, Word.displaced_register, Word.displaced_immediate]
      exact decodes_main (p := ⟨.ld, [.fixed (.register r), .byte]⟩)
        (by cases r <;> rfl) (.fixed _ (.byte hv .nil))
  | memory r h =>
    obtain ⟨q, hword, rfl⟩ := exists_place_of_around hy h hemit
    rw [hword, Operand.word, Word.displaced_register]
    exact decodes_place q (p := ⟨.ld, [.fixed (.register r), .atPointer]⟩)
      (by cases r <;> rfl) (.fixed _ (.onPlace q .nil))
  | accumulator h =>
    rw [Operand.word, Word.displaced_register]
    exact decodes_accumulatorTransfer hpass h hemit
  | storeRegister h s =>
    obtain ⟨q, hword, rfl⟩ := exists_place_of_around hx h hemit
    rw [hword, Operand.word, Word.displaced_register]
    exact decodes_place q (p := ⟨.ld, [.atPointer, .fixed (.register s)]⟩)
      (by cases s <;> rfl) (.onPlace q (.fixed _ .nil))
  | storeImmediate h t =>
    obtain ⟨q, hword, rfl⟩ := hx.exists_place h ctx.symbols
    rw [emit_around_iff] at hemit
    obtain ⟨tail, htail, rfl⟩ := hemit
    cases Template.filled_of_emit_singleton hpass htail with
    | byteOf hv =>
      rw [hword, Operand.word, Word.displaced_immediate]
      exact decodes_place q (p := ⟨.ld, [.atPointer, .byte]⟩) rfl (.place q (.byte hv .nil))
  | storeAccumulator h =>
    change Decodes _ _ ⟨.ld, [_, (Word.register .a).displaced]⟩
    rw [Word.displaced_register]
    exact decodes_accumulatorTransfer hpass h hemit
  | storePair h =>
    rw [Operand.word, Operand.word, Word.displaced_direct, Word.displaced_pair]
    exact decodes_pairTransfer hpass h hemit
  | @pair p code h t =>
    obtain ⟨back, hback, rfl⟩ := Template.emit_byte_cons_iff.1 hemit
    cases Template.filled_of_emit_singleton hpass hback with
    | wordOf hv =>
      rw [Operand.word, Operand.word, Word.displaced_pair, Word.displaced_immediate]
      exact decodes_main (p := ⟨.ld, [pairSlot p, .word]⟩)
        (by cases p <;> cases h <;> rfl) (.pair p (.word hv .nil))
  | index r t =>
    obtain ⟨tail, htail, rfl⟩ := Template.emit_byte_cons_iff.1 hemit
    obtain ⟨back, hback, rfl⟩ := Template.emit_byte_cons_iff.1 htail
    cases Template.filled_of_emit_singleton hpass hback with
    | wordOf hv =>
      rw [Operand.word, Operand.word, Word.displaced_pair, Word.displaced_immediate]
      exact decodes_index r (p := ⟨.ld, [.pointer, .word]⟩) rfl (.pointer (.word hv .nil))
  | pairDirect h =>
    rw [Operand.word, Operand.word, Word.displaced_direct, Word.displaced_pair]
    exact decodes_pairTransfer hpass h hemit
  | stackPointer =>
    cases hemit
    exact decodes_main (p := ⟨.ld, [.fixed (.pair .sp), .pointer]⟩) rfl (.fixed _ (.pointer .nil))
  | stackPointerIndex r =>
    cases hemit
    rw [Operand.word, Operand.word, Word.displaced_pair, Word.displaced_pair]
    exact decodes_index r (p := ⟨.ld, [.fixed (.pair .sp), .pointer]⟩) rfl
      (.fixed _ (.pointer .nil))

/-- Pushes and pops; `hpattern` is the row of the stack in the last quadrant. -/
theorem decodes_stack {m : Mnemonic} {first : UInt8}
    (hpattern : ∀ {q : Pair} {code : UInt8}, q.stackCode? = some code →
      Pattern.main (Opcode.pair first code) = some ⟨m, [pairSlot q]⟩)
    {x : Operand} {w : Template} (h : StackForm first x w)
    (hemit : Template.emit ctx w = .ok bytes) :
    Decodes ctx.address bytes ⟨m, [(x.word ctx.symbols).displaced]⟩ := by
  cases h with
  | @pair q code h =>
    cases hemit
    rw [Operand.word, Word.displaced_pair]
    exact decodes_main (hpattern h) (.pair q .nil)
  | index r =>
    cases hemit
    rw [Operand.word, Word.displaced_pair]
    exact decodes_index r (hpattern (q := .hl) rfl) (.pointer .nil)

/-- Arithmetic on the accumulator. -/
theorem decodes_source (hpass : ctx.pass = .final) {op : AluOp} {x : Operand} {w : Template}
    (h : SourceForm op x w) (hx : x.Genuine) (hemit : Template.emit ctx w = .ok bytes) :
    Decodes ctx.address bytes ⟨.alu op, [(x.word ctx.symbols).displaced]⟩ := by
  -- the memory field is that of a register, so both are looked up in the same row
  cases h with
  | register s =>
    cases hemit
    rw [Operand.word, Word.displaced_register]
    exact decodes_main (p := ⟨.alu op, [.fixed (.register s)]⟩)
      (by cases op <;> cases s <;> rfl) (.fixed _ .nil)
  | immediate t =>
    obtain ⟨back, hback, rfl⟩ := Template.emit_byte_cons_iff.1 hemit
    cases Template.filled_of_emit_singleton hpass hback with
    | byteOf hv =>
      rw [Operand.word, Word.displaced_immediate]
      exact decodes_main (p := ⟨.alu op, [.byte]⟩) (by cases op <;> rfl) (.byte hv .nil)
  | memory h =>
    obtain ⟨q, hword, rfl⟩ := exists_place_of_around hx h hemit
    rw [hword]
    exact decodes_place q (p := ⟨.alu op, [.atPointer]⟩) (by cases op <;> rfl) (.onPlace q .nil)

/-- Counting up and down. -/
theorem decodes_count {m : Mnemonic} {step : UInt8}
    (hstep : (m = .inc ∧ step = 0) ∨ (m = .dec ∧ step = 1)) {x : Operand} {w : Template}
    (h : CountForm step x w) (hx : x.Genuine) (hemit : Template.emit ctx w = .ok bytes) :
    Decodes ctx.address bytes ⟨m, [(x.word ctx.symbols).displaced]⟩ := by
  cases h with
  | register r =>
    cases hemit
    rw [Operand.word, Word.displaced_register]
    refine decodes_main (p := ⟨m, [.fixed (.register r)]⟩) ?_ (.fixed _ .nil)
    rcases hstep with ⟨rfl, rfl⟩ | ⟨rfl, rfl⟩ <;> cases r <;> rfl
  | memory h =>
    obtain ⟨q, hword, rfl⟩ := exists_place_of_around hx h hemit
    rw [hword]
    refine decodes_place q (p := ⟨m, [.atPointer]⟩) ?_ (.onPlace q .nil)
    rcases hstep with ⟨rfl, rfl⟩ | ⟨rfl, rfl⟩ <;> rfl
  | @pair q code h =>
    cases hemit
    rw [Operand.word, Word.displaced_pair]
    refine decodes_main (p := ⟨m, [pairSlot q]⟩) ?_ (.pair q .nil)
    rcases hstep with ⟨rfl, rfl⟩ | ⟨rfl, rfl⟩ <;> cases q <;> cases h <;> rfl
  | index r =>
    cases hemit
    rw [Operand.word, Word.displaced_pair]
    refine decodes_index r (p := ⟨m, [.pointer]⟩) ?_ (.pointer .nil)
    rcases hstep with ⟨rfl, rfl⟩ | ⟨rfl, rfl⟩ <;> rfl

/-- An opcode and a word, behind words that the opcode fixes. -/
theorem decodes_word (hpass : ctx.pass = .final) {m : Mnemonic} (front : List Word) {t : Term}
    {what : String} (hpattern : Pattern.main opcode = some ⟨m, front.map .fixed ++ [.word]⟩)
    (hemit : Template.emit ctx [.byte opcode, .wordOf t what] = .ok bytes) :
    Decodes ctx.address bytes ⟨m, front ++ [.immediate (t.value ctx.symbols)]⟩ := by
  obtain ⟨back, hback, rfl⟩ := Template.emit_byte_cons_iff.1 hemit
  cases Template.filled_of_emit_singleton hpass hback with
  | wordOf hv => exact decodes_main hpattern (.allFixed front (.word hv .nil))

/-- An opcode and an offset, behind words that the opcode fixes. -/
theorem decodes_target (hpass : ctx.pass = .final) {m : Mnemonic} (front : List Word) {t : Term}
    (hpattern : Pattern.main opcode = some ⟨m, front.map .fixed ++ [.target]⟩)
    (hemit : Template.emit ctx [.byte opcode, .offsetTo t] = .ok bytes) :
    Decodes ctx.address bytes ⟨m, front ++ [.immediate (t.value ctx.symbols)]⟩ := by
  obtain ⟨back, hback, rfl⟩ := Template.emit_byte_cons_iff.1 hemit
  cases Template.filled_of_emit_singleton hpass hback with
  | offsetTo hv hreach => exact decodes_main hpattern (.allFixed front (.target hv hreach))

/-- Additions to an index register; the register is added to itself in the place of HL. -/
theorem decodes_addIndex {r : IndexRegister} {q : Pair} {code : UInt8}
    (h : addendCode? r q = some code) :
    Decodes a [r.code, Opcode.pair 0x09 code] ⟨.alu .add, [.pair (.index r), .pair q]⟩ := by
  have hother : ∀ {s : Pair}, Pattern.main (Opcode.pair 0x09 code) =
        some ⟨.alu .add, [.pointer, .fixed (.pair s)]⟩ →
      Decodes a [r.code, Opcode.pair 0x09 code] ⟨.alu .add, [.pair (.index r), .pair s]⟩ :=
    fun hpattern => decodes_index r hpattern (.pointer (.fixed _ .nil))
  cases q with
  | index s =>
    rw [addendCode?] at h
    split at h
    next heq =>
      cases h
      subst heq
      exact decodes_index s (p := ⟨.alu .add, [.pointer, .pointer]⟩) rfl (.pointer (.pointer .nil))
    · cases h
  | bc =>
    cases h
    exact hother rfl
  | de =>
    cases h
    exact hother rfl
  | sp =>
    cases h
    exact hother rfl
  | hl => cases h
  | af => cases h
  | afShadow => cases h

/-- Arithmetic on pairs. Additions without the carry are in the first quadrant, the others on the
extended page. -/
theorem decodes_pairArithmetic {op : AluOp} {p q : Pair} {w : Template}
    (h : pairArithmetic op (.ok p) (.ok q) = .ok w) (hemit : Template.emit ctx w = .ok bytes) :
    Decodes ctx.address bytes ⟨.alu op, [.pair p, .pair q]⟩ := by
  -- the three operations that pairs have, by the destinations that each of them allows
  cases op with
  | add =>
    cases p with
    | hl =>
      obtain ⟨code, hcode, rfl⟩ := Option.map_eq_some_iff.1 (orForm_eq_ok_iff.1 h)
      cases hemit
      exact decodes_main (p := ⟨.alu .add, [.pointer, pairSlot q]⟩)
        (by cases q <;> cases hcode <;> rfl) (.pointer (.pair q .nil))
    | index r =>
      obtain ⟨code, hcode, rfl⟩ := Option.map_eq_some_iff.1 (orForm_eq_ok_iff.1 h)
      cases hemit
      exact decodes_addIndex hcode
    | _ => cases h
  | adc =>
    cases p with
    | hl =>
      obtain ⟨code, hcode, rfl⟩ := Option.map_eq_some_iff.1 (orForm_eq_ok_iff.1 h)
      cases hemit
      exact decodes_extended (p := ⟨.alu .adc, [.pointer, pairSlot q]⟩)
        (by cases q <;> cases hcode <;> rfl) (.pointer (.pair q .nil))
    | _ => cases h
  | sbc =>
    cases p with
    | hl =>
      obtain ⟨code, hcode, rfl⟩ := Option.map_eq_some_iff.1 (orForm_eq_ok_iff.1 h)
      cases hemit
      exact decodes_extended (p := ⟨.alu .sbc, [.pointer, pairSlot q]⟩)
        (by cases q <;> cases hcode <;> rfl) (.pointer (.pair q .nil))
    | _ => cases h
  | _ => cases h

/-- Exchanges. -/
theorem decodes_exchange {x y : Operand} {w : Template} (h : exchange x y = .ok w)
    (hemit : Template.emit ctx w = .ok bytes) :
    Decodes ctx.address bytes
      ⟨.ex, [(x.word ctx.symbols).displaced, (y.word ctx.symbols).displaced]⟩ := by
  unfold exchange at h
  split at h
  · cases h
    cases hemit
    exact decodes_main (p := ⟨.ex, [.fixed (.pair .de), .fixed (.pair .hl)]⟩) rfl
      (.fixed _ (.fixed _ .nil))
  · cases h
    cases hemit
    exact decodes_main (p := ⟨.ex, [.fixed (.pair .af), .fixed (.pair .afShadow)]⟩) rfl
      (.fixed _ (.fixed _ .nil))
  · cases h
    cases hemit
    exact decodes_main (p := ⟨.ex, [.fixed (.atPair .sp), .pointer]⟩) rfl
      (.fixed _ (.pointer .nil))
  next r =>
    cases h
    cases hemit
    rw [Operand.word, Operand.word, Word.displaced_pair]
    exact decodes_index r (p := ⟨.ex, [.fixed (.atPair .sp), .pointer]⟩) rfl
      (.fixed _ (.pointer .nil))
  · cases h

/-- The opcodes of restarts. -/
theorem main_restart : ∀ n ∈ restartTargets,
    Pattern.main (0xC7 ||| lowByte (n : Int) &&& 0x38) =
      some ⟨.rst, [.fixed (.immediate (n : Int))]⟩ := by
  decide

/-- Restarts: the target is a field of the opcode. -/
theorem decodes_restart (hpass : ctx.pass = .final) {t : Term}
    (hemit : Template.emit ctx [.restartAt t] = .ok bytes) :
    Decodes ctx.address bytes ⟨.rst, [.immediate (t.value ctx.symbols)]⟩ := by
  cases Template.filled_of_emit_singleton hpass hemit with
  | restartAt hn hvalue =>
    rw [hvalue]
    exact decodes_main (main_restart _ hn) (.fixed _ .nil)

/-- Interrupt modes, written as a number or fused with the mnemonic. -/
theorem decodes_mode (mode : InterruptMode) :
    Decodes a [extendedPage, mode.code] ⟨.im, [.immediate mode.number]⟩ :=
  decodes_extended (p := ⟨.im, [.fixed (.immediate mode.number)]⟩)
    (by cases mode <;> rfl) (.fixed _ .nil)

/-- Instructions without operands: one byte, or one byte of the extended page. -/
theorem decodes_implied (op : ImpliedOp) : Decodes a op.code ⟨.implied op, []⟩ := by
  have hpage : (∃ b, op.code = [b] ∧ Pattern.main b = some ⟨.implied op, []⟩) ∨
      ∃ b, op.code = [extendedPage, b] ∧ Pattern.extended b = some ⟨.implied op, []⟩ := by
    -- every operation is on one of two pages
    cases op <;> first | exact .inl ⟨_, rfl, rfl⟩ | exact .inr ⟨_, rfl, rfl⟩
  rcases hpage with ⟨b, hcode, hpattern⟩ | ⟨b, hcode, hpattern⟩
  · rw [hcode]
    exact decodes_main hpattern .nil
  · rw [hcode]
    exact decodes_extended hpattern .nil

/-! ### Ports -/

/-- Input loads a register from a port, and output is the store the other way. -/
def portMnemonic (load : Bool) : Mnemonic :=
  if load then .input else .output

/-- The port that C points to. -/
theorem decodes_portC (load : Bool) (r : Register8) :
    Decodes a [extendedPage, Opcode.middle (if load then 0x40 else 0x41) r.code]
      ⟨portMnemonic load, inOrder load (.register r) .portC⟩ :=
  decodes_extended (p := ⟨portMnemonic load, inOrder load (.fixed (.register r)) (.fixed .portC)⟩)
    (by cases load <;> cases r <;> rfl) (.inOrder (.fixed _ .nil) load _)

/-- Ports with a number, which only the accumulator reaches. -/
theorem decodes_port (hpass : ctx.pass = .final) (load : Bool) {t : Term} {what : String}
    (hemit : Template.emit ctx [.byte (if load then 0xDB else 0xD3), .byteOf t what] = .ok bytes) :
    Decodes ctx.address bytes
      ⟨portMnemonic load, inOrder load (.register .a) (.direct (t.value ctx.symbols))⟩ := by
  obtain ⟨back, hback, rfl⟩ := Template.emit_byte_cons_iff.1 hemit
  cases Template.filled_of_emit_singleton hpass hback with
  | byteOf hv =>
    exact decodes_main (p := ⟨portMnemonic load, inOrder load Pattern.accumulator .port⟩)
      (by cases load <;> rfl) (.inOrder (.port hv .nil) load _)

/-! ### The bit page -/

/-- The register field of an opcode; without a register it is the memory field. -/
def fieldCode (r : Option Register8) : UInt8 :=
  r.elim memoryField Register8.code

def fieldSlot (r : Option Register8) : Slot :=
  r.elim .atPointer fun r => .fixed (.register r)

theorem bit_rotate (op : RotateOp) (r : Option Register8) :
    Pattern.bit (Opcode.low (Opcode.middle 0 op.code) (fieldCode r)) =
      some ⟨.rotate op, [fieldSlot r]⟩ := by
  cases r with
  | none => cases op <;> rfl
  | some r => cases op <;> cases r <;> rfl

theorem bit_operation (op : BitOp) (r : Option Register8) : ∀ n < 8,
    Pattern.bit (Opcode.middle (Opcode.low (Opcode.group op.code) (fieldCode r))
        (lowByte ((n : Nat) : Int) &&& 7)) =
      some ⟨.bit op, [.fixed (.immediate n), fieldSlot r]⟩ := by
  cases r with
  | none => cases op <;> decide
  | some r => cases op <;> cases r <;> decide

/-- A field that the final pass fills with an opcode of the bit page. The pattern of the opcode has the
slot of a register or a byte in memory behind words that the opcode fixes. -/
def FillsBit (ctx : Context) (f : Field) (m : Mnemonic) (front : List Word) (r : Option Register8) :
    Prop :=
  ∀ last, f.Filled ctx last →
    ∃ opcode, last = [opcode] ∧ Pattern.bit opcode = some ⟨m, front.map .fixed ++ [fieldSlot r]⟩

theorem fillsBit_rotate (op : RotateOp) (r : Option Register8) :
    FillsBit ctx (.byte (Opcode.low (Opcode.middle 0 op.code) (fieldCode r))) (.rotate op) [] r := by
  intro last hlast
  cases hlast
  exact ⟨_, rfl, bit_rotate op r⟩

theorem fillsBit_bitNumber (op : BitOp) (t : Term) (r : Option Register8) :
    FillsBit ctx (.bitNumber (Opcode.low (Opcode.group op.code) (fieldCode r)) t) (.bit op)
      [.immediate (t.value ctx.symbols)] r := by
  intro last hlast
  cases hlast with
  | bitNumber hn hvalue =>
    rw [hvalue]
    exact ⟨_, rfl, bit_operation op r _ hn⟩

theorem FillsBit.decodes_register {f : Field} {m : Mnemonic} {front : List Word} {r : Register8}
    (h : FillsBit ctx f m front (some r)) (hpass : ctx.pass = .final)
    (hemit : Template.emit ctx [.byte bitPage, f] = .ok bytes) :
    Decodes ctx.address bytes ⟨m, front ++ [.register r]⟩ := by
  obtain ⟨last, hlast, rfl⟩ := Template.emit_byte_cons_iff.1 hemit
  obtain ⟨opcode, rfl, hpattern⟩ := h last (Template.filled_of_emit_singleton hpass hlast)
  exact decodes_bit hpattern (.allFixed front (.fixed _ .nil))

/-- The displacement stands in front of the opcode, so the field is the last byte. -/
theorem FillsBit.decodes_memory {f : Field} {m : Mnemonic} {front : List Word}
    (h : FillsBit ctx f m front none) (hpass : ctx.pass = .final) {x : Operand} (hx : x.Genuine)
    {form : MemoryForm} (hform : x.memory? = some form)
    (hemit : Template.emit ctx (form.onBitPage f) = .ok bytes) :
    Decodes ctx.address bytes ⟨m, front ++ [(x.word ctx.symbols).displaced]⟩ := by
  obtain ⟨q, hword, rfl⟩ := hx.exists_place hform ctx.symbols
  rw [MemoryForm.onBitPage, List.append_assoc, List.append_assoc,
    Template.emit_bytes_append_iff] at hemit
  obtain ⟨others, hothers, rfl⟩ := hemit
  obtain ⟨back, hback, rfl⟩ := Template.emit_byte_cons_iff.1 hothers
  obtain ⟨last, hlast, rfl⟩ := Template.emit_bytes_append_iff.1 hback
  obtain ⟨opcode, rfl, hpattern⟩ := h last (Template.filled_of_emit_singleton hpass hlast)
  rw [hword]
  exact decodes_placeBit q hpattern (.allFixed front (.onPlace q .nil))

/-! ### Sentences of forms -/

/-- An operand that states a condition is read as that condition. -/
theorem carry_word {x : Operand} {cc : Condition} (h : x.condition? = some (.ok cc))
    (symbols : SymbolTable) : (x.word symbols).carry = .condition cc := by
  unfold Operand.condition? at h
  split at h
  · cases h
    -- a condition by its own name is no register, and stays
    have hne : Word.condition cc ≠ .register .c := by
      intro heq
      cases heq
    exact if_neg hne
  · cases h
    rfl
  · cases h

/-- Branches to a target, on a condition. -/
theorem normal_branchIf {m : Mnemonic} (hm : m = .jp ∨ m = .jr ∨ m = .call) {x : Operand}
    {cc : Condition} (h : x.condition? = some (.ok cc)) (symbols : SymbolTable) (v : Int) :
    Sentence.normal ⟨m, [x.word symbols, .immediate v]⟩ = ⟨m, [.condition cc, .immediate v]⟩ := by
  have hcarried : Sentence.normal ⟨m, [x.word symbols, .immediate v]⟩ =
      Sentence.displaced ⟨m, [(x.word symbols).carry, .immediate v]⟩ := by
    rcases hm with rfl | rfl | rfl <;> rfl
  rw [hcarried, carry_word h, Sentence.displaced]
  split
  · rfl
  · simp

/-- Returns on a condition. -/
theorem normal_returnIf {x : Operand} {cc : Condition} (h : x.condition? = some (.ok cc))
    (symbols : SymbolTable) : Sentence.normal ⟨.ret, [x.word symbols]⟩ = ⟨.ret, [.condition cc]⟩ := by
  change Sentence.mk .ret [(x.word symbols).carry.displaced] = _
  rw [carry_word h, Word.displaced_condition]

/-- A lone number is a word that no rule of the normal form is about. -/
theorem normal_number {m : Mnemonic} (hm : m ∈ [Mnemonic.jp, .call, .jr, .djnz, .rst, .im]) (v : Int) :
    Sentence.normal ⟨m, [.immediate v]⟩ = ⟨m, [.immediate v]⟩ := by
  have hdisplaced : Sentence.normal ⟨m, [.immediate v]⟩ = Sentence.displaced ⟨m, [.immediate v]⟩ := by
    simp only [List.mem_cons, List.not_mem_nil, or_false] at hm
    rcases hm with rfl | rfl | rfl | rfl | rfl | rfl <;> rfl
  rw [hdisplaced, Sentence.displaced]
  split
  · rfl
  · simp

/-- Arithmetic on pairs has no accumulator to drop. -/
theorem normal_pairs (op : AluOp) (p q : Pair) :
    Sentence.normal ⟨.alu op, [.pair p, .pair q]⟩ = ⟨.alu op, [.pair p, .pair q]⟩ := by
  change Sentence.displaced (if Word.pair p = .register .a then (⟨.alu op, [.pair q]⟩ : Sentence)
    else ⟨.alu op, [.pair p, .pair q]⟩) = _
  rw [if_neg nofun]
  change Sentence.mk (.alu op) [(Word.pair p).displaced, (Word.pair q).displaced] = _
  rw [Word.displaced_pair, Word.displaced_pair]

theorem normal_port (load : Bool) {u v : Word} (hu : u.displaced = u) (hv : v.displaced = v) :
    Sentence.normal ⟨portMnemonic load, inOrder load u v⟩ =
      ⟨portMnemonic load, inOrder load u v⟩ := by
  have hdisplaced : Sentence.normal ⟨portMnemonic load, inOrder load u v⟩ =
      ⟨portMnemonic load, inOrder load u.displaced v.displaced⟩ := by
    cases load <;> rfl
  rw [hdisplaced, hu, hv]

/-- Bytes that decode to the normal form of a sentence. -/
theorem Decodes.of_normal {s s' : Sentence} (h : Decodes a bytes s') (hnormal : s.normal = s') :
    Decodes a bytes s.normal := by
  rw [hnormal]
  exact h

/-! ### All forms -/

/-- **Every form decodes to its sentence.** A fused mnemonic has the form of the branch that it is written
out to, so the induction is on the form. -/
theorem decodes_form (hpass : ctx.pass = .final) {m : Mnemonic} {ops : List Operand} {w : Template}
    (h : Form m ops w) (hops : ∀ x ∈ ops, x.Genuine) (hemit : Template.emit ctx w = .ok bytes) :
    Decodes ctx.address bytes
      (Sentence.normal ⟨m, ops.map (Operand.word ctx.symbols)⟩) := by
  -- a form that is normal already needs its pattern alone, the others their sentence rewritten first
  induction h with
  | @load x y w h =>
    exact decodes_load hpass h (hops x (by simp)) (hops y (by simp)) hemit
  | push h => exact decodes_stack (fun {q _} h => by cases q <;> cases h <;> rfl) h hemit
  | pop h => exact decodes_stack (fun {q _} h => by cases q <;> cases h <;> rfl) h hemit
  | exchangePairs | exchangeShadow | exchangeTop => exact decodes_exchange rfl hemit
  | exchangeTopIndex r => exact decodes_exchange rfl hemit
  | @inc x w h => exact decodes_count (.inl ⟨rfl, rfl⟩) h (hops x (by simp)) hemit
  | @dec x w h => exact decodes_count (.inr ⟨rfl, rfl⟩) h (hops x (by simp)) hemit
  | @source op x w h => exact decodes_source hpass h (hops x (by simp)) hemit
  | @accumulatorSource op x w h =>
    exact decodes_source hpass h (hops x (by simp)) hemit
  | addPair h | adcPair h | sbcPair h | addIndex h =>
    refine Decodes.of_normal ?_ (normal_pairs _ _ _)
    exact decodes_pairArithmetic (orForm_eq_ok_iff.2 (Option.map_eq_some_iff.2 ⟨_, h, rfl⟩)) hemit
  | jump t => exact (decodes_word hpass [] rfl hemit).of_normal (normal_number (by simp) _)
  | jumpPointer =>
    cases hemit
    exact decodes_main (p := ⟨.jp, [.jumpPointer]⟩) rfl .jumpPointer
  | jumpIndex r =>
    cases hemit
    exact decodes_index r (p := ⟨.jp, [.jumpPointer]⟩) rfl .jumpPointer
  | @jumpIf x cc h t =>
    have hdecodes := decodes_word hpass [.condition cc] (by cases cc <;> rfl) hemit
    exact hdecodes.of_normal (normal_branchIf (.inl rfl) h _ _)
  | call t => exact (decodes_word hpass [] rfl hemit).of_normal (normal_number (by simp) _)
  | @callIf x cc h t =>
    have hdecodes := decodes_word hpass [.condition cc] (by cases cc <;> rfl) hemit
    exact hdecodes.of_normal (normal_branchIf (.inr (.inr rfl)) h _ _)
  | ret =>
    cases hemit
    exact decodes_main (p := ⟨.ret, []⟩) rfl .nil
  | @retIf x cc h =>
    cases hemit
    have hdecodes : Decodes ctx.address [Opcode.middle 0xC0 cc.code] ⟨.ret, [.condition cc]⟩ :=
      decodes_main (p := ⟨.ret, [.fixed (.condition cc)]⟩) (by cases cc <;> rfl) (.fixed _ .nil)
    exact hdecodes.of_normal (normal_returnIf h _)
  | relative t => exact (decodes_target hpass [] rfl hemit).of_normal (normal_number (by simp) _)
  | @relativeIf x cc opcode h hop t =>
    have hdecodes := decodes_target hpass [.condition cc] (by cases cc <;> cases hop <;> rfl) hemit
    exact hdecodes.of_normal (normal_branchIf (.inr (.inl rfl)) h _ _)
  | loop t => exact (decodes_target hpass [] rfl hemit).of_normal (normal_number (by simp) _)
  | restart t => exact (decodes_restart hpass hemit).of_normal (normal_number (by simp) _)
  | interruptMode t =>
    obtain ⟨back, hback, rfl⟩ := Template.emit_byte_cons_iff.1 hemit
    cases Template.filled_of_emit_singleton hpass hback with
    | modeOf mode hvalue =>
      refine (decodes_mode mode).of_normal ?_
      rw [← hvalue]
      exact normal_number (by simp) _
  | inputPort r =>
    cases hemit
    exact (decodes_portC true r).of_normal
      (normal_port true (Word.displaced_register r) Word.displaced_portC)
  | input t =>
    exact (decodes_port hpass true hemit).of_normal
      (normal_port true (Word.displaced_register .a) (Word.displaced_direct _))
  | outputPort r =>
    cases hemit
    exact (decodes_portC false r).of_normal
      (normal_port false (Word.displaced_register r) Word.displaced_portC)
  | output t =>
    exact (decodes_port hpass false hemit).of_normal
      (normal_port false (Word.displaced_register .a) (Word.displaced_direct _))
  | rotateRegister op r =>
    change Decodes _ _ ⟨.rotate op, [(Word.register r).displaced]⟩
    rw [Word.displaced_register]
    exact (fillsBit_rotate op (some r)).decodes_register hpass hemit
  | @rotateMemory op x m h =>
    exact (fillsBit_rotate op none).decodes_memory hpass (hops x (by simp)) h hemit
  | bitRegister op t r =>
    change Decodes _ _ ⟨.bit op, [(Word.immediate _).displaced, (Word.register r).displaced]⟩
    rw [Word.displaced_immediate, Word.displaced_register]
    exact (fillsBit_bitNumber op t (some r)).decodes_register hpass hemit
  | @bitMemory op t x m h =>
    change Decodes _ _ ⟨.bit op, [(Word.immediate _).displaced, _]⟩
    rw [Word.displaced_immediate]
    exact (fillsBit_bitNumber op t none).decodes_memory hpass (hops x (by simp)) h hemit
  | implied op =>
    rw [← List.append_nil (op.code.map Field.byte), Template.emit_bytes_append_iff] at hemit
    obtain ⟨back, hback, rfl⟩ := hemit
    rw [Template.emit_nil_iff.1 hback, List.append_nil]
    exact decodes_implied op
  | fusedMode mode =>
    cases hemit
    exact (decodes_mode mode).of_normal (normal_number (m := .im) (by simp) _)
  | @fused branch cc ops w h ih =>
    -- the branch written out has the condition as its first operand
    have hdecodes := ih (List.forall_mem_cons.2 ⟨.condition cc, hops⟩) hemit
    cases branch <;> exact hdecodes

/-! ### Encodings -/

theorem ne_other_of_memory {x : Operand} {m : MemoryForm} (h : x.memory? = some m) :
    x ≠ .other := by
  rintro rfl
  cases h

theorem ne_other_of_transfer {load : Bool} {x : Operand} {w : Template}
    (h : x.accumulatorTransfer? load = some w) : x ≠ .other := by
  rintro rfl
  cases h

theorem ne_other_of_condition {x : Operand} {named : Named Condition}
    (h : x.condition? = some named) : x ≠ .other := by
  rintro rfl
  cases h

theorem LoadForm.ne_other {x y : Operand} {w : Template} (h : LoadForm x y w) :
    x ≠ .other ∧ y ≠ .other := by
  cases h with
  | memory r h => exact ⟨nofun, ne_other_of_memory h⟩
  | accumulator h => exact ⟨nofun, ne_other_of_transfer h⟩
  | storeRegister h s => exact ⟨ne_other_of_memory h, nofun⟩
  | storeImmediate h t => exact ⟨ne_other_of_memory h, nofun⟩
  | storeAccumulator h => exact ⟨ne_other_of_transfer h, nofun⟩
  | _ => exact ⟨nofun, nofun⟩

theorem CountForm.ne_other {step : UInt8} {x : Operand} {w : Template} (h : CountForm step x w) :
    x ≠ .other := by
  cases h with
  | memory h => exact ne_other_of_memory h
  | _ => exact nofun

theorem SourceForm.ne_other {op : AluOp} {x : Operand} {w : Template} (h : SourceForm op x w) :
    x ≠ .other := by
  cases h with
  | memory h => exact ne_other_of_memory h
  | _ => exact nofun

/-- No form takes an operand that means nothing. -/
theorem Form.other_not_mem {m : Mnemonic} {ops : List Operand} {w : Template} (h : Form m ops w) :
    Operand.other ∉ ops := by
  -- the operands of most forms are of a given kind; the others are found by what they mean
  induction h with
  | load h => simp [h.ne_other.1.symm, h.ne_other.2.symm]
  | push h => cases h <;> simp
  | pop h => cases h <;> simp
  | inc h => simp [h.ne_other.symm]
  | dec h => simp [h.ne_other.symm]
  | source h => simp [h.ne_other.symm]
  | accumulatorSource h => simp [h.ne_other.symm]
  | jumpIf h t => simp [(ne_other_of_condition h).symm]
  | callIf h t => simp [(ne_other_of_condition h).symm]
  | retIf h => simp [(ne_other_of_condition h).symm]
  | relativeIf h hop t => simp [(ne_other_of_condition h).symm]
  | rotateMemory op h => simp [(ne_other_of_memory h).symm]
  | bitMemory op t h => simp [(ne_other_of_memory h).symm]
  | fused branch cc h ih => exact fun hmem => ih (List.mem_cons_of_mem _ hmem)
  | _ => simp

/-- Writing a fused mnemonic out is a part of the normal form. -/
theorem normal_unfuse (symbols : SymbolTable) (m : Mnemonic) (items : List Item)
    (location : Location) :
    Sentence.normal ⟨(unfuse m items location).1,
        (unfuse m items location).2.map (Word.ofItem symbols)⟩ =
      Sentence.normal ⟨m, items.map (Word.ofItem symbols)⟩ := by
  cases m with
  | fused branch cc => cases branch <;> rfl
  | _ => rfl

/-- The words of the operands are those of the items they are made from. -/
theorem words_meant (symbols : SymbolTable) {m : Mnemonic} {items : List Item}
    {location : Location} (hgenuine : ∀ i ∈ items, i.Genuine)
    (hother : Operand.other ∉ meant m items location) :
    (meant m items location).map (Operand.word symbols) =
      (unfuse m items location).2.map (Word.ofItem symbols) := by
  have hplain : Operand.other ∉ items.map Operand.ofItem →
      (items.map Operand.ofItem).map (Operand.word symbols) =
        items.map (Word.ofItem symbols) := by
    intro hother
    rw [List.map_map]
    refine List.map_congr_left fun i hi => ?_
    have hi' : Operand.ofItem i ≠ .other := fun heq => hother (List.mem_map.2 ⟨i, hi, heq⟩)
    exact ((hgenuine i hi).word_eq symbols hi').symm
  cases m with
  | fused branch cc =>
    -- the condition of a fused mnemonic stands in front
    change (Operand.ofItem (Item.named .condition cc.name location)).word symbols :: _ = _
    rw [ofItem_condition, hplain fun h => hother (List.mem_cons_of_mem _ h)]
    rfl
  | _ => exact hplain hother

/-- **An encoding decodes to the sentence of its statement**, whatever bytes follow. The operands have to be
genuine, since only then their words are those of the items. -/
theorem decodes_encode (hpass : ctx.pass = .final) {m : Mnemonic} {items : List Item}
    {location : Location} (hgenuine : ∀ i ∈ items, i.Genuine)
    (h : encode ctx m items location = .ok bytes) :
    Decodes ctx.address bytes (Sentence.normal ⟨m, items.map (Word.ofItem ctx.symbols)⟩) := by
  obtain ⟨-, w, hselect, hemit⟩ := encode_eq_ok_iff.1 h
  have hform := Form.of_select hselect
  have hmeant := genuine_meant m location hgenuine
  have hdecodes := decodes_form hpass hform hmeant hemit
  rw [words_meant ctx.symbols hgenuine hform.other_not_mem, normal_unfuse] at hdecodes
  exact hdecodes

end Instruction

end CrossAssembler
