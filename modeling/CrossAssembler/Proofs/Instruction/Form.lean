import CrossAssembler.Instruction.Encode
import CrossAssembler.Proofs.Item.Genuine

/-!
# Forms of instructions

`Instruction.select` finds the template of a mnemonic and its operands by looking at one operand
after another. This module says **what it can find**: `Form m operands template` has one rule for
each form of an instruction, and `Form.of_select` turns a selection into the rule that made it. All
that is proved about single instructions goes by cases on the form, and never opens `select` again.

Two facts about genuine operands follow here.

* `Form.solid`: their templates hold no element that is not a byte.
* `select_refusal_known`: their refusals never are about a name that no table holds. This is the one
  kind of refusal that stops a run instead of being reported.
-/

namespace CrossAssembler

/-! ### Results that are there -/

/-- A computation in two parts gives a result when both parts do. -/
theorem bind_eq_ok_iff {ε α β : Type} {x : Except ε α} {f : α → Except ε β} {b : β} :
    (x >>= f) = .ok b ↔ ∃ a, x = .ok a ∧ f a = .ok b := by
  cases x with
  | error e => exact ⟨nofun, fun ⟨_, h, _⟩ => nomatch h⟩
  | ok a =>
    refine ⟨fun h => ⟨a, rfl, h⟩, ?_⟩
    rintro ⟨a', h, hf⟩
    cases h
    exact hf

theorem map_eq_ok_iff {ε α β : Type} {x : Except ε α} {f : α → β} {b : β} :
    x.map f = .ok b ↔ ∃ a, x = .ok a ∧ f a = b := by
  cases x with
  | error e => exact ⟨nofun, fun ⟨_, h, _⟩ => nomatch h⟩
  | ok a =>
    refine ⟨fun h => ⟨a, rfl, Except.ok.inj h⟩, ?_⟩
    rintro ⟨a', h, rfl⟩
    cases h
    rfl

theorem mapError_eq_ok_iff {ε ε' α : Type} {x : Except ε α} {f : ε → ε'} {a : α} :
    x.mapError f = .ok a ↔ x = .ok a := by
  cases x with
  | error e => exact ⟨nofun, nofun⟩
  | ok b => exact ⟨fun h => congrArg _ (Except.ok.inj h), fun h => congrArg _ (Except.ok.inj h)⟩

/-- A computation whose result can be looked at has one. -/
theorem exists_ok_of_toOption {ε α β : Type} {x : Except ε α} {f : α → β} {b : β}
    (h : x.toOption.map f = some b) : ∃ a, x = .ok a ∧ f a = b := by
  cases x with
  | error e => cases h
  | ok a => exact ⟨a, rfl, Option.some.inj h⟩

/-- A selection that needs the value of a name goes on with the value. -/
theorem Named.need_bind_eq_ok_iff {α : Type} {n : Named α} {choose : α → Selection} {w : Template} :
    (n.need >>= choose) = .ok w ↔ ∃ a, n = .ok a ∧ choose a = .ok w := by
  rw [bind_eq_ok_iff]
  exact exists_congr fun a => and_congr_left fun _ => mapError_eq_ok_iff

namespace Instruction

/-- Forms with the accumulator on the left: what the operand on the right may be. -/
inductive SourceForm (op : AluOp) : Operand → Template → Prop where
  | register (s : Register8) :
      SourceForm op (.register (.ok s)) [.byte (Opcode.low (Opcode.middle 0x80 op.code) s.code)]
  | immediate (t : Term) :
      SourceForm op (.immediate t) [.byte (Opcode.middle 0xC6 op.code), .byteOf t "8-bit value"]
  | memory {x : Operand} {m : MemoryForm} (h : x.memory? = some m) :
      SourceForm op x (m.around (Opcode.middle 0x86 op.code))

/-- Forms of counting up (`step` is 0) or down (`step` is 1). -/
inductive CountForm (step : UInt8) : Operand → Template → Prop where
  | register (r : Register8) :
      CountForm step (.register (.ok r)) [.byte (Opcode.low (Opcode.middle 0x04 r.code) step)]
  | memory {x : Operand} {m : MemoryForm} (h : x.memory? = some m) :
      CountForm step x (m.around (Opcode.low 0x34 step))
  | pair {p : Pair} {code : UInt8} (h : p.code? = some code) :
      CountForm step (.pair (.ok p)) [.byte (Opcode.middle (Opcode.pair 0x03 code) step)]
  | index (r : IndexRegister) :
      CountForm step (.pair (.ok (.index r))) [.byte r.code, .byte (Opcode.middle 0x23 step)]

/-- Forms of the stack, from the opcode of the pair BC. -/
inductive StackForm (opcode : UInt8) : Operand → Template → Prop where
  | pair {p : Pair} {code : UInt8} (h : p.stackCode? = some code) :
      StackForm opcode (.pair (.ok p)) [.byte (Opcode.pair opcode code)]
  | index (r : IndexRegister) :
      StackForm opcode (.pair (.ok (.index r))) [.byte r.code, .byte (Opcode.pair opcode 2)]

/-- Forms of loads and stores. -/
inductive LoadForm : Operand → Operand → Template → Prop where
  | register (r s : Register8) :
      LoadForm (.register (.ok r)) (.register (.ok s))
        [.byte (Opcode.low (Opcode.middle 0x40 r.code) s.code)]
  | immediate (r : Register8) (t : Term) :
      LoadForm (.register (.ok r)) (.immediate t)
        [.byte (Opcode.middle 0x06 r.code), .byteOf t "8-bit value"]
  | memory (r : Register8) {x : Operand} {m : MemoryForm} (h : x.memory? = some m) :
      LoadForm (.register (.ok r)) x (m.around (Opcode.middle 0x46 r.code))
  | accumulator {x : Operand} {w : Template} (h : x.accumulatorTransfer? true = some w) :
      LoadForm (.register (.ok .a)) x w
  | storeRegister {x : Operand} {m : MemoryForm} (h : x.memory? = some m) (s : Register8) :
      LoadForm x (.register (.ok s)) (m.around (Opcode.low 0x70 s.code))
  | storeImmediate {x : Operand} {m : MemoryForm} (h : x.memory? = some m) (t : Term) :
      LoadForm x (.immediate t) (m.around 0x36 ++ [.byteOf t "8-bit value"])
  | storeAccumulator {x : Operand} {w : Template} (h : x.accumulatorTransfer? false = some w) :
      LoadForm x (.register (.ok .a)) w
  | storePair {p : Pair} {t : Term} {w : Template} (h : p.transfer? false t = some w) :
      LoadForm (.direct t) (.pair (.ok p)) w
  | pair {p : Pair} {code : UInt8} (h : p.code? = some code) (t : Term) :
      LoadForm (.pair (.ok p)) (.immediate t)
        [.byte (Opcode.pair 0x01 code), .wordOf t "16-bit value"]
  | index (r : IndexRegister) (t : Term) :
      LoadForm (.pair (.ok (.index r))) (.immediate t)
        [.byte r.code, .byte 0x21, .wordOf t "16-bit value"]
  | pairDirect {p : Pair} {t : Term} {w : Template} (h : p.transfer? true t = some w) :
      LoadForm (.pair (.ok p)) (.direct t) w
  | stackPointer : LoadForm (.pair (.ok .sp)) (.pair (.ok .hl)) [.byte 0xF9]
  | stackPointerIndex (r : IndexRegister) :
      LoadForm (.pair (.ok .sp)) (.pair (.ok (.index r))) [.byte r.code, .byte 0xF9]

/-- **Forms of instructions**: the template of a mnemonic with operands, one rule for each form. The
rules say what can be selected and leave out how it is searched for, so that an induction over them
replaces the case split over the selection. -/
inductive Form : Mnemonic → List Operand → Template → Prop where
  | load {x y : Operand} {w : Template} (h : LoadForm x y w) : Form .ld [x, y] w
  | push {x : Operand} {w : Template} (h : StackForm 0xC5 x w) : Form .push [x] w
  | pop {x : Operand} {w : Template} (h : StackForm 0xC1 x w) : Form .pop [x] w
  | exchangePairs : Form .ex [.pair (.ok .de), .pair (.ok .hl)] [.byte 0xEB]
  | exchangeShadow : Form .ex [.pair (.ok .af), .pair (.ok .afShadow)] [.byte 0x08]
  | exchangeTop : Form .ex [.atPair .sp, .pair (.ok .hl)] [.byte 0xE3]
  | exchangeTopIndex (r : IndexRegister) :
      Form .ex [.atPair .sp, .pair (.ok (.index r))] [.byte r.code, .byte 0xE3]
  | inc {x : Operand} {w : Template} (h : CountForm 0 x w) : Form .inc [x] w
  | dec {x : Operand} {w : Template} (h : CountForm 1 x w) : Form .dec [x] w
  | source {op : AluOp} {x : Operand} {w : Template} (h : SourceForm op x w) :
      Form (.alu op) [x] w
  | accumulatorSource {op : AluOp} {x : Operand} {w : Template} (h : SourceForm op x w) :
      Form (.alu op) [.register (.ok .a), x] w
  | addPair {p : Pair} {code : UInt8} (h : p.code? = some code) :
      Form (.alu .add) [.pair (.ok .hl), .pair (.ok p)] [.byte (Opcode.pair 0x09 code)]
  | adcPair {p : Pair} {code : UInt8} (h : p.code? = some code) :
      Form (.alu .adc) [.pair (.ok .hl), .pair (.ok p)]
        [.byte extendedPage, .byte (Opcode.pair 0x4A code)]
  | sbcPair {p : Pair} {code : UInt8} (h : p.code? = some code) :
      Form (.alu .sbc) [.pair (.ok .hl), .pair (.ok p)]
        [.byte extendedPage, .byte (Opcode.pair 0x42 code)]
  | addIndex {r : IndexRegister} {p : Pair} {code : UInt8} (h : addendCode? r p = some code) :
      Form (.alu .add) [.pair (.ok (.index r)), .pair (.ok p)]
        [.byte r.code, .byte (Opcode.pair 0x09 code)]
  | jump (t : Term) : Form .jp [.immediate t] [.byte 0xC3, .wordOf t "jump target"]
  | jumpPointer : Form .jp [.atPair .hl] [.byte 0xE9]
  | jumpIndex (r : IndexRegister) : Form .jp [.atPair (.index r)] [.byte r.code, .byte 0xE9]
  | jumpIf {x : Operand} {cc : Condition} (h : x.condition? = some (.ok cc)) (t : Term) :
      Form .jp [x, .immediate t] [.byte (Opcode.middle 0xC2 cc.code), .wordOf t "jump target"]
  | call (t : Term) : Form .call [.immediate t] [.byte 0xCD, .wordOf t "call target"]
  | callIf {x : Operand} {cc : Condition} (h : x.condition? = some (.ok cc)) (t : Term) :
      Form .call [x, .immediate t] [.byte (Opcode.middle 0xC4 cc.code), .wordOf t "call target"]
  | ret : Form .ret [] [.byte 0xC9]
  | retIf {x : Operand} {cc : Condition} (h : x.condition? = some (.ok cc)) :
      Form .ret [x] [.byte (Opcode.middle 0xC0 cc.code)]
  | relative (t : Term) : Form .jr [.immediate t] [.byte 0x18, .offsetTo t]
  | relativeIf {x : Operand} {cc : Condition} {opcode : UInt8}
      (h : x.condition? = some (.ok cc)) (hop : cc.relativeOpcode? = some opcode) (t : Term) :
      Form .jr [x, .immediate t] [.byte opcode, .offsetTo t]
  | loop (t : Term) : Form .djnz [.immediate t] [.byte 0x10, .offsetTo t]
  | restart (t : Term) : Form .rst [.immediate t] [.restartAt t]
  | interruptMode (t : Term) : Form .im [.immediate t] [.byte extendedPage, .modeOf t]
  | inputPort (r : Register8) :
      Form .input [.register (.ok r), .portC]
        [.byte extendedPage, .byte (Opcode.middle 0x40 r.code)]
  | input (t : Term) :
      Form .input [.register (.ok .a), .direct t] [.byte 0xDB, .byteOf t "port number"]
  | outputPort (r : Register8) :
      Form .output [.portC, .register (.ok r)]
        [.byte extendedPage, .byte (Opcode.middle 0x41 r.code)]
  | output (t : Term) :
      Form .output [.direct t, .register (.ok .a)] [.byte 0xD3, .byteOf t "port number"]
  | rotateRegister (op : RotateOp) (r : Register8) :
      Form (.rotate op) [.register (.ok r)]
        [.byte bitPage, .byte (Opcode.low (Opcode.middle 0 op.code) r.code)]
  | rotateMemory (op : RotateOp) {x : Operand} {m : MemoryForm} (h : x.memory? = some m) :
      Form (.rotate op) [x]
        (m.onBitPage (.byte (Opcode.low (Opcode.middle 0 op.code) memoryField)))
  | bitRegister (op : BitOp) (t : Term) (r : Register8) :
      Form (.bit op) [.immediate t, .register (.ok r)]
        [.byte bitPage, .bitNumber (Opcode.low (Opcode.group op.code) r.code) t]
  | bitMemory (op : BitOp) (t : Term) {x : Operand} {m : MemoryForm} (h : x.memory? = some m) :
      Form (.bit op) [.immediate t, x]
        (m.onBitPage (.bitNumber (Opcode.low (Opcode.group op.code) memoryField) t))
  | implied (op : ImpliedOp) : Form (.implied op) [] (op.code.map .byte)
  | fusedMode (mode : InterruptMode) :
      Form (.fusedMode mode) [] [.byte extendedPage, .byte mode.code]
  | fused (branch : Branch) (cc : Condition) {ops : List Operand} {w : Template}
      (h : Form branch.mnemonic (.condition (.ok cc) :: ops) w) : Form (.fused branch cc) ops w

/-! ### From a selection to its form -/

theorem orForm_eq_ok_iff {o : Option Template} {w : Template} :
    orForm o = .ok w ↔ o = some w := by
  cases o with
  | none => exact ⟨nofun, nofun⟩
  | some v => exact ⟨fun h => congrArg _ (Except.ok.inj h), fun h => congrArg _ (Option.some.inj h)⟩

theorem LoadForm.of_loadRegister {dst : Named Register8} {src : Operand} {w : Template}
    (h : loadRegister dst src = .ok w) : LoadForm (.register dst) src w := by
  -- register, value, memory, and what only the accumulator is loaded from, in this order
  unfold loadRegister at h
  rw [Named.need_bind_eq_ok_iff] at h
  obtain ⟨r, rfl, h⟩ := h
  split at h
  next s =>
    obtain ⟨s', rfl, h⟩ := Named.need_bind_eq_ok_iff.1 h
    cases h
    exact .register r s'
  next t =>
    cases h
    exact .immediate r t
  · split at h
    next m hm =>
      cases h
      exact .memory r hm
    · split at h
      next transfer htransfer =>
        split at h
        next ha =>
          cases h
          subst ha
          exact .accumulator htransfer
        · cases h
      · cases h

theorem LoadForm.of_storeMemory {dst src : Operand} {m : MemoryForm} {w : Template}
    (hm : dst.memory? = some m) (h : storeMemory m src = .ok w) : LoadForm dst src w := by
  unfold storeMemory at h
  split at h
  next s =>
    obtain ⟨s', rfl, h⟩ := Named.need_bind_eq_ok_iff.1 h
    cases h
    exact .storeRegister hm s'
  next t =>
    cases h
    exact .storeImmediate hm t
  · cases h

theorem LoadForm.of_storeAccumulator {dst src : Operand} {transfer w : Template}
    (hdst : dst.accumulatorTransfer? false = some transfer)
    (h : Instruction.storeAccumulator dst transfer src = .ok w) : LoadForm dst src w := by
  unfold Instruction.storeAccumulator at h
  split at h
  · cases h
    exact .storeAccumulator hdst
  · cases h
  next t p => exact .storePair (orForm_eq_ok_iff.1 h)
  · cases h

theorem LoadForm.of_loadPair {dst : Pair} {src : Operand} {w : Template}
    (h : loadPair dst src = .ok w) : LoadForm (.pair (.ok dst)) src w := by
  unfold loadPair at h
  split at h
  next r t =>
    cases h
    exact .index r t
  next t _ =>
    obtain ⟨code, hcode, rfl⟩ := Option.map_eq_some_iff.1 (orForm_eq_ok_iff.1 h)
    exact .pair hcode t
  next t => exact .pairDirect (orForm_eq_ok_iff.1 h)
  · cases h
    exact .stackPointer
  next r =>
    cases h
    exact .stackPointerIndex r
  · cases h

theorem LoadForm.of_load {dst src : Operand} {w : Template} (h : load dst src = .ok w) :
    LoadForm dst src w := by
  unfold load at h
  split at h
  · exact .of_loadRegister h
  · exact .of_loadPair h
  · split at h
    next m hm => exact .of_storeMemory hm h
    · split at h
      next transfer htransfer => exact .of_storeAccumulator htransfer h
      · cases h

theorem StackForm.of_stack {opcode : UInt8} {x : Operand} {w : Template}
    (h : stack opcode x = .ok w) : StackForm opcode x w := by
  unfold stack at h
  split at h
  next r =>
    cases h
    exact .index r
  next p _ =>
    obtain ⟨code, hcode, rfl⟩ := Option.map_eq_some_iff.1 (orForm_eq_ok_iff.1 h)
    exact .pair hcode
  · cases h

theorem SourceForm.of_arithmetic {op : AluOp} {x : Operand} {w : Template}
    (h : arithmetic op x = .ok w) : SourceForm op x w := by
  unfold arithmetic at h
  split at h
  next s =>
    obtain ⟨s', rfl, h⟩ := Named.need_bind_eq_ok_iff.1 h
    cases h
    exact .register s'
  next t =>
    cases h
    exact .immediate t
  · split at h
    next m hm =>
      cases h
      exact .memory hm
    · cases h

theorem CountForm.of_count {step : UInt8} {x : Operand} {w : Template}
    (h : count step x = .ok w) : CountForm step x w := by
  unfold count at h
  split at h
  next r =>
    obtain ⟨r', rfl, h⟩ := Named.need_bind_eq_ok_iff.1 h
    cases h
    exact .register r'
  next r =>
    cases h
    exact .index r
  next p _ =>
    obtain ⟨code, hcode, rfl⟩ := Option.map_eq_some_iff.1 (orForm_eq_ok_iff.1 h)
    exact .pair hcode
  · split at h
    next m hm =>
      cases h
      exact .memory hm
    · cases h

theorem Form.of_exchange {x y : Operand} {w : Template} (h : exchange x y = .ok w) :
    Form .ex [x, y] w := by
  unfold exchange at h
  split at h
  · cases h
    exact .exchangePairs
  · cases h
    exact .exchangeShadow
  · cases h
    exact .exchangeTop
  next r =>
    cases h
    exact .exchangeTopIndex r
  · cases h

theorem Form.of_pairArithmetic {op : AluOp} {dst src : Named Pair} {w : Template}
    (h : pairArithmetic op dst src = .ok w) : Form (.alu op) [.pair dst, .pair src] w := by
  -- addition, addition with carry, subtraction with carry, and addition to an index register
  unfold pairArithmetic at h
  split at h
  next p =>
    obtain ⟨code, hcode, rfl⟩ := Option.map_eq_some_iff.1 (orForm_eq_ok_iff.1 h)
    exact .addPair hcode
  next p =>
    obtain ⟨code, hcode, rfl⟩ := Option.map_eq_some_iff.1 (orForm_eq_ok_iff.1 h)
    exact .adcPair hcode
  next p =>
    obtain ⟨code, hcode, rfl⟩ := Option.map_eq_some_iff.1 (orForm_eq_ok_iff.1 h)
    exact .sbcPair hcode
  next r p =>
    obtain ⟨code, hcode, rfl⟩ := Option.map_eq_some_iff.1 (orForm_eq_ok_iff.1 h)
    exact .addIndex hcode
  · cases h

theorem Form.of_alu {op : AluOp} {ops : List Operand} {w : Template} (h : alu op ops = .ok w) :
    Form (.alu op) ops w := by
  unfold alu at h
  split at h
  · exact .source (.of_arithmetic h)
  · exact .of_pairArithmetic h
  · cases h
  · exact .accumulatorSource (.of_arithmetic h)
  · cases h
  · cases h

/-- The operands and the template of a jump or call under a condition. -/
theorem conditional_eq_ok {opcode : UInt8} {what : String} {x y : Operand} {w : Template}
    (h : conditional opcode what x y = .ok w) :
    ∃ cc t, x.condition? = some (.ok cc) ∧ y = .immediate t ∧
      w = [.byte (Opcode.middle opcode cc.code), .wordOf t what] := by
  unfold conditional at h
  split at h
  next named t hx =>
    obtain ⟨cc, rfl, h⟩ := Named.need_bind_eq_ok_iff.1 h
    cases h
    exact ⟨cc, t, hx, rfl, rfl⟩
  · cases h

theorem Form.of_jump {ops : List Operand} {w : Template} (h : Instruction.jump ops = .ok w) :
    Form .jp ops w := by
  unfold Instruction.jump at h
  split at h
  next t =>
    cases h
    exact .jump t
  · cases h
    exact .jumpPointer
  next r =>
    cases h
    exact .jumpIndex r
  · cases h
  · obtain ⟨cc, t, hx, rfl, rfl⟩ := conditional_eq_ok h
    exact .jumpIf hx t
  · cases h

theorem Form.of_call {ops : List Operand} {w : Template} (h : Instruction.call ops = .ok w) :
    Form .call ops w := by
  unfold Instruction.call at h
  split at h
  next t =>
    cases h
    exact .call t
  · cases h
  · obtain ⟨cc, t, hx, rfl, rfl⟩ := conditional_eq_ok h
    exact .callIf hx t
  · cases h

theorem Form.of_ret {ops : List Operand} {w : Template} (h : Instruction.ret ops = .ok w) :
    Form .ret ops w := by
  unfold Instruction.ret at h
  split at h
  · cases h
    exact .ret
  · split at h
    next named hx =>
      obtain ⟨cc, rfl, h⟩ := Named.need_bind_eq_ok_iff.1 h
      cases h
      exact .retIf hx
    · cases h
  · cases h

theorem relativeOpcode?_eq_some {x : Operand} {opcode : UInt8}
    (h : relativeOpcode? x = some opcode) :
    ∃ cc, x.condition? = some (.ok cc) ∧ cc.relativeOpcode? = some opcode := by
  unfold relativeOpcode? at h
  split at h
  next cc hx => exact ⟨cc, hx, h⟩
  · cases h

theorem Form.of_relativeJump {ops : List Operand} {w : Template} (h : relativeJump ops = .ok w) :
    Form .jr ops w := by
  unfold relativeJump at h
  split at h
  next t =>
    cases h
    exact .relative t
  · cases h
  · split at h
    · cases h
    next opcode t hop =>
      cases h
      obtain ⟨cc, hx, hcc⟩ := relativeOpcode?_eq_some hop
      exact .relativeIf hx hcc t
    · cases h
  · cases h

theorem Form.of_input {x y : Operand} {w : Template} (h : Instruction.input x y = .ok w) :
    Form .input [x, y] w := by
  unfold Instruction.input at h
  split at h
  next r =>
    obtain ⟨r', rfl, h⟩ := Named.need_bind_eq_ok_iff.1 h
    cases h
    exact .inputPort r'
  next t =>
    cases h
    exact .input t
  · cases h
  · cases h

theorem Form.of_output {x y : Operand} {w : Template} (h : Instruction.output x y = .ok w) :
    Form .output [x, y] w := by
  unfold Instruction.output at h
  split at h
  next r =>
    obtain ⟨r', rfl, h⟩ := Named.need_bind_eq_ok_iff.1 h
    cases h
    exact .outputPort r'
  next t =>
    cases h
    exact .output t
  · cases h
  · cases h

/-- An instruction of the bit page is on a register or on a byte in memory. -/
theorem onBitPage_eq_ok {opcode : UInt8 → Field} {x : Operand} {w : Template}
    (h : onBitPage opcode x = .ok w) :
    (∃ r, x = .register (.ok r) ∧ w = [.byte bitPage, opcode r.code]) ∨
      ∃ m, x.memory? = some m ∧ w = m.onBitPage (opcode memoryField) := by
  unfold onBitPage at h
  split at h
  next r =>
    obtain ⟨r', rfl, h⟩ := Named.need_bind_eq_ok_iff.1 h
    cases h
    exact Or.inl ⟨r', rfl, rfl⟩
  · split at h
    next m hm =>
      cases h
      exact Or.inr ⟨m, hm, rfl⟩
    · cases h

theorem Form.of_bit {op : BitOp} {x y : Operand} {w : Template} (h : bit op x y = .ok w) :
    Form (.bit op) [x, y] w := by
  unfold bit at h
  split at h
  next t =>
    rcases onBitPage_eq_ok h with ⟨r, rfl, rfl⟩ | ⟨m, hm, rfl⟩
    · exact .bitRegister op t r
    · exact .bitMemory op t hm
  · cases h

theorem oneOperand_eq_ok {choose : Operand → Selection} {ops : List Operand} {w : Template}
    (h : oneOperand choose ops = .ok w) : ∃ x, ops = [x] ∧ choose x = .ok w := by
  unfold oneOperand at h
  split at h
  next x => exact ⟨x, rfl, h⟩
  · cases h

theorem twoOperands_eq_ok {choose : Operand → Operand → Selection} {ops : List Operand}
    {w : Template} (h : twoOperands choose ops = .ok w) :
    ∃ x y, ops = [x, y] ∧ choose x y = .ok w := by
  unfold twoOperands at h
  split at h
  next x y => exact ⟨x, y, rfl, h⟩
  · cases h

theorem noOperand_eq_ok {t : Template} {ops : List Operand} {w : Template}
    (h : noOperand t ops = .ok w) : ops = [] ∧ w = t := by
  unfold noOperand at h
  split at h
  · cases h
    exact ⟨rfl, rfl⟩
  · cases h

theorem oneValue_eq_ok {template : Term → Template} {ops : List Operand} {w : Template}
    (h : oneValue template ops = .ok w) : ∃ t, ops = [.immediate t] ∧ w = template t := by
  obtain ⟨x, rfl, hx⟩ := oneOperand_eq_ok h
  split at hx
  next t =>
    cases hx
    exact ⟨t, rfl, rfl⟩
  · cases hx

/-- **The form of a selection.** Whatever template is selected for a mnemonic and its operands is
that of one of its forms. -/
theorem Form.of_select {m : Mnemonic} {ops : List Operand} {w : Template}
    (h : select m ops = .ok w) : Form m ops w := by
  -- the number of operands is settled first, then the form of the kind
  cases m with
  | ld =>
    obtain ⟨x, y, rfl, hxy⟩ := twoOperands_eq_ok h
    exact .load (.of_load hxy)
  | push =>
    obtain ⟨x, rfl, hx⟩ := oneOperand_eq_ok h
    exact .push (.of_stack hx)
  | pop =>
    obtain ⟨x, rfl, hx⟩ := oneOperand_eq_ok h
    exact .pop (.of_stack hx)
  | ex =>
    obtain ⟨x, y, rfl, hxy⟩ := twoOperands_eq_ok h
    exact .of_exchange hxy
  | inc =>
    obtain ⟨x, rfl, hx⟩ := oneOperand_eq_ok h
    exact .inc (.of_count hx)
  | dec =>
    obtain ⟨x, rfl, hx⟩ := oneOperand_eq_ok h
    exact .dec (.of_count hx)
  | jp => exact .of_jump h
  | jr => exact .of_relativeJump h
  | djnz =>
    obtain ⟨t, rfl, rfl⟩ := oneValue_eq_ok h
    exact .loop t
  | call => exact .of_call h
  | ret => exact .of_ret h
  | rst =>
    obtain ⟨t, rfl, rfl⟩ := oneValue_eq_ok h
    exact .restart t
  | im =>
    obtain ⟨t, rfl, rfl⟩ := oneValue_eq_ok h
    exact .interruptMode t
  | input =>
    obtain ⟨x, y, rfl, hxy⟩ := twoOperands_eq_ok h
    exact .of_input hxy
  | output =>
    obtain ⟨x, y, rfl, hxy⟩ := twoOperands_eq_ok h
    exact .of_output hxy
  | alu op => exact .of_alu h
  | rotate op =>
    obtain ⟨x, rfl, hx⟩ := oneOperand_eq_ok h
    rcases onBitPage_eq_ok hx with ⟨r, rfl, rfl⟩ | ⟨m, hm, rfl⟩
    · exact .rotateRegister op r
    · exact .rotateMemory op hm
  | bit op =>
    obtain ⟨x, y, rfl, hxy⟩ := twoOperands_eq_ok h
    exact .of_bit hxy
  | implied op =>
    obtain ⟨rfl, rfl⟩ := noOperand_eq_ok h
    exact .implied op
  | fused branch cc =>
    refine .fused branch cc ?_
    cases branch with
    | jp => exact .of_jump h
    | call => exact .of_call h
    | ret => exact .of_ret h
    | jr => exact .of_relativeJump h
  | fusedMode mode =>
    obtain ⟨rfl, rfl⟩ := noOperand_eq_ok h
    exact .fusedMode mode

end Instruction

/-! ### Genuine operands give bytes -/

namespace Field

/-- A field that is a byte or awaits one. -/
def isSolid : Field → Bool
  | foreign _ => false
  | _ => true

@[simp] theorem isSolid_byte (b : UInt8) : (byte b).isSolid = true := rfl

/-- An index byte is a byte. -/
theorem ofElement_index (r : IndexRegister) :
    ofElement (some (r.code.toNat : Int)) = .byte r.code := by
  cases r <;> decide

/-- A displacement byte is a byte. -/
theorem ofElement_lowPart (d : Int) : ofElement (some (lowPart d)) = .byte (lowByte d) := by
  have hrange : 0 ≤ lowPart d ∧ lowPart d ≤ 0xFF := by
    unfold lowPart
    omega
  change (if 0 ≤ lowPart d ∧ lowPart d ≤ 0xFF then byte _ else foreign _) = _
  rw [if_pos hrange]
  rfl

end Field

/-- All fields are bytes or await one. -/
def Template.Solid (w : Template) : Prop :=
  ∀ f ∈ w, f.isSolid = true

/-- A template whose fields are written out is solid by a look at their kinds. -/
theorem Template.solid_of_all {w : Template} (h : w.all Field.isSolid = true) : w.Solid :=
  List.all_eq_true.1 h

/-- **Bytes in memory.** A genuine operand that means a byte in memory is the pointer HL, an index
register, or an index register with a displacement. -/
theorem Operand.Genuine.memory_cases {x : Operand} (hx : x.Genuine) {m : MemoryForm}
    (h : x.memory? = some m) :
    (x = .atPair .hl ∧ m = ⟨[], []⟩) ∨
    (∃ r, x = .atPair (.index r) ∧ m = ⟨[.byte r.code], [.byte 0]⟩) ∨
    ∃ (r : IndexRegister) (d : Int), (-128 ≤ d ∧ d ≤ 127) ∧
      x = .atIndex (some (r.code.toNat : Int)) (lowPart d) ∧
      m = ⟨[.byte r.code], [.byte (lowByte d)]⟩ := by
  -- only two kinds of operands can mean a byte in memory
  cases hx with
  | atPair p =>
    cases p with
    | hl =>
      cases h
      exact Or.inl ⟨rfl, rfl⟩
    | index r =>
      cases h
      exact Or.inr (Or.inl ⟨r, rfl, rfl⟩)
    | _ => cases h
  | atIndex r d hd =>
    cases h
    refine Or.inr (Or.inr ⟨r, d, hd, rfl, ?_⟩)
    rw [Field.ofElement_index, Field.ofElement_lowPart]
  | _ => cases h

theorem Operand.Genuine.solid_around {x : Operand} (hx : x.Genuine) {m : MemoryForm}
    (h : x.memory? = some m) (opcode : UInt8) : Template.Solid (m.around opcode) := by
  rcases hx.memory_cases h with ⟨-, rfl⟩ | ⟨r, -, rfl⟩ | ⟨r, d, -, -, rfl⟩ <;>
    simp [Template.Solid, MemoryForm.around, Field.isSolid]

theorem Operand.Genuine.solid_onBitPage {x : Operand} (hx : x.Genuine) {m : MemoryForm}
    (h : x.memory? = some m) {f : Field} (hf : f.isSolid = true) :
    Template.Solid (m.onBitPage f) := by
  rcases hx.memory_cases h with ⟨-, rfl⟩ | ⟨r, -, rfl⟩ | ⟨r, d, -, -, rfl⟩ <;>
    simp [Template.Solid, MemoryForm.onBitPage, hf]

theorem Operand.solid_accumulatorTransfer {load : Bool} {x : Operand} {w : Template}
    (h : x.accumulatorTransfer? load = some w) : w.Solid := by
  unfold Operand.accumulatorTransfer? at h
  split at h
  all_goals cases h
  all_goals exact Template.solid_of_all rfl

theorem Pair.solid_transfer {load : Bool} {t : Term} {p : Pair} {w : Template}
    (h : p.transfer? load t = some w) : w.Solid := by
  unfold Pair.transfer? at h
  split at h
  · cases h
    exact Template.solid_of_all rfl
  · cases h
    exact Template.solid_of_all rfl
  · obtain ⟨code, -, rfl⟩ := Option.map_eq_some_iff.1 h
    exact Template.solid_of_all rfl

namespace Instruction

theorem LoadForm.solid {x y : Operand} {w : Template} (h : LoadForm x y w) (hx : x.Genuine)
    (hy : y.Genuine) : w.Solid := by
  cases h with
  | memory r h => exact hy.solid_around h _
  | accumulator h => exact Operand.solid_accumulatorTransfer h
  | storeRegister h s => exact hx.solid_around h _
  | storeImmediate h t =>
    intro f hf
    rcases List.mem_append.1 hf with hf | hf
    · exact hx.solid_around h _ f hf
    · rw [List.mem_singleton.1 hf]
      rfl
  | storeAccumulator h => exact Operand.solid_accumulatorTransfer h
  | storePair h => exact Pair.solid_transfer h
  | pairDirect h => exact Pair.solid_transfer h
  | _ => exact Template.solid_of_all rfl

theorem CountForm.solid {step : UInt8} {x : Operand} {w : Template} (h : CountForm step x w)
    (hx : x.Genuine) : w.Solid := by
  cases h with
  | memory h => exact hx.solid_around h _
  | _ => exact Template.solid_of_all rfl

theorem SourceForm.solid {op : AluOp} {x : Operand} {w : Template} (h : SourceForm op x w)
    (hx : x.Genuine) : w.Solid := by
  cases h with
  | memory h => exact hx.solid_around h _
  | _ => exact Template.solid_of_all rfl

/-- **Templates of genuine operands are solid**: they hold no element that is not a byte. -/
theorem Form.solid {m : Mnemonic} {ops : List Operand} {w : Template} (h : Form m ops w)
    (hops : ∀ x ∈ ops, x.Genuine) : w.Solid := by
  -- only bytes in memory bring elements along, and those of genuine operands are bytes
  induction h with
  | load h => exact h.solid (hops _ (by simp)) (hops _ (by simp))
  | push h => cases h <;> exact Template.solid_of_all rfl
  | pop h => cases h <;> exact Template.solid_of_all rfl
  | inc h => exact h.solid (hops _ (by simp))
  | dec h => exact h.solid (hops _ (by simp))
  | source h => exact h.solid (hops _ (by simp))
  | accumulatorSource h => exact h.solid (hops _ (by simp))
  | rotateMemory op h => exact (hops _ (by simp)).solid_onBitPage h rfl
  | bitMemory op t h => exact (hops _ (by simp)).solid_onBitPage h rfl
  | implied op => simp [Template.Solid, Field.isSolid]
  | fused branch cc h ih => exact ih (List.forall_mem_cons.2 ⟨.condition cc, hops⟩)
  | _ => exact Template.solid_of_all rfl

/-! ### Genuine operands are refused for known reasons -/

/-- A selection that is not refused for a name that no table holds. -/
def Known (s : Selection) : Prop :=
  ∀ name, s ≠ .error (.unknownName name)

theorem known_ok (w : Template) : Known (.ok w) := nofun

theorem known_orForm (o : Option Template) : Known (orForm o) := by
  cases o <;> exact nofun

theorem known_load {dst src : Operand} (hdst : dst.Genuine) (hsrc : src.Genuine) :
    Known (load dst src) := by
  -- names are looked up for the destination first, and then for the source
  cases hdst with
  | register r =>
    change Known (loadRegister (.ok r) src)
    cases hsrc with
    | register s => exact known_ok _
    | immediate t => exact known_ok _
    | _ =>
      unfold loadRegister
      dsimp only [Named.need, Except.mapError, bind, Except.bind]
      split
      · exact known_ok _
      · split
        · split
          · exact known_ok _
          · exact nofun
        · exact nofun
  | pair p =>
    change Known (loadPair p src)
    unfold loadPair
    split
    · exact known_ok _
    · exact known_orForm _
    · exact known_orForm _
    · exact known_ok _
    · exact known_ok _
    · exact nofun
  | _ =>
    unfold load
    dsimp only
    split
    next m hm =>
      cases hsrc with
      | register s => exact known_ok _
      | immediate t => exact known_ok _
      | _ => exact nofun
    · split
      next transfer _ =>
        unfold storeAccumulator
        split
        · exact known_ok _
        · exact nofun
        · exact known_orForm _
        · exact nofun
      · exact nofun

theorem known_stack (opcode : UInt8) (x : Operand) : Known (stack opcode x) := by
  unfold stack
  split
  · exact known_ok _
  · exact known_orForm _
  · exact nofun

theorem known_exchange (x y : Operand) : Known (exchange x y) := by
  unfold exchange
  split
  case h_5 => exact nofun
  all_goals exact known_ok _

theorem known_arithmetic (op : AluOp) {x : Operand} (hx : x.Genuine) :
    Known (arithmetic op x) := by
  cases hx with
  | register s => exact known_ok _
  | immediate t => exact known_ok _
  | _ =>
    unfold arithmetic
    dsimp only
    split
    · exact known_ok _
    · exact nofun

theorem known_pairArithmetic (op : AluOp) (dst src : Named Pair) :
    Known (pairArithmetic op dst src) := by
  unfold pairArithmetic
  split
  case h_5 => exact nofun
  all_goals exact known_orForm _

theorem known_alu (op : AluOp) {ops : List Operand} (hops : ∀ x ∈ ops, x.Genuine) :
    Known (alu op ops) := by
  unfold alu
  split
  · exact known_arithmetic op (hops _ (by simp))
  · exact known_pairArithmetic _ _ _
  · exact nofun
  · exact known_arithmetic op (hops _ (by simp))
  · exact nofun
  · exact nofun

theorem known_count (step : UInt8) {x : Operand} (hx : x.Genuine) : Known (count step x) := by
  cases hx with
  | register r => exact known_ok _
  | pair p =>
    unfold count
    cases p with
    | index r => exact known_ok _
    | _ => exact known_orForm _
  | _ =>
    unfold count
    dsimp only
    split
    · exact known_ok _
    · exact nofun

/-- A genuine operand that states a condition states one of the table. -/
theorem condition?_genuine {x : Operand} (hx : x.Genuine) {named : Named Condition}
    (h : x.condition? = some named) : ∃ cc, named = .ok cc := by
  cases hx with
  | register r =>
    unfold Operand.condition? at h
    split at h
    next heq => cases heq
    · cases h
      exact ⟨.c, rfl⟩
    · cases h
  | condition cc =>
    cases h
    exact ⟨cc, rfl⟩
  | _ => cases h

theorem known_conditional (opcode : UInt8) (what : String) {x : Operand} (hx : x.Genuine)
    (y : Operand) : Known (conditional opcode what x y) := by
  unfold conditional
  split
  next named t hnamed =>
    obtain ⟨cc, rfl⟩ := condition?_genuine hx hnamed
    exact known_ok _
  · exact nofun

theorem known_jump {ops : List Operand} (hops : ∀ x ∈ ops, x.Genuine) : Known (jump ops) := by
  unfold jump
  split
  · exact known_ok _
  · exact known_ok _
  · exact known_ok _
  · exact nofun
  · exact known_conditional _ _ (hops _ (by simp)) _
  · exact nofun

theorem known_call {ops : List Operand} (hops : ∀ x ∈ ops, x.Genuine) : Known (call ops) := by
  unfold call
  split
  · exact known_ok _
  · exact nofun
  · exact known_conditional _ _ (hops _ (by simp)) _
  · exact nofun

theorem known_ret {ops : List Operand} (hops : ∀ x ∈ ops, x.Genuine) : Known (ret ops) := by
  unfold ret
  split
  · exact known_ok _
  · split
    next named hnamed =>
      obtain ⟨cc, rfl⟩ := condition?_genuine (hops _ (by simp)) hnamed
      exact known_ok _
    · exact nofun
  · exact nofun

theorem known_relativeJump (ops : List Operand) : Known (relativeJump ops) := by
  unfold relativeJump
  split
  · exact known_ok _
  · exact nofun
  · split
    · exact nofun
    · exact known_ok _
    · exact nofun
  · exact nofun

theorem known_input {x y : Operand} (hx : x.Genuine) : Known (input x y) := by
  unfold input
  split
  · cases hx
    exact known_ok _
  · exact known_ok _
  · exact nofun
  · exact nofun

theorem known_output {x y : Operand} (hy : y.Genuine) : Known (output x y) := by
  unfold output
  split
  · cases hy
    exact known_ok _
  · exact known_ok _
  · exact nofun
  · exact nofun

theorem known_onBitPage (opcode : UInt8 → Field) {x : Operand} (hx : x.Genuine) :
    Known (onBitPage opcode x) := by
  cases hx with
  | register r => exact known_ok _
  | _ =>
    unfold onBitPage
    dsimp only
    split
    · exact known_ok _
    · exact nofun

theorem known_bit (op : BitOp) (x : Operand) {y : Operand} (hy : y.Genuine) :
    Known (bit op x y) := by
  unfold bit
  split
  · exact known_onBitPage _ hy
  · exact nofun

theorem known_oneOperand {choose : Operand → Selection} {ops : List Operand}
    (h : ∀ x ∈ ops, Known (choose x)) : Known (oneOperand choose ops) := by
  unfold oneOperand
  split
  · exact h _ (by simp)
  · exact nofun

theorem known_twoOperands {choose : Operand → Operand → Selection} {ops : List Operand}
    (h : ∀ x ∈ ops, ∀ y ∈ ops, Known (choose x y)) : Known (twoOperands choose ops) := by
  unfold twoOperands
  split
  · exact h _ (by simp) _ (by simp)
  · exact nofun

theorem known_noOperand (t : Template) (ops : List Operand) : Known (noOperand t ops) := by
  unfold noOperand
  split
  · exact known_ok _
  · exact nofun

theorem known_oneValue (template : Term → Template) (ops : List Operand) :
    Known (oneValue template ops) := by
  refine known_oneOperand fun x _ => ?_
  split
  · exact known_ok _
  · exact nofun

/-- **Genuine operands are never refused for an unknown name**: all that they name stands in the tables. -/
theorem select_refusal_known (m : Mnemonic) {ops : List Operand} (hops : ∀ x ∈ ops, x.Genuine) :
    Known (select m ops) := by
  -- a fused mnemonic has its condition from the table
  have hfused : ∀ cc : Condition, ∀ x ∈ Operand.condition (.ok cc) :: ops, x.Genuine :=
    fun cc => List.forall_mem_cons.2 ⟨.condition cc, hops⟩
  cases m with
  | ld => exact known_twoOperands fun x hx y hy => known_load (hops x hx) (hops y hy)
  | push => exact known_oneOperand fun x _ => known_stack _ x
  | pop => exact known_oneOperand fun x _ => known_stack _ x
  | ex => exact known_twoOperands fun x _ y _ => known_exchange x y
  | inc => exact known_oneOperand fun x hx => known_count _ (hops x hx)
  | dec => exact known_oneOperand fun x hx => known_count _ (hops x hx)
  | jp => exact known_jump hops
  | jr => exact known_relativeJump ops
  | djnz => exact known_oneValue _ ops
  | call => exact known_call hops
  | ret => exact known_ret hops
  | rst => exact known_oneValue _ ops
  | im => exact known_oneValue _ ops
  | input => exact known_twoOperands fun x hx _ _ => known_input (hops x hx)
  | output => exact known_twoOperands fun _ _ y hy => known_output (hops y hy)
  | alu op => exact known_alu op hops
  | rotate op => exact known_oneOperand fun x hx => known_onBitPage _ (hops x hx)
  | bit op => exact known_twoOperands fun x _ y hy => known_bit op x (hops y hy)
  | implied op => exact known_noOperand _ ops
  | fused branch cc =>
    cases branch with
    | jp => exact known_jump (hfused cc)
    | call => exact known_call (hfused cc)
    | ret => exact known_ret (hfused cc)
    | jr => exact known_relativeJump _
  | fusedMode mode => exact known_noOperand _ ops

end Instruction

end CrossAssembler
