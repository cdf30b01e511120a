import CrossAssembler.Operand

/-!
# Instruction templates

Choosing the form of an instruction does not need the values of its operands: it gives a template,
a row of fields some of which are bytes already and some of which await a value. The size of the
instruction is the size of its template, so it is known before any label is.

`select` chooses the template for a mnemonic and its operands, or refuses them.
-/

namespace CrossAssembler

/-! ### Opcodes

An opcode is packed from fields: the lowest three bits and the three above them hold registers,
conditions or operations, and two bits above the lowest four hold a pair. -/

namespace Opcode

/-- An opcode with its lowest field set. -/
def low (opcode field : UInt8) : UInt8 := opcode ||| field

/-- An opcode with its middle field set. -/
def middle (opcode field : UInt8) : UInt8 := opcode ||| field <<< 3

/-- An opcode with its pair field set. -/
def pair (opcode field : UInt8) : UInt8 := opcode ||| field <<< 4

/-- The opcode of a group, which the two highest bits give. -/
def group (field : UInt8) : UInt8 := field <<< 6

end Opcode

/-- A field of an instruction. -/
inductive Field where
  | byte (b : UInt8)
  /-- An element that was given with an item and is no byte. -/
  | foreign (element : Option Int)
  /-- A value of one byte; `what` names it in messages. -/
  | byteOf (t : Term) (what : String)
  /-- A value of two bytes, low byte first. -/
  | wordOf (t : Term) (what : String)
  /-- The distance from the end of the instruction to a target, one signed byte. -/
  | offsetTo (t : Term)
  /-- The opcode of a restart at an address. -/
  | restartAt (t : Term)
  /-- The second byte of an interrupt mode. -/
  | modeOf (t : Term)
  /-- An opcode with a bit number in its middle field. -/
  | bitNumber (opcode : UInt8) (t : Term)
  deriving DecidableEq, Repr

namespace Field

/-- The number of bytes that a field takes. -/
def size : Field → Nat
  | wordOf _ _ => 2
  | _ => 1

/-- The field of an element that an item carries. -/
def ofElement (element : Option Int) : Field :=
  match element with
  | some v => if 0 ≤ v ∧ v ≤ 0xFF then byte (UInt8.ofNat v.toNat) else foreign element
  | none => foreign none

end Field

/-- The fields of an instruction, in order. -/
abbrev Template := List Field

/-- The number of bytes of an instruction. -/
def Template.size : Template → Nat
  | [] => 0
  | f :: fs => f.size + Template.size fs

/-- Why operands are refused. -/
inductive Refusal where
  /-- The mnemonic takes another number of operands. -/
  | arity (count : Nat)
  /-- No form takes these operands. -/
  | form
  /-- The destination has to be the accumulator. -/
  | destination
  /-- The condition is not one of a relative jump. -/
  | relativeCondition
  /-- Only the accumulator may be used with the operand at a position. -/
  | accumulatorOnly (position : Nat)
  /-- A name that no table holds. -/
  | unknownName (name : Option String)
  deriving DecidableEq, Repr

/-- A template, or why there is none. -/
abbrev Selection := Except Refusal Template

/-- The member of a family that is needed here. -/
def Named.need {α : Type} (n : Named α) : Except Refusal α :=
  n.mapError Refusal.unknownName

/-- A byte in memory: what stands in front of the opcode and what follows it. -/
structure MemoryForm where
  index : Template
  displacement : Template
  deriving DecidableEq, Repr

namespace MemoryForm

/-- An instruction on a byte in memory: the displacement follows the opcode. -/
def around (m : MemoryForm) (opcode : UInt8) : Template :=
  m.index ++ [.byte opcode] ++ m.displacement

/-- An instruction of the bit page on a byte in memory: the displacement stands in front of the
opcode. -/
def onBitPage (m : MemoryForm) (opcode : Field) : Template :=
  m.index ++ [.byte bitPage] ++ m.displacement ++ [opcode]

end MemoryForm

namespace Operand

/-- The byte in memory that an operand means. An index register without displacement is read as
one with displacement zero. -/
def memory? : Operand → Option MemoryForm
  | atPair .hl => some ⟨[], []⟩
  | atPair (.index r) => some ⟨[.byte r.code], [.byte 0]⟩
  | atIndex index displacement =>
    some ⟨[.ofElement index], [.ofElement (some displacement)]⟩
  | _ => none

/-- The transfer between the accumulator and an operand that no other register can be loaded from
or stored to. -/
def accumulatorTransfer? (load : Bool) : Operand → Option Template
  | atPair .bc => some [.byte (if load then 0x0A else 0x02)]
  | atPair .de => some [.byte (if load then 0x1A else 0x12)]
  | direct t => some [.byte (if load then 0x3A else 0x32), .wordOf t "address"]
  | special .i => some [.byte extendedPage, .byte (if load then 0x57 else 0x47)]
  | special .r => some [.byte extendedPage, .byte (if load then 0x5F else 0x4F)]
  | _ => none

end Operand

/-- The transfer between a pair and memory at an address. -/
def Pair.transfer? (load : Bool) (t : Term) : Pair → Option Template
  | hl => some [.byte (if load then 0x2A else 0x22), .wordOf t "address"]
  | index r => some [.byte r.code, .byte (if load then 0x2A else 0x22), .wordOf t "address"]
  | p => p.code?.map fun code =>
    [.byte extendedPage, .byte (Opcode.pair (if load then 0x4B else 0x43) code),
      .wordOf t "address"]

namespace Instruction

/-- A template, if there is one, and the plain refusal otherwise. -/
def orForm (t : Option Template) : Selection :=
  match t with
  | some t => .ok t
  | none => .error .form

/-! ### Loads -/

/-- Loads of an 8-bit register. -/
def loadRegister (dst : Named Register8) (src : Operand) : Selection := do
  let r ← dst.need
  match src with
  | .register s =>
    let s ← s.need
    return [.byte (Opcode.low (Opcode.middle 0x40 r.code) s.code)]
  | .immediate t => return [.byte (Opcode.middle 0x06 r.code), .byteOf t "8-bit value"]
  | src =>
    match src.memory? with
    | some m => return m.around (Opcode.middle 0x46 r.code)
    | none =>
      match src.accumulatorTransfer? true with
      | some transfer => if r = .a then return transfer else throw (.accumulatorOnly 1)
      | none => throw .form

/-- Stores to a byte in memory. -/
def storeMemory (m : MemoryForm) (src : Operand) : Selection := do
  match src with
  | .register s =>
    let s ← s.need
    return m.around (Opcode.low 0x70 s.code)
  | .immediate t => return m.around 0x36 ++ [.byteOf t "8-bit value"]
  | _ => throw .form

/-- Stores to an operand that only the accumulator, or for an address a pair, is stored to. -/
def storeAccumulator (dst : Operand) (transfer : Template) (src : Operand) : Selection :=
  match dst, src with
  | _, .register (.ok .a) => .ok transfer
  | _, .register _ => .error (.accumulatorOnly 0)
  | .direct t, .pair (.ok p) => orForm (p.transfer? false t)
  | _, _ => .error .form

/-- Loads of a pair. -/
def loadPair (dst : Pair) (src : Operand) : Selection :=
  match dst, src with
  | .index r, .immediate t => .ok [.byte r.code, .byte 0x21, .wordOf t "16-bit value"]
  | dst, .immediate t =>
    orForm (dst.code?.map fun code => [.byte (Opcode.pair 0x01 code), .wordOf t "16-bit value"])
  | dst, .direct t => orForm (dst.transfer? true t)
  | .sp, .pair (.ok .hl) => .ok [.byte 0xF9]
  | .sp, .pair (.ok (.index r)) => .ok [.byte r.code, .byte 0xF9]
  | _, _ => .error .form

/-- Loads and stores. -/
def load (dst src : Operand) : Selection :=
  match dst with
  | .register r => loadRegister r src
  | .pair (.ok p) => loadPair p src
  | dst =>
    match dst.memory? with
    | some m => storeMemory m src
    | none =>
      match dst.accumulatorTransfer? false with
      | some transfer => storeAccumulator dst transfer src
      | none => .error .form

/-! ### Stack and exchange -/

/-- Pushes and pops, from the opcode of the pair BC. -/
def stack (opcode : UInt8) : Operand → Selection
  | .pair (.ok (.index r)) => .ok [.byte r.code, .byte (Opcode.pair opcode 2)]
  | .pair (.ok p) => orForm (p.stackCode?.map fun code => [.byte (Opcode.pair opcode code)])
  | _ => .error .form

/-- Exchanges of pairs. -/
def exchange : Operand → Operand → Selection
  | .pair (.ok .de), .pair (.ok .hl) => .ok [.byte 0xEB]
  | .pair (.ok .af), .pair (.ok .afShadow) => .ok [.byte 0x08]
  | .atPair .sp, .pair (.ok .hl) => .ok [.byte 0xE3]
  | .atPair .sp, .pair (.ok (.index r)) => .ok [.byte r.code, .byte 0xE3]
  | _, _ => .error .form

/-! ### Arithmetic -/

/-- Arithmetic on the accumulator. -/
def arithmetic (op : AluOp) (src : Operand) : Selection := do
  match src with
  | .register s =>
    let s ← s.need
    return [.byte (Opcode.low (Opcode.middle 0x80 op.code) s.code)]
  | .immediate t => return [.byte (Opcode.middle 0xC6 op.code), .byteOf t "8-bit value"]
  | src =>
    match src.memory? with
    | some m => return m.around (Opcode.middle 0x86 op.code)
    | none => throw .form

/-- The field of a pair that is added to an index register, which itself takes the place of HL. -/
def addendCode? (r : IndexRegister) : Pair → Option UInt8
  | .index s => if s = r then some 2 else none
  | .hl => none
  | p => p.code?

/-- Arithmetic on pairs. -/
def pairArithmetic (op : AluOp) (dst src : Named Pair) : Selection :=
  match op, dst, src with
  | .add, .ok .hl, .ok p => orForm (p.code?.map fun code => [.byte (Opcode.pair 0x09 code)])
  | .adc, .ok .hl, .ok p =>
    orForm (p.code?.map fun code => [.byte extendedPage, .byte (Opcode.pair 0x4A code)])
  | .sbc, .ok .hl, .ok p =>
    orForm (p.code?.map fun code => [.byte extendedPage, .byte (Opcode.pair 0x42 code)])
  | .add, .ok (.index r), .ok p =>
    orForm ((addendCode? r p).map fun code => [.byte r.code, .byte (Opcode.pair 0x09 code)])
  | _, _, _ => .error .form

/-- Arithmetic on the accumulator, which may be written as destination or left out, and on
pairs. -/
def alu (op : AluOp) : List Operand → Selection
  | [src] => arithmetic op src
  | [.pair dst, .pair src] => pairArithmetic op dst src
  | [.pair _, _] => .error .form
  | [.register (.ok .a), src] => arithmetic op src
  | [_, _] => .error .destination
  | _ => .error (.arity 1)

/-- Increments and decrements; `step` is 1 for a decrement. -/
def count (step : UInt8) (operand : Operand) : Selection := do
  match operand with
  | .register r =>
    let r ← r.need
    return [.byte (Opcode.low (Opcode.middle 0x04 r.code) step)]
  | .pair (.ok (.index r)) => return [.byte r.code, .byte (Opcode.middle 0x23 step)]
  | .pair (.ok p) =>
    orForm (p.code?.map fun code => [.byte (Opcode.middle (Opcode.pair 0x03 code) step)])
  | operand =>
    match operand.memory? with
    | some m => return m.around (Opcode.low 0x34 step)
    | none => throw .form

/-! ### Jumps, calls and returns -/

/-- A jump or call under a condition, from the opcode of the first condition. -/
def conditional (opcode : UInt8) (what : String) (condition target : Operand) : Selection := do
  match condition.condition?, target with
  | some named, .immediate t =>
    let cc ← named.need
    return [.byte (Opcode.middle opcode cc.code), .wordOf t what]
  | _, _ => throw .form

/-- Absolute jumps. -/
def jump : List Operand → Selection
  | [.immediate t] => .ok [.byte 0xC3, .wordOf t "jump target"]
  | [.atPair .hl] => .ok [.byte 0xE9]
  | [.atPair (.index r)] => .ok [.byte r.code, .byte 0xE9]
  | [_] => .error .form
  | [condition, target] => conditional 0xC2 "jump target" condition target
  | _ => .error (.arity 2)

/-- Calls. -/
def call : List Operand → Selection
  | [.immediate t] => .ok [.byte 0xCD, .wordOf t "call target"]
  | [_] => .error .form
  | [condition, target] => conditional 0xC4 "call target" condition target
  | _ => .error (.arity 2)

/-- Returns. -/
def ret : List Operand → Selection
  | [] => .ok [.byte 0xC9]
  | [condition] => do
    match condition.condition? with
    | some named =>
      let cc ← named.need
      return [.byte (Opcode.middle 0xC0 cc.code)]
    | none => throw .form
  | _ => .error (.arity 1)

/-- The opcode of a relative jump under a condition. -/
def relativeOpcode? (condition : Operand) : Option UInt8 :=
  match condition.condition? with
  | some (.ok cc) => cc.relativeOpcode?
  | _ => none

/-- Relative jumps. -/
def relativeJump : List Operand → Selection
  | [.immediate t] => .ok [.byte 0x18, .offsetTo t]
  | [_] => .error .form
  | [condition, target] =>
    match relativeOpcode? condition, target with
    | none, _ => .error .relativeCondition
    | some opcode, .immediate t => .ok [.byte opcode, .offsetTo t]
    | some _, _ => .error .form
  | _ => .error (.arity 2)

/-! ### Ports and bits -/

/-- Input from a port. -/
def input (dst src : Operand) : Selection := do
  match dst, src with
  | .register r, .portC =>
    let r ← r.need
    return [.byte extendedPage, .byte (Opcode.middle 0x40 r.code)]
  | .register (.ok .a), .direct t => return [.byte 0xDB, .byteOf t "port number"]
  | .register _, .direct _ => throw (.accumulatorOnly 1)
  | _, _ => throw .form

/-- Output to a port. -/
def output (dst src : Operand) : Selection := do
  match dst, src with
  | .portC, .register r =>
    let r ← r.need
    return [.byte extendedPage, .byte (Opcode.middle 0x41 r.code)]
  | .direct t, .register (.ok .a) => return [.byte 0xD3, .byteOf t "port number"]
  | .direct _, .register _ => throw (.accumulatorOnly 0)
  | _, _ => throw .form

/-- An instruction of the bit page. `opcode` makes the last field from the field of the operand. -/
def onBitPage (opcode : UInt8 → Field) (operand : Operand) : Selection := do
  match operand with
  | .register r =>
    let r ← r.need
    return [.byte bitPage, opcode r.code]
  | operand =>
    match operand.memory? with
    | some m => return m.onBitPage (opcode memoryField)
    | none => throw .form

/-- An operation on a bit. -/
def bit (op : BitOp) (number operand : Operand) : Selection :=
  match number with
  | .immediate t =>
    onBitPage (fun field => .bitNumber (Opcode.low (Opcode.group op.code) field) t) operand
  | _ => .error .form

/-! ### All instructions -/

/-- The selection for exactly one operand. -/
def oneOperand (choose : Operand → Selection) : List Operand → Selection
  | [x] => choose x
  | _ => .error (.arity 1)

/-- The selection for exactly two operands. -/
def twoOperands (choose : Operand → Operand → Selection) : List Operand → Selection
  | [x, y] => choose x y
  | _ => .error (.arity 2)

/-- The selection for no operand. -/
def noOperand (t : Template) : List Operand → Selection
  | [] => .ok t
  | _ => .error (.arity 0)

/-- The selection for one value. -/
def oneValue (template : Term → Template) : List Operand → Selection :=
  oneOperand fun
    | .immediate t => .ok (template t)
    | _ => .error .form

/-- The template of a mnemonic with its operands. A fused mnemonic is the plain one with the
condition in front of its operands. -/
def select : Mnemonic → List Operand → Selection
  | .ld => twoOperands load
  | .push => oneOperand (stack 0xC5)
  | .pop => oneOperand (stack 0xC1)
  | .ex => twoOperands exchange
  | .inc => oneOperand (count 0)
  | .dec => oneOperand (count 1)
  | .jp => jump
  | .jr => relativeJump
  | .djnz => oneValue fun t => [.byte 0x10, .offsetTo t]
  | .call => call
  | .ret => ret
  | .rst => oneValue fun t => [.restartAt t]
  | .im => oneValue fun t => [.byte extendedPage, .modeOf t]
  | .input => twoOperands input
  | .output => twoOperands output
  | .alu op => alu op
  | .rotate op =>
    oneOperand (onBitPage fun field => .byte (Opcode.low (Opcode.middle 0 op.code) field))
  | .bit op => twoOperands (bit op)
  | .implied op => noOperand (op.code.map .byte)
  | .fused .jp cc => fun ops => jump (.condition (.ok cc) :: ops)
  | .fused .call cc => fun ops => call (.condition (.ok cc) :: ops)
  | .fused .ret cc => fun ops => ret (.condition (.ok cc) :: ops)
  | .fused .jr cc => fun ops => relativeJump (.condition (.ok cc) :: ops)
  | .fusedMode mode => noOperand [.byte extendedPage, .byte mode.code]

end Instruction

end CrossAssembler
