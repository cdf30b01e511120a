import CrossAssembler.Instruction
import CrossAssembler.SymbolTable

/-!
# Encoding instructions

An instruction is encoded in two passes over the same statements. The survey finds out sizes and
binds labels: a label that is not bound yet counts as zero and no value is checked. The final pass
knows every label, checks every value against the range of its position, and reports. So what the
final pass encodes, the survey has encoded in as many bytes.

The fields of a template are filled in order. At most one field of an instruction awaits a value,
so an instruction has at most one value to report on.
-/

namespace CrossAssembler

/-- The two passes over a program. -/
inductive Pass where
  | survey
  | final
  deriving DecidableEq, Repr

/-- What the value of an operand depends on. -/
structure Context where
  pass : Pass
  /-- The address of the instruction. -/
  address : Int
  symbols : SymbolTable
  deriving DecidableEq, Repr

/-- The low byte of an integer. -/
def lowByte (v : Int) : UInt8 := UInt8.ofNat (lowPart v).toNat

/-- The second byte of an integer. -/
def highByte (v : Int) : UInt8 := UInt8.ofNat (highPart v).toNat

namespace Context

/-- The value of a term. In the survey a label without a value counts as zero. -/
def valueOf (ctx : Context) (t : Term) : Except Failure Int :=
  match t.meaning with
  | .literal v => .ok v
  | .symbol name =>
    match ctx.pass with
    | .survey => .ok (ctx.symbols.valueOrZero name)
    | .final => ctx.symbols.lookup name (some t.location)

/-- A condition on a value, which only the final pass insists on. -/
def require (ctx : Context) (holds : Bool) (t : Term) (problem : Problem) :
    Except Failure Unit :=
  if ctx.pass = .final ∧ holds = false then .error (.problem (.placed t.location problem))
  else .ok ()

/-- The value of a term that has to lie between two bounds. -/
def valueWithin (ctx : Context) (t : Term) (low high : Int) (what : String) :
    Except Failure Int := do
  let v ← ctx.valueOf t
  ctx.require (decide (low ≤ v ∧ v ≤ high)) t (.valueRange v what none)
  return v

/-- The distance from the end of a two-byte instruction to a target, the short way round the
address space. -/
def distance (ctx : Context) (target : Int) : Int :=
  Int.bmod (target - (ctx.address + 2)) 0x10000

/-- The offset byte of a relative jump. -/
def offsetByte (ctx : Context) (t : Term) : Except Failure UInt8 := do
  let target ← ctx.valueWithin t 0 0xFFFF "jump target"
  let offset := ctx.distance target
  ctx.require (decide (-128 ≤ offset ∧ offset ≤ 127)) t
    (.valueRange offset "relative jump offset"
      (some s!"target {Hex.address (target % 0x10000)} is out of reach; use JP"))
  return lowByte offset

/-- The opcode of a restart. -/
def restartByte (ctx : Context) (t : Term) : Except Failure UInt8 := do
  let v ← ctx.valueOf t
  ctx.require (restartTargets.any fun target => (target : Int) == v) t
    (.valueRange v "restart address"
      (some "RST accepts $00, $08, $10, $18, $20, $28, $30 and $38"))
  return 0xC7 ||| lowByte v &&& 0x38

/-- The second byte of an interrupt mode. -/
def modeByte (ctx : Context) (t : Term) : Except Failure UInt8 := do
  let v ← ctx.valueOf t
  let mode := InterruptMode.ofNumber? v
  ctx.require mode.isSome t (.valueRange v "interrupt mode" (some "IM accepts 0, 1 or 2"))
  return (mode.getD .zero).code

/-- The number of a bit. -/
def bitNumber (ctx : Context) (t : Term) : Except Failure Int :=
  ctx.valueWithin t 0 7 "bit number"

end Context

/-- The bytes of a field. -/
def Field.emit (ctx : Context) : Field → Except Failure (List UInt8)
  | byte b => .ok [b]
  | foreign (some _) => .error (.fault .oversizedByte)
  | foreign none => .error (.fault .missingByte)
  | byteOf t what => (ctx.valueWithin t 0 0xFF what).map fun v => [lowByte v]
  | wordOf t what => (ctx.valueWithin t 0 0xFFFF what).map fun v => [lowByte v, highByte v]
  | offsetTo t => (ctx.offsetByte t).map fun b => [b]
  | restartAt t => (ctx.restartByte t).map fun b => [b]
  | modeOf t => (ctx.modeByte t).map fun b => [b]
  | bitNumber opcode t =>
    (ctx.bitNumber t).map fun v => [Opcode.middle opcode (lowByte v &&& 7)]

/-- The bytes of a template, field by field. -/
def Template.emit (ctx : Context) : Template → Except Failure (List UInt8)
  | [] => .ok []
  | f :: fs => do
    let front ← f.emit ctx
    let back ← Template.emit ctx fs
    return front ++ back

namespace Refusal

/-- Advice that goes with a refusal. -/
def hint (mnemonic : String) : Refusal → Option String
  | arity 0 => some s!"{mnemonic} takes no operands"
  | arity 1 => some s!"{mnemonic} takes one operand"
  | arity count => some s!"{mnemonic} takes {count} operands"
  | destination => some s!"the destination of {mnemonic} must be A"
  | relativeCondition => some "JR only accepts the conditions NZ, Z, NC and C"
  | _ => none

/-- The failure of a statement whose operands are refused. -/
def toFailure (mnemonic : String) (operands : List Item) (location : Location) :
    Refusal → Failure
  | unknownName name => .fault (.unknownName name)
  | accumulatorOnly position =>
    let operand := (operands[position]?.map Item.render).getD ""
    .problem (.placed location
      (.registerRestriction mnemonic (Item.renderOperands operands) operand))
  | refusal =>
    .problem (.placed location
      (.addressingMode mnemonic (Item.renderOperands operands) (refusal.hint mnemonic)))

end Refusal

namespace Instruction

/-- A fused mnemonic and its operands written out: the plain mnemonic, and the condition in front of
the operands. -/
def unfuse (m : Mnemonic) (operands : List Item) (location : Location) : Mnemonic × List Item :=
  match m with
  | .fused branch cc => (branch.mnemonic, Item.named .condition cc.name location :: operands)
  | m => (m, operands)

/-- The bit number of a bit operation is judged before the operand that holds the bit. -/
def checkBit (ctx : Context) : Mnemonic → List Operand → Except Failure Unit
  | .bit _, [.immediate t, _] => (ctx.bitNumber t).map fun _ => ()
  | _, _ => .ok ()

/-- The bytes of an instruction at a place. -/
def encode (ctx : Context) (m : Mnemonic) (operands : List Item) (location : Location) :
    Except Failure (List UInt8) := do
  let (plain, written) := unfuse m operands location
  let meant := written.map Operand.ofItem
  checkBit ctx plain meant
  let template ← (select plain meant).mapError (·.toFailure plain.name written location)
  Template.emit ctx template

end Instruction

end CrossAssembler
