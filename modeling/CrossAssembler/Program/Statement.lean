import CrossAssembler.Instruction.Encode
import CrossAssembler.Program.Line

/-!
# Effects of statements

A statement does exactly one thing: it emits bytes, moves the address counter, chooses the
processor, is reported, or does nothing. The last holds for an empty statement and for one with an
invalid item, which was reported when it was read.
-/

namespace CrossAssembler

/-- The state that statements act on. -/
structure Machine where
  /-- The address counter. -/
  address : Int := 0
  cpu : Cpu := .z80
  symbols : SymbolTable := {}
  deriving DecidableEq, Repr

/-- What a statement does. -/
inductive Effect where
  | nothing
  /-- Bytes for the statement at a place. -/
  | emit (location : Location) (data : List UInt8)
  /-- A new address, set on a line. -/
  | moveTo (line address : Int)
  | choose (cpu : Cpu)
  | report (d : Diagnostic)
  deriving DecidableEq, Repr

namespace Statement

/-- The operands behind a first one: a comma and an operand, again and again. -/
def moreOperands (mnemonic : String) : List Item → Except Diagnostic (List Item)
  | [] => .ok []
  | [comma] =>
    if comma.kind = .comma then .error (.placed comma.location .noOperandAfterComma)
    else .error (.placed comma.location (.noComma comma.render))
  | comma :: operand :: rest =>
    if comma.kind ≠ .comma then .error (.placed comma.location (.noComma comma.render))
    else if operand.kind.isOperand = false then
      .error (.placed operand.location (.misplacedOperand operand.render mnemonic))
    else (moreOperands mnemonic rest).map (operand :: ·)

/-- The operands of an instruction, separated by commas. -/
def operands (mnemonic : String) : List Item → Except Diagnostic (List Item)
  | [] => .ok []
  | operand :: rest =>
    if operand.kind.isOperand = false then
      .error (.placed operand.location (.misplacedOperand operand.render mnemonic))
    else (moreOperands mnemonic rest).map (operand :: ·)

/-- The bytes of an instruction: its operands are read, then the processor is checked, then the
mnemonic is looked up and encoded. -/
def instruction (pass : Pass) (m : Machine) (head : Item) (rest : List Item) :
    Except Failure (List UInt8) := do
  let items ← (operands head.shownText rest).mapError .problem
  if m.cpu ≠ .z80 then
    throw (.problem (.placed head.location (.noEncoder head.shownText m.cpu.name)))
  match head.text.bind Mnemonic.ofName? with
  | some mnemonic =>
    Instruction.encode ⟨pass, m.address, m.symbols⟩ mnemonic items head.location
  | none => throw (.fault (.unknownName head.text))

/-- A statement that has to end here. -/
def expectEnd (head : Item) (effect : Effect) : List Item → Effect
  | [] => effect
  | extra :: _ =>
    .report (.placed extra.location (.trailingItem extra.render head.shownText))

/-- Setting the address counter. -/
def origin (head : Item) : List Item → Effect
  | [] => .report (.placed head.location .originWithoutNumber)
  | operand :: rest =>
    if operand.kind ≠ .number then .report (.placed head.location .originWithoutNumber)
    else if operand.fits16 = false then
      .report (.placed operand.location (.valueRange operand.value "ORG address" none))
    else expectEnd head (.moveTo head.location.line operand.value) rest

/-- A directive. -/
def directive (head : Item) (rest : List Item) : Effect :=
  match head.text.bind Keyword.ofName? with
  | some .origin => origin head rest
  | some (.processor cpu) => expectEnd head (.choose cpu) rest
  | _ => .report (.placed head.location (.unimplementedDirective head.shownText))

/-- What a statement does to a machine. -/
def effect (pass : Pass) (m : Machine) (statement : List Item) : Except Fault Effect :=
  match statement with
  | [] => .ok .nothing
  | head :: rest =>
    if statement.any fun i => i.kind == .invalid then .ok .nothing
    else match head.kind with
      | .mnemonic =>
        match instruction pass m head rest with
        | .ok data => .ok (.emit head.location data)
        | .error (.problem d) => .ok (.report d)
        | .error (.fault f) => .error f
      | .keyword => .ok (directive head rest)
      | .name => .ok (.report (.placed head.location (.unknownMnemonic head.shownText)))
      | _ => .ok (.report (.placed head.location (.misplacedStart head.render)))

end Statement

end CrossAssembler
