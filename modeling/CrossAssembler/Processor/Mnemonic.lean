import CrossAssembler.Processor.Register

/-!
# Mnemonics and keywords

A mnemonic names an instruction, a keyword a directive. Mnemonics come in families that share
their encoding: arithmetic on the accumulator, rotations, single bits, instructions without
operands, and the fused spellings that write a condition or an interrupt mode into the name
(`JPNZ`, `IM1`).
-/

namespace CrossAssembler

/-- Arithmetic and logic on the accumulator. -/
inductive AluOp where
  | add | adc | sub | sbc | and | xor | or | cp
  deriving DecidableEq, Repr

namespace AluOp

/-- All operations on the accumulator. -/
def all : List AluOp := [add, adc, sub, sbc, and, xor, or, cp]

/-- The mnemonic of an operation. -/
def name : AluOp → String
  | add => "ADD" | adc => "ADC" | sub => "SUB" | sbc => "SBC"
  | and => "AND" | xor => "XOR" | or => "OR" | cp => "CP"

/-- The three-bit operation field. -/
def code : AluOp → UInt8
  | add => 0 | adc => 1 | sub => 2 | sbc => 3 | and => 4 | xor => 5 | or => 6 | cp => 7

end AluOp

/-- Rotations and shifts of a register or memory operand. -/
inductive RotateOp where
  | rlc | rrc | rl | rr | sla | sra | srl
  deriving DecidableEq, Repr

namespace RotateOp

/-- All rotations and shifts. -/
def all : List RotateOp := [rlc, rrc, rl, rr, sla, sra, srl]

/-- The mnemonic of a rotation. -/
def name : RotateOp → String
  | rlc => "RLC" | rrc => "RRC" | rl => "RL" | rr => "RR" | sla => "SLA" | sra => "SRA"
  | srl => "SRL"

/-- The three-bit operation field. -/
def code : RotateOp → UInt8
  | rlc => 0 | rrc => 1 | rl => 2 | rr => 3 | sla => 4 | sra => 5 | srl => 7

end RotateOp

/-- Tests and changes of a single bit. -/
inductive BitOp where
  | bit | res | set
  deriving DecidableEq, Repr

namespace BitOp

/-- All operations on a bit. -/
def all : List BitOp := [bit, res, set]

/-- The mnemonic of a bit operation. -/
def name : BitOp → String
  | bit => "BIT" | res => "RES" | set => "SET"

/-- The two leading bits of the opcode. -/
def code : BitOp → UInt8
  | bit => 1 | res => 2 | set => 3

end BitOp

/-- The interrupt modes. -/
inductive InterruptMode where
  | zero | one | two
  deriving DecidableEq, Repr

namespace InterruptMode

/-- All interrupt modes. -/
def all : List InterruptMode := [zero, one, two]

/-- The number of a mode. -/
def number : InterruptMode → Nat
  | zero => 0 | one => 1 | two => 2

/-- The fused mnemonic of a mode. -/
def name : InterruptMode → String
  | zero => "IM0" | one => "IM1" | two => "IM2"

/-- The byte that follows the extended page. -/
def code : InterruptMode → UInt8
  | zero => 0x46 | one => 0x56 | two => 0x5E

/-- The mode of a number. -/
def ofNumber? (v : Int) : Option InterruptMode :=
  all.find? fun mode => (mode.number : Int) == v

end InterruptMode

/-- The addresses that a restart can call. -/
def restartTargets : List Nat := [0x00, 0x08, 0x10, 0x18, 0x20, 0x28, 0x30, 0x38]

/-- Instructions without operands. -/
inductive ImpliedOp where
  | nop | halt | di | ei | exx
  | daa | cpl | neg | ccf | scf
  | rlca | rla | rrca | rra | rld | rrd
  | ldi | ldir | ldd | lddr | cpi | cpir | cpd | cpdr
  | ini | inir | ind | indr | outi | otir | outd | otdr
  | reti | retn
  deriving DecidableEq, Repr

namespace ImpliedOp

/-- All instructions without operands. -/
def all : List ImpliedOp :=
  [nop, halt, di, ei, exx, daa, cpl, neg, ccf, scf, rlca, rla, rrca, rra, rld, rrd,
   ldi, ldir, ldd, lddr, cpi, cpir, cpd, cpdr, ini, inir, ind, indr, outi, otir, outd, otdr,
   reti, retn]

/-- The mnemonic of an instruction without operands. -/
def name : ImpliedOp → String
  | nop => "NOP" | halt => "HALT" | di => "DI" | ei => "EI" | exx => "EXX"
  | daa => "DAA" | cpl => "CPL" | neg => "NEG" | ccf => "CCF" | scf => "SCF"
  | rlca => "RLCA" | rla => "RLA" | rrca => "RRCA" | rra => "RRA" | rld => "RLD" | rrd => "RRD"
  | ldi => "LDI" | ldir => "LDIR" | ldd => "LDD" | lddr => "LDDR"
  | cpi => "CPI" | cpir => "CPIR" | cpd => "CPD" | cpdr => "CPDR"
  | ini => "INI" | inir => "INIR" | ind => "IND" | indr => "INDR"
  | outi => "OUTI" | otir => "OTIR" | outd => "OUTD" | otdr => "OTDR"
  | reti => "RETI" | retn => "RETN"

/-- The bytes of an instruction without operands. -/
def code : ImpliedOp → List UInt8
  | nop => [0x00] | halt => [0x76] | di => [0xF3] | ei => [0xFB] | exx => [0xD9]
  | daa => [0x27] | cpl => [0x2F] | neg => [0xED, 0x44] | ccf => [0x3F] | scf => [0x37]
  | rlca => [0x07] | rla => [0x17] | rrca => [0x0F] | rra => [0x1F]
  | rld => [0xED, 0x6F] | rrd => [0xED, 0x67]
  | ldi => [0xED, 0xA0] | ldir => [0xED, 0xB0] | ldd => [0xED, 0xA8] | lddr => [0xED, 0xB8]
  | cpi => [0xED, 0xA1] | cpir => [0xED, 0xB1] | cpd => [0xED, 0xA9] | cpdr => [0xED, 0xB9]
  | ini => [0xED, 0xA2] | inir => [0xED, 0xB2] | ind => [0xED, 0xAA] | indr => [0xED, 0xBA]
  | outi => [0xED, 0xA3] | otir => [0xED, 0xB3] | outd => [0xED, 0xAB] | otdr => [0xED, 0xBB]
  | reti => [0xED, 0x4D] | retn => [0xED, 0x45]

end ImpliedOp

/-- Instructions that a condition can be fused to. -/
inductive Branch where
  | jp | call | ret | jr
  deriving DecidableEq, Repr

namespace Branch

/-- All instructions that a condition can be fused to. -/
def all : List Branch := [jp, call, ret, jr]

/-- The mnemonic without its condition. -/
def name : Branch → String
  | jp => "JP" | call => "CALL" | ret => "RET" | jr => "JR"

/-- The conditions that can be fused; a relative jump knows only four. -/
def conditions : Branch → List Condition
  | jr => [.nz, .z, .nc, .c]
  | _ => Condition.all

end Branch

/-- The mnemonics. -/
inductive Mnemonic where
  | ld | push | pop | ex | inc | dec
  | jp | jr | djnz | call | ret | rst
  | im | input | output
  | alu (op : AluOp)
  | rotate (op : RotateOp)
  | bit (op : BitOp)
  | implied (op : ImpliedOp)
  | fused (branch : Branch) (condition : Condition)
  | fusedMode (mode : InterruptMode)
  deriving DecidableEq, Repr

namespace Mnemonic

/-- The name of a mnemonic. -/
def name : Mnemonic → String
  | ld => "LD" | push => "PUSH" | pop => "POP" | ex => "EX" | inc => "INC" | dec => "DEC"
  | jp => "JP" | jr => "JR" | djnz => "DJNZ" | call => "CALL" | ret => "RET" | rst => "RST"
  | im => "IM" | input => "IN" | output => "OUT"
  | alu op => op.name
  | rotate op => op.name
  | bit op => op.name
  | implied op => op.name
  | fused branch condition => branch.name ++ condition.name
  | fusedMode mode => mode.name

/-- The mnemonics with families of their own. -/
def single : List Mnemonic :=
  [ld, push, pop, ex, inc, dec, jp, jr, djnz, call, ret, rst, im, input, output]

/-- The mnemonics whose encoding depends on operands, fused spellings apart. -/
def withOperands : List Mnemonic :=
  single ++ AluOp.all.map alu ++ RotateOp.all.map rotate ++ BitOp.all.map bit

/-- The fused conditional spellings. -/
def allFused : List Mnemonic :=
  Branch.all.flatMap fun branch => branch.conditions.map (fused branch)

/-- All mnemonics. -/
def all : List Mnemonic :=
  withOperands ++ ImpliedOp.all.map implied ++ allFused ++ InterruptMode.all.map fusedMode

/-- The jumps whose operand is an offset. -/
def relativeJumps : List Mnemonic := [jr, djnz]

/-- The mnemonic of a name. -/
def ofName? : String → Option Mnemonic := memberNamed all name

end Mnemonic

namespace Branch

/-- The plain mnemonic of a branch. -/
def mnemonic : Branch → Mnemonic
  | jp => .jp | call => .call | ret => .ret | jr => .jr

end Branch

/-- The directives that are known by name only. -/
inductive Directive where
  | includeSource | includeBinary | defineBytes | defineWords | constant
  | beginTemplate | endTemplate | endOfSource
  deriving DecidableEq, Repr

namespace Directive

/-- All directives that are known by name only. -/
def all : List Directive :=
  [includeSource, includeBinary, defineBytes, defineWords, constant, beginTemplate, endTemplate,
   endOfSource]

/-- The name of a directive. -/
def name : Directive → String
  | includeSource => "INCLUDE" | includeBinary => "INCBIN"
  | defineBytes => "DB" | defineWords => "DW" | constant => "CONST"
  | beginTemplate => "MACRO" | endTemplate => "ENDM" | endOfSource => "END"

end Directive

/-- The keywords: setting the address counter, choosing the processor, and the directives that are
known by name only. -/
inductive Keyword where
  | origin
  | processor (cpu : Cpu)
  | unimplemented (directive : Directive)
  deriving DecidableEq, Repr

namespace Keyword

/-- All keywords. -/
def all : List Keyword :=
  [origin] ++ Cpu.all.map processor ++ Directive.all.map unimplemented

/-- The name of a keyword. -/
def name : Keyword → String
  | origin => "ORG"
  | processor cpu => cpu.name
  | unimplemented directive => directive.name

/-- The keyword of a name. -/
def ofName? : String → Option Keyword := memberNamed all name

end Keyword

end CrossAssembler
