/-!
# Registers and conditions

The names that operands are made of, with the field codes that opcodes are packed from. An 8-bit
register field is three bits wide and its value 6 stands for the memory operand, so that no plain
register has that code. Pairs have two-bit codes of two kinds: one with the stack pointer, and one
for the stack itself with the accumulator and flags in its place. The index registers have no
code; they are told apart by a byte in front of the opcode for HL.

Every family lists its members in `all` and is read from text by `ofName?`.
-/

namespace CrossAssembler

/-- The member of a family that bears a name. -/
def memberNamed {α : Type} (all : List α) (name : α → String) (s : String) : Option α :=
  all.find? fun a => name a == s

/-- The processors that a source can be written for. -/
inductive Cpu where
  | z80
  | m6502
  deriving DecidableEq, Repr

namespace Cpu

/-- All processors. -/
def all : List Cpu := [z80, m6502]

/-- The name of a processor, also its keyword. -/
def name : Cpu → String
  | z80 => "Z80"
  | m6502 => "M6502"

/-- The processor of a name. -/
def ofName? : String → Option Cpu := memberNamed all name

end Cpu

/-- The 8-bit registers with a field code. -/
inductive Register8 where
  | b | c | d | e | h | l | a
  deriving DecidableEq, Repr

namespace Register8

/-- All 8-bit registers with a field code. -/
def all : List Register8 := [b, c, d, e, h, l, a]

/-- The name of a register. -/
def name : Register8 → String
  | b => "B" | c => "C" | d => "D" | e => "E" | h => "H" | l => "L" | a => "A"

/-- The three-bit field of a register. -/
def code : Register8 → UInt8
  | b => 0 | c => 1 | d => 2 | e => 3 | h => 4 | l => 5 | a => 7

/-- The register of a name. -/
def ofName? : String → Option Register8 := memberNamed all name

end Register8

/-- The register field that selects the operand in memory. -/
def memoryField : UInt8 := 6

/-- The interrupt and refresh registers, which only the accumulator exchanges values with. -/
inductive SpecialRegister where
  | i | r
  deriving DecidableEq, Repr

namespace SpecialRegister

/-- Both special registers. -/
def all : List SpecialRegister := [i, r]

/-- The name of a special register. -/
def name : SpecialRegister → String
  | i => "I" | r => "R"

/-- The special register of a name. -/
def ofName? : String → Option SpecialRegister := memberNamed all name

end SpecialRegister

/-- The index registers. -/
inductive IndexRegister where
  | ix | iy
  deriving DecidableEq, Repr

namespace IndexRegister

/-- Both index registers. -/
def all : List IndexRegister := [ix, iy]

/-- The name of an index register. -/
def name : IndexRegister → String
  | ix => "IX" | iy => "IY"

/-- The byte that turns an opcode for HL into one for the index register. -/
def code : IndexRegister → UInt8
  | ix => 0xDD | iy => 0xFD

/-- The index register of a name. -/
def ofName? : String → Option IndexRegister := memberNamed all name

end IndexRegister

/-- The byte in front of rotate, shift and bit opcodes. -/
def bitPage : UInt8 := 0xCB

/-- The byte in front of the extended opcodes. -/
def extendedPage : UInt8 := 0xED

/-- The 16-bit registers. -/
inductive Pair where
  | bc | de | hl | sp | af | afShadow
  | index (register : IndexRegister)
  deriving DecidableEq, Repr

namespace Pair

/-- All 16-bit registers. -/
def all : List Pair := [bc, de, hl, sp, af, afShadow, index .ix, index .iy]

/-- The name of a pair. -/
def name : Pair → String
  | bc => "BC" | de => "DE" | hl => "HL" | sp => "SP" | af => "AF" | afShadow => "AF'"
  | index register => register.name

/-- The two-bit field of a pair in loads and arithmetic. -/
def code? : Pair → Option UInt8
  | bc => some 0 | de => some 1 | hl => some 2 | sp => some 3
  | _ => none

/-- The two-bit field of a pair on the stack. -/
def stackCode? : Pair → Option UInt8
  | bc => some 0 | de => some 1 | hl => some 2 | af => some 3
  | _ => none

/-- The pairs that may stand alone between brackets; the index registers may too, but take a
displacement. -/
def isBracketed : Pair → Bool
  | bc | de | hl | sp => true
  | _ => false

/-- The pair of a name. -/
def ofName? : String → Option Pair := memberNamed all name

end Pair

/-- The conditions of jumps, calls and returns. -/
inductive Condition where
  | nz | z | nc | c | po | pe | p | m
  deriving DecidableEq, Repr

namespace Condition

/-- All conditions. -/
def all : List Condition := [nz, z, nc, c, po, pe, p, m]

/-- The name of a condition. -/
def name : Condition → String
  | nz => "NZ" | z => "Z" | nc => "NC" | c => "C" | po => "PO" | pe => "PE" | p => "P" | m => "M"

/-- The three-bit field of a condition. -/
def code : Condition → UInt8
  | nz => 0 | z => 1 | nc => 2 | c => 3 | po => 4 | pe => 5 | p => 6 | m => 7

/-- The opcode of the relative jump under a condition; only the zero and carry conditions have
one. -/
def relativeOpcode? : Condition → Option UInt8
  | nz => some 0x20 | z => some 0x28 | nc => some 0x30 | c => some 0x38
  | _ => none

/-- The condition of a name. -/
def ofName? : String → Option Condition := memberNamed all name

end Condition

end CrossAssembler
