import CrossAssembler.Item
import CrossAssembler.Processor.Mnemonic

/-!
# Operands

An operand is what an item means to an instruction: a register, a condition, an address form, a
value. Reading an item as an operand never fails. A register, pair or condition whose name no table
holds is kept with its name (`Named`); items made from a source text never have such names, and an
instruction that needs the code of one stops the run.
-/

namespace CrossAssembler

/-- A member of a family that was looked up by name, or the name that the family does not have. -/
abbrev Named (α : Type) := Except (Option String) α

/-- The result of looking up the name of an item. -/
def Named.ofText {α : Type} (ofName? : String → Option α) (text : Option String) : Named α :=
  match text.bind ofName? with
  | some a => .ok a
  | none => .error text

/-- What a value is given by. -/
inductive Meaning where
  | literal (value : Int)
  | symbol (name : String)
  deriving DecidableEq, Repr

/-- A value in an operand, and its place. -/
structure Term where
  meaning : Meaning
  location : Location
  deriving DecidableEq, Repr

namespace Term

/-- The value of a number. -/
def ofNumber (i : Item) : Term := ⟨.literal i.value, i.location⟩

/-- The value of an item that may refer to a label: without a text it is a number. -/
def ofReference (i : Item) : Term :=
  match i.text with
  | some name => ⟨.symbol name, i.location⟩
  | none => ofNumber i

end Term

/-- What an item means as an operand. -/
inductive Operand where
  | register (r : Named Register8)
  | special (register : SpecialRegister)
  | pair (p : Named Pair)
  | condition (c : Named Condition)
  /-- The memory that a pair points to. -/
  | atPair (p : Pair)
  /-- The memory at a displacement from an index register, by its two bytes. -/
  | atIndex (index : Option Int) (displacement : Int)
  /-- The port that register C holds. -/
  | portC
  /-- The memory or port at an address. -/
  | direct (t : Term)
  | immediate (t : Term)
  /-- An operand that no instruction takes. -/
  | other
  deriving Repr

namespace Operand

/-- An item as an operand. -/
def ofItem (i : Item) : Operand :=
  match i.kind with
  | .register8 => register (.ofText Register8.ofName? i.text)
  | .registerI => special .i
  | .registerR => special .r
  | .register16 => pair (.ofText Pair.ofName? i.text)
  | .condition =>
    match i.text with
    | some _ => condition (.ofText Condition.ofName? i.text)
    | none => other
  | .indirectRegister16 =>
    match i.text.bind Pair.ofName? with
    | some p => atPair p
    | none => other
  | .indirectIndexed => atIndex i.indexByte i.low
  | .indirectC => portC
  | .indirectImmediate => direct (.ofReference i)
  | .number => immediate (.ofNumber i)
  | .name => immediate (.ofReference i)
  | _ => other

/-- The condition that an operand states; register C states the carry. -/
def condition? : Operand → Option (Named Condition)
  | condition c => some c
  | register (.ok .c) => some (.ok .c)
  | _ => none

end Operand

end CrossAssembler
