import CrossAssembler.Item
import CrossAssembler.Processor.Mnemonic

/-!
# Meaning of names

A name is a keyword, a mnemonic, a register or a condition if one of those tables holds it, and a
label otherwise. The letter C is a register and the carry condition; it is classed as the register,
and where a condition is expected the register is read as the condition.
-/

namespace CrossAssembler.ItemKind

/-- The kind of a name that no colon follows. -/
def ofName (s : String) : ItemKind :=
  if (Keyword.ofName? s).isSome then .keyword
  else if (Mnemonic.ofName? s).isSome then .mnemonic
  else if (Register8.ofName? s).isSome then .register8
  else match SpecialRegister.ofName? s with
    | some .i => .registerI
    | some .r => .registerR
    | none =>
      if (Pair.ofName? s).isSome then .register16
      else if (Condition.ofName? s).isSome then .condition
      else .name

end CrossAssembler.ItemKind
