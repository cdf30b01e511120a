import CrossAssembler.Fault
import CrossAssembler.Location
import CrossAssembler.Processor.Register
import CrossAssembler.Text.Hex

/-!
# Items

An item is a classified element of the source: a label, a mnemonic, an operand with its addressing
form, a comma, the end of a line. Numbers carry their two bytes and whether they fit into one byte
or two, indexed operands the byte of their index register; both are computed when the item is
made. `render` writes an item the way it stands in a source.
-/

namespace CrossAssembler

/-- What an item is. -/
inductive ItemKind where
  | label
  | keyword
  | mnemonic
  /-- The end of a line that is not blank. -/
  | separator
  | register8
  | registerI
  | registerR
  | register16
  | condition
  /-- A register pair between brackets. -/
  | indirectRegister16
  /-- An index register with a displacement between brackets. -/
  | indirectIndexed
  /-- The port that register C holds. -/
  | indirectC
  /-- An address between brackets, a number or a label. -/
  | indirectImmediate
  | number
  | comma
  /-- A name without a meaning of its own. -/
  | name
  | string
  /-- The place of something that was reported and left out. -/
  | invalid
  deriving DecidableEq, Repr

namespace ItemKind

/-- All kinds of items. -/
def all : List ItemKind :=
  [label, keyword, mnemonic, separator, register8, registerI, registerR, register16, condition,
   indirectRegister16, indirectIndexed, indirectC, indirectImmediate, number, comma, name, string,
   invalid]

/-- The title of a kind in a listing. -/
def title : ItemKind → String
  | label => "LABEL"
  | keyword => "KEYWORD"
  | mnemonic => "MNEMONIC"
  | separator => "SEPARATOR"
  | register8 => "REGISTER8"
  | registerI => "REGISTER_I"
  | registerR => "REGISTER_R"
  | register16 => "REGISTER16"
  | condition => "CONDITION"
  | indirectRegister16 => "INDIRECT_REGISTER16"
  | indirectIndexed => "INDIRECT_INDEXED"
  | indirectC => "INDIRECT_C"
  | indirectImmediate => "INDIRECT_IMMEDIATE"
  | number => "NUMBER"
  | comma => "COMMA"
  | name => "NAME"
  | string => "STRING"
  | invalid => "INVALID"

/-- The kind of a title. -/
def ofTitle? : String → Option ItemKind := memberNamed all title

/-- The kinds that an operand can have. -/
def isOperand : ItemKind → Bool
  | register8 | registerI | registerR | register16 | condition | indirectRegister16
  | indirectIndexed | indirectC | indirectImmediate | number | name | string => true
  | _ => false

end ItemKind

/-- The low byte of an integer, as a number from 0 to 255. -/
def lowPart (v : Int) : Int := v % 256

/-- The second byte of an integer, as a number from 0 to 255. -/
def highPart (v : Int) : Int := v / 256 % 256

/-- A classified element of the source. -/
structure Item where
  kind : ItemKind
  location : Location
  /-- The name, the contents of a string, or the label of an address between brackets. -/
  text : Option String := none
  /-- The number, the address between brackets or the displacement. -/
  value : Int := 0
  /-- The byte of the index register. -/
  indexByte : Option Int := none
  /-- The low byte of the value. -/
  low : Int := 0
  /-- The high byte of the value. -/
  high : Int := 0
  /-- The value is a byte. -/
  fits8 : Bool := false
  /-- The value is a word. -/
  fits16 : Bool := false
  deriving DecidableEq, Repr

namespace Item

/-- A number, or an address between brackets, with its two bytes. -/
def ofNumber (value : Int) (location : Location) (kind : ItemKind := .number) : Item :=
  { kind := kind, location := location, value := value,
    low := lowPart value, high := highPart value,
    fits8 := decide (0 ≤ value ∧ value ≤ 0xFF),
    fits16 := decide (0 ≤ value ∧ value ≤ 0xFFFF) }

/-- An index register with a displacement between brackets. -/
def ofIndex (register : IndexRegister) (displacement : Int) (location : Location) : Item :=
  { kind := .indirectIndexed, location := location, text := some register.name,
    value := displacement, indexByte := some (register.code.toNat : Int),
    low := lowPart displacement }

/-- An index register, given by name, with a displacement between brackets. -/
def indexed (register : String) (displacement : Int) (location : Location) : Except Fault Item :=
  match IndexRegister.ofName? register with
  | some r => .ok (ofIndex r displacement location)
  | none => .error (.unknownName register)

/-- An item with a name. -/
def named (kind : ItemKind) (name : String) (location : Location) : Item :=
  { kind := kind, location := location, text := some name }

/-- The text of an item, or the word for a text that is missing. -/
def shownText (i : Item) : String :=
  i.text.getD "None"

/-- An item as it stands in a source. -/
def render (i : Item) : String :=
  match i.kind with
  | .label => i.shownText ++ ":"
  | .number => "$" ++ Hex.plain i.value
  | .comma => ","
  | .string => "\"" ++ i.shownText ++ "\""
  | .separator => "end of line"
  | .invalid => "invalid item"
  | .indirectRegister16 => "(" ++ i.shownText ++ ")"
  | .indirectC => "(C)"
  | .indirectIndexed =>
    let sign := if i.value < 0 then "-" else "+"
    "(" ++ i.shownText ++ sign ++ "$" ++ Hex.plain i.value.natAbs ++ ")"
  | .indirectImmediate =>
    match i.text with
    | some name => "(" ++ name ++ ")"
    | none => "(" ++ Hex.address i.value ++ ")"
  | _ => i.shownText

/-- Items as the operands of a statement. -/
def renderOperands (items : List Item) : String :=
  ",".intercalate (items.map render)

end Item

end CrossAssembler
