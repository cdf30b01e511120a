import CrossAssembler.Location
import CrossAssembler.Text.Hex

/-!
# Diagnostics

A diagnostic is a problem found in a source text, with the place where it was found. Problems are
kept as causes; `Problem.message` and `Problem.hint` word them, and `Problem.category` sorts them
into the families that a reader of the report tells apart.

Diagnostics never stop a run: they are collected, and `Diagnostic.report` shows all of them.
-/

namespace CrossAssembler

/-- The families of diagnostics. -/
inductive Category where
  /-- A failure of the run as a whole. -/
  | general
  /-- A character that starts nothing, or a malformed literal. -/
  | lexical
  /-- Tokens or items out of place. -/
  | grammar
  /-- Operands that no form of the instruction takes. -/
  | addressingMode
  /-- A register where only the accumulator is legal. -/
  | registerRestriction
  /-- A value outside the range that its position allows. -/
  | valueRange
  /-- A reference to a label that is defined nowhere. -/
  | undefinedSymbol
  /-- A label defined again. -/
  | duplicateSymbol
  /-- A directive that is misused or not implemented. -/
  | directive
  /-- An instruction for a processor without an encoder. -/
  | unsupportedCpu
  deriving DecidableEq, Repr

/-- What went wrong. Where a constructor has a `found` field, it is the offending token or item as
text. -/
inductive Problem where
  /-- A problem in the caller's own words. -/
  | stated (category : Category) (message : String) (hint : Option String)
  | unexpectedCharacter (found : String)
  | malformedLiteral (message : String)
  | noNumberAfterMark (found : String)
  | unhandledToken (found : String)
  | noIndirection (found : Option String)
  | unclosedIndirection (found : String)
  | noDisplacement (register sign found : String)
  | unknownMnemonic (name : String)
  | misplacedStart (found : String)
  | trailingItem (found statement : String)
  | noComma (found : String)
  | noOperandAfterComma
  | misplacedOperand (found mnemonic : String)
  | originWithoutNumber
  | unimplementedDirective (name : String)
  | noEncoder (mnemonic cpu : String)
  | addressingMode (mnemonic operands : String) (hint : Option String)
  | registerRestriction (mnemonic operands operand : String)
  | valueRange (value : Int) (what : String) (hint : Option String)
  | undefinedSymbol (symbol : String) (similar : List String)
  | duplicateSymbol (symbol : String) (first : Option Location)
  deriving DecidableEq, Repr

namespace Problem

/-- The family of a problem. -/
def category : Problem → Category
  | stated category _ _ => category
  | unexpectedCharacter _ | malformedLiteral _ => .lexical
  | noNumberAfterMark _ | unhandledToken _ | noIndirection _ | unclosedIndirection _
  | noDisplacement _ _ _ | unknownMnemonic _ | misplacedStart _ | trailingItem _ _ | noComma _
  | noOperandAfterComma | misplacedOperand _ _ => .grammar
  | originWithoutNumber | unimplementedDirective _ => .directive
  | noEncoder _ _ => .unsupportedCpu
  | addressingMode _ _ _ => .addressingMode
  | registerRestriction _ _ _ => .registerRestriction
  | valueRange _ _ _ => .valueRange
  | undefinedSymbol _ _ => .undefinedSymbol
  | duplicateSymbol _ _ => .duplicateSymbol

/-- A value in a range message: the sign stands in front of the dollar. -/
def signedValue (v : Int) : String :=
  if v < 0 then "-$" ++ Hex.plain (-v) else "$" ++ Hex.plain v

/-- The message for operands that do not fit a mnemonic. -/
def operandsMessage (mnemonic operands : String) : String :=
  if operands = "" then s!"{mnemonic} requires operands"
  else s!"invalid operands for {mnemonic}: {operands}"

/-- The description of a problem, without its place and hint. -/
def message : Problem → String
  | stated _ message _ => message
  | unexpectedCharacter found => s!"unexpected character '{found}'"
  | malformedLiteral message => message
  | noNumberAfterMark found => s!"expected number after '#', got {found}"
  | unhandledToken found => s!"unhandled token: {found}"
  | noIndirection none => "expected indirection register"
  | noIndirection (some found) => s!"expected indirection register, got {found}"
  | unclosedIndirection found => s!"expected ')', got {found}"
  | noDisplacement register sign found =>
    s!"expected displacement in ({register}{sign}d), got {found}"
  | unknownMnemonic name => s!"unknown mnemonic '{name}'"
  | misplacedStart found => s!"unexpected {found} at start of statement"
  | trailingItem found statement => s!"unexpected {found} after {statement}"
  | noComma found => s!"expected ',' between operands, got {found}"
  | noOperandAfterComma => "expected operand after ','"
  | misplacedOperand found mnemonic => s!"unexpected {found} in operands of {mnemonic}"
  | originWithoutNumber => "ORG requires a numeric address"
  | unimplementedDirective name => s!"{name} directive is not implemented"
  | noEncoder mnemonic cpu => s!"cannot encode {mnemonic}: no instruction encoder for {cpu}"
  | addressingMode mnemonic operands _ => operandsMessage mnemonic operands
  | registerRestriction mnemonic operands _ => operandsMessage mnemonic operands
  | valueRange value what _ => s!"{what} {signedValue value} out of range"
  | undefinedSymbol symbol _ => s!"undefined symbol '{symbol}'"
  | duplicateSymbol symbol _ => s!"duplicate symbol '{symbol}'"

/-- At most three names proposed in place of an undefined one. -/
def proposal : List String → Option String
  | [] => none
  | similar =>
    let names := ", ".intercalate ((similar.take 3).map fun name => s!"'{name}'")
    some s!"did you mean {names}?"

/-- Advice on how to mend a problem. -/
def hint : Problem → Option String
  | stated _ _ hint => hint
  | addressingMode _ _ hint => hint
  | registerRestriction _ _ operand => some s!"only A may be used with {operand}"
  | valueRange _ _ hint => hint
  | undefinedSymbol _ similar => proposal similar
  | duplicateSymbol symbol (some first) =>
    some s!"'{symbol}' was first defined at {first.text}"
  | _ => none

end Problem

/-- A problem and the place where it was found, if there is one. -/
structure Diagnostic where
  problem : Problem
  location : Option Location
  deriving DecidableEq, Repr

namespace Diagnostic

/-- A problem at a known place. -/
def placed (location : Location) (problem : Problem) : Diagnostic :=
  ⟨problem, some location⟩

/-- The family of a diagnostic. -/
def category (d : Diagnostic) : Category := d.problem.category

/-- The line of a diagnostic, zero if its place is not known. -/
def line (d : Diagnostic) : Int :=
  match d.location with
  | some l => l.line
  | none => 0

/-- A diagnostic in full: place, message and, on a line of its own, a hint that is not empty. -/
def text (d : Diagnostic) : String :=
  let place := match d.location with
    | some l => s!"{l.text}: "
    | none => ""
  let advice := match d.problem.hint with
    | some hint => if hint = "" then "" else s!"\nhint: {hint}"
    | none => ""
  s!"{place}error: {d.problem.message}{advice}"

/-- The closing line of a report. -/
def tally (count : Nat) : String :=
  if count = 1 then "1 error" else s!"{count} errors"

/-- One block for each error and a closing line. -/
def reportBlocks (blocks : List String) : String :=
  "\n".intercalate (blocks ++ [tally blocks.length])

/-- All diagnostics, in order, and their number. -/
def report (ds : List Diagnostic) : String :=
  reportBlocks (ds.map text)

end Diagnostic

end CrossAssembler
