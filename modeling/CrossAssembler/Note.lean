import CrossAssembler.Text.Hex

/-!
# Notes on a run

A run leaves notes on its progress. They are of interest only to a user who asks for details, apart
from the warning that the address counter has wrapped.
-/

namespace CrossAssembler

/-- A note on the progress of a run. -/
inductive Note where
  | assembling (path : String)
  | tokenized (file : String) (tokens : Nat)
  | parsed (items tokens errors : Nat)
  | surveyed (symbols : Nat)
  /-- A line has set the address counter. -/
  | moved (line address : Int)
  /-- A line has run past the end of the address space. -/
  | wrapped (line : Int)
  | generated (ranges errors : Nat)
  | opened (base : Int)
  | finished (file : String) (bytes regions : Nat)
  deriving DecidableEq, Repr

namespace Note

/-- A note that is shown even if no details are asked for. -/
def isWarning : Note → Bool
  | wrapped _ => true
  | _ => false

/-- The part of the program that leaves a note. -/
def channel : Note → String
  | assembling _ | tokenized _ _ | finished _ _ _ => "z80asm.assembler.assembler"
  | parsed _ _ _ => "z80asm.assembler.parser"
  | surveyed _ | moved _ _ | wrapped _ | generated _ _ => "z80asm.assembler.encoder"
  | opened _ => "z80asm.assembler.bundler"

/-- The wording of a note. -/
def text : Note → String
  | assembling path => s!"Assembling {path}"
  | tokenized file tokens => s!"{file}: {tokens} tokens"
  | parsed items tokens errors => s!"Parsed {items} items from {tokens} tokens ({errors} errors)"
  | surveyed symbols => s!"Pass 1 complete: {symbols} symbols bound"
  | moved line address => s!"line {line}: ORG {Hex.address address}"
  | wrapped line => s!"line {line}: address counter wrapped past $FFFF"
  | generated ranges errors => s!"Pass 2 complete: {ranges} ranges, {errors} errors"
  | opened base => s!"New region at {Hex.address base}"
  | finished file bytes regions => s!"{file}: {bytes} bytes in {regions} regions"

end Note

end CrossAssembler
