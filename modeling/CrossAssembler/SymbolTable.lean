import CrossAssembler.Fault
import CrossAssembler.Text.EditDistance

/-!
# Symbol tables

A symbol table holds the labels of a run in the order in which they were first met. The first
definition of a name stays; a later one is left out by `define` and reported by `verify?`.

A name is `none` for a label that was built without a text; no reference can reach it, and it
cannot be compared with a name that is not defined.
-/

namespace CrossAssembler

/-- A label with its address and the place of its definition. -/
structure Symbol where
  name : Option String
  value : Int
  location : Location
  deriving DecidableEq, Repr

/-- The labels of a run, in order of definition. -/
structure SymbolTable where
  symbols : List Symbol := []
  deriving DecidableEq, Repr

namespace SymbolTable

/-- The symbol of a name. -/
def find? (t : SymbolTable) (name : Option String) : Option Symbol :=
  t.symbols.find? fun s => s.name == name

/-- A name is defined. -/
def contains (t : SymbolTable) (name : Option String) : Bool :=
  (t.find? name).isSome

/-- The number of symbols. -/
def size (t : SymbolTable) : Nat :=
  t.symbols.length

/-- The table with a name bound to a value, unless the name is bound already. -/
def define (t : SymbolTable) (name : Option String) (value : Int) (location : Location) :
    SymbolTable :=
  if t.contains name then t else ⟨t.symbols ++ [⟨name, value, location⟩]⟩

/-- The report on a definition that is not the one that bound the name. -/
def verify? (t : SymbolTable) (name : Option String) (location : Location) : Option Diagnostic :=
  match t.find? name with
  | some s =>
    if s.location = location then none
    else some (.placed location (.duplicateSymbol (name.getD "None") (some s.location)))
  | none => none

/-- A name that could have been meant by another: about as long, and at most two edits away. -/
def isSimilar (name other : String) : Bool :=
  other.length ≤ name.length + 1 && name.length ≤ other.length + 1 &&
    Text.editDistance name other ≤ 2

/-- The first three names that could have been meant. -/
def similar (t : SymbolTable) (name : String) : List String :=
  ((t.symbols.filterMap Symbol.name).filter (isSimilar name)).take 3

/-- The value of a name, if it is defined. -/
def value? (t : SymbolTable) (name : String) : Option Int :=
  (t.find? (some name)).map Symbol.value

/-- The value of a name, zero if it is not defined. -/
def valueOrZero (t : SymbolTable) (name : String) : Int :=
  (t.value? name).getD 0

/-- The report on a name that is not defined. -/
def undefined (t : SymbolTable) (name : String) (location : Option Location) : Diagnostic :=
  ⟨.undefinedSymbol name (t.similar name), location⟩

/-- The value of a name, or the report that it is not defined, which needs the names of all
labels. -/
def lookup (t : SymbolTable) (name : String) (location : Option Location) : Except Failure Int :=
  match t.value? name with
  | some value => .ok value
  | none =>
    if t.contains none then .error (.fault .namelessLabel)
    else .error (.problem (t.undefined name location))

/-- The names and their values, in order of definition. -/
def bindings (t : SymbolTable) : List (Option String × Int) :=
  t.symbols.map fun s => (s.name, s.value)

end SymbolTable

end CrossAssembler
