/-!
# Places in a source text

A place is a file name, a line and a column. Columns count characters from one; a column that is
not positive is unknown and is left out of the text. `advance` moves a place over a character:
only the line feed starts a new line.
-/

namespace CrossAssembler

/-- A place in a source text. -/
structure Location where
  /-- Name of the source, as shown in messages. -/
  file : String
  /-- Line number. -/
  line : Int
  /-- Column number, from one; unknown if not positive. -/
  column : Int
  deriving DecidableEq, Repr

namespace Location

/-- The place as it is written in front of a message. -/
def text (l : Location) : String :=
  if 0 < l.column then s!"{l.file}:{l.line}:{l.column}" else s!"{l.file}:{l.line}"

/-- The place behind a character that stands at `l`. -/
def advance (l : Location) (c : Char) : Location :=
  if c = '\n' then { l with line := l.line + 1, column := 1 }
  else { l with column := l.column + 1 }

/-- The place behind a row of characters that starts at `l`. -/
def advanceOver (l : Location) (cs : List Char) : Location :=
  cs.foldl advance l

@[simp] theorem advanceOver_nil (l : Location) : l.advanceOver [] = l := rfl

@[simp] theorem advanceOver_cons (l : Location) (c : Char) (cs : List Char) :
    l.advanceOver (c :: cs) = (l.advance c).advanceOver cs := rfl

theorem advanceOver_append (l : Location) (cs ds : List Char) :
    l.advanceOver (cs ++ ds) = (l.advanceOver cs).advanceOver ds := by
  simp [advanceOver]

end Location

end CrossAssembler
