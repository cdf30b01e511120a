import CrossAssembler.Item

/-!
# Lines of a program

Separators cut the items of a program into lines. A line is some labels and a statement: the
statement starts with the first item that is no label and takes the rest of the line, whatever it
holds.
-/

namespace CrossAssembler

/-- The labels of a line and the statement behind them, which may be empty. -/
structure Line where
  labels : List Item
  statement : List Item
  deriving DecidableEq, Repr

namespace Line

/-- The rows of items between separators. -/
def rows : List Item → List (List Item)
  | [] => [[]]
  | i :: rest =>
    if i.kind = .separator then [] :: rows rest
    else match rows rest with
      | [] => [[i]]
      | row :: more => (i :: row) :: more

/-- A row of items as a line. -/
def ofRow (row : List Item) : Line :=
  { labels := row.takeWhile fun i => i.kind == .label,
    statement := row.dropWhile fun i => i.kind == .label }

/-- The lines of a program. -/
def ofItems (items : List Item) : List Line :=
  (rows items).map ofRow

end Line

end CrossAssembler
