/-!
# Edit distance

The distance of two texts is the least number of characters that have to be inserted, deleted or
replaced to turn one into the other. It is computed row by row: the row of a text `a` over `b`
holds the distances from `a` to every beginning of `b`, shortest first.
-/

namespace CrossAssembler.Text

/-- The rest of a row, from the row above it. `diagonal` is the entry above and to the left of the
next one, `left` the entry before it. -/
def rowTail (c : Char) (diagonal left : Nat) : List Char → List Nat → List Nat
  | b :: bs, above :: row =>
    let entry := if c = b then diagonal else 1 + min diagonal (min above left)
    entry :: rowTail c above entry bs row
  | _, _ => []

/-- The row of a text with one more character `c` at its end. -/
def nextRow (b : List Char) (row : List Nat) (c : Char) : List Nat :=
  match row with
  | [] => []
  | first :: rest => (first + 1) :: rowTail c first (first + 1) b rest

/-- The row of a text over `b`. -/
def distanceRow (a b : List Char) : List Nat :=
  a.foldl (nextRow b) (List.range (b.length + 1))

/-- The distance of two texts, as the last entry of the row of one over the other. -/
def rowDistance (a b : List Char) : Nat :=
  (distanceRow a b).getLast?.getD 0

/-- The least number of insertions, deletions and replacements that turn one text into the other. The
texts are exchanged where that makes the row shorter. -/
def editDistance (a b : String) : Nat :=
  if a.toList.length < b.toList.length then rowDistance b.toList a.toList
  else rowDistance a.toList b.toList

end CrossAssembler.Text
