/-!
# Similar words

How alike two words are is measured by what they have in common: the longest run of characters that
both hold, then the longest runs to its left and to its right, and so on. Words are similar if the
characters in common make up at least three fifths of both words together.
-/

namespace CrossAssembler.Text

/-- The length of the longest common beginning. -/
def commonStart : List Char → List Char → Nat
  | a :: as, b :: bs => if a = b then commonStart as bs + 1 else 0
  | _, _ => 0

/-- A run of characters that two words hold: where it starts in each, and its length. -/
structure CommonRun where
  left : Nat
  right : Nat
  length : Nat
  deriving DecidableEq, Repr

/-- The longest common run; of several the one that starts first in the first word, then in the
second. -/
def longestRun (a b : List Char) : CommonRun :=
  let starts := (List.range a.length).flatMap fun i =>
    (List.range b.length).map fun j => CommonRun.mk i j (commonStart (a.drop i) (b.drop j))
  starts.foldl (fun best run => if best.length < run.length then run else best) ⟨0, 0, 0⟩

/-- The number of characters in common, looking for at most `depth` runs beside each other. -/
def commonCount (depth : Nat) (a b : List Char) : Nat :=
  match depth with
  | 0 => 0
  | depth + 1 =>
    let run := longestRun a b
    if run.length = 0 then 0
    else
      commonCount depth (a.take run.left) (b.take run.right) + run.length +
        commonCount depth (a.drop (run.left + run.length)) (b.drop (run.right + run.length))

/-- A word with the number of characters that it shares with another, and their lengths together. -/
structure Likeness where
  word : String
  shared : Nat
  total : Nat
  deriving DecidableEq, Repr

namespace Likeness

/-- How alike a word is to another. -/
def of (word other : String) : Likeness :=
  { word := word, shared := commonCount word.length word.toList other.toList,
    total := word.length + other.length }

/-- The words are similar. -/
def isClose (l : Likeness) : Bool :=
  3 * l.total ≤ 10 * l.shared

/-- The better match comes first, and of equal ones the word that sorts last. -/
def before (l k : Likeness) : Bool :=
  if l.shared * k.total = k.shared * l.total then k.word ≤ l.word
  else k.shared * l.total < l.shared * k.total

end Likeness

/-- The three words most similar to another, in alphabetical order. -/
def closeMatches (other : String) (words : List String) : List String :=
  let close := (words.map (Likeness.of · other)).filter Likeness.isClose
  (((close.mergeSort Likeness.before).take 3).map Likeness.word).mergeSort (· ≤ ·)

end CrossAssembler.Text
