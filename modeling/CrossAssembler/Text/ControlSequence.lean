/-!
# Control sequences

A terminal is steered by control sequences within the text that it shows: the escape character, an
opening square bracket, parameters, and a letter that names the action. `withoutSequences` leaves
them out, so that names and strings taken from elsewhere cannot steer the terminal of a reader.

The text is read once from left to right. What is left over after a sequence is taken out may look
like one again and stays.
-/

namespace CrossAssembler.Text

/-- Characters of the parameters of a control sequence. -/
def isParameter (c : Char) : Bool :=
  c.isDigit || c == ';' || c == '?'

/-- The text behind the control sequence at the front of a text, if it starts with one. -/
def afterSequence? : List Char → Option (List Char)
  | '\x1b' :: '[' :: cs =>
    match cs.dropWhile isParameter with
    | c :: rest => if c.isAlpha then some rest else none
    | [] => none
  | _ => none

theorem length_afterSequence?_lt {cs rest : List Char} (h : afterSequence? cs = some rest) :
    rest.length < cs.length := by
  unfold afterSequence? at h
  split at h
  next cs =>
    have hle := (List.dropWhile_suffix (l := cs) isParameter).length_le
    split at h
    next c after heq =>
      rw [heq, List.length_cons] at hle
      split at h
      · cases h
        rw [List.length_cons, List.length_cons]
        omega
      · cases h
    · cases h
  · cases h

/-- Characters without the control sequences among them. -/
def dropSequences : List Char → List Char
  | [] => []
  | c :: cs =>
    match h : afterSequence? (c :: cs) with
    | some rest =>
      have := length_afterSequence?_lt h
      dropSequences rest
    | none => c :: dropSequences cs
termination_by cs => cs.length
decreasing_by
  · exact this
  · exact Nat.lt_succ_self _

/-- A text without its control sequences. -/
def withoutSequences (s : String) : String :=
  String.ofList (dropSequences s.toList)

end CrossAssembler.Text
