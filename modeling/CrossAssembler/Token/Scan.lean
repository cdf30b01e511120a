import CrossAssembler.Fault
import CrossAssembler.Text.Digit
import CrossAssembler.Token

/-!
# Cutting a source text into tokens

A source text is cut into pieces, each a run of blanks, a comment or one lexeme, and nothing
is left over (`pieces_flatten`). The cut looks at characters only; places are found afterwards,
by walking over the pieces (`locate`).

A piece never reaches over the end of a line, except the line feed itself, which is a piece of its
own. So a string or comment that is not closed ends with its line.
-/

namespace CrossAssembler

/-- The bases that a number can be written in. -/
inductive NumberBase where
  | decimal | hexadecimal | binary
  deriving DecidableEq, Repr

namespace NumberBase

/-- The base as a number. -/
def radix : NumberBase → Nat
  | decimal => 10 | hexadecimal => 16 | binary => 2

/-- The word for a base. -/
def word : NumberBase → String
  | decimal => "decimal" | hexadecimal => "hexadecimal" | binary => "binary"

/-- The mark in front of a number of this base. -/
def mark : NumberBase → List Char
  | decimal => [] | hexadecimal => ['$'] | binary => ['%']

end NumberBase

/-- A piece of source text: its characters, and the lexeme that they spell unless they are blanks or
a comment. -/
structure Piece where
  chars : List Char
  lexeme : Option Lexeme
  deriving DecidableEq, Repr

namespace Piece

/-- Blanks between tokens; the line feed is not one of them. -/
def isGap (c : Char) : Bool :=
  c == ' ' || c == '\t' || c == '\r'

/-- Characters that start a name. -/
def isNameStart (c : Char) : Bool :=
  c.isAlpha || c == '_'

/-- Characters that go on with a name. -/
def isNameChar (c : Char) : Bool :=
  c.isAlphanum || c == '_'

/-- The lexeme of a character that is one by itself. -/
def single? : Char → Option Lexeme
  | ',' => some .comma
  | ':' => some .colon
  | '+' => some .plus
  | '-' => some .minus
  | '#' => some .pound
  | '(' => some .openBracket
  | ')' => some .closeBracket
  | _ => none

/-- A run of blanks or a comment. -/
def blank (chars : List Char) : Piece := ⟨chars, none⟩

/-- The name at the front of a text. Letters are folded to capitals, and the shadow pair is one
name with its quote. -/
def name (cs : List Char) : Piece × List Char :=
  let word := cs.takeWhile isNameChar
  let folded := word.map Char.toUpper
  match folded, cs.dropWhile isNameChar with
  | ['A', 'F'], '\'' :: rest => (⟨word ++ ['\''], some (.name "AF'")⟩, rest)
  | folded, rest => (⟨word, some (.name (String.ofList folded))⟩, rest)

/-- The number whose digits are at the front of a text, its mark already taken off. A number
without digits, or one that runs into letters, is malformed. -/
def number (base : NumberBase) (cs : List Char) : Piece × List Char :=
  let body := cs.takeWhile (Text.isDigit base.radix)
  let rest := cs.dropWhile (Text.isDigit base.radix)
  let tail := rest.takeWhile isNameChar
  let literal := base.mark ++ body ++ tail
  let lexeme :=
    if body.isEmpty || !tail.isEmpty then
      .malformed s!"malformed {base.word} literal '{String.ofList literal}'"
    else .number (Text.ofDigits base.radix body)
  (⟨literal, some lexeme⟩, rest.dropWhile isNameChar)

/-- The rest of a string behind its opening quote: the characters that belong to it, its value if
it is closed, and what follows. A backslash makes the next character part of the value, and the
line ends an unclosed string. -/
def stringBody : List Char → List Char × Option (List Char) × List Char
  | [] => ([], none, [])
  | '\n' :: rest => ([], none, '\n' :: rest)
  | '"' :: rest => (['"'], some [], rest)
  | ['\\'] => (['\\'], none, [])
  | '\\' :: '\n' :: rest => (['\\'], none, '\n' :: rest)
  | '\\' :: c :: rest =>
    let (taken, value, after) := stringBody rest
    ('\\' :: c :: taken, value.map (c :: ·), after)
  | c :: rest =>
    let (taken, value, after) := stringBody rest
    (c :: taken, value.map (c :: ·), after)

/-- The string behind an opening quote. -/
def string (cs : List Char) : Piece × List Char :=
  match stringBody cs with
  | (taken, some value, after) => (⟨'"' :: taken, some (.string (String.ofList value))⟩, after)
  | (taken, none, after) =>
    (⟨'"' :: taken, some (.malformed "unterminated string literal")⟩, after)

/-- The first piece of a text that starts with `c`, and the text behind it. -/
def next (c : Char) (cs : List Char) : Piece × List Char :=
  if isGap c then (blank (c :: cs.takeWhile isGap), cs.dropWhile isGap)
  else if c = ';' then (blank (c :: cs.takeWhile (· != '\n')), cs.dropWhile (· != '\n'))
  else if c = '\n' then (⟨[c], some .newline⟩, cs)
  else if isNameStart c then name (c :: cs)
  else if Text.isDigit 10 c then number .decimal (c :: cs)
  else if c = '$' then number .hexadecimal cs
  else if c = '%' then number .binary cs
  else if c = '"' then string cs
  else (⟨[c], some ((single? c).getD (.unknown c.toString))⟩, cs)

/-! ### Nothing is lost -/

theorem name_append {c : Char} {cs : List Char} (_ : isNameStart c) :
    (name (c :: cs)).1.chars ++ (name (c :: cs)).2 = c :: cs := by
  unfold name
  dsimp only
  split
  next rest _ hrest =>
    have h := List.takeWhile_append_dropWhile (p := isNameChar) (l := c :: cs)
    rw [hrest] at h
    simpa using h
  next => exact List.takeWhile_append_dropWhile

theorem number_append (base : NumberBase) (cs : List Char) :
    (number base cs).1.chars ++ (number base cs).2 = base.mark ++ cs := by
  have outer := List.takeWhile_append_dropWhile (p := Text.isDigit base.radix) (l := cs)
  have inner := List.takeWhile_append_dropWhile (p := isNameChar)
    (l := cs.dropWhile (Text.isDigit base.radix))
  unfold number
  dsimp only
  rw [List.append_assoc, inner, List.append_assoc, outer]

theorem stringBody_append (cs : List Char) :
    (stringBody cs).1 ++ (stringBody cs).2.2 = cs := by
  fun_induction stringBody cs <;> simp_all

theorem string_append (cs : List Char) :
    (string cs).1.chars ++ (string cs).2 = '"' :: cs := by
  have h := stringBody_append cs
  unfold string
  split <;> simp_all

/-- The first piece and the text behind it are the whole text. -/
theorem next_append (c : Char) (cs : List Char) :
    (next c cs).1.chars ++ (next c cs).2 = c :: cs := by
  unfold next
  split
  · simp [blank]
  split
  · simp [blank]
  split
  · simp
  split
  next h => exact name_append h
  split
  · exact number_append .decimal (c :: cs)
  split
  next h => simpa [h, NumberBase.mark] using number_append .hexadecimal cs
  split
  next h => simpa [h, NumberBase.mark] using number_append .binary cs
  split
  next h => simpa [h] using string_append cs
  · simp

theorem name_chars_ne_nil {c : Char} {cs : List Char} (h : isNameStart c) :
    (name (c :: cs)).1.chars ≠ [] := by
  have hc : isNameChar c = true := by
    simp only [isNameStart, isNameChar, Char.isAlphanum, Bool.or_eq_true] at h ⊢
    rcases h with h | h
    · exact Or.inl (Or.inl h)
    · exact Or.inr h
  unfold name
  dsimp only
  split
  · simp
  · simp [hc]

theorem number_decimal_chars_ne_nil {c : Char} {cs : List Char} (h : Text.isDigit 10 c) :
    (number .decimal (c :: cs)).1.chars ≠ [] := by
  have hc : Text.isDigit NumberBase.decimal.radix c = true := h
  simp [number, hc]

/-- A piece holds at least one character. -/
theorem next_chars_ne_nil (c : Char) (cs : List Char) : (next c cs).1.chars ≠ [] := by
  unfold next
  split
  · simp [blank]
  split
  · simp [blank]
  split
  · simp
  split
  next h => exact name_chars_ne_nil h
  split
  next h => exact number_decimal_chars_ne_nil h
  split
  · simp [number, NumberBase.mark]
  split
  · simp [number, NumberBase.mark]
  split
  · unfold string
    split <;> simp
  · simp

/-- Taking a piece off makes a text shorter. -/
theorem length_next_lt (c : Char) (cs : List Char) :
    (next c cs).2.length < (c :: cs).length := by
  have happend := congrArg List.length (next_append c cs)
  have hpos := List.length_pos_iff.2 (next_chars_ne_nil c cs)
  rw [List.length_append] at happend
  omega

end Piece

/-- The pieces of a text, in order. -/
def pieces : List Char → List Piece
  | [] => []
  | c :: cs => (Piece.next c cs).1 :: pieces (Piece.next c cs).2
termination_by cs => cs.length
decreasing_by exact Piece.length_next_lt c cs

@[simp] theorem pieces_nil : pieces [] = [] := by
  rw [pieces]

theorem pieces_cons (c : Char) (cs : List Char) :
    pieces (c :: cs) = (Piece.next c cs).1 :: pieces (Piece.next c cs).2 := by
  rw [pieces]

/-- The pieces of a text, put together, are the text. -/
theorem pieces_flatten (cs : List Char) : (pieces cs).flatMap Piece.chars = cs := by
  fun_induction pieces cs with
  | case1 => rfl
  | case2 c cs ih => rw [List.flatMap_cons, ih, Piece.next_append]

/-- The number of digits of a decimal number that is too long to be read. -/
def Piece.excess? (p : Piece) : Option Nat :=
  match p.lexeme, p.chars with
  | some (.number _), c :: _ =>
    if Text.isDigit 10 c && Text.maxDecimalDigits < p.chars.length then some p.chars.length
    else none
  | _, _ => none

/-- The line that a lexeme is reported on: the one where it starts. Lines are numbered from one on,
and a lexeme that starts on line zero is reported where it ends. -/
def reportedLine (start finish : Int) : Int :=
  if start = 0 then finish else start

/-- The tokens of a row of pieces that starts at a place, and the end of the source behind them. -/
def locate (start : Location) : List Piece → List Token
  | [] => [⟨.endOfInput, start⟩]
  | p :: ps =>
    let finish := start.advanceOver p.chars
    match p.lexeme with
    | none => locate finish ps
    | some lexeme =>
      ⟨lexeme, { start with line := reportedLine start.line finish.line }⟩ :: locate finish ps

/-- The tokens of a source text whose first line has the given number. -/
def tokenize (source file : String) (firstLine : Int := 1) : Except Fault (List Token) :=
  let cut := pieces source.toList
  match cut.findSome? Piece.excess? with
  | some digits => .error (.literalTooLong digits)
  | none => .ok (locate ⟨file, firstLine, 1⟩ cut)

end CrossAssembler
