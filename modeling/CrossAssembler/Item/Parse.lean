import CrossAssembler.Item.Classify
import CrossAssembler.Token

/-!
# Reading tokens as items

Tokens are read from left to right with one token of foresight. Each reading gives an entry: an
item, or the report of something malformed together with the place that it leaves empty. So there is
one report for each invalid item, and reading resumes behind the malformed part.

A malformed address between brackets is skipped up to its closing bracket, but never beyond the end
of its line.
-/

namespace CrossAssembler

/-- What one reading gives. -/
inductive Entry where
  | item (item : Item)
  /-- Something malformed that starts at a place, and its report. -/
  | invalid (location : Location) (report : Diagnostic)
  deriving DecidableEq, Repr

namespace Entry

/-- The item that stands for an entry. -/
def toItem : Entry → Item
  | item i => i
  | invalid location _ => { kind := .invalid, location := location }

/-- The report of a malformed entry. -/
def report? : Entry → Option Diagnostic
  | item _ => none
  | invalid _ report => some report

end Entry

/-- A reading: an item or a report, and the tokens behind it. -/
abbrev Reading := Except Diagnostic Item × List Token

namespace Reading

/-- The first of some tokens, or the end of the input. -/
def current (stop : Location) : List Token → Token
  | [] => ⟨.endOfInput, stop⟩
  | t :: _ => t

/-- The tokens behind a malformed address: its closing bracket is the last one skipped, and the line
end stays. -/
def skipBracket (ts : List Token) : List Token :=
  match ts.dropWhile fun t => t.lexeme != .closeBracket && t.lexeme != .newline with
  | [] => []
  | t :: rest => if t.lexeme = .closeBracket then rest else t :: rest

/-- A report, and the tokens behind the malformed address. -/
def giveUp (location : Location) (problem : Problem) (ts : List Token) : Reading :=
  (.error (.placed location problem), skipBracket ts)

/-- The item between brackets, once its closing bracket is found. -/
def close (stop : Location) (item : Item) : List Token → Reading
  | ⟨.closeBracket, _⟩ :: rest => (.ok item, rest)
  | ts =>
    let t := current stop ts
    giveUp t.location (.unclosedIndirection t.lexeme.describe) ts

/-- The displacement behind the sign that follows an index register. -/
def displacement (stop start : Location) (register : IndexRegister) (negative : Bool)
    (ts : List Token) : Reading :=
  match ts with
  | ⟨.number v, place⟩ :: rest =>
    let d := if negative then -v else v
    if -128 ≤ d ∧ d ≤ 127 then close stop (Item.ofIndex register d start) rest
    else giveUp place
      (.valueRange d "index displacement" (some "displacement must be within -128..127")) rest
  | ts =>
    let t := current stop ts
    giveUp t.location
      (.noDisplacement register.name (if negative then "-" else "+") t.lexeme.describe) ts

/-- What follows an index register between brackets: a displacement, or nothing. -/
def index (stop start : Location) (register : IndexRegister) (ts : List Token) : Reading :=
  match ts with
  | ⟨.plus, _⟩ :: rest => displacement stop start register false rest
  | ⟨.minus, _⟩ :: rest => displacement stop start register true rest
  | ts =>
    close stop
      { kind := .indirectRegister16, location := start, text := some register.name,
        indexByte := some (register.code.toNat : Int) } ts

/-- A name between brackets that starts at a place. -/
def bracketedName (stop start place : Location) (name : String) (ts : List Token) : Reading :=
  match Pair.ofName? name with
  | some (.index register) => index stop start register ts
  | some pair =>
    if pair.isBracketed then close stop (Item.named .indirectRegister16 name start) ts
    else giveUp place (.noIndirection (some s!"'{name}'")) ts
  | none =>
    if name = "C" then close stop (Item.named .indirectC name start) ts
    else if ItemKind.ofName name = .name then
      close stop (Item.named .indirectImmediate name start) ts
    else giveUp place (.noIndirection (some s!"'{name}'")) ts

/-- What stands behind an opening bracket at `start`. -/
def bracket (stop start : Location) (ts : List Token) : Reading :=
  match ts with
  | [] => (.error (.placed stop (.noIndirection none)), [])
  | t :: rest =>
    match t.lexeme with
    | .newline | .endOfInput => (.error (.placed t.location (.noIndirection none)), ts)
    | .number v =>
      if 0xFFFF < v then giveUp t.location (.valueRange v "indirect address" none) rest
      else close stop (Item.ofNumber v start .indirectImmediate) rest
    | .name name => bracketedName stop start t.location name rest
    | .closeBracket =>
      (.error (.placed t.location (.noIndirection (some t.lexeme.describe))), rest)
    | _ => giveUp t.location (.noIndirection (some t.lexeme.describe)) rest

/-- A name at a place: a label if a colon follows, otherwise what the name means. -/
def name (text : String) (place : Location) : List Token → Reading
  | ⟨.colon, _⟩ :: rest => (.ok (Item.named .label text place), rest)
  | ts =>
    let kind := ItemKind.ofName text
    let indexByte :=
      if kind = .register16 then
        (IndexRegister.ofName? text).map fun register => (register.code.toNat : Int)
      else none
    (.ok { kind := kind, location := place, text := some text, indexByte := indexByte }, ts)

/-- What follows the mark of an immediate value. -/
def marked (stop start : Location) (ts : List Token) : Reading :=
  match ts with
  | ⟨.number v, place⟩ :: rest => (.ok (Item.ofNumber v place), rest)
  | ⟨.name text, place⟩ :: rest => name text place rest
  | ts =>
    (.error (.placed start (.noNumberAfterMark (current stop ts).lexeme.describe)), ts)

/-- The reading that starts with a token. -/
def start (stop : Location) (t : Token) (ts : List Token) : Reading :=
  match t.lexeme with
  | .newline => (.ok { kind := .separator, location := t.location }, ts)
  | .comma => (.ok { kind := .comma, location := t.location }, ts)
  | .number v => (.ok (Item.ofNumber v t.location), ts)
  | .string text => (.ok (Item.named .string text t.location), ts)
  | .name text => name text t.location ts
  | .pound => marked stop t.location ts
  | .openBracket => bracket stop t.location ts
  | .unknown text => (.error (.placed t.location (.unexpectedCharacter text)), ts)
  | .malformed message => (.error (.placed t.location (.malformedLiteral message)), ts)
  | _ => (.error (.placed t.location (.unhandledToken t.lexeme.describe)), ts)

/-! ### A reading never grows the rest -/

theorem length_skipBracket_le (ts : List Token) : (skipBracket ts).length ≤ ts.length := by
  have h := (List.dropWhile_suffix (l := ts)
    fun t : Token => t.lexeme != .closeBracket && t.lexeme != .newline).length_le
  unfold skipBracket
  split
  · simp
  next t rest heq =>
    rw [heq, List.length_cons] at h
    split
    · omega
    · simpa using h

theorem length_close_le (stop : Location) (item : Item) (ts : List Token) :
    (close stop item ts).2.length ≤ ts.length := by
  unfold close
  split
  · simp
  · exact length_skipBracket_le _

theorem length_displacement_le (stop start : Location) (register : IndexRegister)
    (negative : Bool) (ts : List Token) :
    (displacement stop start register negative ts).2.length ≤ ts.length := by
  unfold displacement
  split
  next v place rest =>
    dsimp only
    generalize (if negative = true then -v else v) = d
    split
    · exact Nat.le_succ_of_le (length_close_le _ _ _)
    · exact Nat.le_succ_of_le (length_skipBracket_le _)
  · exact length_skipBracket_le _

theorem length_index_le (stop start : Location) (register : IndexRegister) (ts : List Token) :
    (index stop start register ts).2.length ≤ ts.length := by
  unfold index
  split
  · exact Nat.le_succ_of_le (length_displacement_le _ _ _ _ _)
  · exact Nat.le_succ_of_le (length_displacement_le _ _ _ _ _)
  · exact length_close_le _ _ _

theorem length_bracketedName_le (stop start place : Location) (name : String)
    (ts : List Token) : (bracketedName stop start place name ts).2.length ≤ ts.length := by
  unfold bracketedName
  split
  · exact length_index_le _ _ _ _
  · split
    · exact length_close_le _ _ _
    · exact length_skipBracket_le _
  · split
    · exact length_close_le _ _ _
    · split
      · exact length_close_le _ _ _
      · exact length_skipBracket_le _

theorem length_bracket_le (stop start : Location) (ts : List Token) :
    (bracket stop start ts).2.length ≤ ts.length := by
  unfold bracket
  split
  · simp
  next t rest =>
    split
    · exact Nat.le_refl _
    · exact Nat.le_refl _
    · split
      · exact Nat.le_succ_of_le (length_skipBracket_le _)
      · exact Nat.le_succ_of_le (length_close_le _ _ _)
    · exact Nat.le_succ_of_le (length_bracketedName_le _ _ _ _ _)
    · exact Nat.le_succ _
    · exact Nat.le_succ_of_le (length_skipBracket_le _)

theorem length_name_le (text : String) (place : Location) (ts : List Token) :
    (name text place ts).2.length ≤ ts.length := by
  unfold name
  split
  · simp
  · exact Nat.le_refl _

theorem length_marked_le (stop start : Location) (ts : List Token) :
    (marked stop start ts).2.length ≤ ts.length := by
  unfold marked
  split
  · simp
  · exact Nat.le_succ_of_le (length_name_le _ _ _)
  · exact Nat.le_refl _

theorem length_start_le (stop : Location) (t : Token) (ts : List Token) :
    (start stop t ts).2.length ≤ ts.length := by
  unfold start
  split
  case h_5 => exact length_name_le _ _ _
  case h_6 => exact length_marked_le _ _ _
  case h_7 => exact length_bracket_le _ _ _
  all_goals exact Nat.le_refl _

end Reading

/-- The entry of a reading that started at a place. -/
def Entry.ofReading (place : Location) : Except Diagnostic Item → Entry
  | .ok i => .item i
  | .error report => .invalid place report

/-- The entries of some tokens. A line end gives a separator unless nothing stands in front of it
since the last one (`blank`). -/
def entries (stop : Location) (blank : Bool) : List Token → List Entry
  | [] => []
  | t :: ts =>
    if t.lexeme = .newline ∧ blank then entries stop true ts
    else
      Entry.ofReading t.location (Reading.start stop t ts).1 ::
        entries stop (t.lexeme == .newline) (Reading.start stop t ts).2
termination_by ts => ts.length
decreasing_by
  · exact Nat.lt_succ_self _
  · exact Nat.lt_succ_of_le (Reading.length_start_le stop t ts)

/-- The tokens in front of the end of the input. -/
def tokensToEnd (ts : List Token) : List Token :=
  ts.takeWhile fun t => !t.isEnd

/-- The place of the end of the input: of the token that says so, else of the last token, else the
start of the file. -/
def endLocation (file : String) (ts : List Token) : Location :=
  match ts.find? Token.isEnd with
  | some t => t.location
  | none =>
    match ts.getLast? with
    | some t => t.location
    | none => ⟨file, 1, 1⟩

/-- What reading a row of tokens gives. -/
structure Parsed where
  /-- The items, with an invalid item for each report. -/
  items : List Item
  /-- The reports, in source order. -/
  reports : List Diagnostic
  deriving DecidableEq, Repr

/-- The entries of the tokens in front of the end of the input. -/
def allEntries (file : String) (ts : List Token) : List Entry :=
  entries (endLocation file ts) true (tokensToEnd ts)

/-- The items of a row of tokens, and reports on what is malformed. -/
def parse (file : String) (ts : List Token) : Parsed :=
  { items := (allEntries file ts).map Entry.toItem,
    reports := (allEntries file ts).filterMap Entry.report? }

end CrossAssembler
