import CrossAssembler.Text.Blank
import CrossAssembler.Text.Digit

/-!
# Numerals in settings

A number given on the command line or in an environment variable is decimal, or hexadecimal after
`$` or `0x`. Around it and right after the mark blanks are allowed, a sign may stand in front of
the digits, single underscores may stand between digits, and digits of every script count.

`integer?` reads the number after its mark, `number?` the whole text.
-/

namespace CrossAssembler.Text

/-- The longest decimal numeral that is read; leading zeros count. -/
def maxDecimalDigits : Nat := 4300

/-- A character as the reader of a numeral sees it: blanks and decimal digits of any script are
read as the plain ones, and any other character outside the seven-bit set as one that no numeral
holds. -/
def plainChar (c : Char) : Char :=
  if c.toNat < 127 then c
  else if isWideBlank c then ' '
  else match decimalDigit? c with
    | some d => Char.ofNat (48 + d)
    | none => '?'

/-- Digits with single underscores between them: at least one digit, and no underscore at an end
or beside another. -/
def isGrouped : List Char → Bool
  | [] => false
  | '_' :: _ => false
  | [_] => true
  | _ :: '_' :: cs => isGrouped cs
  | _ :: c :: cs => isGrouped (c :: cs)

/-- A second hexadecimal mark, with an underscore after it if there is one, may stand in front of
the digits of base 16. -/
def dropMark (base : Nat) (cs : List Char) : List Char :=
  match base, cs with
  | 16, '0' :: 'x' :: '_' :: rest => rest
  | 16, '0' :: 'X' :: '_' :: rest => rest
  | 16, '0' :: 'x' :: rest => rest
  | 16, '0' :: 'X' :: rest => rest
  | _, cs => cs

/-- The natural number that a text without sign and leading blanks holds; blanks may follow it. -/
def natural? (base : Nat) (cs : List Char) : Option Nat :=
  let body := dropMark base cs
  let run := body.takeWhile fun c => isDigit base c || c == '_'
  let ds := run.filter (· != '_')
  let rest := body.dropWhile fun c => isDigit base c || c == '_'
  if isGrouped run && rest.all isPlainBlank && (base != 10 || ds.length ≤ maxDecimalDigits) then
    some (ofDigits base ds)
  else none

/-- The integer that a text holds in the given base: blanks, a sign, the digits, blanks. -/
def integer? (base : Nat) (cs : List Char) : Option Int :=
  match (cs.map plainChar).dropWhile isPlainBlank with
  | '+' :: rest => (natural? base rest).map Int.ofNat
  | '-' :: rest => (natural? base rest).map fun n => -Int.ofNat n
  | rest => (natural? base rest).map Int.ofNat

/-- The number that a setting holds: hexadecimal after `$` or `0x`, decimal otherwise. -/
def number? (s : String) : Option Int :=
  match trim s.toList with
  | '$' :: rest => integer? 16 rest
  | '0' :: 'x' :: rest => integer? 16 rest
  | '0' :: 'X' :: rest => integer? 16 rest
  | cs => integer? 10 cs

end CrossAssembler.Text
