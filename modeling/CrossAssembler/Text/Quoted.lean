import CrossAssembler.Text.Printable

/-!
# Quoted text

Text shown in a message is put between quotes so that its ends and its unprintable characters can
be seen. Single quotes are the rule; double quotes are taken where the text holds a single quote
and no double one, so that nothing has to be escaped.
-/

namespace CrossAssembler.Text

/-- The quote put around a text. -/
def quoteFor (cs : List Char) : Char :=
  if cs.contains '\'' && !cs.contains '"' then '"' else '\''

/-- The last `width` digits of a code point in base 16, small letters, with leading zeros. -/
def codeDigits (width : Nat) (c : Char) : List Char :=
  let ds := Nat.toDigits 16 c.toNat
  List.replicate (width - ds.length) '0' ++ ds

/-- A character between quotes: the quote and the backslash are escaped, line breaks and tabs have
letters, and other unprintable characters show their code point. -/
def escapeChar (quote c : Char) : List Char :=
  if c = quote ∨ c = '\\' then ['\\', c]
  else if c = '\n' then ['\\', 'n']
  else if c = '\r' then ['\\', 'r']
  else if c = '\t' then ['\\', 't']
  else if isPrintable c then [c]
  else if c.toNat < 0x100 then '\\' :: 'x' :: codeDigits 2 c
  else if c.toNat < 0x10000 then '\\' :: 'u' :: codeDigits 4 c
  else '\\' :: 'U' :: codeDigits 8 c

/-- A text between quotes. -/
def quoted (s : String) : String :=
  let quote := quoteFor s.toList
  String.ofList ([quote] ++ s.toList.flatMap (escapeChar quote) ++ [quote])

/-- A name between quotes, or the word for a name that is missing. -/
def quotedName : Option String → String
  | some s => quoted s
  | none => "None"

end CrossAssembler.Text
