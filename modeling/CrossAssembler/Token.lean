import CrossAssembler.Location
import CrossAssembler.Text.Hex
import CrossAssembler.Text.Quoted

/-!
# Tokens

A token is a lexeme and its place. Text that is no lexeme of the language still gives a token, for a
character that starts nothing or for a literal that is malformed, so that reading goes on and the
reader of tokens can tell what was wrong and where.
-/

namespace CrossAssembler

/-- The smallest meaningful pieces of a source text. -/
inductive Lexeme where
  | newline
  | endOfInput
  /-- A name, folded to capital letters. -/
  | name (text : String)
  | number (value : Int)
  /-- A string, without its quotes and with its escapes resolved. -/
  | string (text : String)
  | comma
  | colon
  | plus
  | minus
  /-- The mark that may stand in front of an immediate value. -/
  | pound
  | openBracket
  | closeBracket
  /-- A character that starts no lexeme. -/
  | unknown (text : String)
  /-- A malformed literal, with the message that says so. -/
  | malformed (message : String)
  deriving DecidableEq, Repr

namespace Lexeme

/-- The name of a lexeme's class. -/
def className : Lexeme → String
  | newline => "NEWLINE"
  | endOfInput => "EOF"
  | name _ => "NAME"
  | number _ => "NUMBER"
  | string _ => "STRING"
  | comma => "COMMA"
  | colon => "COLON"
  | plus => "PLUS"
  | minus => "MINUS"
  | pound => "POUND"
  | openBracket => "LPAREN"
  | closeBracket => "RPAREN"
  | unknown _ => "UNKNOWN"
  | malformed _ => "ERROR"

/-- A lexeme as it is named in a message. -/
def describe : Lexeme → String
  | newline => "end of line"
  | endOfInput => "end of input"
  | name text => s!"'{text}'"
  | number value => "$" ++ Hex.plain value
  | string text => s!"\"{text}\""
  | comma => "','"
  | colon => "':'"
  | plus => "'+'"
  | minus => "'-'"
  | pound => "'#'"
  | openBracket => "'('"
  | closeBracket => "')'"
  | unknown text => s!"'{text}'"
  | malformed message => s!"'{message}'"

/-- The value of a lexeme in a listing of tokens. -/
def shownValue : Lexeme → Option String
  | name text | string text | unknown text | malformed text => some (Text.quoted text)
  | number value => some ("$" ++ Hex.plain value)
  | _ => none

end Lexeme

/-- A lexeme at its place. -/
structure Token where
  lexeme : Lexeme
  location : Location
  deriving DecidableEq, Repr

namespace Token

/-- The token that ends a source. -/
def isEnd (t : Token) : Bool :=
  t.lexeme == .endOfInput

/-- A token as one line of a listing. -/
def shown (t : Token) : String :=
  let value := match t.lexeme.shownValue with
    | some text => s!", {text}"
    | none => ""
  s!"Token({t.lexeme.className}{value}, {t.location.line}:{t.location.column})"

end Token

end CrossAssembler
