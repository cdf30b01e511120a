import CrossAssembler.Diagnostic
import CrossAssembler.Text.Numeral
import CrossAssembler.Text.Quoted

/-!
# Faults

A fault stops what is being done, unlike a diagnostic, which is collected. Some faults cannot come
from a source text: a name outside every table, a label without a name and an index byte that is
missing or too large are only met in items built by hand.

The faults of files are a type of their own (`FileFault`), so that a file system can bring about these
and no others: that the regions of a source overlap is nothing a disk can say.

Where both a fault and a diagnostic can happen, `Failure` is either.
-/

namespace CrossAssembler

/-- What is wrong with a byte sequence that is not text. -/
inductive Malformation where
  | startByte
  | continuationByte
  | endOfData
  deriving DecidableEq, Repr

/-- The reason as it is worded in a message. -/
def Malformation.text : Malformation → String
  | startByte => "invalid start byte"
  | continuationByte => "invalid continuation byte"
  | endOfData => "unexpected end of data"

/-- Why a file cannot be read or written, or nothing can be printed. -/
inductive FileFault where
  /-- A path where nothing is. -/
  | noSuchFile (path : String)
  /-- A path that leads to a directory. -/
  | isDirectory (path : String)
  /-- A path that goes on behind a file. -/
  | notDirectory (path : String)
  /-- A path that is too long, or has a name that is. -/
  | nameTooLong (path : String)
  /-- A path with a character that no path can hold. -/
  | nullInName
  /-- Something that the user may not do, in the words of the system. -/
  | denied (words : String)
  /-- Any other failure that the system reports, in its words: a disk that is full, a stream that is
  closed, a chain of links that is too long. -/
  | failed (words : String)
  /-- Bytes from `position` on, `count` of them, the first being `byte`, that are not text. -/
  | undecodable (position count : Nat) (byte : UInt8) (reason : Malformation)
  deriving DecidableEq, Repr

/-- Why a run stopped. -/
inductive Fault where
  /-- A register, condition or mnemonic name that no table holds. -/
  | unknownName (name : Option String)
  /-- A decimal literal with more digits than are read. -/
  | literalTooLong (digits : Nat)
  /-- An index byte that an item does not have. -/
  | missingByte
  /-- An index byte or displacement that is no byte. -/
  | oversizedByte
  /-- Names to be compared with a label that has none. -/
  | namelessLabel
  /-- A gap to be filled with a value that is no byte. -/
  | fillOutOfRange
  /-- A region that starts before the one below it ends. -/
  | overlap (base first last : Int)
  /-- Output asked of a run with diagnostics. -/
  | assemblyFailed (problems : List Diagnostic)
  /-- A result asked for before any run. -/
  | nothingAssembled
  /-- A path without a final name, for which no neighbour can be named. -/
  | emptyName (path : String)
  /-- A file that cannot be used. -/
  | file (fault : FileFault)
  deriving DecidableEq, Repr

namespace FileFault

/-- A byte as two digits of base 16, small letters. -/
def byteText (b : UInt8) : String :=
  String.ofList (if b < 16 then '0' :: Nat.toDigits 16 b.toNat else Nat.toDigits 16 b.toNat)

/-- The wording of a fault of files. -/
def message : FileFault → String
  | noSuchFile path => s!"[Errno 2] No such file or directory: {Text.quoted path}"
  | isDirectory path => s!"[Errno 21] Is a directory: {Text.quoted path}"
  | notDirectory path => s!"[Errno 20] Not a directory: {Text.quoted path}"
  | nameTooLong path => s!"[Errno 36] File name too long: {Text.quoted path}"
  | nullInName => "embedded null byte"
  | denied words => words
  | failed words => words
  | undecodable position count byte reason =>
    let place :=
      if count = 1 then s!"byte 0x{byteText byte} in position {position}"
      else s!"bytes in position {position}-{position + count - 1}"
    s!"'utf-8' codec can't decode {place}: {reason.text}"

end FileFault

namespace Fault

/-- The wording of a fault. -/
def message : Fault → String
  | unknownName name => Text.quotedName name
  | literalTooLong digits =>
    s!"Exceeds the limit ({Text.maxDecimalDigits} digits) for integer string conversion: " ++
      s!"value has {digits} digits; use sys.set_int_max_str_digits() to increase the limit"
  | missingByte => "'NoneType' object cannot be interpreted as an integer"
  | oversizedByte => "bytes must be in range(0, 256)"
  | namelessLabel => "object of type 'NoneType' has no len()"
  | fillOutOfRange => "byte must be in range(0, 256)"
  | overlap base first last =>
    s!"region at {Hex.address base} overlaps region {Hex.address first}-{Hex.address last}"
  | assemblyFailed problems =>
    s!"error: Assembly failed with {problems.length} errors:\n\n{Diagnostic.report problems}"
  | nothingAssembled => "nothing has been assembled yet"
  | emptyName path => s!"PosixPath({Text.quoted path}) has an empty name"
  | file fault => fault.message

end Fault

/-- Why something was not done: a problem to be reported, or a fault that ends the run. -/
inductive Failure where
  | problem (d : Diagnostic)
  | fault (f : Fault)
  deriving DecidableEq, Repr

end CrossAssembler
