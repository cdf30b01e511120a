import CrossAssembler.Fault

/-!
# Path names

A path name is a root and the names behind it. Repeated slashes, a slash at the end and single dots
mean nothing and are dropped; double dots are kept, since what they mean depends on the files. The
empty path is the current directory, written as a dot.
-/

namespace CrossAssembler

/-- A path name. -/
structure PathName where
  /-- Empty for a relative path, else one slash, or two where exactly two were written. -/
  root : String
  parts : List String
  deriving DecidableEq, Repr

namespace PathName

/-- The root of a written path. -/
def rootOf : List Char → String
  | '/' :: '/' :: '/' :: _ => "/"
  | '/' :: '/' :: _ => "//"
  | '/' :: _ => "/"
  | _ => ""

/-- The path name of a text. -/
def ofText (s : String) : PathName :=
  { root := rootOf s.toList,
    parts := (s.splitOn "/").filter fun part => part != "" && part != "." }

/-- A path name as text. -/
def text (p : PathName) : String :=
  if p.root = "" ∧ p.parts = [] then "." else p.root ++ "/".intercalate p.parts

/-- The last name of a path, empty if there is none. -/
def name (p : PathName) : String :=
  p.parts.getLast?.getD ""

/-- A name cut in front of its last dot, unless the dot is its first or last character. -/
def cutName (name : String) : String × String :=
  let fromEnd := name.toList.reverse
  let extension := (fromEnd.takeWhile (· != '.')).reverse
  match fromEnd.dropWhile (· != '.') with
  | '.' :: stem =>
    if stem = [] ∨ extension = [] then (name, "")
    else (String.ofList stem.reverse, String.ofList ('.' :: extension))
  | _ => (name, "")

/-- The last name without its suffix. -/
def stem (p : PathName) : String :=
  (cutName p.name).1

/-- The neighbour of a path with another last name. -/
def withName (p : PathName) (name : String) : Except Fault PathName :=
  if p.parts = [] then .error (.emptyName p.text)
  else .ok { p with parts := p.parts.dropLast ++ [name] }

/-- The neighbour of a path with another suffix. -/
def withSuffix (p : PathName) (suffix : String) : Except Fault PathName :=
  p.withName (p.stem ++ suffix)

end PathName

end CrossAssembler
