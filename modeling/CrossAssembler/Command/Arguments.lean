import CrossAssembler.Text.Quoted
import CrossAssembler.Text.Similarity

/-!
# Command line arguments

Arguments are options and words in any order. A long option takes its value from behind an equals
sign or from the next argument; short options can be written together, and the last of them takes
the rest of the argument, or the next one, as its value. Two dashes end the options. An option can
be mentioned again, and the last mention counts.

Only the shape of the arguments is looked at here; what the values mean is checked later, in the
order in which the options are first mentioned.
-/

namespace CrossAssembler.Command

/-- The options of the command. -/
inductive Switch where
  | output | split | fill | origin | cpu | verbose | version | help
  deriving DecidableEq, Repr

namespace Switch

/-- All options. -/
def all : List Switch := [output, split, fill, origin, cpu, verbose, version, help]

/-- The long name of an option. -/
def long : Switch → String
  | output => "--output" | split => "--split" | fill => "--fill" | origin => "--origin"
  | cpu => "--cpu" | verbose => "--verbose" | version => "--version" | help => "--help"

/-- The letter of an option. -/
def letter? : Switch → Option Char
  | output => some 'o'
  | verbose => some 'v'
  | _ => none

/-- The option takes a value. -/
def takesValue : Switch → Bool
  | output | fill | origin | cpu => true
  | _ => false

/-- The option is answered before anything else is checked. -/
def isEager : Switch → Bool
  | version | help => true
  | _ => false

/-- The option of a long name. -/
def ofLong? (name : String) : Option Switch :=
  all.find? fun s => s.long == name

/-- The option of a letter. -/
def ofLetter? (c : Char) : Option Switch :=
  all.find? fun s => s.letter? == some c

/-- The names of an option in a message about its value. -/
def shownNames (s : Switch) : String :=
  match s.letter? with
  | some c => s!"'-{c}' / '{s.long}'"
  | none => s!"'{s.long}'"

end Switch

/-- What is wrong with a command line. -/
inductive UsageFault where
  | noSuchOption (name : String) (similar : List String)
  | missingValue (name : String)
  | needlessValue (name : String)
  /-- A value that an option or argument cannot have; `names` names it, in quotes. -/
  | badValue (names message : String)
  | missingArgument (name : String)
  | extraArguments (words : List String)
  deriving DecidableEq, Repr

namespace UsageFault

/-- The wording of a fault. -/
def text : UsageFault → String
  | noSuchOption name [] => s!"No such option: {name}"
  | noSuchOption name [only] => s!"No such option: {name} Did you mean {only}?"
  | noSuchOption name similar =>
    let names := ", ".intercalate similar
    s!"No such option: {name} (Possible options: {names})"
  | missingValue name => s!"Option {Text.quoted name} requires an argument."
  | needlessValue name => s!"Option {Text.quoted name} does not take a value."
  | badValue names message => s!"Invalid value for {names}: {message}"
  | missingArgument name => s!"Missing argument '{name}'."
  | extraArguments [word] => s!"Got unexpected extra argument ({word})"
  | extraArguments words =>
    let shown := " ".intercalate words
    s!"Got unexpected extra arguments ({shown})"

/-- The fault is shown with a reminder of the usage; a missing or needless value is not. -/
def showsUsage : UsageFault → Bool
  | missingValue _ | needlessValue _ => false
  | _ => true

end UsageFault

/-- One mention of an option. -/
structure Mention where
  switch : Switch
  value : Option String := none
  deriving DecidableEq, Repr

/-- The mentions of options, and the words between them. -/
structure Arguments where
  mentions : List Mention := []
  words : List String := []
  deriving DecidableEq, Repr

namespace Arguments

/-- The options that an argument mentions, and whether it has taken the next argument as a value. -/
abbrev Taken := Except UsageFault (List Mention × Bool)

/-- A mention of an option that takes a value: the one written with it, or the next argument. -/
def valued (s : Switch) (name : String) (written next : Option String) : Taken :=
  match written, next with
  | some value, _ => .ok ([⟨s, some value⟩], false)
  | none, some value => .ok ([⟨s, some value⟩], true)
  | none, none => .error (.missingValue name)

/-- Short options written together. -/
def letters (next : Option String) : List Char → Taken
  | [] => .ok ([], false)
  | c :: cs =>
    let name := s!"-{c}"
    match Switch.ofLetter? c with
    | none => .error (.noSuchOption name [])
    | some s =>
      if s.takesValue then
        valued s name (if cs.isEmpty then none else some (String.ofList cs)) next
      else do
        let (more, taken) ← letters next cs
        return (⟨s, none⟩ :: more, taken)

/-- An argument cut at its first equals sign. -/
def cutAtEquals (argument : String) : String × Option String :=
  let cs := argument.toList
  match cs.dropWhile (· != '=') with
  | [] => (argument, none)
  | _ :: value => (String.ofList (cs.takeWhile (· != '=')), some (String.ofList value))

/-- An argument that starts with a dash. It is looked up as a long option first; only if it does
not start with two dashes can it be short options. -/
def option (argument : String) (next : Option String) : Taken :=
  let (name, written) := cutAtEquals argument
  match Switch.ofLong? name with
  | some s =>
    if s.takesValue then valued s name written next
    else if written.isSome then .error (.needlessValue name)
    else .ok ([⟨s, none⟩], false)
  | none =>
    match argument.toList with
    | '-' :: '-' :: _ =>
      .error (.noSuchOption name (Text.closeMatches name (Switch.all.map Switch.long)))
    | _ => letters next (argument.toList.drop 1)

/-- An argument that is an option: a dash with something behind it. -/
def isOption (argument : String) : Bool :=
  match argument.toList with
  | '-' :: _ :: _ => true
  | _ => false

/-- The arguments of a command line, by shape. -/
def read : List String → Except UsageFault Arguments
  | [] => .ok {}
  | argument :: rest =>
    if argument = "--" then .ok { words := rest }
    else if isOption argument then do
      let (mentions, taken) ← option argument rest.head?
      let more ← read (if taken then rest.tail else rest)
      return { more with mentions := mentions ++ more.mentions }
    else do
      let more ← read rest
      return { more with words := argument :: more.words }
termination_by arguments => arguments.length
decreasing_by
  · split
    · simp only [List.length_tail, List.length_cons]
      omega
    · exact Nat.lt_succ_self _
  · exact Nat.lt_succ_self _

/-- The options in the order of their first mention. -/
def mentioned (a : Arguments) : List Switch :=
  (a.mentions.map Mention.switch).eraseDups

/-- The option is mentioned. -/
def has (a : Arguments) (s : Switch) : Bool :=
  a.mentions.any fun mention => mention.switch == s

/-- The value of the last mention of an option. -/
def value? (a : Arguments) (s : Switch) : Option String :=
  ((a.mentions.filter fun mention => mention.switch == s).getLast?).bind Mention.value

end Arguments

end CrossAssembler.Command
