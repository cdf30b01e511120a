import CrossAssembler.Assembly
import CrossAssembler.Command.Arguments
import CrossAssembler.Text.ControlSequence

/-!
# Running the command

The command assembles one source file and writes the image of its regions, or with `--split` a file
for each region. It ends with an exit code and what it has written to the two output streams:

* 0 if all went well,
* 1 if the source has problems or its regions overlap,
* 2 if the command line is wrong, or a file is not there or may not be used,
* 3 if anything else stops it.

What the command says is plain text (`said`): a file name or string that holds control sequences
shows without them. Notes on the progress of a run are shown as they are.

Files and the stream for lines on the progress are reached through a `Host` only. How the words of a
command line are put together is up to a `Reader`, of which `Arguments.read` is one: the command has to
do with what was read, not with how.
-/

namespace CrossAssembler.Command

/-- How a command ends. -/
structure Outcome where
  exit : Nat := 0
  output : String := ""
  errors : String := ""
  deriving DecidableEq, Repr

/-- Lines that the command says, as they are shown: without control sequences. -/
def said (lines : String) : String :=
  Text.withoutSequences lines ++ "\n"

/-- The kinds of failure that a user tells apart by exit code. -/
inductive Severity where
  /-- The source cannot be built. -/
  | build
  /-- The command was given something that it cannot use. -/
  | input
  /-- Anything else. -/
  | internal
  deriving DecidableEq, Repr

namespace Severity

/-- The exit code of a failure. -/
def exit : Severity → Nat
  | build => 1
  | input => 2
  | internal => 3

/-- What a failure is announced by; `activity` names what failed, if it is not empty. -/
def announcement (activity : String) : Severity → String
  | build => if activity = "" then "Error: " else s!"{activity} error: "
  | input => "Error: "
  | internal => "Internal error: "

/-- The kind of failure that a fault is. -/
def ofFault : Fault → Severity
  | .overlap _ _ _ | .assemblyFailed _ => build
  | .file (.noSuchFile _) | .file (.denied _) => input
  | _ => internal

/-- The end of a command that has failed. -/
def outcome (activity message : String) (s : Severity) : Outcome :=
  { exit := s.exit, errors := said (s.announcement activity ++ message) }

end Severity

/-- The reminder of the usage. -/
def usage : String := "Usage: zasm [OPTIONS] INPUT_FILE\n"

/-- The text of `--help`. -/
def helpText : String :=
  usage ++
  "\n" ++
  "  Assemble Z80 source code into raw binary.\n" ++
  "\n" ++
  "  INPUT_FILE is the assembly source file (.asm) to assemble.\n" ++
  "\n" ++
  "  Examples:\n" ++
  "      zasm hello.asm               # Outputs hello.bin\n" ++
  "      zasm hello.asm -o out.bin    # Specify output file\n" ++
  "      zasm --split rom.asm         # One file per ORG region\n" ++
  "\n" ++
  "Options:\n" ++
  "  -o, --output FILE  Output binary file (default: input.bin)\n" ++
  "  --split            Write one file per region, named <stem>_<BASE>.bin\n" ++
  "  --fill TEXT        Byte used to fill gaps between regions (default: $FF)\n" ++
  "  --origin TEXT      Initial address counter (default: 0)\n" ++
  "  --cpu [Z80|M6502]  CPU mode at the start of the source (default: Z80)\n" ++
  "  -v, --verbose      Verbose output\n" ++
  "  --version          Show the version and exit.\n" ++
  "  --help             Show this message and exit.\n"

/-- The version of the program. -/
def version : String := "1.0.0"

/-- The text of `--version`. -/
def versionText : String := s!"zasm, version {version}\n"

/-- The end of a command that was not understood. -/
def UsageFault.outcome (fault : UsageFault) : Outcome :=
  let reminder := if fault.showsUsage then usage ++ "Try 'zasm --help' for help.\n\n" else ""
  { exit := 2, errors := reminder ++ said s!"Error: {fault.text}" }

/-! ### Checking values -/

/-- A file name that leads to a directory. -/
def directoryFault (names file : String) : UsageFault :=
  .badValue names s!"File {Text.quoted file} is a directory."

/-- The name of something that may not be read. -/
def unreadableFault (names file : String) : UsageFault :=
  .badValue names s!"File {Text.quoted file} is not readable."

/-- The check of a number between zero and a limit. -/
def checkNumber (s : Switch) (limit : Int) (text : String) : Option UsageFault :=
  match numberUpTo? limit text with
  | some _ => none
  | none => some (.badValue s.shownNames
      s!"expected a number from 0 to ${Hex.plain limit}, got {Text.quoted text}")

/-- The processor that an option names, in letters of either case. -/
def cpuOption? (text : String) : Option Cpu :=
  Cpu.ofName? (String.ofList (text.toList.map Char.toUpper))

/-- The check of the name of a processor. -/
def checkCpu (text : String) : Option UsageFault :=
  match cpuOption? text with
  | some _ => none
  | none =>
    let names := ", ".intercalate (Cpu.all.map fun cpu => Text.quoted cpu.name)
    some (.badValue Switch.cpu.shownNames s!"{Text.quoted text} is not one of {names}.")

variable {m : Type → Type} [Monad m]

/-- The check of an option that is mentioned. -/
def checkSwitch (files : FileAccess m) (a : Arguments) (s : Switch) : m (Option UsageFault) := do
  match s, a.value? s with
  | .output, some file =>
    match ← files.status file with
    | .directory => return some (directoryFault s.shownNames file)
    | .unreadable => return some (unreadableFault s.shownNames file)
    | _ => return none
  | .fill, some text => return checkNumber s 0xFF text
  | .origin, some text => return checkNumber s 0xFFFF text
  | .cpu, some text => return checkCpu text
  | _, _ => return none

/-- The name of the argument that names the source file. -/
def inputName : String := "INPUT_FILE"

/-- The check of the source file. -/
def checkInput (files : FileAccess m) (a : Arguments) : m (Option UsageFault) := do
  match a.words.head? with
  | none => return some (.missingArgument inputName)
  | some file =>
    match ← files.status file with
    | .missing =>
      return some (.badValue s!"'{inputName}'" s!"File {Text.quoted file} does not exist.")
    | .directory => return some (directoryFault s!"'{inputName}'" file)
    | .unreadable => return some (unreadableFault s!"'{inputName}'" file)
    | .file => return none

/-- The check that no word follows the source file. -/
def checkExtra (a : Arguments) : Option UsageFault :=
  match a.words with
  | _ :: word :: words => some (.extraArguments (word :: words))
  | _ => none

/-- The first fault of options that are checked in order. -/
def checkSwitches (files : FileAccess m) (a : Arguments) : List Switch → m (Option UsageFault)
  | [] => return none
  | s :: rest => do
    match ← checkSwitch files a s with
    | some fault => return some fault
    | none => checkSwitches files a rest

/-- The first fault of the values: options in the order of their mention, then the source file,
then anything too many. -/
def check (files : FileAccess m) (a : Arguments) : m (Option UsageFault) := do
  match ← checkSwitches files a a.mentioned with
  | some fault => return some fault
  | none =>
    match ← checkInput files a with
    | some fault => return some fault
    | none => return checkExtra a

/-! ### The work -/

/-- What a command that was understood has to do. -/
structure Job where
  source : PathName
  /-- Where the output was asked to go. -/
  target : Option PathName
  split : Bool
  verbose : Bool
  settings : Settings
  deriving DecidableEq, Repr

/-- The job of arguments whose values are in order. An option wins over the environment, and the
environment over the default. -/
def Job.ofArguments (env : Environment) (a : Arguments) : Job :=
  let source := PathName.ofText (a.words.head?.getD "")
  let base := Settings.ofEnvironment env
  { source := source
    target := (a.value? .output).map PathName.ofText
    split := a.has .split
    verbose := a.has .verbose
    settings :=
      { cpu := ((a.value? .cpu).bind cpuOption?).getD base.cpu
        origin := ((a.value? .origin).bind (numberUpTo? 0xFFFF)).getD base.origin
        fill := ((a.value? .fill).bind (numberUpTo? 0xFF)).getD base.fill
        file := source.text } }

namespace Job

/-- Where the output goes: to the path asked for, or beside the source. -/
def outputPath (job : Job) : Except Fault PathName :=
  match job.target with
  | some path => .ok path
  | none => job.source.withSuffix ".bin"

/-- A line for a user who asks for details: what has been printed, or why it could not be. -/
def tell (host : Host m) (job : Job) (line : String) : m (Except Fault String) := do
  if job.verbose then
    return ((← host.print (said line)).mapError .file).map fun _ => said line
  else return .ok ""

/-- The line that tells of the start of a job. -/
def greeting (job : Job) : String :=
  s!"Assembling {job.source.text}..."

/-- Notes as they are shown: all of them, each with the part that has left it, to a user who asks
for details, else the warnings alone. -/
def showNotes (job : Job) (notes : List Note) : String :=
  if job.verbose then String.join (notes.map fun note => s!"{note.channel}: {note.text}\n")
  else String.join ((notes.filter Note.isWarning).map fun note => note.text ++ "\n")

end Job

/-- One file to be written. -/
structure Writing where
  path : PathName
  base : Int
  data : List UInt8
  deriving DecidableEq, Repr

/-- The line that tells of a file written. -/
def Writing.line (w : Writing) : String :=
  s!"Wrote {w.data.length} bytes at {Hex.address w.base} to {w.path.text}"

/-- The file of a region beside the output. -/
def Writing.ofRegion (output : PathName) (r : Region) : Except Fault Writing := do
  let path ← output.withName s!"{output.stem}_{Hex.wide 4 r.base}.bin"
  return ⟨path, r.base, r.data⟩

/-- The file of an image. -/
def Writing.ofImage (output : PathName) (fill : Int) (regions : List Region) :
    Except Fault Writing := do
  let (base, image) ← Region.flatten regions fill
  return ⟨output, base, image⟩

/-- Files written one after the other, up to the first that cannot be, or of which nobody can be told.
The result is the output so far, and the fault. -/
def writeAll (host : Host m) (job : Job) :
    List (Except Fault Writing) → m (String × Option Fault)
  | [] => return ("", none)
  | .error fault :: _ => return ("", some fault)
  | .ok w :: rest => do
    match ← host.write w.path w.data with
    | .error fault => return ("", some (.file fault))
    | .ok () =>
      match ← job.tell host w.line with
      | .error fault => return ("", some fault)
      | .ok told =>
        let (output, fault) ← writeAll host job rest
        return (told ++ output, fault)

/-- The files of an assembly. -/
def writings (job : Job) (output : PathName) (a : Assembly) : List (Except Fault Writing) :=
  if job.split then a.regions.map (Writing.ofRegion output)
  else [Writing.ofImage output job.settings.fill a.regions]

/-- The end of a job that a fault has stopped. -/
def stopped (fault : Fault) : Outcome :=
  (Severity.ofFault fault).outcome "Assembly" fault.message

/-- The output of an assembly is written. -/
def finish (host : Host m) (job : Job) (output : PathName) (a : Assembly) : m Outcome := do
  let (written, fault) ← writeAll host job (writings job output a)
  match fault with
  | some fault => return { stopped fault with output := written }
  | none =>
    match ← job.tell host
        s!"Assembly complete: {a.regions.length} regions, {a.symbols.size} symbols" with
    | .error fault => return { stopped fault with output := written }
    | .ok summary => return { output := written ++ summary }

/-- One outcome after what was written before. -/
def Outcome.after (o : Outcome) (output errors : String) : Outcome :=
  { o with output := output ++ o.output, errors := errors ++ o.errors }

/-- A job is done. -/
def Job.run (host : Host m) (job : Job) : m Outcome := do
  match job.outputPath with
  | .error fault => return stopped fault
  | .ok output =>
    match ← job.tell host job.greeting with
    | .error fault => return stopped fault
    | .ok greeting =>
      let opening := job.showNotes [.assembling job.source.text]
      match assembleRead job.settings job.source (← host.read job.source) with
      | .error fault => return (stopped fault).after greeting opening
      | .ok a =>
        let notes := opening ++ job.showNotes a.notes
        if a.ok then return (← finish host job output a).after greeting notes
        else
          return { exit := Severity.build.exit, output := greeting,
                   errors := notes ++ said a.report }

/-- A question is answered. That the answer cannot be printed is a failure, with nothing to say. -/
def answer (host : Host m) (text : String) : m Outcome := do
  match ← host.print text with
  | .ok () => return { output := text }
  | .error _ => return { exit := 1 }

/-- A way to put the words of a command line together to options and arguments. -/
abbrev Reader := List String → Except UsageFault Arguments

/-- The command: its arguments are read, `--version` or `--help` is answered, values are checked,
and the job is done. -/
def run (host : Host m) (reader : Reader) (env : Environment) (arguments : List String) :
    m Outcome := do
  match reader arguments with
  | .error fault => return fault.outcome
  | .ok a =>
    match a.mentioned.find? Switch.isEager with
    | some .version => answer host versionText
    | some _ => answer host helpText
    | none =>
      match ← check host.toFileAccess a with
      | some fault => return fault.outcome
      | none => (Job.ofArguments env a).run host

/-- The command on a system in some state: how it ends, and the state that it leaves. -/
def runOn {σ : Type} (system : System σ) (reader : Reader) (env : Environment)
    (arguments : List String) (s : σ) : Outcome × σ :=
  (run system.host reader env arguments).run s

end CrossAssembler.Command
