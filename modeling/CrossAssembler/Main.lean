import CrossAssembler.Command.Run

/-!
# The program

The command on the files of the disk, with the environment of the process. All that is decided is
decided by `Command.run`; here files are read and written, and text is printed. A failure that no case
of `FileFault` stands for keeps the words of the system.
-/

namespace CrossAssembler.Disk

/-- The system's number for a directory where a file is needed. -/
def directoryCode : UInt32 := 21

/-- The system's number for a path that cannot be one. -/
def invalidCode : UInt32 := 22

/-- The fault that stands for a failure at a path. -/
def fault (path : String) : IO.Error → FileFault
  | .noFileOrDirectory _ _ _ => .noSuchFile path
  | .inappropriateType _ code _ =>
    if code = directoryCode then .isDirectory path else .notDirectory path
  | .invalidArgument _ code _ =>
    if code = invalidCode then .nullInName else .nameTooLong path
  | .permissionDenied _ code words => .denied s!"[Errno {code}] {words}: {Text.quoted path}"
  | e => .failed (toString e)

/-- What an action at a path gives, or the fault that stands for its failure. -/
def attempt {α : Type} (path : String) (action : IO α) : IO (Except FileFault α) := do
  match ← action.toBaseIO with
  | .ok a => return .ok a
  | .error e => return .error (fault path e)

/-- Text on the output of the process, which is not kept back. -/
def printNow (text : String) : IO Unit := do
  IO.print text
  (← IO.getStdout).flush

/-- The disk and the output of the process. -/
def host : Host IO where
  status path := do
    match ← attempt path (IO.FS.readBinFile path) with
    | .ok _ | .error (.failed _) => return .file
    | .error (.isDirectory _) => return .directory
    | .error (.denied _) => return .unreadable
    | .error _ => return .missing
  read path := do
    let bytes ← attempt path.text (IO.FS.readBinFile path.text)
    return bytes.bind fun bytes => Text.ofFile bytes.toList
  write path data := attempt path.text (IO.FS.writeBinFile path.text ⟨data.toArray⟩)
  print text := attempt "<stdout>" (printNow text)

/-- The settings that the environment of the process holds. -/
def environment : IO Environment := do
  return {
    cpu := ← IO.getEnv "Z80ASM_CPU"
    origin := ← IO.getEnv "Z80ASM_ORIGIN"
    fill := ← IO.getEnv "Z80ASM_FILL" }

end CrossAssembler.Disk

open CrossAssembler in
/-- The command line program. Its output has been printed by the time that the command ends. -/
def main (arguments : List String) : IO UInt32 := do
  let outcome ← Command.run Disk.host Command.Arguments.read (← Disk.environment) arguments
  IO.eprint outcome.errors
  return UInt32.ofNat outcome.exit
