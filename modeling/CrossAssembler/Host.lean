import CrossAssembler.PathName

/-!
# The host of a command

A command reaches files, and the stream that it prints on, through a `Host` and in no other way. What
the host does is not the command's to decide, so little is asked of it: a `System` answers each request
from its state, and only a request to write can change the state.

Nothing is said of how paths lead to files. Two paths may lead to one file, a path to a device that keeps
nothing, and the user may lack the right to read or write. A write that fails need not leave the state
as it was: a disk that fills up has cut the old file short by then. How bytes become text is left to the
system as well. The one law is that a path without names, which is a root or the current directory, is
no file.

What is printed goes to a stream that is no file of the system.
-/

namespace CrossAssembler

/-- What a path leads to. -/
inductive PathStatus where
  | file
  | directory
  /-- Something that the user may not read. -/
  | unreadable
  | missing
  deriving DecidableEq, Repr

/-- Access to files: what a written path leads to, the text of a file, and writing one. -/
structure FileAccess (m : Type → Type) where
  status : String → m PathStatus
  read : PathName → m (Except FileFault String)
  write : PathName → List UInt8 → m (Except FileFault Unit)

/-- All that a command can ask for: files, and text to be printed. -/
structure Host (m : Type → Type) extends FileAccess m where
  print : String → m (Except FileFault Unit)

/-- A system with states of type `σ`: what it answers in a state, and the state that a write leaves,
whether it fails or not. -/
structure System (σ : Type) where
  status : σ → String → PathStatus
  read : σ → PathName → Except FileFault String
  write : σ → PathName → List UInt8 → Except FileFault Unit × σ
  print : σ → String → Except FileFault Unit
  /-- A file has a name. -/
  named : ∀ (s : σ) (path : String), status s path = .file → (PathName.ofText path).parts ≠ []

/-- The host that a system is, for a command that runs from state to state. -/
def System.host {σ : Type} (system : System σ) : Host (StateM σ) where
  status path := return system.status (← get) path
  read path := return system.read (← get) path
  write path data := modifyGet fun s => system.write s path data
  print line := return system.print (← get) line

end CrossAssembler
