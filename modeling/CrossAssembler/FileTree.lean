import CrossAssembler.Host
import CrossAssembler.Text.Utf8

/-!
# File trees

A `FileTree` is a plain file system: files and directories below one root, a current directory, and
places such as `/dev/null` that take whatever is written and keep none of it. There are no links, every
file may be read and written, there is always room, and text is encoded as UTF-8. So what a command does
to files can be stated and computed without any disk (`FileTree.system`).

Directories need not be listed: the current directory is one, and so is all that the path of a file, of
a listed directory or of a sink passes through. The directory above the root is the root.
-/

namespace CrossAssembler

/-- The files of a plain file system, by the names on their paths from the root. -/
structure FileTree where
  files : List (List String × List UInt8) := []
  /-- Directories that may hold no file. -/
  directories : List (List String) := []
  /-- Places that take all bytes and keep none. -/
  sinks : List (List String) := []
  /-- The current directory. -/
  here : List String := []
  deriving DecidableEq, Repr

namespace FileTree

/-- A place that a path reaches. -/
inductive Node where
  | file (path : List String) (data : List UInt8)
  | sink
  | directory (path : List String)
  deriving DecidableEq, Repr

/-- Why a path reaches no place. -/
inductive Obstacle where
  | missing
  /-- A name is followed by more, but is no directory. -/
  | notDirectory
  /-- The path, or a name on it, is longer than any can be. -/
  | tooLong
  /-- The path holds the null character, which ends every name. -/
  | nullCharacter
  deriving DecidableEq, Repr

/-- The longest name, in bytes. -/
def maxName : Nat := 255

/-- The longest path, in bytes. -/
def maxPath : Nat := 4095

/-- The contents of the file at a path. -/
def contents? (t : FileTree) (path : List String) : Option (List UInt8) :=
  t.files.lookup path

/-- A path that leads to another one, further down. -/
def isAbove (path below : List String) : Bool :=
  path.isPrefixOf below && path != below

/-- A path that is a directory, since something is said to be in it or it is said to be one. -/
def isDirectory (t : FileTree) (path : List String) : Bool :=
  path.isPrefixOf t.here || t.directories.any (fun dir => path.isPrefixOf dir) ||
    t.sinks.any (isAbove path) || t.files.any fun file => isAbove path file.1

/-- What stands at a path from the root. -/
def node? (t : FileTree) (path : List String) : Option Node :=
  match t.contents? path with
  | some data => some (.file path data)
  | none =>
    if t.sinks.contains path then some .sink
    else if t.isDirectory path then some (.directory path)
    else none

/-- The place that names lead to from a directory. -/
def resolve (t : FileTree) (dir : List String) : List String → Except Obstacle Node
  | [] => .ok (.directory dir)
  | name :: rest =>
    if name = "" ∨ name = "." then t.resolve dir rest
    else if name = ".." then t.resolve dir.dropLast rest
    else if maxName < name.utf8ByteSize then .error .tooLong
    else match t.node? (dir ++ [name]) with
      | none => .error .missing
      | some (.directory path) => t.resolve path rest
      | some node => if rest = [] then .ok node else .error .notDirectory

/-- The directory that a path with this root starts from. -/
def start (t : FileTree) (root : String) : List String :=
  if root = "" then t.here else []

/-- The place that a path leads to. -/
def find (t : FileTree) (p : PathName) : Except Obstacle Node :=
  if p.text.toList.contains '\x00' then .error .nullCharacter
  else if maxPath < p.text.utf8ByteSize then .error .tooLong
  else t.resolve (t.start p.root) p.parts

/-- What a written path leads to. A slash at its end asks for a directory. -/
def status (t : FileTree) (s : String) : PathStatus :=
  if s = "" ∨ maxPath < s.utf8ByteSize then .missing
  else match t.resolve (t.start (PathName.rootOf s.toList)) (s.splitOn "/") with
    | .ok (.directory _) => .directory
    | .ok _ => .file
    | .error _ => .missing

/-- The fault of a path that meets an obstacle. -/
def Obstacle.fault (p : PathName) : Obstacle → FileFault
  | missing => .noSuchFile p.text
  | notDirectory => .notDirectory p.text
  | tooLong => .nameTooLong p.text
  | nullCharacter => .nullInName

/-- The contents of a file. -/
def read (t : FileTree) (p : PathName) : Except FileFault (List UInt8) :=
  match t.find p with
  | .ok (.file _ data) => .ok data
  | .ok .sink => .ok []
  | .ok (.directory _) => .error (.isDirectory p.text)
  | .error obstacle => .error (obstacle.fault p)

/-- The text of a file. -/
def readText (t : FileTree) (p : PathName) : Except FileFault String :=
  t.read p >>= Text.ofFile

/-- The tree with other contents at a path. -/
def put (t : FileTree) (path : List String) (data : List UInt8) : FileTree :=
  { t with
    files :=
      if (t.contents? path).isSome then
        t.files.map fun file => if file.1 = path then (path, data) else file
      else t.files ++ [(path, data)] }

/-- The tree after writing a file, whose directory has to be there. -/
def write (t : FileTree) (p : PathName) (data : List UInt8) : Except FileFault FileTree :=
  match t.find p with
  | .ok (.file path _) => .ok (t.put path data)
  | .ok .sink => .ok t
  | .ok (.directory _) => .error (.isDirectory p.text)
  | .error .missing =>
    match t.resolve (t.start p.root) p.parts.dropLast with
    | .ok (.directory dir) => .ok (t.put (dir ++ [p.name]) data)
    | _ => .error (.noSuchFile p.text)
  | .error obstacle => .error (obstacle.fault p)

/-- A path that leads to no directory has a name on it. -/
theorem exists_name_of_resolve {t : FileTree} {dir names : List String} {node : Node}
    (hnode : ∀ path, node ≠ .directory path) (h : t.resolve dir names = .ok node) :
    ∃ name ∈ names, ¬(name = "" ∨ name = ".") := by
  induction names generalizing dir with
  | nil =>
    cases h
    exact absurd rfl (hnode dir)
  | cons name rest ih =>
    by_cases hskip : name = "" ∨ name = "."
    · rw [resolve, if_pos hskip] at h
      obtain ⟨further, hmem, hname⟩ := ih h
      exact ⟨further, List.mem_cons_of_mem _ hmem, hname⟩
    · exact ⟨name, List.mem_cons_self, hskip⟩

/-- A written path that leads to a file does not end in nothing. -/
theorem parts_ne_nil_of_status {t : FileTree} {s : String} (h : t.status s = .file) :
    (PathName.ofText s).parts ≠ [] := by
  unfold status at h
  split at h
  · cases h
  · split at h
    · cases h
    next node hdirectory hplace =>
      obtain ⟨name, hmem, hname⟩ := exists_name_of_resolve hdirectory hplace
      rw [not_or] at hname
      refine List.ne_nil_of_mem (a := name) (List.mem_filter.2 ⟨hmem, ?_⟩)
      rw [Bool.and_eq_true, bne_iff_ne, bne_iff_ne]
      exact hname
    · cases h

/-- What a write comes to in a tree: one that fails changes nothing. -/
def settle (t : FileTree) : Except FileFault FileTree → Except FileFault Unit × FileTree
  | .ok after => (.ok (), after)
  | .error fault => (.error fault, t)

/-- A file tree as a system: a write that fails changes nothing, and all that is printed is shown. -/
def system : System FileTree where
  status := status
  read := readText
  write t p data := t.settle (t.write p data)
  print _ _ := .ok ()
  named _ _ := parts_ne_nil_of_status

/-- The tree of files given by their paths from the current directory. -/
def below (here : List String) (files : List (List String × List UInt8))
    (sinks : List (List String) := []) : FileTree :=
  { files := files.map fun file => (here ++ file.1, file.2), sinks := sinks, here := here }

/-- The files below the current directory that an earlier tree does not hold or holds with other
contents, by their paths from there. -/
def changedSince (t before : FileTree) : List (String × List UInt8) :=
  let changed := t.files.filter fun file =>
    isAbove t.here file.1 && before.contents? file.1 != some file.2
  (changed.map fun file => ("/".intercalate (file.1.drop t.here.length), file.2)).mergeSort
    fun a b => a.1 ≤ b.1

end FileTree

end CrossAssembler
