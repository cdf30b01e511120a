import CrossAssembler.FileTree
import Mathlib.Data.List.Basic
import Mathlib.Data.List.Infix

/-!
# Writing files

A file that was written is read back, as long as its path leads to where it led before, and writing
leaves all other files as they are. Paths lead through directories, so the care goes to these: writing
a file makes no directory and hides none.

* **Contents** (`contents?_put`) and **directories** (`isDirectory_put`) of a tree with another file, and
  from both what stands at each place (`node?_put`). All that follows is about places.
* **Paths** (`resolve_concat`): a path leads to its directory and on from there by its last name.
* **Places for files** (`Leads`): a path that leads into a directory still does when files are written
  (`Leads.put`). What stands there is read (`Leads.read_eq`), and it is written (`Leads.write_eq_ok`,
  `leads_of_write`) unless it is a directory, or a sink, which takes the bytes and leaves the tree as it
  is.
-/

namespace CrossAssembler

theorem PathName.dropLast_append_name {p : PathName} (h : p.parts ≠ []) :
    p.parts.dropLast ++ [p.name] = p.parts := by
  have hlast : p.name = p.parts.getLast h := by
    rw [PathName.name, List.getLast?_eq_getLast_of_ne_nil h]
    rfl
  rw [hlast, List.dropLast_append_getLast]

namespace FileTree

variable {t : FileTree} {p : PathName} {path dir : List String} {name : String}
  {data : List UInt8}

/-! ### Contents -/

/-- The first file of a list is found by its path, and the others behind it. -/
theorem lookup_cons_eq (files : List (List String × List UInt8)) (key q : List String)
    (old : List UInt8) :
    ((key, old) :: files).lookup q = if q = key then some old else files.lookup q := by
  by_cases h : q = key
  · rw [if_pos h, h, List.lookup_cons_self]
  · have hne : (q == key) = false := beq_false_of_ne h
    rw [if_neg h, List.lookup_cons, hne]

/-- A file, with other contents if it stands at a given path. -/
def replaced (path : List String) (data : List UInt8) (file : List String × List UInt8) :
    List String × List UInt8 :=
  if file.1 = path then (path, data) else file

theorem replaced_fst (path : List String) (data : List UInt8)
    (file : List String × List UInt8) : (replaced path data file).1 = file.1 := by
  unfold replaced
  split
  next h => exact h.symm
  · rfl

theorem lookup_map_replaced_of_ne (files : List (List String × List UInt8)) {path q : List String}
    (hq : q ≠ path) (data : List UInt8) :
    (files.map (replaced path data)).lookup q = files.lookup q := by
  induction files with
  | nil => rfl
  | cons file files ih =>
    obtain ⟨key, old⟩ := file
    rw [List.map_cons, replaced]
    by_cases hkey : key = path
    · rw [if_pos hkey, lookup_cons_eq, lookup_cons_eq, if_neg hq, hkey, if_neg hq, ih]
    · rw [if_neg hkey, lookup_cons_eq, lookup_cons_eq, ih]

theorem lookup_map_replaced_self (files : List (List String × List UInt8)) {path : List String}
    (h : (files.lookup path).isSome = true) (data : List UInt8) :
    (files.map (replaced path data)).lookup path = some data := by
  induction files with
  | nil => cases h
  | cons file files ih =>
    obtain ⟨key, old⟩ := file
    rw [List.map_cons, replaced]
    by_cases hkey : key = path
    · rw [if_pos hkey, lookup_cons_eq, if_pos rfl]
    · have hne : ¬ path = key := fun hpath => hkey hpath.symm
      rw [lookup_cons_eq, if_neg hne] at h
      rw [if_neg hkey, lookup_cons_eq, if_neg hne, ih h]

/-- **The file that was put is there**, and all others are as they were. -/
theorem contents?_put (t : FileTree) (path q : List String) (data : List UInt8) :
    (t.put path data).contents? q = if q = path then some data else t.contents? q := by
  unfold put contents?
  split
  -- a file of that path is there: it is replaced where it stands, and the others keep their places
  next hsome =>
    change (t.files.map (replaced path data)).lookup q = _
    split
    next hq => rw [hq, lookup_map_replaced_self _ hsome]
    next hq => exact lookup_map_replaced_of_ne _ hq data
  next hsome =>
    -- no file has the path: the new one comes last, so it hides no other
    have hnone : t.files.lookup path = none := Option.not_isSome_iff_eq_none.1 hsome
    change (t.files ++ [(path, data)]).lookup q = _
    rw [List.lookup_append, lookup_cons_eq]
    split
    next hq =>
      rw [hq, hnone]
      rfl
    · exact Option.or_none

/-- A file that is put adds its path to those of the tree, unless it is one of them. -/
theorem exists_mem_files_put {q : List String} :
    (∃ file ∈ (t.put path data).files, file.1 = q) ↔ q = path ∨ ∃ file ∈ t.files, file.1 = q := by
  unfold put
  split
  next hsome =>
    -- the file that is found under the path has the path as its key
    obtain ⟨file, hfile, hkey⟩ := List.lookup_isSome_iff.1 hsome
    have hpath : path = file.1 := beq_iff_eq.1 hkey
    change (∃ file ∈ t.files.map (replaced path data), _) ↔ _
    simp only [List.mem_map, exists_exists_and_eq_and, replaced_fst]
    -- replacing a file changes no path, and the path of the new file was there before
    refine ⟨.inr, fun h => h.elim (fun hq => ⟨file, hfile, ?_⟩) id⟩
    rw [hq, hpath]
  · simp only [List.mem_append, List.mem_singleton, or_and_right, exists_or, exists_eq_left]
    rw [or_comm, eq_comm]

/-! ### Directories -/

theorem isAbove_iff {q : List String} : isAbove path q = true ↔ path <+: q ∧ path ≠ q := by
  unfold isAbove
  rw [Bool.and_eq_true, List.isPrefixOf_iff_prefix, bne_iff_ne]

/-- What is above a directory is above all that the directory is above. -/
theorem isAbove_of_above {q : List String} (h : path <+: dir) (hq : isAbove dir q = true) :
    isAbove path q = true := by
  obtain ⟨hbefore, hne⟩ := isAbove_iff.1 hq
  refine isAbove_iff.2 ⟨h.trans hbefore, ?_⟩
  rintro rfl
  exact hne (List.IsPrefix.eq_of_length_le hbefore h.length_le)

theorem isDirectory_iff :
    t.isDirectory path = true ↔
      path <+: t.here ∨ (∃ dir ∈ t.directories, path <+: dir) ∨
        (∃ sink ∈ t.sinks, isAbove path sink = true) ∨
        ∃ q, (∃ file ∈ t.files, file.1 = q) ∧ isAbove path q = true := by
  unfold isDirectory
  simp only [Bool.or_eq_true, List.any_eq_true, List.isPrefixOf_iff_prefix, or_assoc]
  have hfiles : (∃ file ∈ t.files, isAbove path file.1 = true) ↔
      ∃ q, (∃ file ∈ t.files, file.1 = q) ∧ isAbove path q = true := by
    constructor
    · rintro ⟨file, hfile, habove⟩
      exact ⟨file.1, ⟨file, hfile, rfl⟩, habove⟩
    · rintro ⟨_, ⟨file, hfile, rfl⟩, habove⟩
      exact ⟨file, hfile, habove⟩
  rw [hfiles]

/-- What is above a directory is one. -/
theorem isDirectory_of_above (h : path <+: dir) (hdir : t.isDirectory dir = true) :
    t.isDirectory path = true := by
  rw [isDirectory_iff] at hdir ⊢
  -- a directory is one because something is below it: the current directory, a listed one,
  -- a sink or a file; the same is below what is above it
  rcases hdir with hhere | ⟨listed, hlisted, hbelow⟩ | ⟨sink, hsink, habove⟩ | ⟨q, hq, habove⟩
  · exact .inl (h.trans hhere)
  · exact .inr (.inl ⟨listed, hlisted, h.trans hbelow⟩)
  · exact .inr (.inr (.inl ⟨sink, hsink, isAbove_of_above h habove⟩))
  · exact .inr (.inr (.inr ⟨q, hq, isAbove_of_above h habove⟩))

/-- The directory that a path starts from is one. -/
theorem isDirectory_start (t : FileTree) (root : String) : t.isDirectory (t.start root) = true := by
  -- a path starts at the root or in the current directory, and the root is above all
  refine isDirectory_iff.2 (.inl ?_)
  unfold start
  split
  · exact List.prefix_refl _
  · exact List.nil_prefix

/-- **A file in a directory makes no other directory**, as all that is above the file is above the
directory too. -/
theorem isDirectory_put (hdir : t.isDirectory dir = true) (name : String) (data : List UInt8)
    (path : List String) :
    (t.put (dir ++ [name]) data).isDirectory path = t.isDirectory path := by
  rw [Bool.eq_iff_iff]
  constructor
  · intro h
    rcases isDirectory_iff.1 h with hhere | hlisted | hsink | ⟨q, hq, habove⟩
    · exact isDirectory_iff.2 (.inl hhere)
    · exact isDirectory_iff.2 (.inr (.inl hlisted))
    · exact isDirectory_iff.2 (.inr (.inr (.inl hsink)))
    · rcases exists_mem_files_put.1 hq with rfl | hold
      · -- the directories above the new file are those above its directory
        obtain ⟨hbefore, hne⟩ := isAbove_iff.1 habove
        rcases List.prefix_concat_iff.1 hbefore with hsame | hdirectory
        · exact absurd hsame hne
        · exact isDirectory_of_above hdirectory hdir
      · exact isDirectory_iff.2 (.inr (.inr (.inr ⟨q, hold, habove⟩)))
  · intro h
    rcases isDirectory_iff.1 h with hhere | hlisted | hsink | ⟨q, hq, habove⟩
    · exact isDirectory_iff.2 (.inl hhere)
    · exact isDirectory_iff.2 (.inr (.inl hlisted))
    · exact isDirectory_iff.2 (.inr (.inr (.inl hsink)))
    · exact isDirectory_iff.2 (.inr (.inr (.inr ⟨q, exists_mem_files_put.2 (.inr hq), habove⟩)))

/-! ### Places -/

theorem node?_of_contents? (h : t.contents? path = some data) :
    t.node? path = some (.file path data) := by
  rw [node?, h]

/-- A file stands at its own path. -/
theorem contents?_of_node? {q : List String} (h : t.node? path = some (.file q data)) :
    q = path ∧ t.contents? path = some data := by
  unfold node? at h
  split at h
  next old hold =>
    cases h
    exact ⟨rfl, hold⟩
  next hnone =>
    split at h
    · cases h
    · split at h <;> cases h

/-- A directory stands at its own path. -/
theorem isDirectory_of_node? {q : List String} (h : t.node? path = some (.directory q)) :
    q = path ∧ t.isDirectory path = true := by
  unfold node? at h
  split at h
  · cases h
  · split at h
    · cases h
    · split at h
      next hdir =>
        cases h
        exact ⟨rfl, hdir⟩
      · cases h

/-- Without sinks, all that stands somewhere is a file or a directory. -/
theorem node?_ne_sink (hsinks : t.sinks = []) (path : List String) : t.node? path ≠ some .sink := by
  unfold node?
  rw [hsinks, List.contains_nil]
  split
  · intro h
    cases h
  · intro h
    split at h
    next hmem => cases hmem
    · split at h <;> cases h

/-- A place where a file can be put: nothing is there, or a file. Whether the directory above it is there
is another question. -/
def Free (t : FileTree) (path : List String) : Prop :=
  t.node? path = none ∨ ∃ data, t.contents? path = some data

/-- A place where no file can be, as a directory is there. -/
def Blocked (t : FileTree) (path : List String) : Prop :=
  t.node? path = some (.directory path)

/-- Without sinks, only a directory keeps a file away. -/
theorem free_of_not_blocked (hsinks : t.sinks = []) (h : ¬ t.Blocked path) : t.Free path := by
  cases hnode : t.node? path with
  | none => exact .inl hnode
  | some node =>
    cases node with
    | file q data => exact .inr ⟨data, (contents?_of_node? hnode).2⟩
    | sink => exact absurd hnode (node?_ne_sink hsinks path)
    | directory q =>
      obtain ⟨rfl, -⟩ := isDirectory_of_node? hnode
      exact absurd hnode h

theorem Free.node?_ne_directory (h : t.Free path) (q : List String) :
    t.node? path ≠ some (.directory q) := by
  intro hnode
  rcases h with hnone | ⟨data, hdata⟩
  · rw [hnone] at hnode
    cases hnode
  · rw [node?_of_contents? hdata] at hnode
    cases hnode

/-- **What stands where**, once a file is in a directory: the file, and all else as before. -/
theorem node?_put (hdir : t.isDirectory dir = true) (q : List String) :
    (t.put (dir ++ [name]) data).node? q =
      if q = dir ++ [name] then some (.file q data) else t.node? q := by
  unfold node?
  rw [contents?_put, isDirectory_put hdir]
  by_cases hsame : q = dir ++ [name]
  · rw [if_pos hsame, if_pos hsame]
  · rw [if_neg hsame, if_neg hsame]
    rfl

/-! ### Paths -/

section Steps

variable {start : List String} {rest : List String}

theorem resolve_skip (h : name = "" ∨ name = ".") :
    t.resolve start (name :: rest) = t.resolve start rest := by
  rw [resolve, if_pos h]

theorem resolve_up : t.resolve start (".." :: rest) = t.resolve start.dropLast rest := by
  rw [resolve]
  rfl

/-- A name that can stand in a directory. -/
structure IsName (name : String) : Prop where
  ne_here : ¬ (name = "" ∨ name = ".")
  ne_above : name ≠ ".."
  short : ¬ maxName < name.utf8ByteSize

theorem resolve_long (hhere : ¬ (name = "" ∨ name = ".")) (habove : name ≠ "..")
    (h : maxName < name.utf8ByteSize) : t.resolve start (name :: rest) = .error .tooLong := by
  rw [resolve, if_neg hhere, if_neg habove, if_pos h]

/-- A name leads to what stands there, and only a directory leads on. -/
def enter (t : FileTree) (rest : List String) : Option Node → Except Obstacle Node
  | none => .error .missing
  | some (.directory path) => t.resolve path rest
  | some node => if rest = [] then .ok node else .error .notDirectory

theorem resolve_name (hname : IsName name) :
    t.resolve dir (name :: rest) = t.enter rest (t.node? (dir ++ [name])) := by
  rw [resolve, if_neg hname.ne_here, if_neg hname.ne_above, if_neg hname.short]
  unfold enter
  rfl

end Steps

/-- One more name behind the place that a path has reached. -/
def further (t : FileTree) (name : String) : Except Obstacle Node → Except Obstacle Node
  | .ok (.directory dir) => t.resolve dir [name]
  | .ok _ => .error .notDirectory
  | .error obstacle => .error obstacle

/-- **A path leads to its directory**, and on from there by its last name. Whatever name stands last, the
way to the directory is the same. -/
theorem resolve_concat (t : FileTree) (start : List String) (names : List String)
    (name : String) :
    t.resolve start (names ++ [name]) = t.further name (t.resolve start names) := by
  -- the names are gone through one by one, and each step starts where the one before has led
  induction names generalizing start with
  | nil => rfl
  | cons part rest ih =>
    rw [List.cons_append]
    by_cases hskip : part = "" ∨ part = "."
    · rw [resolve_skip hskip, resolve_skip hskip, ih]
    by_cases hup : part = ".."
    · rw [hup, resolve_up, resolve_up, ih]
    by_cases hlong : maxName < part.utf8ByteSize
    · rw [resolve_long hskip hup hlong, resolve_long hskip hup hlong]
      rfl
    rw [resolve_name ⟨hskip, hup, hlong⟩, resolve_name ⟨hskip, hup, hlong⟩]
    have hmore : rest ++ [name] ≠ [] := List.append_ne_nil_of_right_ne_nil _ (List.cons_ne_nil _ _)
    -- a file or a sink ends the way, whether the path goes on by one name or by more
    cases t.node? (start ++ [part]) with
    | none => rfl
    | some node =>
      cases node with
      | directory path => exact ih path
      | file path data =>
        dsimp only [enter]
        rw [if_neg hmore]
        split <;> rfl
      | sink =>
        dsimp only [enter]
        rw [if_neg hmore]
        split <;> rfl

/-- The first step of a path to a directory: it stays, it goes up, or it enters a directory. -/
theorem resolve_cons_directory {start rest target : List String} {part : String}
    (h : t.resolve start (part :: rest) = .ok (.directory target)) :
    ((part = "" ∨ part = ".") ∧ t.resolve start rest = .ok (.directory target)) ∨
      (part = ".." ∧ t.resolve start.dropLast rest = .ok (.directory target)) ∨
      (IsName part ∧ t.node? (start ++ [part]) = some (.directory (start ++ [part])) ∧
        t.resolve (start ++ [part]) rest = .ok (.directory target)) := by
  by_cases hskip : part = "" ∨ part = "."
  · rw [resolve_skip hskip] at h
    exact .inl ⟨hskip, h⟩
  by_cases hup : part = ".."
  · rw [hup, resolve_up] at h
    exact .inr (.inl ⟨hup, h⟩)
  by_cases hlong : maxName < part.utf8ByteSize
  · rw [resolve_long hskip hup hlong] at h
    cases h
  -- a name leads on only where a directory stands under it
  rw [resolve_name ⟨hskip, hup, hlong⟩] at h
  cases hnode : t.node? (start ++ [part]) with
  | none =>
    rw [hnode] at h
    cases h
  | some node =>
    rw [hnode] at h
    cases node with
    | directory path =>
      obtain ⟨rfl, -⟩ := isDirectory_of_node? hnode
      exact .inr (.inr ⟨⟨hskip, hup, hlong⟩, rfl, h⟩)
    | file path data =>
      dsimp only [enter] at h
      split at h <;> cases h
    | sink =>
      dsimp only [enter] at h
      split at h <;> cases h

/-- A directory that a path reaches from a directory is one. -/
theorem isDirectory_of_resolve {start names : List String} (hstart : t.isDirectory start = true)
    (h : t.resolve start names = .ok (.directory dir)) : t.isDirectory dir = true := by
  induction names generalizing start with
  | nil =>
    cases h
    exact hstart
  | cons part rest ih =>
    rcases resolve_cons_directory h with ⟨-, h⟩ | ⟨-, h⟩ | ⟨-, hnode, h⟩
    · exact ih hstart h
    · -- above a directory there are directories only, and the root is above itself
      exact ih (isDirectory_of_above (List.dropLast_prefix _) hstart) h
    · exact ih (isDirectory_of_node? hnode).2 h

/-- A path to a directory leads there also when a file is put where no directory hides it. -/
theorem resolve_put {start names target : List String}
    (hdir : t.isDirectory dir = true) (hfree : t.Free (dir ++ [name]))
    (h : t.resolve start names = .ok (.directory target)) :
    (t.put (dir ++ [name]) data).resolve start names = .ok (.directory target) := by
  induction names generalizing start with
  | nil => exact h
  | cons part rest ih =>
    rcases resolve_cons_directory h with ⟨hskip, h⟩ | ⟨rfl, h⟩ | ⟨hname, hnode, h⟩
    · rw [resolve_skip hskip]
      exact ih h
    · rw [resolve_up]
      exact ih h
    · -- a directory on the way is not where the file is put
      have hne : start ++ [part] ≠ dir ++ [name] := by
        intro heq
        rw [heq] at hnode
        exact hfree.node?_ne_directory _ hnode
      rw [resolve_name hname, node?_put hdir, if_neg hne, hnode]
      exact ih h

/-! ### Places for files -/

/-- A path that leads into a directory, by a name that can stand there. Whether something stands there
under that name is left open, so such a path stays one when files are written. -/
structure Leads (t : FileTree) (p : PathName) (dir : List String) : Prop where
  named : p.parts ≠ []
  no_null : ¬ p.text.toList.contains '\x00' = true
  short : ¬ maxPath < p.text.utf8ByteSize
  directory : t.resolve (t.start p.root) p.parts.dropLast = .ok (.directory dir)
  name : IsName p.name

theorem find_eq_further (hnamed : p.parts ≠ []) (hnull : ¬ p.text.toList.contains '\x00' = true)
    (hshort : ¬ maxPath < p.text.utf8ByteSize) :
    t.find p = t.further p.name (t.resolve (t.start p.root) p.parts.dropLast) := by
  rw [find, if_neg hnull, if_neg hshort, ← resolve_concat, PathName.dropLast_append_name hnamed]

namespace Leads

theorem isDirectory (h : t.Leads p dir) : t.isDirectory dir = true :=
  isDirectory_of_resolve (t.isDirectory_start p.root) h.directory

/-- A path leads to what stands in its directory under its last name. -/
theorem find_eq (h : t.Leads p dir) : t.find p = t.enter [] (t.node? (dir ++ [p.name])) := by
  rw [find_eq_further h.named h.no_null h.short, h.directory]
  exact resolve_name h.name

/-- The file at a path is read. -/
theorem read_eq (h : t.Leads p dir) (hdata : t.contents? (dir ++ [p.name]) = some data) :
    t.read p = .ok data := by
  unfold read
  rw [h.find_eq, node?_of_contents? hdata]
  rfl

/-- A file can be written where nothing or a file is. -/
theorem write_eq_ok (h : t.Leads p dir) (hfree : t.Free (dir ++ [p.name])) :
    t.write p data = .ok (t.put (dir ++ [p.name]) data) := by
  unfold write
  rw [h.find_eq]
  -- a new file is put into the directory, and one that is there is replaced
  rcases hfree with hnone | ⟨old, hold⟩
  · rw [hnone]
    dsimp only [enter]
    rw [h.directory]
  · rw [node?_of_contents? hold]
    rfl

theorem write_eq_error (h : t.Leads p dir) (hblocked : t.Blocked (dir ++ [p.name])) :
    t.write p data = .error (.isDirectory p.text) := by
  unfold write
  rw [h.find_eq, hblocked]
  rfl

/-- A path leads where it led when a file is written. -/
theorem put (h : t.Leads p dir) {dir' : List String} (hdir : t.isDirectory dir' = true)
    (hfree : t.Free (dir' ++ [name])) : (t.put (dir' ++ [name]) data).Leads p dir :=
  ⟨h.named, h.no_null, h.short, resolve_put hdir hfree h.directory, h.name⟩

end Leads

theorem blocked_put (hdir : t.isDirectory dir = true) :
    (t.put (dir ++ [name]) data).Blocked path ↔ t.Blocked path ∧ path ≠ dir ++ [name] := by
  unfold Blocked
  rw [node?_put hdir]
  split
  next hsame =>
    refine ⟨fun hblocked => ?_, fun hother => absurd hsame hother.2⟩
    cases hblocked
  next hother => exact ⟨fun hblocked => ⟨hblocked, hother⟩, And.left⟩

/-- What a last name leads to in a directory: a directory, too long a name, or what stands there. -/
theorem resolve_name_cases (t : FileTree) (dir : List String) (name : String) :
    (∃ target, t.resolve dir [name] = .ok (.directory target)) ∨
      t.resolve dir [name] = .error .tooLong ∨
      (IsName name ∧ t.resolve dir [name] = t.enter [] (t.node? (dir ++ [name]))) := by
  by_cases hskip : name = "" ∨ name = "."
  · exact .inl ⟨dir, resolve_skip hskip⟩
  by_cases hup : name = ".."
  · subst hup
    exact .inl ⟨dir.dropLast, resolve_up⟩
  by_cases hlong : maxName < name.utf8ByteSize
  · exact .inr (.inl (resolve_long hskip hup hlong))
  exact .inr (.inr ⟨⟨hskip, hup, hlong⟩, resolve_name ⟨hskip, hup, hlong⟩⟩)

/-- **A file was written where its path leads**, and nothing or a file was there; or a sink was, and the
tree is as before. -/
theorem leads_of_write {t' : FileTree} (h : t.write p data = .ok t') :
    ∃ dir, t.Leads p dir ∧ ((t.node? (dir ++ [p.name]) = some .sink ∧ t' = t) ∨
      (t.Free (dir ++ [p.name]) ∧ t' = t.put (dir ++ [p.name]) data)) := by
  -- a text that no path can have, or one without a name, stops the writing at once
  have hnull : ¬ p.text.toList.contains '\x00' = true := by
    intro hnull
    rw [write, find, if_pos hnull] at h
    cases h
  have hshort : ¬ maxPath < p.text.utf8ByteSize := by
    intro hlong
    rw [write, find, if_neg hnull, if_pos hlong] at h
    cases h
  have hnamed : p.parts ≠ [] := by
    intro hnil
    rw [write, find, if_neg hnull, if_neg hshort, hnil] at h
    cases h
  rw [write, find_eq_further hnamed hnull hshort] at h
  -- the way to the directory comes first: any obstacle there stops the writing
  cases hplace : t.resolve (t.start p.root) p.parts.dropLast with
  | error obstacle =>
    rw [hplace] at h
    cases obstacle <;> cases h
  | ok node =>
    rw [hplace] at h
    cases node with
    | file path old => cases h
    | sink => cases h
    | directory dir =>
      -- the directory was found, and what its name leads to there decides
      dsimp only [further] at h
      rcases resolve_name_cases t dir p.name with ⟨_, hdir⟩ | hlong | ⟨hname, hthere⟩
      · rw [hdir] at h
        cases h
      · rw [hlong] at h
        cases h
      · rw [hthere] at h
        have hleads : t.Leads p dir := ⟨hnamed, hnull, hshort, hplace, hname⟩
        cases hnode : t.node? (dir ++ [p.name]) with
        | none =>
          rw [hnode] at h
          cases h
          exact ⟨dir, hleads, .inr ⟨.inl hnode, rfl⟩⟩
        | some node =>
          rw [hnode] at h
          cases node with
          | directory path => cases h
          | sink =>
            cases h
            exact ⟨dir, hleads, .inl ⟨hnode, rfl⟩⟩
          | file path old =>
            obtain ⟨rfl, hold⟩ := contents?_of_node? hnode
            cases h
            exact ⟨dir, hleads, .inr ⟨.inr ⟨old, hold⟩, rfl⟩⟩

/-! ### The tree as a system -/

/-- A write that succeeds leaves the tree with the file. -/
theorem system_write_eq_ok_iff {after : FileTree} :
    system.write t p data = (.ok (), after) ↔ t.write p data = .ok after := by
  -- the system keeps the tree of a write that succeeds, and the old one otherwise
  change t.settle (t.write p data) = _ ↔ _
  cases t.write p data with
  | ok written => simp [settle]
  | error fault => simp [settle]

/-- A write that fails leaves the tree as it was. -/
theorem system_write_eq_error {fault : FileFault} {after : FileTree}
    (h : system.write t p data = (.error fault, after)) :
    t.write p data = .error fault ∧ after = t := by
  change t.settle (t.write p data) = _ at h
  cases hwrite : t.write p data with
  | ok written =>
    rw [hwrite] at h
    cases h
  | error refusal =>
    rw [hwrite] at h
    cases h
    exact ⟨rfl, rfl⟩

end FileTree

end CrossAssembler
