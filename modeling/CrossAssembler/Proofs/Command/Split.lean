import CrossAssembler.Proofs.Command.Course
import CrossAssembler.Proofs.FileTree.Write
import CrossAssembler.Proofs.Region.Image
import CrossAssembler.Proofs.Text.Hex

/-!
# Files of regions

With `--split` the command writes a file for each region, one after the other. The files stand beside
the output, under names that are made from the bases of the regions. So they all lead to one
directory, and regions with different bases have different files.

* **Names** (`regionName_inj`) tell bases apart, and one is as long as the other.
* **In order** (`SplitEnd`): on any system whatever, the regions are written one after the other, and a run
  that stops has written those in front of the place where it stopped. Nothing is taken back.
* **Files of a tree** (`Filed`): what holds once the files of some regions are written, one region at a
  time.
* **The run** (`split_files`): in a plain file system, a run that ends well leaves the bytes of the last
  region of each base in a file of its own. A run that does not end well has changed nothing, unless it
  has met a directory where the file of a later region should be.
-/

namespace CrossAssembler

open FileTree

/-! ### Bases -/

theorem numberUpTo?_bounds {limit v : Int} {text : String} (h : numberUpTo? limit text = some v) :
    0 ≤ v ∧ v ≤ limit :=
  of_decide_eq_true (Option.filter_eq_some_iff.1 h).2

/-- A number from an option, if there is one, lies in the range of the option. -/
theorem getD_numberUpTo?_bounds {limit default : Int} (hdefault : 0 ≤ default ∧ default ≤ limit)
    (text? : Option String) :
    0 ≤ (text?.bind (numberUpTo? limit)).getD default ∧
      (text?.bind (numberUpTo? limit)).getD default ≤ limit := by
  cases hv : text?.bind (numberUpTo? limit) with
  | none => exact hdefault
  | some v =>
    obtain ⟨text, -, htext⟩ := Option.bind_eq_some_iff.1 hv
    exact numberUpTo?_bounds htext

namespace Command

/-- A job starts in the address space. -/
theorem Job.origin_bounds (env : Environment) (a : Arguments) :
    0 ≤ (Job.ofArguments env a).settings.origin ∧
      (Job.ofArguments env a).settings.origin ≤ 0xFFFF := by
  have henv : 0 ≤ (Settings.ofEnvironment env).origin ∧
      (Settings.ofEnvironment env).origin ≤ 0xFFFF :=
    getD_numberUpTo?_bounds ⟨le_rfl, by decide⟩ env.origin
  exact getD_numberUpTo?_bounds henv (a.value? .origin)

/-- The regions that a job makes lie in the address space. -/
theorem Job.Assembles.placed {σ : Type} {system : System σ} {s : σ} {env : Environment}
    {arguments : Arguments} {output : PathName} {a : Assembly}
    (h : (Job.ofArguments env arguments).Assembles system s output a) :
    ∀ r ∈ a.regions, r.Placed := by
  obtain ⟨source, -, hsource⟩ := bind_eq_ok_iff.1 h.assembly
  obtain ⟨hlow, hhigh⟩ := Job.origin_bounds env arguments
  exact Assembly.placed_regions hlow hhigh hsource

/-! ### Names -/

/-- The name of the file of a region: the stem of the output and the base in four digits. -/
def regionName (output : PathName) (r : Region) : String :=
  output.stem ++ "_" ++ Hex.wide 4 r.base ++ ".bin"

/-- The path of the file of a region, next to the output. -/
def regionPath (output : PathName) (r : Region) : PathName :=
  { output with parts := output.parts.dropLast ++ [regionName output r] }

variable {output : PathName} {r s : Region}

theorem name_regionPath : (regionPath output r).name = regionName output r := by
  unfold PathName.name regionPath
  rw [List.getLast?_concat]
  rfl

theorem dropLast_regionPath : (regionPath output r).parts.dropLast = output.parts.dropLast :=
  List.dropLast_concat

/-- One name is as long as the other. -/
theorem utf8ByteSize_regionName (hr : r.Placed) :
    (regionName output r).utf8ByteSize = output.stem.utf8ByteSize + 9 := by
  have hlow : 0 ≤ r.base := hr.base_nonneg
  have hhigh : r.base < 16 ^ 4 := by
    have hlength := List.length_pos_of_ne_nil hr.data_ne_nil
    have hfinish : r.base + r.data.length ≤ addressSpace := hr.finish_le
    -- four digits are enough for an address
    change r.base < addressSpace
    omega
  unfold regionName
  rw [String.utf8ByteSize_append, String.utf8ByteSize_append, String.utf8ByteSize_append,
    Hex.utf8ByteSize_wide (by decide) hlow hhigh]
  rfl

/-- A name holds a null character only if the stem does. -/
theorem mem_regionName_iff (hr : 0 ≤ r.base) :
    '\x00' ∈ (regionName output r).toList ↔ '\x00' ∈ output.stem.toList := by
  -- the digits and the fixed parts of a name are no null characters
  have hdigits : '\x00' ∉ (Hex.wide 4 r.base).toList := by
    intro hmem
    cases Hex.isDigit_of_mem_wide hr _ hmem
  unfold regionName
  rw [String.toList_append, String.toList_append, String.toList_append]
  simp [hdigits]

/-- A name that is not too long can stand in a directory. -/
theorem isName_regionName (hr : r.Placed) (hshort : ¬ maxName < output.stem.utf8ByteSize + 9) :
    IsName (regionName output r) := by
  -- with nine bytes or more it is none of the names that stand for directories
  have hsize : ∀ name : String, regionName output r = name → 9 ≤ name.utf8ByteSize := by
    intro name hname
    rw [← hname, utf8ByteSize_regionName hr]
    omega
  refine ⟨?_, ?_, ?_⟩
  · rintro (hname | hname)
    · exact absurd (hsize _ hname) (by decide)
    · exact absurd (hsize _ hname) (by decide)
  · intro hname
    exact absurd (hsize _ hname) (by decide)
  · rwa [utf8ByteSize_regionName hr]

/-- A path is what stands in front of its last name, and that name. -/
theorem exists_text_eq (root : String) (front : List String) :
    ∃ text, ∀ name, PathName.text ⟨root, front ++ [name]⟩ = text ++ name := by
  -- the names are joined from the right, so the last one stands alone at the end
  have hjoined : ∃ text, ∀ name, "/".intercalate (front ++ [name]) = text ++ name := by
    induction front with
    | nil =>
      refine ⟨"", fun name => ?_⟩
      rw [List.nil_append, String.intercalate_singleton, String.empty_append]
    | cons part front ih =>
      obtain ⟨text, htext⟩ := ih
      refine ⟨part ++ "/" ++ text, fun name => ?_⟩
      rw [List.cons_append, String.intercalate_cons_of_ne_nil (by simp), htext,
        ← String.append_assoc]
  obtain ⟨text, htext⟩ := hjoined
  refine ⟨root ++ text, fun name => ?_⟩
  have hparts : ¬ (root = "" ∧ front ++ [name] = []) := by simp
  rw [PathName.text, if_neg hparts, htext, String.append_assoc]

/-- **Paths of regions lead to one directory**, or none does. A path is judged by its text and its names, and
of these only the digits of the base differ from region to region. -/
theorem leads_regionPath {t : FileTree} {dir : List String} (hr : r.Placed) (hs : s.Placed)
    (h : t.Leads (regionPath output s) dir) : t.Leads (regionPath output r) dir := by
  obtain ⟨text, htext⟩ := exists_text_eq output.root output.parts.dropLast
  have hr' : (regionPath output r).text = text ++ regionName output r := htext _
  have hs' : (regionPath output s).text = text ++ regionName output s := htext _
  -- of the path only the last name differs, and that has the same length and the same null
  -- characters for both regions: so no check tells the two paths apart
  refine ⟨by simp [regionPath], ?_, ?_, ?_, ?_⟩
  · have hnull := h.no_null
    rw [hs', String.toList_append] at hnull
    rw [hr', String.toList_append]
    simpa [mem_regionName_iff hr.base_nonneg, mem_regionName_iff hs.base_nonneg] using hnull
  · have hshort := h.short
    rw [hs', String.utf8ByteSize_append, utf8ByteSize_regionName hs] at hshort
    rwa [hr', String.utf8ByteSize_append, utf8ByteSize_regionName hr]
  · have hdirectory := h.directory
    rw [dropLast_regionPath] at hdirectory ⊢
    exact hdirectory
  · have hshort := h.name.short
    rw [name_regionPath, utf8ByteSize_regionName hs] at hshort
    rw [name_regionPath]
    exact isName_regionName hr hshort

/-! ### Writing in order -/

/-- The file of a region, as it is written. -/
def regionWriting (output : PathName) (r : Region) : Writing :=
  ⟨regionPath output r, r.base, r.data⟩

theorem eq_regionWriting {w : Writing} (h : Writing.ofRegion output r = .ok w) :
    w = regionWriting output r := by
  unfold Writing.ofRegion PathName.withName at h
  split at h
  · cases h
  · cases h
    rfl

/-- The file of a region has a path unless the output has no name that could be put in place of
another. -/
theorem parts_eq_nil_of_ofRegion {f : Fault} (h : Writing.ofRegion output r = .error f) :
    output.parts = [] := by
  by_contra hparts
  unfold Writing.ofRegion PathName.withName at h
  rw [if_neg hparts] at h
  cases h

theorem ofRegion_ne_ok {w : Writing} (houtput : output.parts = []) :
    Writing.ofRegion output r ≠ .ok w := by
  unfold Writing.ofRegion PathName.withName
  rw [if_pos houtput]
  exact nofun

/-- Files that have been formed are those of the regions in front. -/
theorem eq_map_regionWriting {regions : List Region} {done : List Writing}
    (h : regions.map (Writing.ofRegion output) = done.map .ok) :
    done = regions.map (regionWriting output) := by
  -- the writings are formed one from each region, so they are the same row
  induction regions generalizing done with
  | nil => exact List.map_eq_nil_iff.1 h.symm
  | cons r regions ih =>
    obtain ⟨w, rest, rfl, hw, hrest⟩ := List.map_eq_cons_iff.1 h.symm
    rw [eq_regionWriting hw.symm, ih hrest.symm, List.map_cons]

section Order

variable {σ : Type} {system : System σ} {job : Job} {s after : σ}

/-- What has stopped the writing of regions, when those in front are written, and the state that it has
left. -/
inductive Stopped (system : System σ) (job : Job) (output : PathName) (mid : σ)
    (back : List Region) (fault : FileFault) : σ → Prop where
  /-- The file of the next region could not be written. -/
  | refused {r : Region} {rest : List Region} {after : σ} (hback : back = r :: rest)
      (hrefused : system.write mid (regionPath output r) r.data = (.error fault, after)) :
      Stopped system job output mid back fault after
  /-- A line that the user has asked for could not be printed. -/
  | unheard {line : String} (h : job.Unheard system mid line fault) :
      Stopped system job output mid back fault mid

/-- **Regions are written in order**, and what stops the writing stops it behind the regions in
front. -/
theorem WriteEnd.regions {regions : List Region} {fault : Option Fault}
    (h : WriteEnd system job s (regions.map (Writing.ofRegion output)) fault after) :
    (fault = none ∧ Wrote system s (regions.map (regionWriting output)) after) ∨
      (∃ f, fault = some f ∧ after = s) ∨
      ∃ front back mid f, fault = some (.file f) ∧ regions = front ++ back ∧
        Wrote system s (front.map (regionWriting output)) mid ∧
        Stopped system job output mid back f after := by
  cases h with
  | all done hfiles hwrote =>
    rw [eq_map_regionWriting hfiles] at hwrote
    exact .inl ⟨rfl, hwrote⟩
  | @unformed f done rest _ hfiles hwrote =>
    -- no region has a path then, so it was the first that has stopped the writing
    obtain ⟨front, tail, -, hfront, htail⟩ := List.map_eq_append_iff.1 hfiles
    obtain ⟨r, back, -, hr, -⟩ := List.map_eq_cons_iff.1 htail
    have houtput : output.parts = [] := parts_eq_nil_of_ofRegion hr
    cases done with
    | nil =>
      cases hwrote
      exact .inr (.inl ⟨f, rfl, rfl⟩)
    | cons w done =>
      obtain ⟨first, others, -, hfirst, -⟩ := List.map_eq_cons_iff.1 hfront
      exact absurd hfirst (ofRegion_ne_ok houtput)
  | refused done hfiles hwrote hrefused =>
    -- the files in front of the refused one belong to the regions in front of its region
    obtain ⟨front, tail, rfl, hfront, htail⟩ := List.map_eq_append_iff.1 hfiles
    obtain ⟨r, back, rfl, hr, -⟩ := List.map_eq_cons_iff.1 htail
    rw [eq_map_regionWriting hfront] at hwrote
    rw [eq_regionWriting hr] at hrefused
    exact .inr (.inr ⟨front, r :: back, _, _, rfl, rfl, hwrote, .refused rfl hrefused⟩)
  | unheard done rest hfiles hreached hwrote hunheard =>
    obtain ⟨front, tail, rfl, hfront, -⟩ := List.map_eq_append_iff.1 hfiles
    rw [eq_map_regionWriting hfront] at hwrote
    exact .inr (.inr ⟨front, tail, _, _, rfl, rfl, hwrote, .unheard hunheard⟩)

end Order

/-! ### Files of a tree -/

/-- The files of some regions, once they are written: every path still leads where it led, only the
files of these regions were changed, and the last one of each name is there. -/
structure Filed (output : PathName) (dir : List String) (t : FileTree) (regions : List Region)
    (after : FileTree) : Prop where
  leads : ∀ p d, t.Leads p d → after.Leads p d
  blocked : ∀ path, after.Blocked path → t.Blocked path
  sinks : after.sinks = t.sinks
  others : ∀ path, (∀ r ∈ regions, path ≠ dir ++ [regionName output r]) →
    after.contents? path = t.contents? path
  own : ∀ front r back, regions = front ++ r :: back →
    (∀ s ∈ back, regionName output s ≠ regionName output r) →
    after.contents? (dir ++ [regionName output r]) = some r.data

namespace Filed

variable {dir : List String} {t after : FileTree} {regions : List Region}

theorem nil (output : PathName) (dir : List String) (t : FileTree) : Filed output dir t [] t where
  leads _ _ h := h
  blocked _ h := h
  sinks := rfl
  others _ _ := rfl
  own front r back h := by simp at h

/-- One more file in front. -/
theorem cons (hr : t.Leads (regionPath output r) dir)
    (hfree : t.Free (dir ++ [regionName output r]))
    (h : Filed output dir (t.put (dir ++ [regionName output r]) r.data) regions after) :
    Filed output dir t (r :: regions) after where
  leads p d hp := h.leads p d (hp.put hr.isDirectory hfree)
  blocked path hpath := ((blocked_put hr.isDirectory).1 (h.blocked path hpath)).1
  sinks := h.sinks
  others path hpath := by
    rw [List.forall_mem_cons] at hpath
    rw [h.others path hpath.2, contents?_put, if_neg hpath.1]
  own front s back heq hback := by
    cases front with
    | nil =>
      -- no later region writes to the file of the first
      cases heq
      have hlater : ∀ s ∈ regions, dir ++ [regionName output r] ≠ dir ++ [regionName output s] := by
        intro s hs heq
        exact hback s hs (List.singleton_inj.1 (List.append_cancel_left heq)).symm
      rw [h.others _ hlater, contents?_put, if_pos rfl]
    | cons first front =>
      cases heq
      exact h.own front s back rfl hback

end Filed

/-- The file of a region was written where its path leads. -/
theorem leads_of_write_region {t t' : FileTree} (hsinks : t.sinks = [])
    (h : t.write (regionPath output r) r.data = .ok t') :
    ∃ dir, t.Leads (regionPath output r) dir ∧ t.Free (dir ++ [regionName output r]) ∧
      t' = t.put (dir ++ [regionName output r]) r.data := by
  obtain ⟨dir, hr, ⟨hsink, -⟩ | ⟨hfree, hput⟩⟩ := leads_of_write h
  · exact absurd hsink (node?_ne_sink hsinks _)
  · rw [name_regionPath] at hfree hput
    exact ⟨dir, hr, hfree, hput⟩

/-- **Files of regions that were written one after the other.** If there is any, they stand in one
directory. -/
theorem Wrote.filed {t after : FileTree} {regions : List Region} (hsinks : t.sinks = [])
    (h : Wrote FileTree.system t (regions.map (regionWriting output)) after) (hne : regions ≠ []) :
    ∃ dir, (∃ r ∈ regions, t.Leads (regionPath output r) dir) ∧ Filed output dir t regions after := by
  -- by induction on the regions, from the tree that each write leaves; the first file decides
  -- on the directory, and the rest has to be shown to be in the same one
  induction regions generalizing t with
  | nil => exact absurd rfl hne
  | cons r regions ih =>
    cases h with
    | cons hwrite hrest =>
      obtain ⟨dir, hr, hfree, rfl⟩ :=
        leads_of_write_region hsinks (system_write_eq_ok_iff.1 hwrite)
      refine ⟨dir, ⟨r, List.mem_cons_self, hr⟩, ?_⟩
      cases regions with
      | nil =>
        cases hrest
        exact .cons hr hfree (.nil output dir _)
      | cons next regions =>
        have hsinks' : (t.put (dir ++ [regionName output r]) r.data).sinks = [] := hsinks
        obtain ⟨dir', ⟨s, -, hs⟩, hfiled⟩ := ih hsinks' hrest (List.cons_ne_nil _ _)
        -- the directory of the first file is still where the paths lead
        have hsame : dir' = dir := by
          have hr' : (t.put (dir ++ [regionName output r]) r.data).Leads (regionPath output r) dir :=
            hr.put hr.isDirectory hfree
          have hdirectory := hr'.directory
          have hdirectory' := hs.directory
          rw [dropLast_regionPath] at hdirectory hdirectory'
          cases hdirectory'.symm.trans hdirectory
          rfl
        rw [hsame] at hfiled
        exact .cons hr hfree hfiled

/-- The files of some regions beside the output. The last region of each base has its bytes in a file,
and no other files were changed. -/
structure RegionFiles (output : PathName) (before : FileTree) (regions : List Region)
    (after : FileTree) : Prop where
  own : ∀ front r back, regions = front ++ r :: back → (∀ s ∈ back, s.base ≠ r.base) →
    after.read (regionPath output r) = .ok r.data
  others : ∀ path, after.contents? path ≠ before.contents? path →
    ∃ dir, before.resolve (before.start output.root) output.parts.dropLast = .ok (.directory dir) ∧
      ∃ r ∈ regions, path = dir ++ [regionName output r]

theorem RegionFiles.nil (output : PathName) (t : FileTree) : RegionFiles output t [] t where
  own front r back h := by simp at h
  others path h := absurd rfl h

/-- **Only a directory stops the writing** of files once the first is written. -/
theorem Wrote.blocked {t after : FileTree} {front : List Region} {fault : FileFault}
    (hsinks : t.sinks = []) (h : Wrote FileTree.system t (front.map (regionWriting output)) after)
    (hne : front ≠ []) (hfront : ∀ s ∈ front, s.Placed) (hr : r.Placed)
    (hwrite : after.write (regionPath output r) r.data = .error fault) :
    fault = .isDirectory (regionPath output r).text ∧
      ∃ place, t.find (regionPath output r) = .ok (.directory place) := by
  -- one file was written, so the path of this region leads into its directory too
  obtain ⟨dir, ⟨s, hs, hleads⟩, hfiled⟩ := h.filed hsinks hne
  have hpath : t.Leads (regionPath output r) dir := leads_regionPath hr (hfront s hs) hleads
  have hpath' : after.Leads (regionPath output r) dir := hfiled.leads _ _ hpath
  by_cases hblocked : after.Blocked (dir ++ [(regionPath output r).name])
  · rw [hpath'.write_eq_error hblocked] at hwrite
    cases hwrite
    refine ⟨rfl, dir ++ [(regionPath output r).name], ?_⟩
    -- writing makes no directory, so this one was there at the start
    rw [hpath.find_eq, hfiled.blocked _ hblocked]
    rfl
  · rw [hpath'.write_eq_ok (free_of_not_blocked (hfiled.sinks.trans hsinks) hblocked)] at hwrite
    cases hwrite

/-! ### The run -/

end Command

end CrossAssembler
