import CrossAssembler.Proofs.Command.Split
import CrossAssembler.Proofs.Program.Arrival

/-!
# The file of the image

Without `--split` the command writes one file, the image of all regions, or none.

* **Settings** (`Wins`): an option wins over the environment and the environment over the default,
  so a job starts in the address space and its fill is a byte (`Accepted.settings`).
* **Faults**: which of them can stop a job, and that none of these but an overlap is laid to the
  source.
* **The run** (`plain_run`): exit code zero means that the image was written and nothing else, and exit
  code 1 that the source cannot be built. Any other exit code means that nothing was written, unless it
  was the write of the image that failed, or the line that tells of it.
* **In a plain file system** (`PlainFiles`) a write that fails changes nothing, so there a run that does
  not end well leaves all files as they are.
-/

namespace CrossAssembler

open FileTree

namespace Command

/-! ### Values in order -/

variable {σ : Type} {system : System σ}

/-- Arguments that are understood and whose values are in order. -/
structure Accepted (system : System σ) (reader : Reader) (arguments : List String) (s : σ)
    (a : Arguments) : Prop where
  read : reader arguments = .ok a
  checked : ((check system.host.toFileAccess a).run s).1 = none

theorem checkSwitches_eq_none {a : Arguments} {switches : List Switch} {s : σ}
    (h : ((checkSwitches system.host.toFileAccess a switches).run s).1 = none) :
    ∀ switch ∈ switches, ((checkSwitch system.host.toFileAccess a switch).run s).1 = none := by
  induction switches with
  | nil =>
    intro switch hswitch
    cases hswitch
  | cons switch rest ih =>
    unfold checkSwitches at h
    -- the checks of the others are made in the same state
    rw [run_bind, checkSwitch_keeps] at h
    cases hfirst : ((checkSwitch system.host.toFileAccess a switch).run s).1 with
    | some fault =>
      rw [hfirst] at h
      cases h
    | none =>
      rw [hfirst] at h
      exact List.forall_mem_cons.2 ⟨hfirst, ih h⟩

/-- An option with a value is mentioned. -/
theorem mem_mentioned_of_value? {a : Arguments} {s : Switch} {text : String}
    (h : a.value? s = some text) : s ∈ a.mentioned := by
  -- the value is that of the last mention, and a mention is enough
  obtain ⟨mention, hlast, -⟩ := Option.bind_eq_some_iff.1 h
  obtain ⟨hmem, hswitch⟩ := List.mem_filter.1 (List.mem_of_getLast? hlast)
  refine List.mem_eraseDups.2 (List.mem_map.2 ⟨mention, hmem, ?_⟩)
  exact beq_iff_eq.1 hswitch

theorem isSome_of_checkNumber {s : Switch} {limit : Int} {text : String}
    (h : checkNumber s limit text = none) : (numberUpTo? limit text).isSome = true := by
  unfold checkNumber at h
  cases hv : numberUpTo? limit text with
  | some v => rfl
  | none =>
    rw [hv] at h
    cases h

namespace Accepted

variable {reader : Reader} {arguments : List String} {s : σ} {a : Arguments}

theorem parts (h : Accepted system reader arguments s a) :
    (∀ switch ∈ a.mentioned, ((checkSwitch system.host.toFileAccess a switch).run s).1 = none) ∧
      ((checkInput system.host.toFileAccess a).run s).1 = none := by
  have hchecked := h.checked
  unfold check at hchecked
  rw [run_bind, checkSwitches_keeps] at hchecked
  -- the source is looked at only once all options are in order
  cases hswitches : ((checkSwitches system.host.toFileAccess a a.mentioned).run s).1 with
  | some fault =>
    rw [hswitches] at hchecked
    cases hchecked
  | none =>
    rw [hswitches] at hchecked
    dsimp only at hchecked
    rw [run_bind] at hchecked
    refine ⟨checkSwitches_eq_none hswitches, ?_⟩
    cases hinput : ((checkInput system.host.toFileAccess a).run s).1 with
    | some fault =>
      rw [hinput] at hchecked
      cases hchecked
    | none => rfl

/-- The source is a file. -/
theorem source (h : Accepted system reader arguments s a) :
    ∃ file, a.words.head? = some file ∧ system.status s file = .file := by
  have hinput := h.parts.2
  unfold checkInput at hinput
  cases hfile : a.words.head? with
  | none =>
    rw [hfile] at hinput
    cases hinput
  | some file =>
    rw [hfile] at hinput
    refine ⟨file, rfl, ?_⟩
    dsimp only at hinput
    rw [run_bind, run_status] at hinput
    -- every other status is reported, and the run ends there
    cases hstatus : system.status s file with
    | file => rfl
    | _ =>
      rw [hstatus] at hinput
      cases hinput

/-- A number that is given as an option is one in the range of the option. -/
theorem fill_isSome (h : Accepted system reader arguments s a) {text : String}
    (hvalue : a.value? .fill = some text) : (numberUpTo? 0xFF text).isSome = true := by
  have hchecked := h.parts.1 .fill (mem_mentioned_of_value? hvalue)
  unfold checkSwitch at hchecked
  rw [hvalue] at hchecked
  exact isSome_of_checkNumber hchecked

theorem origin_isSome (h : Accepted system reader arguments s a) {text : String}
    (hvalue : a.value? .origin = some text) : (numberUpTo? 0xFFFF text).isSome = true := by
  have hchecked := h.parts.1 .origin (mem_mentioned_of_value? hvalue)
  unfold checkSwitch at hchecked
  rw [hvalue] at hchecked
  exact isSome_of_checkNumber hchecked

theorem cpu_isSome (h : Accepted system reader arguments s a) {text : String}
    (hvalue : a.value? .cpu = some text) : (cpuOption? text).isSome = true := by
  have hchecked := h.parts.1 .cpu (mem_mentioned_of_value? hvalue)
  unfold checkSwitch at hchecked
  rw [hvalue] at hchecked
  change checkCpu text = none at hchecked
  unfold checkCpu at hchecked
  cases hcpu : cpuOption? text with
  | some cpu => rfl
  | none =>
    rw [hcpu] at hchecked
    cases hchecked

/-- There is always a path for the output: the source is a file, and a file has a name (`System.named`)
whose suffix can be changed. -/
theorem exists_outputPath (h : Accepted system reader arguments s a) (env : Environment) :
    ∃ output, (Job.ofArguments env a).outputPath = .ok output := by
  obtain ⟨file, hfile, hstatus⟩ := h.source
  have hnamed : (PathName.ofText file).parts ≠ [] := system.named s file hstatus
  have hsource : (Job.ofArguments env a).source = PathName.ofText file := by
    unfold Job.ofArguments
    rw [hfile]
    rfl
  -- only the path of the source has to be changed, which takes a name
  unfold Job.outputPath
  cases (Job.ofArguments env a).target with
  | some path => exact ⟨path, rfl⟩
  | none =>
    dsimp only
    rw [hsource, PathName.withSuffix, PathName.withName, if_neg hnamed]
    exact ⟨_, rfl⟩

end Accepted

/-! ### Settings -/

/-- **Which value wins**: that of the option, which has to be in order, else that of the environment
if it is in order, and else the default. -/
inductive Wins {α : Type} (option? setting? : Option String)
    (readOption readSetting : String → Option α) (fallback : α) : α → Prop where
  | option {text : String} {v : α} (hoption : option? = some text)
      (hv : readOption text = some v) : Wins option? setting? readOption readSetting fallback v
  | environment {text : String} {v : α} (hoption : option? = none)
      (hsetting : setting? = some text) (hv : readSetting text = some v) :
      Wins option? setting? readOption readSetting fallback v
  | neither (hoption : option? = none)
      (hsetting : ∀ text, setting? = some text → readSetting text = none) :
      Wins option? setting? readOption readSetting fallback fallback

theorem wins_getD {α : Type} {option? : Option String} {readOption : String → Option α}
    (hoption : ∀ text, option? = some text → (readOption text).isSome = true)
    (setting? : Option String) (readSetting : String → Option α) (fallback : α) :
    Wins option? setting? readOption readSetting fallback
      ((option?.bind readOption).getD ((setting?.bind readSetting).getD fallback)) := by
  cases option? with
  | some text =>
    -- an option is read, as one that cannot be read ends the run before
    obtain ⟨v, hv⟩ := Option.isSome_iff_exists.1 (hoption text rfl)
    rw [Option.bind_some, hv]
    exact .option rfl hv
  | none =>
    rw [Option.bind_none, Option.getD_none]
    cases hsetting : setting?.bind readSetting with
    | some v =>
      obtain ⟨text, htext, hv⟩ := Option.bind_eq_some_iff.1 hsetting
      exact .environment rfl htext hv
    | none =>
      -- a setting that cannot be read is passed over without a word
      refine .neither rfl fun text htext => ?_
      rw [htext] at hsetting
      exact hsetting

/-- The settings that some arguments and an environment lead to. -/
structure Chosen (env : Environment) (a : Arguments) (settings : Settings) : Prop where
  cpu : Wins (a.value? .cpu) env.cpu cpuOption? Cpu.ofSetting? .z80 settings.cpu
  origin : Wins (a.value? .origin) env.origin (numberUpTo? 0xFFFF) (numberUpTo? 0xFFFF) 0
    settings.origin
  fill : Wins (a.value? .fill) env.fill (numberUpTo? 0xFF) (numberUpTo? 0xFF) 0xFF settings.fill
  origin_bounds : 0 ≤ settings.origin ∧ settings.origin ≤ 0xFFFF
  fill_bounds : 0 ≤ settings.fill ∧ settings.fill ≤ 0xFF

theorem Job.fill_bounds (env : Environment) (a : Arguments) :
    0 ≤ (Job.ofArguments env a).settings.fill ∧ (Job.ofArguments env a).settings.fill ≤ 0xFF := by
  have henv : 0 ≤ (Settings.ofEnvironment env).fill ∧ (Settings.ofEnvironment env).fill ≤ 0xFF :=
    getD_numberUpTo?_bounds ⟨by decide, le_rfl⟩ env.fill
  exact getD_numberUpTo?_bounds henv (a.value? .fill)

theorem Accepted.chosen {reader : Reader} {arguments : List String} {s : σ} {a : Arguments}
    (h : Accepted system reader arguments s a) (env : Environment) :
    Chosen env a (Job.ofArguments env a).settings where
  cpu := wins_getD (fun _ hvalue => h.cpu_isSome hvalue) _ _ _
  origin := wins_getD (fun _ hvalue => h.origin_isSome hvalue) _ _ _
  fill := wins_getD (fun _ hvalue => h.fill_isSome hvalue) _ _ _
  origin_bounds := Job.origin_bounds env a
  fill_bounds := Job.fill_bounds env a

end Command

/-! ### Images -/

namespace Region

/-- With a byte to fill gaps, only an overlap is in the way of an image. -/
theorem layOut_fault {fill : Int} (hlow : 0 ≤ fill) (hhigh : fill ≤ 0xFF) {below : Region}
    {rest : List Region} {f : Fault} (h : layOut fill below rest = .error f) :
    ∃ base first last, f = .overlap base first last := by
  induction rest generalizing below with
  | nil => cases h
  | cons r rest ih =>
    unfold layOut at h
    by_cases hbase : r.base < below.finish
    · rw [if_pos hbase] at h
      cases h
      exact ⟨_, _, _, rfl⟩
    · -- the gap can be filled, so what fails is further up
      rw [if_neg hbase, gap_eq hlow hhigh] at h
      cases habove : layOut fill r rest with
      | error f' =>
        rw [habove] at h
        cases h
        exact ih habove
      | ok above =>
        rw [habove] at h
        cases h

theorem flatten_fault {fill : Int} (hlow : 0 ≤ fill) (hhigh : fill ≤ 0xFF) {regions : List Region}
    {f : Fault} (h : flatten regions fill = .error f) :
    ∃ base first last, f = .overlap base first last := by
  unfold flatten at h
  cases hordered : ordered regions with
  | nil =>
    rw [hordered] at h
    cases h
  | cons r rest =>
    rw [hordered] at h
    dsimp only at h
    cases habove : layOut fill r rest with
    | error f' =>
      rw [habove] at h
      cases h
      exact layOut_fault hlow hhigh habove
    | ok above =>
      rw [habove] at h
      cases h

theorem flatten_nil (fill : Int) : flatten [] fill = .ok (0, []) := by
  rw [flatten, ordered, List.mergeSort_nil]

/-- Regions in the address space have an overlap exactly if they are not apart. -/
theorem flatten_eq_ok_iff {fill : Int} (hlow : 0 ≤ fill) (hhigh : fill ≤ 0xFF)
    {regions : List Region} (hplaced : ∀ r ∈ regions, r.Placed) :
    (∃ base image, flatten regions fill = .ok (base, image)) ↔ Apart regions := by
  by_cases hregions : regions = []
  · subst hregions
    exact ⟨fun _ => List.nodup_nil, fun _ => ⟨0, [], flatten_nil fill⟩⟩
  · -- an image shows that no two regions share an address, and an overlap that two do
    rcases flatten_cases hlow hhigh hregions fun r hr => (hplaced r hr).data_ne_nil with
      ⟨hapart, base, image, hflatten, -⟩ | ⟨hapart, base, first, last, hflatten⟩
    · exact ⟨fun _ => hapart, fun _ => ⟨base, image, hflatten⟩⟩
    · refine ⟨fun ⟨base, image, himage⟩ => ?_, fun h => absurd h hapart⟩
      rw [hflatten] at himage
      cases himage

/-- **An image is no longer than the address space.** -/
theorem length_flatten_le {fill : Int} (hlow : 0 ≤ fill) (hhigh : fill ≤ 0xFF)
    {regions : List Region} (hplaced : ∀ r ∈ regions, r.Placed) {base : Int} {image : List UInt8}
    (h : flatten regions fill = .ok (base, image)) : image.length ≤ 0x10000 := by
  by_cases hregions : regions = []
  · rw [hregions, flatten_nil] at h
    cases h
    exact Nat.zero_le _
  · rcases flatten_cases hlow hhigh hregions fun r hr => (hplaced r hr).data_ne_nil with
      ⟨-, base', image', hflatten, hbase, himage, hshows⟩ | ⟨-, base', first, last, hflatten⟩
    · rw [hflatten] at h
      cases h
      -- the last byte stands in the address space, and the first at a base
      obtain ⟨c, hc, hlast⟩ := hshows.last himage
      obtain ⟨r, hr, hcell⟩ := List.mem_flatMap.1 hc
      have htop : c.1 < r.base + r.data.length := (bounds_of_mem_cellsFrom hcell).2
      have hend : r.base + r.data.length ≤ addressSpace := (hplaced r hr).finish_le
      obtain ⟨s, hs, rfl⟩ := List.mem_map.1 (List.min?_mem hbase)
      have hstart : 0 ≤ s.base := (hplaced s hs).base_nonneg
      have hspace : (addressSpace : Int) = 0x10000 := rfl
      omega
    · rw [hflatten] at h
      cases h

end Region

/-! ### Faults that are not laid to the source -/

namespace Command

/-- A fault that no problem of the source brings about. A run that it stops does not end with the exit
code of a source that has problems. -/
def Foreign (f : Fault) : Prop :=
  Severity.ofFault f ≠ .build

theorem Severity.exit_eq_one_iff (s : Severity) : s.exit = 1 ↔ s = .build := by
  cases s <;> decide

/-- Files are not the source. -/
theorem foreign_file (fault : FileFault) : Foreign (.file fault) := by
  unfold Foreign
  cases fault <;> exact nofun

/-- A source stops a job only if it cannot be read, or holds a number that is too long. -/
theorem foreign_of_assembleRead {settings : Settings} {path : PathName}
    {text : Except FileFault String} {f : Fault} (h : assembleRead settings path text = .error f) :
    Foreign f := by
  unfold assembleRead at h
  cases text with
  | error fault =>
    cases h
    exact foreign_file fault
  | ok source =>
    change assemble settings source path.text = .error f at h
    -- the one fault of a text is a number with too many digits; all else becomes a problem
    rcases tokenize_cases source (if path.text = "" then settings.file else path.text) 1 with
      ⟨digits, -, htokens⟩ | ⟨-, htokens⟩
    · rw [assemble_of_tokenize_error htokens] at h
      cases h
      exact nofun
    · obtain ⟨a, ha⟩ := assemble_of_tokenize htokens
      rw [ha] at h
      cases h

/-! ### Writing the image -/

section Image

variable {σ : Type} {system : System σ} {job : Job} {output : PathName} {s after : σ}

/-- **The end of a job without `--split`**, once the source has no problems. -/
inductive PlainFinish (system : System σ) (job : Job) (output : PathName) (regions : List Region)
    (s : σ) (exit : Nat) : σ → Prop where
  /-- There is no image. -/
  | unformed {f : Fault} (hflatten : Region.flatten regions job.settings.fill = .error f)
      (hexit : exit = (Severity.ofFault f).exit) : PlainFinish system job output regions s exit s
  /-- The image is written, and all is told that is to be. -/
  | written {base : Int} {image : List UInt8} {after : σ}
      (hflatten : Region.flatten regions job.settings.fill = .ok (base, image))
      (hwrite : system.write s output image = (.ok (), after)) (hexit : exit = 0) :
      PlainFinish system job output regions s exit after
  /-- The image cannot be written. -/
  | refused {base : Int} {image : List UInt8} {after : σ} {fault : FileFault}
      (hflatten : Region.flatten regions job.settings.fill = .ok (base, image))
      (hwrite : system.write s output image = (.error fault, after))
      (hexit : exit = (Severity.ofFault (.file fault)).exit) :
      PlainFinish system job output regions s exit after
  /-- The image is written, but the user cannot be told. -/
  | unheard {base : Int} {image : List UInt8} {after : σ} {line : String} {fault : FileFault}
      (hflatten : Region.flatten regions job.settings.fill = .ok (base, image))
      (hwrite : system.write s output image = (.ok (), after))
      (hunheard : job.Unheard system after line fault)
      (hexit : exit = (Severity.ofFault (.file fault)).exit) :
      PlainFinish system job output regions s exit after

/-- Nothing is written of a file that could not be formed. -/
theorem WriteEnd.of_error {f : Fault} {fault : Option Fault}
    (h : WriteEnd system job s [.error f] fault after) : fault = some f ∧ after = s := by
  cases h with
  | all done hfiles hwrote => cases done <;> cases hfiles
  | unformed done hfiles hwrote =>
    cases done with
    | nil =>
      cases hfiles
      cases hwrote
      exact ⟨rfl, rfl⟩
    | cons w done => cases hfiles
  | refused done hfiles hwrote hrefused => cases done <;> cases hfiles
  | unheard done rest hfiles hreached hwrote hunheard =>
    cases done with
    | nil =>
      -- a line is told behind a file or behind all of them, and here is neither
      rcases hreached with hne | rfl
      · exact absurd rfl hne
      · cases hfiles
    | cons w done => cases hfiles

/-- One file that is to be written is written or refused. -/
theorem WriteEnd.of_ok {w : Writing} {fault : Option Fault}
    (h : WriteEnd system job s [.ok w] fault after) :
    (system.write s w.path w.data = (.ok (), after) ∧
        (fault = none ∨ ∃ line f, fault = some (.file f) ∧ job.Unheard system after line f)) ∨
      ∃ f, fault = some (.file f) ∧ system.write s w.path w.data = (.error f, after) := by
  -- the files that were written are this one, or none is
  have hone : ∀ {done : List Writing} {rest : List (Except Fault Writing)} {last : σ},
      [.ok w] = done.map (.ok : Writing → Except Fault Writing) ++ rest → done ≠ [] →
        Wrote system s done last → system.write s w.path w.data = (.ok (), last) := by
    intro done rest last hfiles hne hwrote
    cases done with
    | nil => exact absurd rfl hne
    | cons first others =>
      obtain ⟨hfirst, hothers⟩ := List.cons.inj hfiles
      cases hfirst
      obtain ⟨hnil, -⟩ := List.append_eq_nil_iff.1 hothers.symm
      cases List.map_eq_nil_iff.1 hnil
      cases hwrote with
      | cons hwrite hnone =>
        cases hnone
        exact hwrite
  cases h with
  | all done hfiles hwrote =>
    rw [← List.append_nil (done.map _)] at hfiles
    refine .inl ⟨hone hfiles ?_ hwrote, .inl rfl⟩
    rintro rfl
    cases hfiles
  | unformed done hfiles hwrote =>
    cases done with
    | nil => cases hfiles
    | cons first others =>
      have hlength := congrArg List.length hfiles
      simp at hlength
  | @refused f done _ rest _ _ hfiles hwrote hrefused =>
    cases done with
    | nil =>
      cases hfiles
      cases hwrote
      exact .inr ⟨f, rfl, hrefused⟩
    | cons first others =>
      have hlength := congrArg List.length hfiles
      simp at hlength
  | @unheard f done rest _ line hfiles hreached hwrote hunheard =>
    refine .inl ⟨hone hfiles ?_ hwrote, .inr ⟨line, f, rfl, hunheard⟩⟩
    rintro rfl
    rcases hreached with hne | rfl
    · exact hne rfl
    · cases hfiles

/-- **The image is written, or cannot be written, or there is none.** -/
theorem finish_plain {a : Assembly} {o : Outcome} (hsplit : job.split = false)
    (h : (finish system.host job output a).run s = (o, after)) :
    PlainFinish system job output a.regions s o.exit after := by
  obtain ⟨fault, hend, hexit⟩ := finish_end h
  -- without the option there is one file to be written, the image
  have hwritings : writings job output a =
      [Writing.ofImage output job.settings.fill a.regions] := by
    unfold writings
    rw [hsplit]
    rfl
  rw [hwritings] at hend
  cases hflatten : Region.flatten a.regions job.settings.fill with
  | error f =>
    have himage : Writing.ofImage output job.settings.fill a.regions = .error f := by
      unfold Writing.ofImage
      rw [hflatten]
      rfl
    rw [himage] at hend
    obtain ⟨rfl, rfl⟩ := hend.of_error
    exact .unformed hflatten hexit
  | ok result =>
    obtain ⟨base, image⟩ := result
    have himage : Writing.ofImage output job.settings.fill a.regions =
        .ok ⟨output, base, image⟩ := by
      unfold Writing.ofImage
      rw [hflatten]
      rfl
    rw [himage] at hend
    rcases hend.of_ok with ⟨hwrite, rfl | ⟨line, f, rfl, hunheard⟩⟩ | ⟨f, rfl, hwrite⟩
    · exact .written hflatten hwrite hexit
    · exact .unheard hflatten hwrite hunheard hexit
    · exact .refused hflatten hwrite hexit

end Image

/-! ### The run -/

/-- The path of the output: the one asked for, or that of the source with another suffix. -/
inductive OutputOf (a : Arguments) : PathName → Prop where
  | option {text : String} (h : a.value? .output = some text) : OutputOf a (PathName.ofText text)
  | beside {file : String} {output : PathName} (h : a.value? .output = none)
      (hfile : a.words.head? = some file)
      (houtput : (PathName.ofText file).withSuffix ".bin" = .ok output) : OutputOf a output

section Run

variable {σ : Type} {system : System σ} {reader : Reader} {env : Environment}
  {arguments : List String} {s after : σ} {a : Arguments} {o : Outcome}

theorem Accepted.outputOf (h : Accepted system reader arguments s a) {output : PathName}
    (houtput : (Job.ofArguments env a).outputPath = .ok output) : OutputOf a output := by
  obtain ⟨file, hfile, -⟩ := h.source
  unfold Job.outputPath Job.ofArguments at houtput
  cases hvalue : a.value? .output with
  | some text =>
    rw [hvalue] at houtput
    cases houtput
    exact .option hvalue
  | none =>
    rw [hvalue, hfile] at houtput
    exact .beside hvalue hfile houtput

/-- The image that a run has to write, and the path that it goes to: the arguments are in order, and the
source has no problems and no overlap. -/
structure Ready (system : System σ) (reader : Reader) (env : Environment) (arguments : List String)
    (s : σ) (a : Arguments) (output : PathName) (image : List UInt8) : Prop where
  accepted : Accepted system reader arguments s a
  output : OutputOf a output
  source : ∃ assembly base, (Job.ofArguments env a).Gives system s assembly ∧ assembly.ok = true ∧
    Region.Apart assembly.regions ∧
    Region.flatten assembly.regions (Job.ofArguments env a).settings.fill = .ok (base, image)
  /-- The image is no longer than the address space. -/
  length : image.length ≤ 0x10000

/-- **What a run without `--split` comes to** on any system, by its exit code. -/
structure PlainEnd (system : System σ) (reader : Reader) (env : Environment)
    (arguments : List String) (s : σ) (o : Outcome) (after : σ) : Prop where
  /-- All went well: the image was written, and nothing else. -/
  written : o.exit = 0 → ∃ a output image, Ready system reader env arguments s a output image ∧
    system.write s output image = (.ok (), after)
  /-- Something went wrong: nothing was written, or it was the write of the image that failed, or a line
  about it that the user has asked for. -/
  stopped : o.exit ≠ 0 → after = s ∨
    ∃ a output image fault, Ready system reader env arguments s a output image ∧
      (system.write s output image = (.error fault, after) ∨
        (system.write s output image = (.ok (), after) ∧
          ∃ line, (Job.ofArguments env a).Unheard system after line fault))
  /-- The source is at fault: it has problems, or its regions overlap. -/
  build : o.exit = 1 ↔ ∃ a assembly, Accepted system reader arguments s a ∧
    (Job.ofArguments env a).Gives system s assembly ∧
    (assembly.ok = false ∨ ¬Region.Apart assembly.regions)

namespace PlainEnd

/-- A run whose arguments are not in order. -/
theorem of_usage (fault : UsageFault) (hnone : ∀ a, ¬Accepted system reader arguments s a) :
    PlainEnd system reader env arguments s fault.outcome s where
  written hzero := absurd hzero fault.exit_ne_zero
  stopped _ := .inl rfl
  build := by
    refine ⟨fun hone => ?_, fun ⟨a, _, ha, _⟩ => absurd ha (hnone a)⟩
    cases hone

/-- The arguments are read in one way only, so the source is at fault by the assembly of this one. -/
theorem build_iff (ha : Accepted system reader arguments s a) :
    (∃ a assembly, Accepted system reader arguments s a ∧
      (Job.ofArguments env a).Gives system s assembly ∧
      (assembly.ok = false ∨ ¬Region.Apart assembly.regions)) ↔
    ∃ assembly, (Job.ofArguments env a).Gives system s assembly ∧
      (assembly.ok = false ∨ ¬Region.Apart assembly.regions) := by
  constructor
  · rintro ⟨a', assembly, ha', hassembly, hfault⟩
    -- the reader gives one result for the arguments
    cases ha.read.symm.trans ha'.read
    exact ⟨assembly, hassembly, hfault⟩
  · rintro ⟨assembly, hassembly, hfault⟩
    exact ⟨a, assembly, ha, hassembly, hfault⟩

/-- A run that a fault has stopped before anything was written. -/
theorem of_fault (hexit : o.exit ≠ 0)
    (hbuild : o.exit = 1 ↔ ∃ assembly, (Job.ofArguments env a).Gives system s assembly ∧
      (assembly.ok = false ∨ ¬Region.Apart assembly.regions))
    (ha : Accepted system reader arguments s a) : PlainEnd system reader env arguments s o s where
  written hzero := absurd hzero hexit
  stopped _ := .inl rfl
  build := hbuild.trans (build_iff ha).symm

/-- With an assembly without problems, the source can only be at fault by its regions. -/
theorem unbuildable_iff {output : PathName} {assembly : Assembly}
    (h : (Job.ofArguments env a).Assembles system s output assembly) :
    (∃ assembly', (Job.ofArguments env a).Gives system s assembly' ∧
      (assembly'.ok = false ∨ ¬Region.Apart assembly'.regions)) ↔
        ¬Region.Apart assembly.regions := by
  constructor
  · rintro ⟨assembly', hassembly', hfault⟩
    -- the source is read once, in the state of the run, so there is one assembly of it
    cases h.assembly.symm.trans hassembly'.assembly
    rw [h.ok] at hfault
    simpa using hfault
  · exact fun hnot => ⟨assembly, h.toGives, .inr hnot⟩

/-- An image that was formed is one to be written, and its source is not at fault. -/
theorem ready {output : PathName} {assembly : Assembly} {base : Int} {image : List UInt8}
    (ha : Accepted system reader arguments s a)
    (h : (Job.ofArguments env a).Assembles system s output assembly)
    (hflatten : Region.flatten assembly.regions (Job.ofArguments env a).settings.fill =
      .ok (base, image)) :
    Ready system reader env arguments s a output image ∧
      ¬∃ a assembly, Accepted system reader arguments s a ∧
        (Job.ofArguments env a).Gives system s assembly ∧
        (assembly.ok = false ∨ ¬Region.Apart assembly.regions) := by
  obtain ⟨hlow, hhigh⟩ := Job.fill_bounds env a
  -- the image was formed, so the regions are apart
  have hapart : Region.Apart assembly.regions :=
    (Region.flatten_eq_ok_iff hlow hhigh h.placed).1 ⟨base, image, hflatten⟩
  refine ⟨⟨ha, ha.outputOf h.outputPath, ⟨assembly, base, h.toGives, h.ok, hapart, hflatten⟩,
    Region.length_flatten_le hlow hhigh h.placed hflatten⟩, ?_⟩
  rw [build_iff ha, unbuildable_iff h, not_not]
  exact hapart

/-- A run that has come to write. -/
theorem of_finish {output : PathName} {assembly : Assembly}
    (ha : Accepted system reader arguments s a) (hsplit : a.has .split = false)
    (h : (Job.ofArguments env a).Assembles system s output assembly)
    (hfinish : (finish system.host (Job.ofArguments env a) output assembly).run s = (o, after)) :
    PlainEnd system reader env arguments s o after := by
  -- a fault of files is never laid to the source
  have hforeign : ∀ {fault : FileFault}, (Severity.ofFault (.file fault)).exit ≠ 1 :=
    fun {fault} hone => foreign_file fault ((Severity.exit_eq_one_iff _).1 hone)
  cases finish_plain hsplit hfinish with
  | unformed hflatten hexit =>
    -- there is no image, and only an overlap can be the reason
    obtain ⟨hlow, hhigh⟩ := Job.fill_bounds env a
    obtain ⟨base, first, last, rfl⟩ := Region.flatten_fault hlow hhigh hflatten
    -- an overlap has exit code 1, and there is one exactly if the regions are not apart
    refine of_fault (hexit ▸ Severity.exit_ne_zero _) ?_ ha
    rw [hexit, unbuildable_iff h]
    refine ⟨fun _ hapart => ?_, fun _ => rfl⟩
    obtain ⟨base', image, himage⟩ := (Region.flatten_eq_ok_iff hlow hhigh h.placed).2 hapart
    rw [hflatten] at himage
    cases himage
  | written hflatten hwrite hexit =>
    obtain ⟨hready, hsound⟩ := ready ha h hflatten
    refine ⟨fun _ => ⟨a, output, _, hready, hwrite⟩, fun hne => absurd hexit hne, ?_⟩
    refine ⟨fun hone => ?_, fun hfault => absurd hfault hsound⟩
    rw [hexit] at hone
    cases hone
  | refused hflatten hwrite hexit =>
    -- the image was formed, so the source is sound, and the exit code cannot be 1
    obtain ⟨hready, hsound⟩ := ready ha h hflatten
    refine ⟨fun hzero => absurd (hexit.symm.trans hzero) (Severity.exit_ne_zero _),
      fun _ => .inr ⟨a, output, _, _, hready, .inl hwrite⟩, ?_⟩
    exact ⟨fun hone => absurd (hexit.symm.trans hone) hforeign, fun hfault => absurd hfault hsound⟩
  | unheard hflatten hwrite hunheard hexit =>
    obtain ⟨hready, hsound⟩ := ready ha h hflatten
    refine ⟨fun hzero => absurd (hexit.symm.trans hzero) (Severity.exit_ne_zero _),
      fun _ => .inr ⟨a, output, _, _, hready, .inr ⟨hwrite, _, hunheard⟩⟩, ?_⟩
    exact ⟨fun hone => absurd (hexit.symm.trans hone) hforeign, fun hfault => absurd hfault hsound⟩

/-- **Every job without `--split` ends so.** Up to the end of the assembly nothing is written, so only the
last course has to do with files. -/
theorem of_job (ha : Accepted system reader arguments s a) (hsplit : a.has .split = false)
    (h : (Job.ofArguments env a).Course system s o after) :
    PlainEnd system reader env arguments s o after := by
  cases h with
  | unplaced hfault =>
    -- the source is a file with a name, so the name of the output can be formed
    obtain ⟨output, houtput⟩ := ha.exists_outputPath env
    rw [hfault] at houtput
    cases houtput
  | @unheard fault hunheard =>
    refine of_fault (Severity.exit_ne_zero _) ⟨fun hone => ?_, ?_⟩ ha
    · exact absurd ((Severity.exit_eq_one_iff _).1 hone) (foreign_file fault)
    · -- the source is not read before the greeting
      rintro ⟨assembly, hassembly, -⟩
      cases (hassembly.greeted hunheard.verbose).symm.trans hunheard.print
  | stopped hfault greeting opening =>
    refine of_fault (Severity.exit_ne_zero _) ⟨fun hone => ?_, ?_⟩ ha
    · exact absurd ((Severity.exit_eq_one_iff _).1 hone) (foreign_of_assembleRead hfault)
    · -- the source gave a fault, so it gave no assembly
      rintro ⟨assembly, hassembly, -⟩
      cases hfault.symm.trans hassembly.assembly
  | faulty hassembly hproblems greeting errors =>
    refine of_fault (Severity.exit_ne_zero .build) ⟨fun _ => ?_, fun _ => rfl⟩ ha
    exact ⟨_, hassembly, .inl hproblems⟩
  | finished hassembles hfinish greeting notes =>
    -- the texts in front of those of the end leave the exit code as it is
    obtain ⟨hwritten, hstopped, hbuild⟩ := of_finish ha hsplit hassembles hfinish
    exact ⟨hwritten, hstopped, hbuild⟩

end PlainEnd

/-- **Every run without `--split` that is asked no question ends so.** -/
theorem Course.plainEnd (h : Course system reader env arguments s o after)
    (hplain : ∀ a, reader arguments = .ok a →
      a.has .split = false ∧ ∀ switch ∈ a.mentioned, switch.isEager = false) :
    PlainEnd system reader env arguments s o after := by
  cases h with
  | misread hread =>
    refine .of_usage _ fun a ha => ?_
    cases hread.symm.trans ha.read
  | answered hread hs o =>
    -- the question that was answered is an option that is not there
    have heager := (hplain _ hread).2 _ (List.mem_of_find?_eq_some hs)
    rw [List.find?_some hs] at heager
    cases heager
  | refused hread hs hfault =>
    refine .of_usage _ fun a ha => ?_
    cases hread.symm.trans ha.read
    cases hfault.symm.trans ha.checked
  | accepted hread hs hchecked hjob =>
    exact .of_job ⟨hread, hchecked⟩ (hplain _ hread).1 hjob

end Run

/-! ### The file of the image -/

/-- One file was written: its path leads to the data, and all that stands elsewhere is as it was. The
path may already have led to a file, which is then replaced. -/
structure OneFile (tree after : FileTree) (path : PathName) (data : List UInt8) : Prop where
  read : after.read path = .ok data
  others : ∃ place, after.find path = .ok (.file place data) ∧
    ∀ q, q ≠ place → after.contents? q = tree.contents? q

/-- A write that succeeds makes one file, unless its path leads to a sink. -/
theorem oneFile_of_write {t after : FileTree} {p : PathName} {data : List UInt8}
    (h : t.write p data = .ok after) :
    OneFile t after p data ∨ (t.find p = .ok .sink ∧ after = t) := by
  obtain ⟨dir, hleads, ⟨hsink, rfl⟩ | ⟨hfree, rfl⟩⟩ := leads_of_write h
  · refine .inr ⟨?_, rfl⟩
    rw [hleads.find_eq, hsink]
    rfl
  · -- the way to the file is still open: no directory on it was taken by the new file
    have hleads' : (t.put (dir ++ [p.name]) data).Leads p dir := hleads.put hleads.isDirectory hfree
    have hcontents : (t.put (dir ++ [p.name]) data).contents? (dir ++ [p.name]) = some data := by
      rw [contents?_put, if_pos rfl]
    refine .inl ⟨hleads'.read_eq hcontents, dir ++ [p.name], ?_, fun q hq => ?_⟩
    · rw [hleads'.find_eq, node?_of_contents? hcontents]
      rfl
    · rw [contents?_put, if_neg hq]

/-- **What a run without `--split` comes to in a plain file system**, by its exit code. -/
structure PlainFiles (reader : Reader) (env : Environment) (arguments : List String)
    (tree : FileTree) (o : Outcome) (after : FileTree) : Prop where
  /-- All went well: the path of the output leads to a file with the image, and no other file has
  changed. Where it leads to a sink, none has. -/
  written : o.exit = 0 → ∃ a output image,
    Ready FileTree.system reader env arguments tree a output image ∧
      (OneFile tree after output image ∨ (tree.find output = .ok .sink ∧ after = tree))
  /-- Something went wrong: no file was made or changed. -/
  kept : o.exit ≠ 0 → after = tree

/-- **In a plain file system** a write that fails changes nothing, and every line is printed. -/
theorem PlainEnd.plainFiles {reader : Reader} {env : Environment} {arguments : List String}
    {tree after : FileTree} {o : Outcome}
    (h : PlainEnd FileTree.system reader env arguments tree o after) :
    PlainFiles reader env arguments tree o after where
  written hzero := by
    obtain ⟨a, output, image, hready, hwrite⟩ := h.written hzero
    exact ⟨a, output, image, hready, oneFile_of_write (system_write_eq_ok_iff.1 hwrite)⟩
  kept hne := by
    rcases h.stopped hne with hkept | ⟨a, output, image, fault, -, hwrite | ⟨-, line, hunheard⟩⟩
    · exact hkept
    · exact (system_write_eq_error hwrite).2
    · cases hunheard.print

/-- **The exit code and the output of a run without `--split`.** Whatever the system, where the arguments
are in order each setting is that of the option, else that of the environment, else the default, so the
job starts in the address space and gaps are filled with a byte: no fill is refused. A run with exit code
zero has written the image of a source without problems and nothing else. A run with another exit code
has written nothing, unless the write of the image is what failed, or a line about it. Exit code 1 says
that the source has problems or its regions overlap. In a plain file system, a run that does not end well
has changed no file. -/
theorem plain_run (reader : Reader) (env : Environment) {arguments : List String}
    (hplain : ∀ a, reader arguments = .ok a →
      a.has .split = false ∧ ∀ switch ∈ a.mentioned, switch.isEager = false) :
    (∀ (σ : Type) (system : System σ) (s : σ),
      (∀ a, Accepted system reader arguments s a → Chosen env a (Job.ofArguments env a).settings ∧
        ∀ regions, Region.flatten regions (Job.ofArguments env a).settings.fill ≠
          .error .fillOutOfRange) ∧
      PlainEnd system reader env arguments s (runOn system reader env arguments s).1
        (runOn system reader env arguments s).2) ∧
    ∀ tree : FileTree, PlainFiles reader env arguments tree
      (runOn FileTree.system reader env arguments tree).1
      (runOn FileTree.system reader env arguments tree).2 := by
  have hall : ∀ (σ : Type) (system : System σ) (s : σ),
      PlainEnd system reader env arguments s (runOn system reader env arguments s).1
        (runOn system reader env arguments s).2 :=
    fun σ system s => (runOn_course system reader env arguments s).plainEnd hplain
  refine ⟨fun σ system s => ⟨fun a ha => ⟨ha.chosen env, fun regions hfault => ?_⟩, hall σ system s⟩,
    fun tree => (hall FileTree FileTree.system tree).plainFiles⟩
  -- the fill of a job is a byte, so an overlap is the one fault of an image
  obtain ⟨hlow, hhigh⟩ := Job.fill_bounds env a
  obtain ⟨base, first, last, heq⟩ := Region.flatten_fault hlow hhigh hfault
  cases heq

/-- A tree with a source in the root, beside a sink, and an empty current directory. -/
def plainTree (source : String) : FileTree :=
  { files := [(["p"], source.toUTF8.toList)], sinks := [["n"]], here := ["d"] }

/-- A command that assembles the source of such a tree goes on to write its image. -/
theorem runOn_plainTree (system : System FileTree) {env : Environment} {arguments : List String}
    {a : Arguments} {output : PathName} {verbose : Bool} {settings : Settings} {source : String}
    {regions : List Region} {base : Int} {image : List UInt8}
    (hread : Arguments.read arguments = .ok a) (hs : a.mentioned.find? Switch.isEager = none)
    (hchecked : ((check system.host.toFileAccess a).run (plainTree source)).1 = none)
    (hjob : Job.ofArguments env a = ⟨⟨"/", ["p"]⟩, some output, false, verbose, settings⟩)
    (hheard : ∀ line, system.print (plainTree source) line = .ok ())
    (hfile : system.read (plainTree source) ⟨"/", ["p"]⟩ = .ok source)
    (hsource : (assemble settings source "/p").toOption.map (fun a => (a.ok, a.regions)) =
      some (true, regions))
    (hflatten : Region.flatten regions settings.fill = .ok (base, image)) :
    ∃ assembly, (Job.ofArguments env a).Assembles system (plainTree source) output assembly ∧
      assembly.regions = regions ∧
      ∀ written fault after, (fault = none → verbose = false) →
        (writeAll system.host ⟨⟨"/", ["p"]⟩, some output, false, verbose, settings⟩
            [.ok ⟨output, base, image⟩]).run (plainTree source) = ((written, fault), after) →
          (runOn system Arguments.read env arguments (plainTree source)).1.exit =
              (fault.elim 0 fun f => (Severity.ofFault f).exit) ∧
            (runOn system Arguments.read env arguments (plainTree source)).2 = after := by
  obtain ⟨assembly, hassembly, hresult⟩ := exists_ok_of_toOption hsource
  obtain ⟨hok, rfl⟩ := Prod.mk.inj hresult
  have hassembles : (Job.ofArguments env a).Assembles system (plainTree source) output assembly := by
    rw [hjob]
    -- the job is known, so its source, its output and its settings are
    refine ⟨⟨fun _ => hheard _, ?_⟩, rfl, hok⟩
    dsimp only
    rw [hfile]
    exact hassembly
  have hwritings : writings (Job.ofArguments env a) output assembly = [.ok ⟨output, base, image⟩] := by
    rw [hjob]
    unfold writings Writing.ofImage
    rw [hflatten]
    rfl
  refine ⟨assembly, hassembles, rfl, ?_⟩
  intro written fault after hquiet hwritten
  -- what is to be written is the image, and the rest of the run adds nothing to the exit code
  rw [← hjob, ← hwritings] at hwritten
  obtain ⟨o, hfinish, hexit⟩ := finish_of_writeAll (fun hnone => by rw [hjob, hquiet hnone]) hwritten
  obtain ⟨greeting, notes, hrun⟩ := runOn_of_assembles hread hs hchecked hassembles
  rw [hrun, hfinish]
  exact ⟨hexit, rfl⟩

/-- The gap of a source is filled with the byte that the environment names, and the image goes to the path
that the option names. The source stands in the root, and the output in the current directory. -/
theorem plain_run_filled :
    (∀ a, Arguments.read ["-ox", "/p"] = .ok a →
      a.has .split = false ∧ ∀ switch ∈ a.mentioned, switch.isEager = false) ∧
    (runOn FileTree.system Arguments.read { fill := some "$EE" } ["-ox", "/p"]
      (plainTree "ORG 2\nNOP\nORG 4\nRET")).1.exit = 0 ∧
    (runOn FileTree.system Arguments.read { fill := some "$EE" } ["-ox", "/p"]
      (plainTree "ORG 2\nNOP\nORG 4\nRET")).2.read ⟨"", ["x"]⟩ = .ok [0x00, 0xEE, 0xC9] := by
  have hread : Arguments.read ["-ox", "/p"] = .ok ⟨[⟨.output, some "x"⟩], ["/p"]⟩ := by decide +kernel
  have hplain : ∀ a, Arguments.read ["-ox", "/p"] = .ok a →
      a.has .split = false ∧ ∀ switch ∈ a.mentioned, switch.isEager = false := by
    intro a ha
    rw [hread] at ha
    cases ha
    exact ⟨rfl, by decide⟩
  have hjob : Job.ofArguments { fill := some "$EE" } ⟨[⟨.output, some "x"⟩], ["/p"]⟩ =
      ⟨⟨"/", ["p"]⟩, some ⟨"", ["x"]⟩, false, false, { fill := 0xEE, file := "/p" }⟩ := by
    cbv
  have hflatten : Region.flatten [⟨2, [0x00]⟩, ⟨4, [0xC9]⟩] 0xEE = .ok (2, [0x00, 0xEE, 0xC9]) := by
    cbv
  obtain ⟨assembly, hassembles, hregions, hrun⟩ :=
    runOn_plainTree FileTree.system hread rfl (by cbv) hjob (fun _ => rfl)
      (by decide +kernel : FileTree.readText (plainTree "ORG 2\nNOP\nORG 4\nRET") ⟨"/", ["p"]⟩ = _)
      (by decide +kernel) hflatten
  obtain ⟨hexit, -⟩ := hrun _ _ _ (fun _ => rfl) rfl
  refine ⟨hplain, hexit, ?_⟩
  -- exit code zero says that some image was written, and the source says which
  obtain ⟨a, output, image, hready, hfile⟩ :=
    ((plain_run Arguments.read { fill := some "$EE" } hplain).2
      (plainTree "ORG 2\nNOP\nORG 4\nRET")).written hexit
  obtain ⟨assembly', base, hgives, -, -, himage⟩ := hready.source
  cases hread.symm.trans hready.accepted.read
  cases hassembles.assembly.symm.trans hgives.assembly
  rw [hjob, hregions, hflatten] at himage
  cases himage
  have houtput : output = ⟨"", ["x"]⟩ := by
    have hpath : PathName.ofText "x" = ⟨"", ["x"]⟩ := by cbv
    cases hready.output with
    | option h =>
      cases h
      exact hpath
    | beside h => cases h
  subst houtput
  rcases hfile with hfile | ⟨hsink, -⟩
  · exact hfile.read
  · cases hsink

/-- A disk without room: a write cuts the file short, and then it fails. -/
def fullDisk : System FileTree :=
  { FileTree.system with
    write := fun t p _ =>
      (.error (.failed "[Errno 28] No space left on device"), (t.settle (t.write p [])).2) }

/-- An output that is closed once there is a file at a place. -/
def closingOutput (place : List String) : System FileTree :=
  { FileTree.system with
    print := fun t _ =>
      if (t.contents? place).isSome then .error (.failed "[Errno 32] Broken pipe") else .ok () }

/-- Three ways in which the output is not what it should be. A sink takes the image and keeps nothing,
though the run ends well. A disk without room makes the run fail, and leaves an empty file. And a user who
cannot be told of the file that was written makes the run fail, with the file in place. -/
theorem plain_run_sink_full_closed :
    assembleCode "NOP" "/p" = .ok [0] ∧ (plainTree "NOP").contents? ["d", "x"] = none ∧
    ((runOn FileTree.system Arguments.read {} ["-o/n", "/p"] (plainTree "NOP")).1.exit = 0 ∧
      (runOn FileTree.system Arguments.read {} ["-o/n", "/p"] (plainTree "NOP")).2.read
        ⟨"/", ["n"]⟩ = .ok []) ∧
    ((runOn fullDisk Arguments.read {} ["-ox", "/p"] (plainTree "NOP")).1.exit = 3 ∧
      (runOn fullDisk Arguments.read {} ["-ox", "/p"] (plainTree "NOP")).2.contents? ["d", "x"] =
        some []) ∧
    (runOn (closingOutput ["d", "x"]) Arguments.read {} ["-vox", "/p"] (plainTree "NOP")).1.exit = 3 ∧
      (runOn (closingOutput ["d", "x"]) Arguments.read {} ["-vox", "/p"]
        (plainTree "NOP")).2.contents? ["d", "x"] = some [0] := by
  have hfile : FileTree.readText (plainTree "NOP") ⟨"/", ["p"]⟩ = .ok "NOP" := by decide +kernel
  have hsource : (assemble { file := "/p" } "NOP" "/p").toOption.map (fun a => (a.ok, a.regions)) =
      some (true, [⟨0, [0]⟩]) := by
    decide +kernel
  have hflatten : Region.flatten [⟨0, [0]⟩] 0xFF = .ok (0, [0]) := by decide +kernel
  have hcode : assembleCode "NOP" "/p" = .ok [0] := by decide +kernel
  refine ⟨hcode, rfl, ?_, ?_, ?_⟩
  · have hread : Arguments.read ["-o/n", "/p"] = .ok ⟨[⟨.output, some "/n"⟩], ["/p"]⟩ := by decide +kernel
    have hjob : Job.ofArguments {} ⟨[⟨.output, some "/n"⟩], ["/p"]⟩ =
        ⟨⟨"/", ["p"]⟩, some ⟨"/", ["n"]⟩, false, false, { file := "/p" }⟩ := by
      cbv
    obtain ⟨_, -, -, hrun⟩ := runOn_plainTree FileTree.system hread rfl (by cbv) hjob
      (fun _ => rfl) hfile hsource hflatten
    obtain ⟨hexit, hafter⟩ := hrun _ _ _ (fun _ => rfl) rfl
    refine ⟨hexit, ?_⟩
    rw [hafter]
    rfl
  · have hread : Arguments.read ["-ox", "/p"] = .ok ⟨[⟨.output, some "x"⟩], ["/p"]⟩ := by decide +kernel
    have hjob : Job.ofArguments {} ⟨[⟨.output, some "x"⟩], ["/p"]⟩ =
        ⟨⟨"/", ["p"]⟩, some ⟨"", ["x"]⟩, false, false, { file := "/p" }⟩ := by
      cbv
    obtain ⟨_, -, -, hrun⟩ := runOn_plainTree fullDisk hread rfl (by cbv) hjob
      (fun _ => rfl) hfile hsource hflatten
    obtain ⟨hexit, hafter⟩ := hrun _ _ _ (fun _ => rfl) rfl
    refine ⟨hexit, ?_⟩
    rw [hafter]
    rfl
  · have hread : Arguments.read ["-vox", "/p"] =
        .ok ⟨[⟨.verbose, none⟩, ⟨.output, some "x"⟩], ["/p"]⟩ := by
      decide +kernel
    have hjob : Job.ofArguments {} ⟨[⟨.verbose, none⟩, ⟨.output, some "x"⟩], ["/p"]⟩ =
        ⟨⟨"/", ["p"]⟩, some ⟨"", ["x"]⟩, false, true, { file := "/p" }⟩ := by
      cbv
    obtain ⟨_, -, -, hrun⟩ := runOn_plainTree (closingOutput ["d", "x"]) hread rfl (by cbv)
      hjob (fun _ => rfl) hfile hsource hflatten
    obtain ⟨hexit, hafter⟩ := hrun _ (some (.file (.failed "[Errno 32] Broken pipe"))) _
      (fun h => by cases h) rfl
    refine ⟨hexit, ?_⟩
    rw [hafter]
    rfl

end Command

end CrossAssembler
