import CrossAssembler.Command.Run
import Mathlib.Data.List.Basic

/-!
# The course of a run

What a run of the command can do to a system, once and for all systems. Nothing is assumed of the
system: a write may fail and yet change something, and a line may not get printed.

* **Checks** change nothing (`check_keeps`), and nor does a line that is printed (`run_tell`).
* **Writing** files one after the other stops at the first that cannot be written, or of which nobody
  can be told (`WriteEnd`).
* **The course of a run** (`runOn_course`): it stops before anything is written, or it has assembled its
  source without a problem and goes on to write.
-/

namespace CrossAssembler.Command

variable {σ : Type} {system : System σ}

/-! ### Steps on a system -/

/-- A part of a run that leaves the state as it is. Whatever a system is, asking, reading and printing do
not change it, and only writing does. -/
def Keeps {α : Type} (x : StateM σ α) : Prop :=
  ∀ s, (x.run s).2 = s

namespace Keeps

variable {α β : Type}

theorem pure (a : α) : Keeps (pure a : StateM σ α) :=
  fun _ => rfl

theorem bind {x : StateM σ α} {f : α → StateM σ β} (hx : Keeps x) (hf : ∀ a, Keeps (f a)) :
    Keeps (x >>= f) := by
  intro s
  change ((f (x.run s).1).run (x.run s).2).2 = s
  rw [hf, hx]

theorem status (path : String) : Keeps (system.host.status path) :=
  fun _ => rfl

end Keeps

theorem run_bind {α β : Type} (x : StateM σ α) (f : α → StateM σ β) (s : σ) :
    (x >>= f).run s = (f (x.run s).1).run (x.run s).2 :=
  rfl

theorem run_status (path : String) (s : σ) :
    (system.host.status path).run s = (system.status s path, s) :=
  rfl

theorem run_read (path : PathName) (s : σ) :
    (system.host.read path).run s = (system.read s path, s) :=
  rfl

theorem run_write (path : PathName) (data : List UInt8) (s : σ) :
    (system.host.write path data).run s = system.write s path data :=
  rfl

theorem checkSwitch_keeps (a : Arguments) (s : Switch) :
    Keeps (checkSwitch system.host.toFileAccess a s) := by
  unfold checkSwitch
  split
  · -- only the output option looks at the disk, and looking changes nothing
    refine .bind (.status _) fun status => ?_
    cases status <;> exact .pure _
  all_goals exact .pure _

theorem checkSwitches_keeps (a : Arguments) (switches : List Switch) :
    Keeps (checkSwitches system.host.toFileAccess a switches) := by
  induction switches with
  | nil => exact .pure _
  | cons s rest ih =>
    -- the first fault ends the checks, so the rest is reached only without one
    refine .bind (checkSwitch_keeps a s) fun fault => ?_
    cases fault with
    | some fault => exact .pure _
    | none => exact ih

theorem checkInput_keeps (a : Arguments) : Keeps (checkInput system.host.toFileAccess a) := by
  unfold checkInput
  split
  · exact .pure _
  · refine .bind (.status _) fun status => ?_
    cases status <;> exact .pure _

/-- **Checks leave the state as it is.** They ask for the status of paths, and for nothing else. -/
theorem check_keeps (a : Arguments) : Keeps (check system.host.toFileAccess a) := by
  refine .bind (checkSwitches_keeps a _) fun fault => ?_
  cases fault with
  | some fault => exact .pure _
  | none =>
    refine .bind (checkInput_keeps a) fun fault => ?_
    cases fault <;> exact .pure _

/-! ### Lines for the user -/

/-- A line that the user has asked for, and that cannot be printed. -/
structure Job.Unheard (job : Job) (system : System σ) (s : σ) (line : String) (fault : FileFault) :
    Prop where
  verbose : job.verbose = true
  print : system.print s (said line) = .error fault

/-- The lines that a job is to show do get shown. -/
def Job.Heard (job : Job) (system : System σ) (s : σ) (line : String) : Prop :=
  job.verbose = true → system.print s (said line) = .ok ()

/-- **A line is told**, or it should be and cannot. The state is the same either way. -/
theorem run_tell (system : System σ) (job : Job) (line : String) (s : σ) :
    (job.Heard system s line ∧ ∃ told, (job.tell system.host line).run s = (.ok told, s)) ∨
      ∃ fault, job.Unheard system s line fault ∧
        (job.tell system.host line).run s = (.error (.file fault), s) := by
  unfold Job.tell
  cases hverbose : job.verbose with
  | false =>
    -- nobody has asked for the line, and it counts as heard
    refine .inl ⟨fun h => ?_, "", rfl⟩
    rw [hverbose] at h
    cases h
  | true =>
    rw [if_pos rfl, run_bind]
    -- the line goes to the stream, and the state of the system is the same behind it
    change (_ ∧ ∃ told, (((system.print s (said line)).mapError Fault.file).map _, s) = _) ∨
      ∃ fault, _ ∧ (((system.print s (said line)).mapError Fault.file).map _, s) = _
    cases hprint : system.print s (said line) with
    | ok printed => exact .inl ⟨fun _ => hprint, _, rfl⟩
    | error fault => exact .inr ⟨fault, ⟨hverbose, hprint⟩, rfl⟩

/-! ### Writing -/

/-- The state behind some files written one after the other, none of which was refused. What the system
has made of the files is not said: two of them may be one file, or none at all. -/
inductive Wrote (system : System σ) : σ → List Writing → σ → Prop where
  | nil (s : σ) : Wrote system s [] s
  | cons {s mid after : σ} {w : Writing} {ws : List Writing}
      (h : system.write s w.path w.data = (.ok (), mid)) (hrest : Wrote system mid ws after) :
      Wrote system s (w :: ws) after

/-- How the writing of some files can end, by the fault that has stopped it, and the state that it
leaves. -/
inductive WriteEnd (system : System σ) (job : Job) (s : σ) (files : List (Except Fault Writing)) :
    Option Fault → σ → Prop where
  /-- All were written. -/
  | all (done : List Writing) {after : σ} (hfiles : files = done.map .ok)
      (hwrote : Wrote system s done after) : WriteEnd system job s files none after
  /-- There was nothing to be written to a file. -/
  | unformed {f : Fault} (done : List Writing) {rest : List (Except Fault Writing)} {after : σ}
      (hfiles : files = done.map .ok ++ .error f :: rest) (hwrote : Wrote system s done after) :
      WriteEnd system job s files (some f) after
  /-- A write has failed, and has left what it has left. -/
  | refused {fault : FileFault} (done : List Writing) {w : Writing}
      {rest : List (Except Fault Writing)} {mid after : σ}
      (hfiles : files = done.map .ok ++ .ok w :: rest) (hwrote : Wrote system s done mid)
      (hrefused : system.write mid w.path w.data = (.error fault, after)) :
      WriteEnd system job s files (some (.file fault)) after
  /-- A file was written, or all of them, and the user could not be told. -/
  | unheard {fault : FileFault} (done : List Writing) (rest : List (Except Fault Writing)) {after : σ}
      {line : String} (hfiles : files = done.map .ok ++ rest) (hreached : done ≠ [] ∨ rest = [])
      (hwrote : Wrote system s done after) (hunheard : job.Unheard system after line fault) :
      WriteEnd system job s files (some (.file fault)) after

/-- One more file written in front of the others. -/
theorem WriteEnd.cons {job : Job} {s mid after : σ} {w : Writing} {files : List (Except Fault Writing)}
    {fault : Option Fault} (hwrite : system.write s w.path w.data = (.ok (), mid))
    (h : WriteEnd system job mid files fault after) :
    WriteEnd system job s (.ok w :: files) fault after := by
  cases h with
  | all done hfiles hwrote => exact .all (w :: done) (congrArg _ hfiles) (.cons hwrite hwrote)
  | unformed done hfiles hwrote =>
    exact .unformed (w :: done) (congrArg _ hfiles) (.cons hwrite hwrote)
  | refused done hfiles hwrote hrefused =>
    exact .refused (w :: done) (congrArg _ hfiles) (.cons hwrite hwrote) hrefused
  | unheard done rest hfiles hreached hwrote hunheard =>
    exact .unheard (w :: done) rest (congrArg _ hfiles) (.inl (List.cons_ne_nil _ _))
      (.cons hwrite hwrote) hunheard

/-- **Files are written up to the first that cannot be**, or that nobody can be told of. The files in front
of it stay written. -/
theorem writeAll_end {job : Job} {files : List (Except Fault Writing)} {s after : σ}
    {written : String} {fault : Option Fault}
    (h : (writeAll system.host job files).run s = ((written, fault), after)) :
    WriteEnd system job s files fault after := by
  -- the induction is on the files that are left; each step starts in the state that
  -- the write before it has left
  induction files generalizing s written with
  | nil =>
    cases h
    exact .all [] rfl (.nil _)
  | cons file files ih =>
    cases file with
    | error f =>
      cases h
      exact .unformed [] rfl (.nil _)
    | ok w =>
      unfold writeAll at h
      rw [run_bind, run_write] at h
      cases hwrite : system.write s w.path w.data with
      | mk result mid =>
        rw [hwrite] at h
        cases result with
        | error fault =>
          cases h
          -- a write that fails is the last one, in whatever state it leaves
          exact .refused [] rfl (.nil _) hwrite
        | ok done =>
          -- the first file is written, and now the user is told, which changes nothing
          dsimp only at h
          rw [run_bind] at h
          rcases run_tell system job w.line mid with
            ⟨-, told, htell⟩ | ⟨fault, hunheard, htell⟩
          · rw [htell] at h
            dsimp only at h
            rw [run_bind] at h
            cases hrest : (writeAll system.host job files).run mid with
            | mk result last =>
              rw [hrest] at h
              cases h
              -- the file written is one more in front of those of the rest
              exact (ih hrest).cons hwrite
          · rw [htell] at h
            cases h
            -- the file is there although the run stops
            exact .unheard [w] files rfl (.inl (List.cons_ne_nil _ _)) (.cons hwrite (.nil _)) hunheard

/-! ### The job -/

/-- What a job makes of its source once it has come to read it, without regard to problems. -/
structure Job.Gives (job : Job) (system : System σ) (s : σ) (a : Assembly) : Prop where
  greeted : job.Heard system s job.greeting
  assembly : assembleRead job.settings job.source (system.read s job.source) = .ok a

/-- What a job makes of a source without problems: an assembly, and a path for the output. -/
structure Job.Assembles (job : Job) (system : System σ) (s : σ) (output : PathName) (a : Assembly) :
    Prop extends job.Gives system s a where
  outputPath : job.outputPath = .ok output
  ok : a.ok = true

/-- How a job ends, and the state that it leaves. One rule for each point at which a job can end, with
what is known once it has come that far. -/
inductive Job.Course (job : Job) (system : System σ) (s : σ) : Outcome → σ → Prop where
  | unplaced {fault : Fault} (h : job.outputPath = .error fault) :
      Course job system s (Command.stopped fault) s
  | unheard {fault : FileFault} (h : job.Unheard system s job.greeting fault) :
      Course job system s (Command.stopped (.file fault)) s
  | stopped {fault : Fault}
      (h : assembleRead job.settings job.source (system.read s job.source) = .error fault)
      (greeting opening : String) :
      Course job system s ((Command.stopped fault).after greeting opening) s
  | faulty {a : Assembly} (h : job.Gives system s a) (hproblems : a.ok = false)
      (greeting errors : String) :
      Course job system s ⟨Severity.build.exit, greeting, errors⟩ s
  | finished {output : PathName} {a : Assembly} {o : Outcome} {after : σ}
      (h : job.Assembles system s output a)
      (hfinish : (finish system.host job output a).run s = (o, after)) (greeting notes : String) :
      Course job system s (o.after greeting notes) after

theorem Job.run_course {job : Job} {s after : σ} {o : Outcome}
    (h : (job.run system.host).run s = (o, after)) : job.Course system s o after := by
  unfold Job.run at h
  -- the output path is judged before anything is read or printed
  split at h
  next fault houtput =>
    cases h
    exact .unplaced houtput
  next output houtput =>
    rw [run_bind] at h
    rcases run_tell system job job.greeting s with
      ⟨hheard, greeting, htell⟩ | ⟨fault, hunheard, htell⟩
    · rw [htell] at h
      dsimp only at h
      -- reading leaves the state as it is, so what is assembled is the text at the start
      rw [run_bind, run_read] at h
      dsimp only at h
      split at h
      next fault hfault =>
        cases h
        -- the source cannot be read or assembled
        exact .stopped hfault _ _
      next a ha =>
        cases hok : a.ok with
        | false =>
          rw [hok] at h
          cases h
          -- problems are reported and nothing is written
          exact .faulty ⟨hheard, ha⟩ hok _ _
        | true =>
          rw [hok, if_pos rfl, run_bind] at h
          cases hfinish : (finish system.host job output a).run s with
          | mk o' after' =>
            rw [hfinish] at h
            cases h
            exact .finished ⟨⟨hheard, ha⟩, houtput, hok⟩ hfinish _ _
    · rw [htell] at h
      cases h
      exact .unheard hunheard

/-! ### The command -/

/-- How the command ends, and the state that it leaves. Arguments may be misread, answered or refused
before a job is made of them, and from there on the command ends as its job does. -/
inductive Course (system : System σ) (reader : Reader) (env : Environment)
    (arguments : List String) (s : σ) : Outcome → σ → Prop where
  | misread {fault : UsageFault} (h : reader arguments = .error fault) :
      Course system reader env arguments s fault.outcome s
  | answered {a : Arguments} {switch : Switch} (h : reader arguments = .ok a)
      (hs : a.mentioned.find? Switch.isEager = some switch) (o : Outcome) :
      Course system reader env arguments s o s
  | refused {a : Arguments} {fault : UsageFault} (h : reader arguments = .ok a)
      (hs : a.mentioned.find? Switch.isEager = none)
      (hfault : ((check system.host.toFileAccess a).run s).1 = some fault) :
      Course system reader env arguments s fault.outcome s
  | accepted {a : Arguments} {o : Outcome} {after : σ}
      (h : reader arguments = .ok a) (hs : a.mentioned.find? Switch.isEager = none)
      (hchecked : ((check system.host.toFileAccess a).run s).1 = none)
      (hjob : (Job.ofArguments env a).Course system s o after) :
      Course system reader env arguments s o after

/-- A question leaves the state as it is, whether the answer can be printed or not. -/
theorem answer_keeps (text : String) : Keeps (answer system.host text) := by
  refine .bind (fun _ => rfl) fun result => ?_
  cases result <;> exact .pure _

/-- **The course of a run.** The ways of `Course` and of `Job.Course` are all that there are, for any
system and any way to read the arguments. -/
theorem runOn_course (system : System σ) (reader : Reader) (env : Environment)
    (arguments : List String) (s : σ) :
    Course system reader env arguments s (runOn system reader env arguments s).1
      (runOn system reader env arguments s).2 := by
  unfold runOn run
  split
  next fault h => exact .misread h
  next a h =>
    split
    next hs =>
      rw [answer_keeps]
      exact .answered h hs _
    next switch _ hs =>
      rw [answer_keeps]
      exact .answered h hs _
    next hs =>
      -- the checks look at the disk only, so the job starts in the state of the run
      rw [run_bind, check_keeps]
      split
      next fault hfault => exact .refused h hs hfault
      next hchecked => exact .accepted h hs hchecked (Job.run_course rfl)

/-- A run that is asked no question, passes its checks and assembles its source goes on to write. -/
theorem runOn_of_assembles {reader : Reader} {env : Environment} {arguments : List String} {s : σ}
    {a : Arguments} {output : PathName} {assembly : Assembly} (hread : reader arguments = .ok a)
    (hs : a.mentioned.find? Switch.isEager = none)
    (hchecked : ((check system.host.toFileAccess a).run s).1 = none)
    (h : (Job.ofArguments env a).Assembles system s output assembly) :
    ∃ greeting notes, runOn system reader env arguments s =
      ((((finish system.host (Job.ofArguments env a) output assembly).run s).1.after greeting notes),
        ((finish system.host (Job.ofArguments env a) output assembly).run s).2) := by
  have hjob : runOn system reader env arguments s =
      ((Job.ofArguments env a).run system.host).run s := by
    -- no step in front of the job changes the state or ends the run
    unfold runOn run
    rw [hread]
    dsimp only
    rw [hs]
    dsimp only
    rw [run_bind, check_keeps, hchecked]
  rw [hjob]
  unfold Job.run
  rw [h.outputPath]
  dsimp only
  rw [run_bind]
  rcases run_tell system (Job.ofArguments env a) (Job.ofArguments env a).greeting s with
    ⟨-, greeting, htell⟩ | ⟨fault, hunheard, -⟩
  · rw [htell]
    dsimp only
    rw [run_bind, run_read]
    dsimp only
    rw [h.assembly]
    dsimp only
    rw [h.ok, if_pos rfl]
    exact ⟨_, _, rfl⟩
  · -- a job that has come to read its source has been able to say so
    cases (h.greeted hunheard.verbose).symm.trans hunheard.print

/-! ### Exit codes -/

theorem Severity.exit_ne_zero (s : Severity) : s.exit ≠ 0 := by
  cases s <;> exact Nat.succ_ne_zero _

theorem UsageFault.exit_ne_zero (fault : UsageFault) : fault.outcome.exit ≠ 0 :=
  Nat.succ_ne_zero 1

/-- The end of writing: the exit code is that of the fault that has stopped it, or zero. -/
theorem finish_end {job : Job} {output : PathName} {a : Assembly} {s after : σ} {o : Outcome}
    (h : (finish system.host job output a).run s = (o, after)) :
    ∃ fault, WriteEnd system job s (writings job output a) fault after ∧
      o.exit = fault.elim 0 fun f => (Severity.ofFault f).exit := by
  unfold finish at h
  rw [run_bind] at h
  cases hwritten : (writeAll system.host job (writings job output a)).run s with
  | mk result last =>
    obtain ⟨written, fault⟩ := result
    have hend := writeAll_end hwritten
    rw [hwritten] at h
    cases fault with
    | some f =>
      cases h
      -- a fault decides the exit code, and nothing is told behind it
      exact ⟨some f, hend, rfl⟩
    | none =>
      -- all files are written, and what is left is the line that says so
      dsimp only at h
      rw [run_bind] at h
      rcases run_tell system job
          s!"Assembly complete: {a.regions.length} regions, {a.symbols.size} symbols" last with
        ⟨-, told, htell⟩ | ⟨fault, hunheard, htell⟩
      · rw [htell] at h
        cases h
        exact ⟨none, hend, rfl⟩
      · rw [htell] at h
        cases h
        cases hend with
        | all done hfiles hwrote =>
          -- all files are written, and yet the run fails: nothing is taken back
          refine ⟨some (.file fault), .unheard done [] ?_ (.inr rfl) hwrote hunheard, rfl⟩
          rw [hfiles, List.append_nil]

/-- What the writing of the files comes to, the end of a job comes to, if there is nothing more to
tell. -/
theorem finish_of_writeAll {job : Job} {output : PathName} {a : Assembly} {s after : σ}
    {written : String} {fault : Option Fault} (hquiet : fault = none → job.verbose = false)
    (h : (writeAll system.host job (writings job output a)).run s = ((written, fault), after)) :
    ∃ o, (finish system.host job output a).run s = (o, after) ∧
      o.exit = fault.elim 0 fun f => (Severity.ofFault f).exit := by
  unfold finish
  rw [run_bind, h]
  cases fault with
  | some f => exact ⟨_, rfl, rfl⟩
  | none =>
    dsimp only
    unfold Job.tell
    rw [hquiet rfl]
    exact ⟨_, rfl, rfl⟩

end CrossAssembler.Command
