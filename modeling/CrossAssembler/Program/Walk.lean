import CrossAssembler.Note
import CrossAssembler.Program.Statement

/-!
# Walking over a program

A walk goes through the lines of a program once. It binds or verifies the labels of each line and
applies the effect of its statement. `Machine.assemble` walks twice from the same address and
processor: the survey fills the symbol table, the final walk emits and reports.

A fault stops a walk where it is; the machine it has reached by then is kept with the fault.
-/

namespace CrossAssembler

/-- Whether emitted bytes are part of the output. -/
inductive Standing where
  | pending
  | accepted
  | discarded
  deriving DecidableEq, Repr

/-- The bytes of one statement. -/
structure Emission where
  /-- The address counter in front of the bytes. -/
  address : Int
  data : List UInt8
  location : Option Location := none
  /-- The last label in front of the statement. -/
  label : Option String := none
  standing : Standing := .pending
  deriving DecidableEq, Repr

namespace Emission

/-- The line of the statement, zero if its place is not known. -/
def line (e : Emission) : Int :=
  match e.location with
  | some l => l.line
  | none => 0

/-- The address just past the last byte. -/
def finish (e : Emission) : Int :=
  e.address + e.data.length

end Emission

/-- The number of addresses. -/
def addressSpace : Int := 0x10000

/-- A walk in progress. -/
structure Walk where
  machine : Machine
  /-- The last label that no emission and no new address has taken. -/
  label : Option String := none
  emissions : Array Emission := #[]
  reports : Array Diagnostic := #[]
  notes : Array Note := #[]

namespace Walk

/-- A report, which only the final walk keeps. -/
def report (pass : Pass) (w : Walk) (d : Diagnostic) : Walk :=
  match pass with
  | .survey => w
  | .final => { w with reports := w.reports.push d }

/-- A note, which only the final walk keeps. -/
def note (pass : Pass) (w : Walk) (n : Note) : Walk :=
  match pass with
  | .survey => w
  | .final => { w with notes := w.notes.push n }

/-- A label is bound by the survey and verified by the final walk. -/
def bind (pass : Pass) (w : Walk) (label : Item) : Walk :=
  let w' := match pass with
    | .survey =>
      let symbols := w.machine.symbols.define label.text w.machine.address label.location
      { w with machine := { w.machine with symbols := symbols } }
    | .final =>
      match w.machine.symbols.verify? label.text label.location with
      | some d => w.report pass d
      | none => w
  { w' with label := label.text }

/-- Bytes are emitted at the address counter, which moves on past them and wraps at the end of the
address space. -/
def emit (pass : Pass) (w : Walk) (location : Location) (data : List UInt8) : Walk :=
  let emission : Emission :=
    { address := w.machine.address, data := data, location := some location, label := w.label,
      standing := .accepted }
  let w' := if 0xFFFF < emission.finish then w.note pass (.wrapped location.line) else w
  { w' with
    machine := { w.machine with address := emission.finish % addressSpace },
    label := none,
    emissions := w.emissions.push emission }

/-- The walk behind a statement with an effect. -/
def apply (pass : Pass) (w : Walk) : Effect → Walk
  | .nothing => w
  | .emit location data => w.emit pass location data
  | .moveTo line address =>
    { w.note pass (.moved line address) with
      machine := { w.machine with address := address }, label := none }
  | .choose cpu => { w with machine := { w.machine with cpu := cpu } }
  | .report d => w.report pass d

/-- The walk behind a line, or the fault that stops it and the machine at that moment. -/
def step (pass : Pass) (w : Walk) (line : Line) : Except (Fault × Machine) Walk :=
  let bound := line.labels.foldl (bind pass) w
  match Statement.effect pass bound.machine line.statement with
  | .ok effect => .ok (bound.apply pass effect)
  | .error fault => .error (fault, bound.machine)

/-- The walk over some lines. -/
def run (pass : Pass) (m : Machine) (lines : List Line) : Except (Fault × Machine) Walk :=
  lines.foldlM (step pass) { machine := m }

end Walk

/-- What assembling a program gives. -/
structure Listing where
  /-- The machine behind the last line. -/
  machine : Machine
  /-- The emitted bytes, in order of statements. -/
  emissions : List Emission
  /-- The reports, in order of statements. -/
  reports : List Diagnostic
  /-- The notes of both walks. -/
  notes : List Note

/-- A program assembled on a machine: surveyed, then walked again from the same address and
processor with all labels known. -/
def Machine.assemble (m : Machine) (items : List Item) : Except (Fault × Machine) Listing := do
  let lines := Line.ofItems items
  let survey ← Walk.run .survey m lines
  let symbols := survey.machine.symbols
  let final ← Walk.run .final { m with symbols := symbols } lines
  let notes := [Note.surveyed symbols.size] ++ final.notes.toList ++
    [Note.generated final.emissions.size final.reports.size]
  return { machine := final.machine, emissions := final.emissions.toList,
           reports := final.reports.toList, notes := notes }

end CrossAssembler
