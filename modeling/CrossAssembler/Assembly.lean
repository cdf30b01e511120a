import CrossAssembler.FileTree
import CrossAssembler.Item.Parse
import CrossAssembler.Region
import CrossAssembler.Settings
import CrossAssembler.Token.Scan

/-!
# Assembling a source

`assemble` takes a source text all the way: tokens, items, a listing, regions. Problems never stop
it; they are collected from all stages and put into the order of their lines. The only source that
stops a run is one with a decimal number too long to be read.

A `Workbench` keeps settings and the last assembly, for callers that run sources one after another
and ask for results afterwards.
-/

namespace CrossAssembler

/-- All that one run produces. -/
structure Assembly where
  /-- The emitted bytes, in order of statements. -/
  emissions : List Emission
  regions : List Region
  /-- The problems of all stages, by line. -/
  problems : List Diagnostic
  symbols : SymbolTable
  /-- What gaps are filled with. -/
  fill : Int
  notes : List Note

/-- Problems in the order of their lines; those of one line keep their order. -/
def byLine (problems : List Diagnostic) : List Diagnostic :=
  problems.mergeSort fun a b => a.line ≤ b.line

/-- A source text assembled under some settings. An empty file name stands for the one of the
settings. -/
def assemble (settings : Settings) (source : String) (file : String := "") :
    Except Fault Assembly := do
  let name := if file = "" then settings.file else file
  let tokens ← tokenize source name
  let parsed := parse name tokens
  let machine : Machine := { address := settings.origin, cpu := settings.cpu }
  let listing ← (machine.assemble parsed.items).mapError Prod.fst
  let regions := Region.bundle listing.emissions
  let bytes := (regions.flatMap Region.data).length
  return {
    emissions := listing.emissions
    regions := regions
    problems := byLine (parsed.reports ++ listing.reports)
    symbols := listing.machine.symbols
    fill := settings.fill
    notes := [.tokenized name tokens.length,
        .parsed parsed.items.length tokens.length parsed.reports.length] ++
      listing.notes ++ regions.map (fun r => .opened r.base) ++
      [.finished name bytes regions.length] }

namespace Assembly

/-- The run had no problems. -/
def ok (a : Assembly) : Bool := a.problems.isEmpty

/-- The lowest base of a region, zero if there is none. -/
def origin (a : Assembly) : Int :=
  (a.regions.map Region.base).min?.getD 0

/-- The report on all problems. -/
def report (a : Assembly) : String := Diagnostic.report a.problems

/-- The image of all regions. There is none if the run had problems or regions overlap. -/
def code (a : Assembly) : Except Fault (List UInt8) :=
  if a.ok then (Region.flatten a.regions a.fill).map Prod.snd
  else .error (.assemblyFailed a.problems)

/-- The texts of the warnings. -/
def warnings (a : Assembly) : List String :=
  (a.notes.filter Note.isWarning).map Note.text

end Assembly

/-- A source file assembled under some settings, given what came of reading it. -/
def assembleRead (settings : Settings) (path : PathName) (source : Except FileFault String) :
    Except Fault Assembly := do
  assemble settings (← source.mapError .file) path.text

/-- The image of a source text under default settings. -/
def assembleCode (source : String) (file : String := "<input>") : Except Fault (List UInt8) := do
  (← assemble { file := file } source).code

/-- The image of a source file under default settings. -/
def assembleFileCode (tree : FileTree) (path : String) : Except Fault (List UInt8) := do
  let name := PathName.ofText path
  (← assembleRead {} name (tree.readText name)).code

/-- Settings, and the last assembly made with them. -/
structure Workbench where
  settings : Settings := {}
  last : Option Assembly := none

namespace Workbench

/-- The workbench behind a run: it keeps the assembly, and a run that stopped leaves it as it
was. -/
def keep (w : Workbench) : Except Fault Assembly → Workbench
  | .ok a => { w with last := some a }
  | .error _ => w

/-- A source text assembled under the settings of the workbench. -/
def assemble (w : Workbench) (source : String) (file : String := "") : Except Fault Assembly :=
  CrossAssembler.assemble w.settings source file

/-- A source file assembled under the settings of the workbench. -/
def assembleFile (w : Workbench) (tree : FileTree) (path : String) : Except Fault Assembly := do
  let name := PathName.ofText path
  assembleRead w.settings name (tree.readText name)

/-- The last assembly, or the fault that there is none. -/
def result (w : Workbench) : Except Fault Assembly :=
  match w.last with
  | some a => .ok a
  | none => .error .nothingAssembled

end Workbench

end CrossAssembler
