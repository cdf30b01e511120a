import CrossAssembler.Processor.Register
import CrossAssembler.Text.Numeral

/-!
# Settings

How a run starts, and what gaps are filled with. Settings come from defaults, from the environment
and from the command line; in the environment a value that cannot be used is passed over.
-/

namespace CrossAssembler

/-- The settings of a run. -/
structure Settings where
  /-- The processor at the start of the source. -/
  cpu : Cpu := .z80
  /-- The address counter at the start of the source. -/
  origin : Int := 0
  /-- The value that gaps between regions are filled with. -/
  fill : Int := 0xFF
  /-- The name of the source in messages. -/
  file : String := "<input>"
  deriving DecidableEq, Repr

/-- The environment variables that hold settings. -/
structure Environment where
  cpu : Option String := none
  origin : Option String := none
  fill : Option String := none
  deriving DecidableEq, Repr

/-- A number from zero to a limit. -/
def numberUpTo? (limit : Int) (text : String) : Option Int :=
  (Text.number? text).filter fun v => decide (0 ≤ v ∧ v ≤ limit)

/-- The processor that a setting names, in letters of either case and with blanks around it. -/
def Cpu.ofSetting? (text : String) : Option Cpu :=
  Cpu.ofName? (String.ofList ((Text.trim text.toList).map Char.toUpper))

namespace Settings

/-- The settings of an environment. -/
def ofEnvironment (env : Environment) : Settings :=
  { cpu := (env.cpu.bind Cpu.ofSetting?).getD .z80,
    origin := (env.origin.bind (numberUpTo? 0xFFFF)).getD 0,
    fill := (env.fill.bind (numberUpTo? 0xFF)).getD 0xFF }

end Settings

end CrossAssembler
