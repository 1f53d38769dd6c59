import Galley.Diagnostic
import Galley.Disk
import Galley.Options
import Galley.SettingsText

/-!
The command line: options and settings are put together, the input is read and run, and a report
says what to print, what to write and with which code to end.
-/

namespace Galley

/-- What a finished command leaves behind. -/
structure Report where
  code : Nat
  stdout : String := ""
  stderr : String := ""
  written : Option (Path × String) := none
  deriving DecidableEq, Repr

/-- How a command ends: without a report if a file cannot be read or written, or if it is asked for
a capacity without being told which. -/
inductive Ending
  | report (r : Report)
  | blocked (entry : Entry)
  | noCapacity
  | unfinished
  deriving DecidableEq, Repr

inductive SetupError
  | malformed
  | capacity (limit : Capacity)
  | metrics (e : SettingError)
  deriving DecidableEq, Repr

def SetupError.message : SetupError → String
  | .malformed => "invalid config: <toml>"
  | .capacity limit => "max depth must be positive: " ++ limit.shown
  | .metrics e => "invalid config: " ++ e.message

def SetupError.ending (e : SetupError) : Ending :=
  .report { code := 2, stderr := "error: " ++ e.message ++ "\n" }

/-- What a command runs with. -/
structure Setup where
  config : Config
  metrics : Metrics
  deriving DecidableEq, Repr

namespace CommandLine

/-- The input of a command, or the standard input. -/
def inputPath? (o : Options) : Option Path :=
  if o.input = "-" then none else some (.ofText o.input)

/-- The settings lie beside the input unless the command line names them. -/
def settingsPath (o : Options) : Path :=
  if o.settings ≠ "" then .ofText o.settings
  else (((inputPath? o).map Path.parent).getD (.ofText "")).child "minitex.toml"

/-- A missing file holds no settings. -/
def readSettings (o : Options) (disk : Disk) : Except SetupError Settings :=
  match disk.text? (settingsPath o) with
  | none => .ok {}
  | some text =>
    match SettingsText.read? text with
    | some settings => .ok settings
    | none => .error .malformed

/-- The entries of a named table of the settings. -/
def section? (settings : Settings) (name : String) : Settings :=
  ⟨((settings.get? name).map Value.entries).getD []⟩

def isOn (settings : Settings) (key : String) (usual : Bool) : Bool :=
  ((settings.get? key).map Value.holds).getD usual

/-- A truth value counts as zero or one. -/
def capacityOf (settings : Settings) : Capacity :=
  match settings.get? "max_depth" with
  | some (.int n) => { chunks := n }
  | some (.bool b) => { chunks := if b then 1 else 0, shown := Value.boolText b }
  | _ => { chunks := 5000 }

/-- Options count before settings. -/
def chooseCapacity (o : Options) (engine : Settings) : Except Ending Capacity :=
  let checked (capacity : Capacity) : Except Ending Capacity :=
    if capacity.chunks < 1 then .error (SetupError.capacity capacity).ending else .ok capacity
  match o.capacity with
  | .usual => checked (capacityOf engine)
  | .given n => checked { chunks := n }
  | .blank => .error .noCapacity

def setup (o : Options) (disk : Disk) : Except Ending Setup := do
  let settings ← (readSettings o disk).mapError SetupError.ending
  let engine := section? settings "engine"
  let capacity ← chooseCapacity o engine
  match Metrics.ofSettings (section? settings "font") with
  | .error e => throw (SetupError.metrics e).ending
  | .ok metrics =>
    let config : Config :=
      { strict := o.strict || isOn engine "strict" false
        nested := !o.flat && isOn engine "track_nesting" true
        capacity := capacity
        font := metrics.name }
    return ⟨config, metrics⟩

/-- The text of the input, its line ends unified. -/
def inputText (o : Options) (disk : Disk) (stdin : String) : Except Entry String :=
  match inputPath? o with
  | none => .ok stdin
  | some path =>
    match disk.look path with
    | .file text => .ok (String.ofList (Text.unifyNewlines text.toList))
    | entry => .error entry

def inputName (o : Options) : String := ((inputPath? o).map Path.text).getD "<stdin>"

def exitCode : Stage → Nat
  | .lexing | .expansion | .defect => 1
  | .building | .metrics => 2

def failure (o : Options) (e : Engine) (fault : Fault) : Ending :=
  .report
    { code := exitCode fault.cause.stage
      stderr := (Notice.ofFault e.lines fault).text (inputName o) ++ "\n" }

/-- Says why a file cannot be written, if so. -/
def obstacle? (disk : Disk) (path : Path) : Option Entry :=
  match disk.look path with
  | .directory => some .directory
  | .underFile => some .underFile
  | .file _ => none
  | .missing => if disk.look path.parent = .directory then none else some .missing

/-- Puts the result where it belongs. -/
def deliver (o : Options) (disk : Disk) (stderr result : String) : Ending :=
  if o.output = "" then .report { code := 0, stdout := result, stderr := stderr }
  else
    let path := Path.ofText o.output
    match obstacle? disk path with
    | some entry => .blocked entry
    | none => .report { code := 0, stderr := stderr, written := some (path, result) }

def runTokens (rounds : Nat) (o : Options) (disk : Disk) (e : Engine) : Ending :=
  match e.expand rounds with
  | .done ts _ => deliver o disk "" (Lexeme.spell ts ++ "\n")
  | .failed fault e => failure o e fault
  | .unfinished => .unfinished

def runList (rounds : Nat) (o : Options) (disk : Disk) (e : Engine) : Ending :=
  match e.run rounds .vertical with
  | .done list _ =>
    deliver o disk (if o.debug then list.dump?.getD "" else "") (list.flat ++ "\n")
  | .failed fault e => failure o e fault
  | .unfinished => .unfinished

def run (rounds : Nat) (o : Options) (disk : Disk) (stdin : String) : Ending :=
  match setup o disk with
  | .error ending => ending
  | .ok s =>
    match inputText o disk stdin with
    | .error entry => .blocked entry
    | .ok text =>
      let engine := Engine.start s.config s.metrics {} (Text.linesOf text)
      if o.tokens then runTokens rounds o disk engine else runList rounds o disk engine

end CommandLine

end Galley
