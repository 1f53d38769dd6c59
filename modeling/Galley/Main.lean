import Galley.CommandLine

/-!
The program: reads the files that a command names, runs it and carries out its report.
-/

namespace Galley

/-- Rounds that no run uses up. -/
def manyRounds : Nat := Nat.pow 2 60

/-- The text of a file; a path without a readable file has none. -/
def readFile? (path : Path) : IO (Option String) :=
  try return some (← IO.FS.readFile path.text) catch _ => return none

partial def readAll (stream : IO.FS.Stream) (read : String) : IO String := do
  let line ← stream.getLine
  if line.isEmpty then return read else readAll stream (read ++ line)

/-- Reading a directory as a file fails in a way of its own. -/
def isDirectory (path : Path) : IO Bool :=
  try
    let _ ← IO.FS.readFile path.text
    return false
  catch
    | .inappropriateType _ _ _ => return true
    | _ => return false

/-- The files that a command can read, and the directories that matter for what it writes. -/
def diskFor (o : Options) : IO Disk := do
  let paths := CommandLine.settingsPath o :: (CommandLine.inputPath? o).toList
  let files ← paths.filterMapM fun p => do return (← readFile? p).map fun text => (p.resolved, text)
  let output := Path.ofText o.output
  let all := output :: paths
  let directories ← (all.flatMap Path.onTheWay ++ all).filterM isDirectory
  return ⟨files, directories.map Path.resolved⟩

def carryOut (o : Options) (r : Report) : IO UInt32 := do
  IO.eprint r.stderr
  IO.print r.stdout
  if let some (_, text) := r.written then IO.FS.writeFile (Path.ofText o.output).text text
  return UInt32.ofNat r.code

def runOptions (o : Options) : IO UInt32 := do
  let stdin ← if o.input = "-" then readAll (← IO.getStdin) "" else pure ""
  match CommandLine.run manyRounds o (← diskFor o) stdin with
  | .report r => carryOut o r
  | .blocked _ => do
    IO.eprintln "error: a file cannot be read or written"
    return 1
  | .noCapacity => do
    IO.eprintln "error: no capacity"
    return 1
  | .unfinished => return 1

end Galley

def main (args : List String) : IO UInt32 := do
  match Galley.Options.read args with
  | .ok o => Galley.runOptions o
  | .error .help => do
    IO.println "usage: minitex [options] input"
    return 0
  | .error .unusable => do
    IO.eprintln "usage: minitex [options] input"
    return 2
