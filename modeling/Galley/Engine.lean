import Galley.Build

/-!
The engine: lines read under tables that outlive it, with one face for all characters. What is left
of its input can be built into a list or delivered as expanded tokens.
-/

namespace Galley

structure Config where
  strict : Bool := false
  nested : Bool := true
  capacity : Capacity := { chunks := 5000 }
  font : String := "cmr10"
  deriving DecidableEq, Repr

structure Engine where
  machine : Machine
  face : Typeface
  deriving DecidableEq, Repr

namespace Engine

/-- The metrics of a configuration that names none. -/
def usualMetrics (config : Config) : Metrics := { name := config.font }

def start (config : Config) (metrics : Metrics) (tables : Tables) (lines : List String) : Engine :=
  ⟨⟨tables, .ofLines lines config.strict config.nested config.capacity⟩, ⟨metrics, config.font⟩⟩

/-- Reads other lines under the tables as they are. -/
def reopen (e : Engine) (config : Config) (lines : List String) : Engine :=
  start config e.face.metrics e.machine.tables lines

def lines (e : Engine) : List String := e.machine.input.lexer.lines

/-- Builds a list from what is left of the input. -/
def run (rounds : Nat) (mode : Mode) (e : Engine) : Outcome Engine Composed :=
  match e.machine.build e.face rounds mode with
  | .done list m => .done list { e with machine := m }
  | .failed fault m => .failed fault { e with machine := m }
  | .unfinished => .unfinished

/-- All expanded tokens of what is left of the input. -/
def expand (rounds : Nat) (e : Engine) : Outcome Engine (List Lexeme) :=
  let d := e.machine.input.drain e.machine.tables rounds rounds
  match d.ending with
  | .done () i => .done d.tokens { e with machine := { e.machine with input := i } }
  | .failed fault i => .failed fault { e with machine := { e.machine with input := i } }
  | .unfinished => .unfinished

end Engine

end Galley
