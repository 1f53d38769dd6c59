import Galley.Engine
import Galley.Notice
import Galley.Text.Lines

/-!
Diagnostics: what an editor is told about a text. A run under the usual configuration ends in at
most one fault, and a fault of building is only a warning.
-/

namespace Galley

inductive Severity
  | error | warning
  deriving DecidableEq, Repr

def Severity.code : Severity → Nat
  | error => 1
  | warning => 2

/-- Faults that lie in the tokens are errors, those that lie in the lists made of them warnings. -/
def Stage.severity : Stage → Severity
  | .building | .metrics => .warning
  | .lexing | .expansion | .defect => .error

/-- Lines and characters count from zero here; the mark is one character wide. -/
structure Diagnostic where
  line : Int
  character : Int
  message : String
  severity : Severity
  deriving DecidableEq, Repr

namespace Diagnostic

def ofFault (f : Fault) : Diagnostic :=
  let chain := if f.chain.isEmpty then "" else
    " (in expansion: " ++ Notice.chainText f.chain ++ ")"
  ⟨f.place.line - 1, f.place.column - 1, f.cause.message ++ chain, f.cause.stage.severity⟩

/-- The diagnostics of a text, unless the run is unfinished. -/
def ofText? (rounds : Nat) (text : String) : Option (List Diagnostic) :=
  let config : Config := {}
  let engine := Engine.start config (Engine.usualMetrics config) {} (Text.linesOf text)
  match engine.run rounds .vertical with
  | .done _ _ => some []
  | .failed fault _ => some [ofFault fault]
  | .unfinished => none

end Diagnostic

end Galley
