import Galley.Fault

/-!
Notices: faults as a reader of the source sees them, with the line at fault and the chain of calls.
-/

namespace Galley

/-- The place may lie outside the lines. -/
structure Notice where
  message : String
  line : Int
  column : Int
  lines : List String
  chain : List String
  deriving DecidableEq, Repr

namespace Notice

def ofFault (lines : List String) (f : Fault) : Notice :=
  ⟨f.cause.message, f.place.line, f.place.column, lines, f.chain⟩

/-- The line at fault, empty if there is none. -/
def sourceLine (n : Notice) : String :=
  if 0 < n.line then n.lines.getD (n.line - 1).toNat "" else ""

/-- One or two carets, as the line leaves room. -/
def caretCount (n : Notice) : Nat :=
  max 1 (min 2 ((n.sourceLine.length : Int) - n.column + 1).toNat)

def blanks (n : Nat) : String := String.ofList (List.replicate n ' ')

def chainText (chain : List String) : String := " -> ".intercalate (chain.map ("\\" ++ ·))

def text (n : Notice) (file : String) : String :=
  let number := toString n.line
  let gutter := blanks (number.length + 1)
  let carets := String.ofList (List.replicate n.caretCount '^')
  "error: " ++ n.message ++ "\n" ++
    gutter ++ "--> " ++ file ++ ":" ++ number ++ ":" ++ toString n.column ++ "\n" ++
    gutter ++ "|\n" ++
    number ++ " | " ++ n.sourceLine ++ "\n" ++
    gutter ++ "| " ++ blanks (n.column - 1).toNat ++ carets ++
    (if n.chain.isEmpty then "" else "\n  in expansion chain: " ++ chainText n.chain)

/-- A report of four lines at least: first the message, then the file and the place in it, and below
a line of blanks the line of the source. -/
def Shows (message file : String) (line column : Int) (source report : String) : Prop :=
  ∃ gutter rest : String, (∀ c ∈ gutter.toList, c = ' ') ∧
    report =
      "error: " ++ message ++ "\n" ++
      gutter ++ "--> " ++ file ++ ":" ++ toString line ++ ":" ++ toString column ++ "\n" ++
      gutter ++ "|\n" ++
      toString line ++ " | " ++ source ++ "\n" ++ rest

theorem Shows.append {message file source report : String} {line column : Int}
    (h : Shows message file line column source report) (more : String) :
    Shows message file line column source (report ++ more) := by
  obtain ⟨gutter, rest, hblank, rfl⟩ := h
  exact ⟨gutter, rest ++ more, hblank, by simp only [String.append_assoc]⟩

/-- The text of a notice shows all that the notice has to say. -/
theorem text_shows (n : Notice) (file : String) :
    Shows n.message file n.line n.column n.sourceLine (n.text file) := by
  refine ⟨blanks ((toString n.line).length + 1),
    blanks ((toString n.line).length + 1) ++ "| " ++ blanks (n.column - 1).toNat ++
      String.ofList (List.replicate n.caretCount '^') ++
      (if n.chain.isEmpty then "" else "\n  in expansion chain: " ++ chainText n.chain), ?_, ?_⟩
  · rw [blanks, String.toList_ofList]
    exact fun c hc => List.eq_of_mem_replicate hc
  · unfold text
    simp only [String.append_assoc]

end Notice

end Galley
