import Galley.Consumer
import Galley.Definition

/-!
Definitions as they are written: the parameter text up to the first beginning of a group, then the
replacement up to the end of that group. A parameter character and a digit stand for a parameter,
and in the replacement two parameter characters for one.
-/

namespace Galley.Definition

inductive ReadingFault
  | runaway
  | missingBegin
  | numbering
  | illegalNumber
  | rejected (e : DefinitionError)
  deriving DecidableEq, Repr

def ReadingFault.message (name : String) : ReadingFault → String
  | .runaway => "runaway definition: input ended while scanning definition of " ++ name
  | .missingBegin => "missing \x7b in definition of " ++ name
  | .numbering => "parameters must be numbered consecutively in definition of " ++ name
  | .illegalNumber => "illegal parameter number in definition of " ++ name
  | .rejected e => e.message

namespace Reading

/-- The parameter that a token numbers, if it is a character from `1` to `9`. -/
def number? : Token → Option Nat
  | .cs _ => none
  | .ch c _ => if '1' ≤ c ∧ c ≤ '9' then some (c.toNat - 48) else none

/-- A parameter text as far as it has been read, last element first; `marked` after a parameter
character. -/
structure ParameterText where
  elements : List Element := []
  count : Nat := 0
  marked : Bool := false

def ParameterText.step (s : ParameterText) (t : Lexeme) :
    Turn ParameterText (Except ReadingFault ParameterText) :=
  if s.marked then
    if number? t.token = some (s.count + 1) then
      .again ⟨.parameter (s.count + 1) :: s.elements, s.count + 1, false⟩
    else .finish (.error .numbering)
  else if t.token.isBegin then .finish (.ok s)
  else if t.token.isEnd then .finish (.error .missingBegin)
  else if t.token.isParameter then .again { s with marked := true }
  else .again { s with elements := .delimiter t :: s.elements }

def ParameterText.atEnd (s : ParameterText) : Except ReadingFault ParameterText :=
  .error (if s.marked then .numbering else .runaway)

/-- A replacement as far as it has been read, last part first. -/
structure Replacement where
  parts : List Part := []
  depth : Nat := 0
  marked : Bool := false

def Replacement.afterMark (count : Nat) (s : Replacement) (t : Lexeme) :
    Turn Replacement (Except ReadingFault (List Part)) :=
  if t.token.isParameter then .again { s with parts := .literal t :: s.parts, marked := false }
  else
    match number? t.token with
    | some n =>
      if n ≤ count then .again { s with parts := .reference n :: s.parts, marked := false }
      else .finish (.error .illegalNumber)
    | none => .finish (.error .illegalNumber)

def Replacement.step (count : Nat) (s : Replacement) (t : Lexeme) :
    Turn Replacement (Except ReadingFault (List Part)) :=
  if s.marked then s.afterMark count t
  else if t.token.isBegin then
    .again { s with parts := .literal t :: s.parts, depth := s.depth + 1 }
  else if t.token.isEnd then
    match s.depth with
    | 0 => .finish (.ok s.parts.reverse)
    | depth + 1 => .again { s with parts := .literal t :: s.parts, depth := depth }
  else if t.token.isParameter then .again { s with marked := true }
  else .again { s with parts := .literal t :: s.parts }

def Replacement.atEnd (s : Replacement) : Except ReadingFault (List Part) :=
  .error (if s.marked then .illegalNumber else .runaway)

def parameterText : ExceptT ReadingFault Consumer ParameterText :=
  Consumer.scan ParameterText.step ParameterText.atEnd {}

def replacement (count : Nat) : ExceptT ReadingFault Consumer (List Part) :=
  Consumer.scan (Replacement.step count) Replacement.atEnd {}

end Reading

/-- Reads a definition whose name has been read. -/
def read : ExceptT ReadingFault Consumer Definition := do
  let text ← Reading.parameterText
  let parts ← Reading.replacement text.count
  match make text.elements.reverse parts with
  | .ok d => return d
  | .error e => throw (.rejected e)

end Galley.Definition
