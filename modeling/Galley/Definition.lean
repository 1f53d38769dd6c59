import Galley.Token

/-!
Definitions: a parameter text that a call must match, and the replacement that the call stands for.
-/

namespace Galley

/-- An element of a parameter text. -/
inductive Element
  | delimiter (t : Lexeme)
  | parameter (n : Int)
  deriving DecidableEq, Repr

/-- An element of a replacement. -/
inductive Part
  | literal (t : Lexeme)
  | reference (n : Int)
  deriving DecidableEq, Repr

structure Definition where
  parameters : List Element := []
  replacement : List Part := []
  deriving DecidableEq, Repr

inductive DefinitionError
  | notConsecutive (n : Int)
  | noSuchParameter (n : Int)
  deriving DecidableEq, Repr

def DefinitionError.message : DefinitionError → String
  | .notConsecutive n => "parameters must be numbered consecutively, got #" ++ toString n
  | .noSuchParameter n => "illegal parameter number #" ++ toString n

abbrev Arguments := Table Int (List Lexeme)

abbrev DefinitionTable := Table Token Definition

namespace Definition

def countFrom (count : Nat) : List Element → Except DefinitionError Nat
  | [] => .ok count
  | .delimiter _ :: more => countFrom count more
  | .parameter n :: more =>
    if n = count + 1 then countFrom (count + 1) more else .error (.notConsecutive n)

def checkParts (count : Nat) : List Part → Except DefinitionError Unit
  | [] => .ok ()
  | .literal _ :: more => checkParts count more
  | .reference n :: more =>
    if 1 ≤ n ∧ n ≤ count then checkParts count more else .error (.noSuchParameter n)

/-- Parameters are numbered from one without gaps, and only these are referred to. -/
def make (parameters : List Element) (replacement : List Part) :
    Except DefinitionError Definition := do
  let count ← countFrom 0 parameters
  checkParts count replacement
  return ⟨parameters, replacement⟩

/-- A definition without parameters. -/
def ofTokens (ts : List Lexeme) : Definition := ⟨[], ts.map .literal⟩

def parameterCount (d : Definition) : Nat :=
  d.parameters.countP fun
    | .parameter _ => true
    | .delimiter _ => false

def fill (args : Arguments) : List Part → Option (List Lexeme)
  | [] => some []
  | .literal t :: more => (fill args more).map (t :: ·)
  | .reference n :: more => do
    let arg ← args.get? n
    let rest ← fill args more
    return arg ++ rest

/-- The replacement with the arguments in the places of their references; `none` if one of these
has no argument. -/
def substitute (d : Definition) (args : Arguments) : Option (List Lexeme) := fill args d.replacement

theorem make_eq_ok {parameters : List Element} {replacement : List Part} {d : Definition}
    (h : make parameters replacement = .ok d) : d = ⟨parameters, replacement⟩ := by
  unfold make at h
  cases hc : countFrom 0 parameters with
  | error e => simp [hc, bind, Except.bind] at h
  | ok count =>
    cases hp : checkParts count replacement with
    | error e => simp [hc, hp, bind, Except.bind] at h
    | ok u => simpa [hc, hp, bind, Except.bind, pure, Except.pure] using h.symm

end Definition

end Galley
