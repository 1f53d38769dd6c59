import Galley.Consumer
import Galley.Definition

/-!
Arguments of a call. Leading delimiters must come exactly. A parameter without delimiters takes the
next token that is no space, or the body of a group; one with delimiters takes all up to their first
occurrence outside groups, without the braces if all of that is a single group.
-/

namespace Galley.Definition

inductive CaptureFault
  | runaway
  | mismatch
  | extraEnd
  deriving DecidableEq, Repr

def CaptureFault.message (name : String) : CaptureFault → String
  | .runaway => "runaway argument: input ended while scanning use of " ++ name
  | .mismatch => "use of " ++ name ++ " doesn't match its definition"
  | .extraEnd => "argument of " ++ name ++ " has an extra \x7d"

abbrev Capture (α : Type) := ExceptT CaptureFault Consumer α

namespace Capture

def ofScan {σ α : Type} (step : σ → Lexeme → Turn σ (Except CaptureFault α)) (s : σ) : Capture α :=
  Consumer.scan step (fun _ => .error .runaway) s

/-- The next token, which must be there. -/
def token : Capture Lexeme := ofScan (fun () t => .finish (.ok t)) ()

def nonBlank : Capture Lexeme :=
  ofScan (fun () t => if t.token.isSpace then .again () else .finish (.ok t)) ()

/-- What has been read of a group, last token first, and how many of its groups are open. -/
structure Body where
  depth : Nat := 0
  tokens : List Lexeme := []

def bodyStep (b : Body) (t : Lexeme) : Turn Body (Except CaptureFault (List Lexeme)) :=
  if t.token.isBegin then .again ⟨b.depth + 1, t :: b.tokens⟩
  else if t.token.isEnd then
    match b.depth with
    | 0 => .finish (.ok b.tokens.reverse)
    | depth + 1 => .again ⟨depth, t :: b.tokens⟩
  else .again ⟨b.depth, t :: b.tokens⟩

/-- Reads up to the end of a group whose beginning has been read. -/
def groupBody : Capture (List Lexeme) := ofScan bodyStep {}

def undelimited : Capture (List Lexeme) := do
  let t ← nonBlank
  if t.token.isEnd then throw .extraEnd
  else if t.token.isBegin then groupBody
  else return [t]

/-- The captured tokens less the delimiters, if these end them; both last token first. -/
def withoutDelimiters (delimiters tokens : List Lexeme) : Option (List Lexeme) :=
  if (tokens.take delimiters.length).map (·.token) = delimiters.map (·.token) then
    some (tokens.drop delimiters.length)
  else none

def depthAfter (depth : Nat) (t : Token) : Option Nat :=
  if t.isBegin then some (depth + 1)
  else if t.isEnd then (match depth with | 0 => none | depth + 1 => some depth)
  else some depth

def delimitedStep (delimiters : List Lexeme) (b : Body) (t : Lexeme) :
    Turn Body (Except CaptureFault (List Lexeme)) :=
  match depthAfter b.depth t.token with
  | none => .finish (.error .extraEnd)
  | some depth =>
    let tokens := t :: b.tokens
    match (if depth = 0 then withoutDelimiters delimiters tokens else none) with
    | some captured => .finish (.ok captured.reverse)
    | none => .again ⟨depth, tokens⟩

/-- No group but one that ends with the last token closes all that are open. -/
def closesLast (depth : Int) : List Lexeme → Bool
  | [] => true
  | t :: more =>
    if t.token.isBegin then closesLast (depth + 1) more
    else if t.token.isEnd then (depth ≠ 1 || more.isEmpty) && closesLast (depth - 1) more
    else closesLast depth more

def isSingleGroup : List Lexeme → Bool
  | [] => false
  | [_] => false
  | t :: u :: more =>
    t.token.isBegin && ((u :: more).getLast (by simp)).token.isEnd && closesLast 0 (t :: u :: more)

def stripGroup (ts : List Lexeme) : List Lexeme :=
  if isSingleGroup ts then ts.tail.dropLast else ts

def delimited (delimiters : List Lexeme) : Capture (List Lexeme) := do
  let captured ← ofScan (delimitedStep delimiters.reverse) {}
  return stripGroup captured

def leading : List Element → Capture (List Element)
  | .delimiter expected :: more => do
    let t ← token
    if t.token = expected.token then leading more else throw .mismatch
  | elements => return elements

/-- The delimiters that the elements begin with, and what follows these. -/
def delimiters : List Element → List Lexeme × List Element
  | .delimiter t :: more => (t :: (delimiters more).1, (delimiters more).2)
  | elements => ([], elements)

def argument (ds : List Lexeme) : Capture (List Lexeme) :=
  if ds.isEmpty then undelimited else delimited ds

/-- Reads the arguments of the parameters; a delimiter belongs to the parameter before it. -/
def parameters (args : Arguments) : List Element → Capture Arguments
  | [] => return args
  | .delimiter _ :: more => parameters args more
  | .parameter n :: more => do
    let arg ← argument (delimiters more).1
    parameters (args.set n arg) more

end Capture

/-- Reads the arguments of a call whose name has been read. -/
def capture (d : Definition) : Capture Arguments := do
  let elements ← Capture.leading d.parameters
  Capture.parameters .empty elements

end Galley.Definition
