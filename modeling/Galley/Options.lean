import Galley.Number.RationalText

/-!
Command-line options. Words that begin with a dash are options, which long ones may be cut short if
no other begins alike; a value follows its option or is attached to it. After two dashes all words
are plain; attached to an option, they stand for no value. There must be one plain word, the input.
-/

namespace Galley

/-- What the command line says on the capacity; it may name the option and leave its value out. -/
inductive CapacityChoice
  | usual
  | given (n : Int)
  | blank
  deriving DecidableEq, Repr

/-- What the command line asks for. -/
structure Options where
  input : String
  output : String := ""
  settings : String := ""
  strict : Bool := false
  flat : Bool := false
  capacity : CapacityChoice := .usual
  tokens : Bool := false
  debug : Bool := false
  deriving DecidableEq, Repr

namespace Options

inductive Refusal
  | unusable
  | help
  deriving DecidableEq, Repr

inductive Switch
  | help | output | settings | strict | flat | capacity | tokens | debug
  deriving DecidableEq, Repr

namespace Switch

def names : List (String × Switch) :=
  [("-h", help), ("--help", help), ("-o", output), ("--output", output), ("--config", settings),
   ("--strict", strict), ("--flat-conditionals", flat), ("--max-depth", capacity),
   ("--tokens", tokens), ("--debug", debug)]

def takesValue : Switch → Bool
  | output | settings | capacity => true
  | help | strict | flat | tokens | debug => false

end Switch

inductive Word
  | plain (s : String)
  | dashes
  | switch (s : Switch) (attached : Option String)
  deriving DecidableEq, Repr

def exactly? (name : List Char) : Option Switch :=
  (Switch.names.find? fun n => n.1.toList = name).map (·.2)

/-- Cuts a word at its first equals sign. -/
def cut (w : List Char) : List Char × Option String :=
  match w.dropWhile (· ≠ '=') with
  | [] => (w, none)
  | _ :: value => (w.takeWhile (· ≠ '='), some (String.ofList value))

/-- The switches that a word may stand for without being the exact name of one. A long one may be
cut short; the value of a short one may follow it at once. -/
def candidates (w : List Char) : List Word :=
  match w with
  | '-' :: '-' :: _ =>
    let (name, value) := cut w
    (Switch.names.filter fun n => name.isPrefixOf n.1.toList).map fun n => .switch n.2 value
  | '-' :: c :: value =>
    (Switch.names.filter fun n => n.1.toList = ['-', c]).map fun n =>
      .switch n.2 (some (String.ofList value))
  | _ => []

/-- A dash and a decimal number; a line may end behind it. -/
def isNegativeNumber (w : List Char) : Bool :=
  match w with
  | '-' :: s =>
    let s := if s.getLast? = some '\n' then s.dropLast else s
    let rest := s.dropWhile Text.isDigit
    match rest with
    | [] => !s.isEmpty
    | '.' :: more => !more.isEmpty && more.all Text.isDigit
    | _ => false
  | _ => false

def classify (w : List Char) : Except Refusal Word :=
  let plain : Word := .plain (String.ofList w)
  if w.head? ≠ some '-' ∨ w = ['-'] then .ok plain
  else
    match exactly? w with
    | some s => .ok (.switch s none)
    | none =>
      match exactly? (cut w).1, (cut w).2 with
      | some s, some value => .ok (.switch s (some value))
      | _, _ =>
        match candidates w with
        | [word] => .ok word
        | _ :: _ => .error .unusable
        | [] => if isNegativeNumber w || w.contains ' ' then .ok plain else .error .unusable

def classifyAll : List String → Except Refusal (List Word)
  | [] => .ok []
  | w :: more =>
    if w = "--" then .ok (.dashes :: more.map .plain)
    else do return (← classify w.toList) :: (← classifyAll more)

/-- A whole number, signed or not, with blanks around it. -/
def readInteger? (s : String) : Option Int :=
  let sign := Number.takeSign (Text.trimBlank s.toList)
  match Number.groupedDigits sign.2 with
  | ([], _) => none
  | (ds, []) => some (if sign.1 then -(Number.ofDigits ds : Int) else Number.ofDigits ds)
  | _ => none

/-- Options as far as they have been read. -/
structure Progress where
  input : Option String := none
  options : Options := { input := "" }

def turnOn (p : Progress) : Switch → Except Refusal Progress
  | .strict => .ok { p with options := { p.options with strict := true } }
  | .flat => .ok { p with options := { p.options with flat := true } }
  | .tokens => .ok { p with options := { p.options with tokens := true } }
  | .debug => .ok { p with options := { p.options with debug := true } }
  | .help => .error .help
  | _ => .error .unusable

def setValue (p : Progress) (value : String) : Switch → Except Refusal Progress
  | .output => .ok { p with options := { p.options with output := value } }
  | .settings => .ok { p with options := { p.options with settings := value } }
  | .capacity =>
    match readInteger? value with
    | some n => .ok { p with options := { p.options with capacity := .given n } }
    | none => .error .unusable
  | _ => .error .unusable

/-- Sets an option without a value. No path is as good as an empty one. -/
def setBlank (p : Progress) : Switch → Except Refusal Progress
  | .capacity => .ok { p with options := { p.options with capacity := .blank } }
  | s => setValue p "" s

def setAttached (p : Progress) (value : String) (s : Switch) : Except Refusal Progress :=
  if value = "--" then setBlank p s else setValue p value s

def setInput (p : Progress) (s : String) : Except Refusal Progress :=
  if p.input.isNone then .ok { p with input := some s } else .error .unusable

def readFrom (p : Progress) : List Word → Except Refusal Progress
  | [] => .ok p
  | .switch s (some value) :: rest =>
    if s.takesValue then do readFrom (← setAttached p value s) rest
    else .error .unusable
  | .switch s none :: .plain word :: rest =>
    if s.takesValue then do readFrom (← setValue p word s) rest
    else do readFrom (← turnOn p s) (.plain word :: rest)
  | .switch s none :: rest => do readFrom (← turnOn p s) rest
  | .plain s :: .dashes :: rest => do readFrom (← setInput p s) rest
  | .plain s :: rest => do readFrom (← setInput p s) rest
  | .dashes :: .plain s :: rest => do readFrom (← setInput p s) rest
  | .dashes :: _ => .error .unusable

def read (words : List String) : Except Refusal Options := do
  let p ← readFrom {} (← classifyAll words)
  match p.input with
  | some input => return { p.options with input := input }
  | none => throw .unusable

end Options

end Galley
