import Galley.Value

/-!
Settings as text: headers in brackets that name a table, and under them lines with a key and a
value. A value is a text, a whole number, a truth value, or a list of these on one line.

This is a part of the format. Numbers that are not whole, dates and times, inline tables, arrays of
tables, lists within lists, and texts and lists of several lines are not read: a text with one of
them is taken for malformed, even if it is well formed. On the other hand control characters are not
refused, nor is a header for a table that a key with points has begun.
-/

namespace Galley.SettingsText

def isGap (c : Char) : Bool := c = ' ' || c = '\t' || c = '\r'

def skipGap (s : List Char) : List Char := s.dropWhile isGap

def splitLines : List Char → List Char → List (List Char)
  | line, [] => [line.reverse]
  | line, c :: s => if c = '\n' then line.reverse :: splitLines [] s else splitLines (c :: line) s

def hexValue? (c : Char) : Option Nat :=
  if '0' ≤ c ∧ c ≤ '9' then some (c.toNat - 48)
  else if 'A' ≤ c ∧ c ≤ 'F' then some (c.toNat - 55)
  else if 'a' ≤ c ∧ c ≤ 'f' then some (c.toNat - 87)
  else none

/-- The character with the given code, which must be one. -/
def character? (code : List Char) : Option Char := do
  let digits ← code.mapM hexValue?
  let n := digits.foldl (fun n d => 16 * n + d) 0
  if n < 0xD800 ∨ (0xDFFF < n ∧ n ≤ 0x10FFFF) then return Char.ofNat n else none

def escape? (c : Char) : Option Char :=
  match c with
  | 'b' => some (Char.ofNat 8)
  | 't' => some '\t'
  | 'n' => some '\n'
  | 'f' => some (Char.ofNat 12)
  | 'r' => some '\r'
  | '"' => some '"'
  | '\\' => some '\\'
  | _ => none

/-- Reads a text up to its closing quote; the characters read so far come last one first. -/
def readText (read : List Char) : List Char → Option (String × List Char)
  | [] => none
  | '"' :: s => some (String.ofList read.reverse, s)
  | '\\' :: 'u' :: a :: b :: c :: d :: s => do readText ((← character? [a, b, c, d]) :: read) s
  | '\\' :: 'U' :: a :: b :: c :: d :: e :: f :: g :: h :: s => do
    readText ((← character? [a, b, c, d, e, f, g, h]) :: read) s
  | '\\' :: c :: s => do readText ((← escape? c) :: read) s
  | c :: s => readText (c :: read) s

/-- Reads a text without escapes. -/
def readPlainText (read : List Char) : List Char → Option (String × List Char)
  | [] => none
  | c :: s => if c = '\'' then some (String.ofList read.reverse, s) else readPlainText (c :: read) s

def isBare (c : Char) : Bool := c.isAlphanum || c = '_' || c = '-'

def readKey (s : List Char) : Option (String × List Char) :=
  match skipGap s with
  | '"' :: s => readText [] s
  | '\'' :: s => readPlainText [] s
  | s =>
    let name := s.takeWhile isBare
    if name.isEmpty then none else some (String.ofList name, s.dropWhile isBare)

/-- Reads keys between points. -/
def readKeys : Nat → List Char → Option (List String × List Char)
  | 0, _ => none
  | n + 1, s => do
    let (key, s) ← readKey s
    match skipGap s with
    | '.' :: s => do
      let (keys, s) ← readKeys n s
      return (key :: keys, s)
    | s => return ([key], s)

def isNumeral (c : Char) : Bool := c.isAlphanum || c = '_'

/-- The digits to a base; an underscore may stand between two of them. -/
def digits? (base : Nat) : List Char → Option (List Nat)
  | [] => none
  | [c] => do
    let d ← hexValue? c
    if d < base then return [d] else none
  | c :: '_' :: s => do
    let d ← hexValue? c
    if d < base then return d :: (← digits? base s) else none
  | c :: s => do
    let d ← hexValue? c
    if d < base then return d :: (← digits? base s) else none

/-- A number to the base that its beginning names, or a decimal one without a leading zero. -/
def numeral? (s : List Char) : Option Nat := do
  let (base, s) := match s with
    | '0' :: 'x' :: s => (16, s)
    | '0' :: 'o' :: s => (8, s)
    | '0' :: 'b' :: s => (2, s)
    | s => (10, s)
  let ds ← digits? base s
  if base = 10 ∧ ds.head? = some 0 ∧ 1 < ds.length then none
  else return ds.foldl (fun n d => base * n + d) 0

def readNatural (s : List Char) : Option (Nat × List Char) := do
  return (← numeral? (s.takeWhile isNumeral), s.dropWhile isNumeral)

/-- A sign stands before decimal digits alone. -/
def readSigned (sign : Int) (s : List Char) : Option (Value × List Char) := do
  if (s.takeWhile isNumeral).any Char.isAlpha then none
  let (n, s) ← readNatural s
  return (.int (sign * n), s)

/-- Reads a value that is no list. -/
def readSingle (s : List Char) : Option (Value × List Char) :=
  match skipGap s with
  | '"' :: s => do
    let (text, s) ← readText [] s
    return (.text text, s)
  | '\'' :: s => do
    let (text, s) ← readPlainText [] s
    return (.text text, s)
  | 't' :: 'r' :: 'u' :: 'e' :: s => some (.bool true, s)
  | 'f' :: 'a' :: 'l' :: 's' :: 'e' :: s => some (.bool false, s)
  | '-' :: s => readSigned (-1) s
  | '+' :: s => readSigned 1 s
  | s => do
    let (n, s) ← readNatural s
    return (.int n, s)

/-- Reads the values of a list up to its closing bracket; a comma may follow the last one. -/
def readItems : Nat → List Char → Option (List Value × List Char)
  | 0, _ => none
  | n + 1, s =>
    match skipGap s with
    | ']' :: s => some ([], s)
    | s => do
      let (v, s) ← readSingle s
      match skipGap s with
      | ',' :: s => do
        let (vs, s) ← readItems n s
        return (v :: vs, s)
      | ']' :: s => return ([v], s)
      | _ => none

def readValue (s : List Char) : Option (Value × List Char) :=
  match skipGap s with
  | '[' :: s => do
    let (vs, s) ← readItems (s.length + 1) s
    return (.list vs, s)
  | s => readSingle s

/-- Changes the table that a path leads to, which is made if it is not there. -/
def update (path : List String) (change : Settings → Option Settings) (t : Settings) :
    Option Settings :=
  match path with
  | [] => change t
  | name :: path =>
    match t.get? name with
    | none => do return t.set name (.table (← update path change {}).entries)
    | some (.table entries) => do
      return t.set name (.table (← update path change ⟨entries⟩).entries)
    | some _ => none

/-- No value is set twice. -/
def insert (key : String) (v : Value) (t : Settings) : Option Settings :=
  if t.contains key then none else some (t.set key v)

/-- The settings read so far, the table that the last header named, and those that all have. -/
structure Progress where
  settings : Settings := {}
  path : List String := []
  headers : List (List String) := []

/-- No table has two headers. -/
def enter (p : Progress) (path : List String) : Option Progress := do
  if p.headers.contains path then none
  else return ⟨← update path some p.settings, path, path :: p.headers⟩

def readLine (p : Progress) (line : List Char) : Option Progress :=
  match skipGap line with
  | [] => some p
  | '#' :: _ => some p
  | '[' :: s => do
    let (path, s) ← readKeys (s.length + 1) s
    match skipGap s with
    | ']' :: s => if (skipGap s).isEmpty then enter p path else none
    | _ => none
  | s => do
    let (keys, s) ← readKeys (s.length + 1) s
    match skipGap s with
    | '=' :: s => do
      let (v, s) ← readValue s
      if (skipGap s).isEmpty then
        let place := p.path ++ keys.dropLast
        let settings ← update place (insert (keys.getLastD "") v) p.settings
        return { p with settings := settings }
      else none
    | _ => none

/-- Reads settings; `none` if the text is malformed. -/
def read? (text : String) : Option Settings := do
  return (← (splitLines [] text.toList).foldlM readLine {}).settings

end Galley.SettingsText
