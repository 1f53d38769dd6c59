import Galley.Expansion

/-!
Quantities in running text: keywords, integers, dimensions and glue. All are read from expanded
tokens, and a token that was looked at without being used is put back.
-/

namespace Galley.Quantity

open Scan (next nextRaw back)

def fault {α : Type} (f : ScanFault) : Scan α := .fail (.scan f)

def isSpace (t : Option Lexeme) : Bool := t.any (·.token.isSpace)

def isOther (t : Option Lexeme) (chars : List Char) : Bool := t.any (·.token.isOther chars)

/-- The next token that is no space. -/
def nonBlank : Scan (Option Lexeme) :=
  .loop (fun () => do
    let t ← next
    return if isSpace t then .again () else .finish t) ()

def optionalSpace : Scan Unit := do
  let t ← next
  if isSpace t then return () else back t.toList

def optionalEquals : Scan Unit := do
  let t ← nonBlank
  if isOther t ['='] then return () else back t.toList

/-- A letter or other character whose lower-case form is the given one. -/
def matchesLetter (letter : Char) : Token → Bool
  | .cs _ => false
  | .ch c cat => (cat = .letter || cat = .other) && Text.lower c = [letter]

/-- Goes on if a token matches. If not, puts it back with those matched before it, which come last
one first. -/
def matchLetter (matched : List Lexeme) (letter : Char) (t : Option Lexeme)
    (more : Lexeme → Scan Bool) : Scan Bool :=
  match t with
  | none => do
    back matched.reverse
    return false
  | some t =>
    if matchesLetter letter t.token then more t
    else do
      back (matched.reverse ++ [t])
      return false

def matchLetters (matched : List Lexeme) : List Char → Scan Bool
  | [] => return true
  | letter :: letters => do
    matchLetter matched letter (← next) fun t => matchLetters (t :: matched) letters

/-- Matches a word in any letter case behind spaces. -/
def keyword (word : String) : Scan Bool :=
  match word.toList with
  | [] => return true
  | letter :: letters => do
    matchLetter [] letter (← nonBlank) fun t => matchLetters [t] letters

/-- Reads signs and spaces; says whether the signs make a number negative. -/
def signs : Scan Bool :=
  .loop (fun negative => do
    let t ← nonBlank
    if isOther t ['-'] then return .again (!negative)
    else if isOther t ['+'] then return .again negative
    else do
      back t.toList
      return .finish negative) false

def signed (negative : Bool) (n : Int) : Int := if negative then -n else n

/-- Digits above nine are capital letters, which may be of category letter, too. -/
def digit? (radix : Nat) (t : Option Lexeme) : Option Nat :=
  match t with
  | some ⟨.ch c cat, _⟩ =>
    let n := c.toNat
    if 48 ≤ n ∧ n ≤ 57 ∧ cat = .other ∧ n - 48 < radix then some (n - 48)
    else if 65 ≤ n ∧ n ≤ 70 ∧ (cat = .other ∨ cat = .letter) ∧ n - 55 < radix then some (n - 55)
    else none
  | _ => none

/-- A number as far as it has been read, and the token after it. -/
structure Digits where
  value : Nat
  count : Nat
  after : Option Lexeme

def digits (radix : Nat) (t : Option Lexeme) : Scan Digits :=
  .loop (fun s => do
    match digit? radix s.after with
    | some d => do
      let t ← next
      return .again ⟨s.value * radix + d, s.count + 1, t⟩
    | none => return .finish s) ⟨0, 0, t⟩

def natural (radix : Nat) (t : Option Lexeme) : Scan Nat := do
  let s ← digits radix t
  if s.count = 0 then do
    back s.after.toList
    fault .missingNumber
  else do
    if isSpace s.after then pure () else back s.after.toList
    return s.value

/-- The code point that a token after an opening quote stands for. -/
def constant? : Option Lexeme → Option Nat
  | some ⟨.ch c _, _⟩ => some c.toNat
  | some ⟨.cs name, _⟩ =>
    match name.toList with
    | [c] => some c.toNat
    | _ => none
  | none => none

def constant : Scan Nat := do
  match constant? (← nextRaw) with
  | some n => do
    optionalSpace
    return n
  | none => fault .improperConstant

/-- A signed integer in decimal, octal or hexadecimal digits, or given by a character. -/
def int : Scan Int := do
  let negative ← signs
  let t ← next
  if isOther t ['`'] then return signed negative (← constant)
  else if isOther t ['\''] then return signed negative (← natural 8 (← next))
  else if isOther t ['"'] then return signed negative (← natural 16 (← next))
  else return signed negative (← natural 10 t)

def decimalChars : List Char := ['0', '1', '2', '3', '4', '5', '6', '7', '8', '9', '.', ',']

/-- The character that a token adds to a decimal number; a comma counts as a point. -/
def decimalChar? : Option Lexeme → Option Char
  | some ⟨.ch c .other, _⟩ =>
    if decimalChars.contains c then some (if c = ',' then '.' else c) else none
  | _ => none

/-- The characters of a decimal number, last one first, and the token after them. -/
def decimalText : Scan (List Char) := do
  let t ← next
  .loop (fun s => do
    match decimalChar? s.2 with
    | some c => do
      let t ← next
      return .again (c :: s.1, t)
    | none => do
      back s.2.toList
      return .finish s.1.reverse) ([], t)

def decimal : Scan (List Char) := do
  let text ← decimalText
  if 1 < text.count '.' then fault (.malformedNumber (String.ofList text))
  else if text.all (· = '.') then fault .missingNumber
  else return text

def unitFrom : List LengthUnit → Scan LengthUnit
  | [] => fault .illegalUnit
  | u :: more => do
    if ← keyword u.name then return u else unitFrom more

/-- Each further `l` raises the order. -/
def infiniteOrder : Scan GlueOrder :=
  .loop (fun order => do
    if ← keyword "l" then
      if order = .filll then fault .beyondFilll
      else
        match order.next? with
        | some order => return .again order
        | none => .fail (.defect .noNextOrder)
    else return .finish order) .fil

/-- A unit or, where glue may stretch or shrink, an infinite order. -/
def unit (infinite : Bool) : Scan (LengthUnit × GlueOrder) := do
  let infinite ← if infinite then keyword "fil" else pure false
  if infinite then return (.pt, ← infiniteOrder)
  else do
    let _ ← keyword "true"
    return (← unitFrom LengthUnit.all, .normal)

def flex (infinite : Bool) : Scan Flex := do
  let negative ← signs
  let text ← decimal
  let (u, order) ← unit infinite
  optionalSpace
  match Number.readDecimal? text with
  | none => .fail (.defect .unreadNumber)
  | some q =>
    match Dimension.ofUnits? (if negative then -q else q) u with
    | some d => return ⟨d, order⟩
    | none => fault .tooLarge

def dimension : Scan Dimension := do return (← flex false).amount

def flexAfter (word : String) : Scan Flex := do
  if ← keyword word then flex true else return {}

def glue : Scan Glue := do
  let natural ← dimension
  let stretch ← flexAfter "plus"
  let shrink ← flexAfter "minus"
  return ⟨natural, stretch, shrink⟩

end Galley.Quantity
