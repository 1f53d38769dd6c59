import Galley.Token

/-!
The lexer: lines to raw tokens, one at a time, under an alphabet that may change between tokens.
Characters are looked up when they are scanned. `scan` reads one token out of a line; `Lexer.next`
goes on to the next line where one ends.
-/

namespace Galley

/-- How characters are read: their categories, and the text that is put at the end of each line. -/
structure Alphabet where
  categories : CategoryTable := .plain
  endLine : Option String := some "\r"
  deriving DecidableEq, Repr

/-- What a space or an end of line means next: nothing read yet, text before, or blanks skipped. -/
inductive LineState
  | newLine | midLine | skipBlanks
  deriving DecidableEq, Repr

/-- The unread part of a line's buffer, and the number of characters read of it. -/
structure Cursor where
  rest : List Char := []
  column : Nat := 0
  state : LineState := .newLine
  deriving DecidableEq, Repr

namespace Cursor

/-- Reads one character. -/
def advance (c : Cursor) (rest : List Char) (state : LineState) : Cursor :=
  ⟨rest, c.column + 1, state⟩

/-- Skips what is left of the line. -/
def toEnd (c : Cursor) (state : LineState) : Cursor := ⟨[], c.column + c.rest.length, state⟩

end Cursor

/-- What comes next in a line: a token or an invalid character, with the column where it starts,
or the end of the buffer. -/
inductive Scanned
  | token (t : Token) (start : Nat) (after : Cursor)
  | invalid (c : Char) (start : Nat) (after : Cursor)
  | finished (after : Cursor)
  deriving DecidableEq, Repr

/-- Reads a control sequence whose escape character has been read. -/
def scanControl (cats : CategoryTable) (c : Cursor) : Token × Cursor :=
  match c.rest with
  | [] => (.cs "", { c with state := .midLine })
  | ch :: rest =>
    if cats.of ch = .letter then
      let name := ch :: rest.takeWhile fun d => cats.of d = .letter
      (.cs (String.ofList name), ⟨rest.dropWhile fun d => cats.of d = .letter,
        c.column + name.length, .skipBlanks⟩)
    else
      (.cs (String.singleton ch),
        c.advance rest (if cats.of ch = .space then .skipBlanks else .midLine))

def scanFrom (cats : CategoryTable) (strict : Bool) (state : LineState) (column : Nat) :
    List Char → Scanned
  | [] => .finished ⟨[], column, state⟩
  | ch :: rest =>
    let here : Cursor := ⟨ch :: rest, column, state⟩
    let next := here.advance rest state
    match cats.of ch with
    | .escape => let r := scanControl cats next; .token r.1 column r.2
    | .endOfLine =>
      let after := here.toEnd .newLine
      match state with
      | .midLine => .token (.ch ' ' .space) column after
      | .newLine => .token (.cs "par") column after
      | .skipBlanks => .finished after
    | .space =>
      if state = .midLine then .token (.ch ' ' .space) column { next with state := .skipBlanks }
      else scanFrom cats strict state (column + 1) rest
    | .comment => .finished (here.toEnd state)
    | .ignored => scanFrom cats strict state (column + 1) rest
    | .invalid =>
      if strict then .invalid ch column next else scanFrom cats strict state (column + 1) rest
    | cat => .token (.ch ch cat) column { next with state := .midLine }

def Cursor.scan (cats : CategoryTable) (strict : Bool) (c : Cursor) : Scanned :=
  scanFrom cats strict c.state c.column c.rest

def withoutTrailingSpaces (line : List Char) : List Char :=
  (line.reverse.dropWhile (· = ' ')).reverse

/-- The buffer of a line: the line without its trailing spaces, and the end-of-line text. -/
def Alphabet.buffer (a : Alphabet) (line : String) : List Char :=
  withoutTrailingSpaces line.toList ++ (a.endLine.getD "").toList

/-- A place in a sequence of lines; `line` is zero before the first line is entered. -/
structure Lexer where
  lines : List String
  strict : Bool := false
  pending : List String := lines
  line : Nat := 0
  cursor : Cursor := {}
  deriving DecidableEq, Repr

/-- The outcome of reading a token; an invalid character ends it in strict reading alone. -/
inductive Lexed
  | token (t : Lexeme) (after : Lexer)
  | invalid (c : Char) (place : Position) (after : Lexer)
  | finished (after : Lexer)
  deriving DecidableEq, Repr

namespace Lexer

/-- The place of the character that stands in the given column of the current line. -/
def place (l : Lexer) (column : Nat) : Position := ⟨max l.line 1, column + 1⟩

/-- The place of the next character to be scanned. -/
def position (l : Lexer) : Position := l.place l.cursor.column

def enter (a : Alphabet) (l : Lexer) (line : String) (pending : List String) : Lexer :=
  { l with pending := pending, line := l.line + 1, cursor := { rest := a.buffer line } }

def lexeme (l : Lexer) (t : Token) (start : Nat) (after : Cursor) : Lexeme :=
  ⟨t, some ⟨l.place start, l.place after.column⟩⟩

/-- Reads a token from the current line or from the first of the pending ones that has one. -/
def nextFrom (a : Alphabet) (l : Lexer) (pending : List String) : Lexed :=
  match l.cursor.scan a.categories l.strict with
  | .token t start after => .token (l.lexeme t start after) { l with cursor := after }
  | .invalid c start after => .invalid c (l.place start) { l with cursor := after }
  | .finished after =>
    match pending with
    | [] => .finished { l with cursor := after }
    | line :: more => nextFrom a (l.enter a line more) more

def next (a : Alphabet) (l : Lexer) : Lexed := l.nextFrom a l.pending

/-- The number of characters that can still be scanned, which bounds the number of tokens. -/
def size (a : Alphabet) (l : Lexer) : Nat :=
  l.cursor.rest.length + (l.pending.flatMap a.buffer).length

/-- The tokens up to the end of input or to an invalid character. -/
structure Drained where
  tokens : List Lexeme
  invalid : Option (Char × Position)
  after : Lexer
  deriving DecidableEq, Repr

def drainWithin (a : Alphabet) : Nat → Lexer → Drained
  | 0, l => ⟨[], none, l⟩
  | n + 1, l =>
    match l.next a with
    | .token t after =>
      let d := drainWithin a n after
      { d with tokens := t :: d.tokens }
    | .invalid c place after => ⟨[], some (c, place), after⟩
    | .finished after => ⟨[], none, after⟩

def drain (a : Alphabet) (l : Lexer) : Drained := drainWithin a (l.size a + 1) l

end Lexer

/-- All tokens of the lines, invalid characters being dropped. -/
def tokenize (a : Alphabet) (lines : List String) : List Lexeme :=
  (Lexer.drain a { lines := lines }).tokens

end Galley
