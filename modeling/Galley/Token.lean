import Galley.Category
import Galley.Text.Letter

/-!
Tokens: control sequences, and characters with the category they were read under. A lexeme is a
token with its place in the source, if it has one; tokens are compared without their places.
-/

namespace Galley

/-- Lines and columns count from one. -/
structure Position where
  line : Nat
  column : Nat
  deriving DecidableEq, Repr

structure Span where
  start : Position
  stop : Position
  deriving DecidableEq, Repr

inductive Token
  | cs (name : String)
  | ch (char : Char) (cat : Category)
  deriving DecidableEq, Repr

structure Lexeme where
  token : Token
  span : Option Span := none
  deriving DecidableEq, Repr

namespace Token

def hasCategory (cat : Category) : Token → Bool
  | .cs _ => false
  | .ch _ c => c = cat

def isSpace (t : Token) : Bool := t.hasCategory .space
def isBegin (t : Token) : Bool := t.hasCategory .beginGroup
def isEnd (t : Token) : Bool := t.hasCategory .endGroup
def isActive (t : Token) : Bool := t.hasCategory .active
def isParameter (t : Token) : Bool := t.hasCategory .parameter

/-- Control sequences and active characters can be given a meaning. -/
def isDefinable : Token → Bool
  | .cs _ => true
  | .ch _ c => c = .active

/-- An other character among the given ones. -/
def isOther (t : Token) (chars : List Char) : Bool :=
  match t with
  | .cs _ => false
  | .ch c cat => cat = .other && chars.contains c

/-- The spelling of a single token. -/
def text : Token → String
  | .cs name => "\\" ++ name
  | .ch c _ => String.singleton c

def isControlWord : Token → Bool
  | .cs name => Text.isWord name.toList
  | .ch _ _ => false

/-- A control word is followed by a space. -/
def spelling (t : Token) : String :=
  if t.isControlWord then t.text ++ " " else t.text

def spell (ts : List Token) : String := String.join (ts.map spelling)

end Token

def Lexeme.spell (ts : List Lexeme) : String := Token.spell (ts.map (·.token))

end Galley
