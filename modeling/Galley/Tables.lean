import Galley.Definition
import Galley.Lexer

/-!
The tables that a run reads and changes: how characters are read, and what tokens stand for. They
change by assignments alone.
-/

namespace Galley

structure Tables where
  alphabet : Alphabet := {}
  definitions : DefinitionTable := {}
  deriving DecidableEq, Repr

inductive Assignment
  | define (name : Token) (d : Definition)
  | categorize (code : Nat) (cat : Category)
  deriving DecidableEq, Repr

def Tables.assign (t : Tables) : Assignment → Tables
  | .define name d => { t with definitions := t.definitions.set name d }
  | .categorize code cat =>
    { t with alphabet := { t.alphabet with categories := t.alphabet.categories.set code cat } }

namespace Tables

/-- What a token stands for. Only control sequences and active characters are looked up. -/
def meaning? (t : Tables) (token : Token) : Option Definition :=
  if token.isDefinable then t.definitions.get? token else none

theorem meaning?_fresh (token : Token) : meaning? {} token = none := by
  unfold meaning?
  split <;> rfl

theorem meaning?_define (t : Tables) (name : Token) (d : Definition) (token : Token) :
    (t.assign (.define name d)).meaning? token =
      if token.isDefinable ∧ token = name then some d else t.meaning? token := by
  by_cases hn : token = name
  · subst hn
    by_cases hd : token.isDefinable <;> simp [meaning?, assign, Table.get?_set, hd]
  · by_cases hd : token.isDefinable <;> simp [meaning?, assign, Table.get?_set, hd, hn]

theorem get_categorize (t : Tables) (code : Nat) (cat : Category) (n : Nat) :
    (t.assign (.categorize code cat)).alphabet.categories.get n =
      if n = code then cat else t.alphabet.categories.get n :=
  CategoryTable.get_set t.alphabet.categories code n cat

end Tables

end Galley
