import Galley.Number.Double
import Galley.Table
import Galley.Text.Quoted

/-!
Values of settings, and the text that each is shown as.
-/

namespace Galley

inductive Value
  | text (s : String)
  | int (n : Int)
  | real (x : Number.Double)
  | bool (b : Bool)
  | null
  | list (values : List Value)
  | table (entries : List (String × Value))

namespace Value

instance : Inhabited Value := ⟨null⟩

def boolText (b : Bool) : String := if b then "True" else "False"

mutual

/-- A text within another value stands in quotes. -/
def inner : Value → String
  | .text s => Text.quoted s
  | .int n => toString n
  | .real x => x.text
  | .bool b => boolText b
  | .null => "None"
  | .list values => "[" ++ ", ".intercalate (innerAll values) ++ "]"
  | .table entries => "\x7b" ++ ", ".intercalate (innerEntries entries) ++ "\x7d"

def innerAll : List Value → List String
  | [] => []
  | v :: more => v.inner :: innerAll more

def innerEntries : List (String × Value) → List String
  | [] => []
  | (key, v) :: more => (Text.quoted key ++ ": " ++ v.inner) :: innerEntries more

end

def shown : Value → String
  | .text s => s
  | v => v.inner

/-- Says whether a value counts as set: zero and all that is empty do not. -/
def holds : Value → Bool
  | .text s => !s.isEmpty
  | .int n => n ≠ 0
  | .real (.finite _ m _) => m ≠ 0
  | .real (.infinite _) | .real .undefined => true
  | .bool b => b
  | .null => false
  | .list values => !values.isEmpty
  | .table entries => !entries.isEmpty

/-- The entries of a table; any other value has none. -/
def entries : Value → List (String × Value)
  | .table entries => entries
  | _ => []

end Value

/-- Named settings, in the order in which they were given. -/
abbrev Settings := Table String Value

end Galley
