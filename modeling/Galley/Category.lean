import Galley.Table
import Galley.Text.Quoted

/-!
Categories of characters, and the table that assigns them. The table holds the reassigned code
points alone; a character that it does not hold is a letter if it is a plain Latin one and an other
character if not.
-/

namespace Galley

inductive Category
  | escape | beginGroup | endGroup | mathShift | alignmentTab | endOfLine | parameter | superscript
  | subscript | ignored | space | letter | other | active | comment | invalid
  deriving DecidableEq, Repr

namespace Category

def all : List Category :=
  [escape, beginGroup, endGroup, mathShift, alignmentTab, endOfLine, parameter, superscript,
   subscript, ignored, space, letter, other, active, comment, invalid]

def code : Category → Nat
  | escape => 0 | beginGroup => 1 | endGroup => 2 | mathShift => 3 | alignmentTab => 4
  | endOfLine => 5 | parameter => 6 | superscript => 7 | subscript => 8 | ignored => 9
  | space => 10 | letter => 11 | other => 12 | active => 13 | comment => 14 | invalid => 15

/-- Only the numbers from 0 to 15 are codes. -/
def ofCode? (n : Int) : Option Category :=
  if 0 ≤ n then all[n.toNat]? else none

def name : Category → String
  | escape => "ESCAPE" | beginGroup => "BEGIN_GROUP" | endGroup => "END_GROUP"
  | mathShift => "MATH_SHIFT" | alignmentTab => "ALIGNMENT_TAB" | endOfLine => "END_OF_LINE"
  | parameter => "MACRO_PARAMETER" | superscript => "SUPERSCRIPT" | subscript => "SUBSCRIPT"
  | ignored => "IGNORED" | space => "SPACE" | letter => "LETTER" | other => "OTHER"
  | active => "ACTIVE" | comment => "COMMENT" | invalid => "INVALID"

theorem ofCode?_code (c : Category) : ofCode? c.code = some c := by
  cases c <;> rfl

theorem ofCode?_isSome_iff (n : Int) : (ofCode? n).isSome ↔ 0 ≤ n ∧ n ≤ 15 := by
  unfold ofCode?
  split
  · simp [all]
    omega
  · simp
    omega

end Category

/-- The category of a code point that no table holds. -/
def plainCategory (n : Nat) : Category :=
  if (97 ≤ n ∧ n ≤ 122) ∨ (65 ≤ n ∧ n ≤ 90) then .letter else .other

/-- A text is placed by the order of texts, as a single character is by that of characters. -/
def plainCategoryOf (text : String) : Category :=
  if ("a" ≤ text ∧ text ≤ "z") ∨ ("A" ≤ text ∧ text ≤ "Z") then .letter else .other

structure CategoryTable where
  codes : Table Nat Category := {}
  deriving DecidableEq, Repr

inductive CategoryError
  | notSingle (text : String)
  | notCode (n : Int)
  deriving DecidableEq, Repr

def CategoryError.message : CategoryError → String
  | .notSingle text => "category codes apply to single characters, got " ++ Text.quoted text
  | .notCode n => toString n ++ " is not a valid Category"

namespace CategoryTable

/-- The assignments in force before any text is read. -/
def plain : CategoryTable :=
  ⟨.ofList
    [(92, .escape), (123, .beginGroup), (125, .endGroup), (36, .mathShift), (38, .alignmentTab),
     (13, .endOfLine), (35, .parameter), (94, .superscript), (95, .subscript), (0, .ignored),
     (32, .space), (9, .space), (126, .active), (37, .comment), (127, .invalid)]⟩

def get (t : CategoryTable) (n : Nat) : Category := (t.codes.get? n).getD (plainCategory n)

def of (t : CategoryTable) (c : Char) : Category := t.get c.toNat

/-- No table holds a text that is not a single character. -/
def ofText (t : CategoryTable) (text : String) : Category :=
  match text.toList with
  | [c] => t.of c
  | _ => plainCategoryOf text

def set (t : CategoryTable) (n : Nat) (cat : Category) : CategoryTable := ⟨t.codes.set n cat⟩

/-- Assigns a code to a text, which must be a single character. -/
def assign (t : CategoryTable) (text : String) (n : Int) : Except CategoryError CategoryTable :=
  match text.toList with
  | [c] =>
    match Category.ofCode? n with
    | some cat => .ok (t.set c.toNat cat)
    | none => .error (.notCode n)
  | _ => .error (.notSingle text)

/-- The code points whose category differs from the plain one, in ascending order. -/
def changes (t : CategoryTable) : List (Nat × Category) :=
  let changed := t.codes.entries.filter fun e => e.2 != plain.get e.1
  changed.mergeSort fun a b => a.1 ≤ b.1

theorem get_set (t : CategoryTable) (n m : Nat) (cat : Category) :
    (t.set n cat).get m = if m = n then cat else t.get m := by
  simp only [get, set, Table.get?_set]
  split <;> rfl

end CategoryTable

end Galley
