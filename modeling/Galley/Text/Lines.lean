/-!
Lines of a text. A line ends at a line feed, a carriage return, the two together, a vertical tab, a
form feed, one of the separators of files, groups and records, the next-line control, or the line
and paragraph separators; no empty line follows the last end.
-/

namespace Galley.Text

def endsLine (c : Char) : Bool :=
  let n := c.toNat
  (10 ≤ n && n ≤ 13) || (28 ≤ n && n ≤ 30) || n == 133 || n == 8232 || n == 8233

/-- Splits `s` behind the characters already read of the current line, last one first. -/
def splitFrom : List Char → List Char → List (List Char)
  | [], [] => []
  | line@(_ :: _), [] => [line.reverse]
  | line, '\r' :: '\n' :: s => line.reverse :: splitFrom [] s
  | line, c :: s => if endsLine c then line.reverse :: splitFrom [] s else splitFrom (c :: line) s

def splitLines (s : List Char) : List (List Char) := splitFrom [] s

def linesOf (s : String) : List String := (splitLines s.toList).map String.ofList

/-- Writes every carriage return, with the line feed that may follow it, as one line feed. -/
def unifyNewlines : List Char → List Char
  | [] => []
  | '\r' :: '\n' :: s => '\n' :: unifyNewlines s
  | c :: s => (if c = '\r' then '\n' else c) :: unifyNewlines s

end Galley.Text
