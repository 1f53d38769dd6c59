import Galley.Text.Ranges

/-!
Blank characters: the white space of all scripts, with the separators of files, groups, records and
units among the controls.
-/

namespace Galley.Text

def blanks : List (Nat × Nat) :=
  [(9, 13), (28, 32), (133, 133), (160, 160), (5760, 5760), (8192, 8202), (8232, 8233),
   (8239, 8239), (8287, 8287), (12288, 12288)]

def isBlank (c : Char) : Bool := inRanges blanks c.toNat

/-- Takes the blanks off both ends. -/
def trimBlank (s : List Char) : List Char :=
  ((s.dropWhile isBlank).reverse.dropWhile isBlank).reverse

end Galley.Text
