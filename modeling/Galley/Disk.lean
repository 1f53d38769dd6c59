import Galley.Table

/-!
Files by their paths. A path is absolute or not and has the names on the way as its parts; empty
parts and single dots do not count, and two dots go back to the directory before.
-/

namespace Galley

structure Path where
  absolute : Bool
  parts : List String
  deriving DecidableEq, Repr

namespace Path

def splitSlash : List Char → List Char → List (List Char)
  | part, [] => [part.reverse]
  | part, c :: s => if c = '/' then part.reverse :: splitSlash [] s else splitSlash (c :: part) s

def ofText (s : String) : Path :=
  let parts := (splitSlash [] s.toList).map String.ofList
  ⟨s.toList.head? = some '/', parts.filter fun p => p ≠ "" ∧ p ≠ "."⟩

def text (p : Path) : String :=
  let body := "/".intercalate p.parts
  if p.absolute then "/" ++ body else if p.parts.isEmpty then "." else body

/-- The directory that a path lies in. -/
def parent (p : Path) : Path := { p with parts := p.parts.dropLast }

def child (p : Path) (name : String) : Path := { p with parts := p.parts ++ [name] }

/-- The root or the directory that a relative path starts from. -/
def start (p : Path) : Path := { p with parts := [] }

/-- Goes on from a directory. Only a relative path can lead above its start. -/
def enter (p : Path) (part : String) : Path :=
  if part ≠ ".." then p.child part
  else
    match p.parts.getLast? with
    | none => if p.absolute then p else p.child part
    | some last => if last = ".." then p.child part else p.parent

/-- The same path with two dots at most where it begins. -/
def resolved (p : Path) : Path := p.parts.foldl enter p.start

/-- The directories that a path leads through. -/
def onTheWay (p : Path) : List Path :=
  (List.range p.parts.length).map fun n => { p with parts := p.parts.take n }

/-- Says whether `q` lies below `p`. -/
def above (p q : Path) : Bool :=
  p.absolute = q.absolute && p.parts.length < q.parts.length && p.parts.isPrefixOf q.parts

end Path

/-- What stands at a path. -/
inductive Entry
  | file (text : String)
  | directory
  | missing
  | underFile
  deriving DecidableEq, Repr

/-- Files with their texts, and directories that need hold no file. -/
structure Disk where
  files : List (Path × String) := []
  directories : List Path := []
  deriving DecidableEq, Repr

namespace Disk

def ofTexts (files : List (String × String)) : Disk :=
  { files := files.map fun f => ((Path.ofText f.1).resolved, f.2) }

/-- What stands at a resolved path. The start of a path and what is above it are directories. -/
def entryAt (d : Disk) (p : Path) : Entry :=
  match Table.find p d.files with
  | some text => .file text
  | none =>
    if p.parts.all (· = "..") || d.directories.contains p || d.files.any (p.above ·.1) then
      .directory
    else .missing

/-- Follows parts from a resolved path; only a directory leads on. -/
def follow (d : Disk) (here : Path) : List String → Entry
  | [] => d.entryAt here
  | part :: more =>
    match d.entryAt here with
    | .directory => d.follow (here.enter part) more
    | .file _ => .underFile
    | entry => entry

def look (d : Disk) (path : Path) : Entry := d.follow path.start path.parts

/-- The text of a file; a path without a file has none. -/
def text? (d : Disk) (p : Path) : Option String :=
  match d.look p with
  | .file text => some text
  | _ => none

end Disk

end Galley
