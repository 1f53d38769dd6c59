import Galley.Definition.Capture
import Galley.Definition.Reading
import Galley.Metrics

/-!
Faults of a run: what went wrong, where, and in the replacements of which calls.
-/

namespace Galley

/-- The number of chunks of pending tokens that may wait at once, and how it is shown. -/
structure Capacity where
  chunks : Int
  shown : String := toString chunks
  deriving DecidableEq, Repr

inductive ScanFault
  | improperConstant
  | missingNumber
  | malformedNumber (text : String)
  | illegalUnit
  | beyondFilll
  | tooLarge
  deriving DecidableEq, Repr

def ScanFault.message : ScanFault → String
  | .improperConstant => "improper alphabetic constant"
  | .missingNumber => "missing number"
  | .malformedNumber text => "malformed number " ++ Text.quoted text
  | .illegalUnit => "illegal unit of measure"
  | .beyondFilll => "illegal unit of measure (replaced by filll)"
  | .tooLarge => "dimension too large"

inductive BuildFault
  | unclosedGroup
  | unopenedGroup
  | notHorizontal (name : String)
  | undefinedControl (name : String)
  | undefinedActive (c : Char)
  | unsupported (c : Char) (cat : Category)
  | nothingToDefine
  | badCharacterCode (n : Int)
  | badCategoryCode (n : Int)
  | missingBox
  | boxTooLarge
  deriving DecidableEq, Repr

namespace BuildFault

/-- What a message calls a category that no list can hold. -/
def kindOf : Category → String
  | .mathShift => "math shift"
  | .alignmentTab => "alignment tab"
  | .parameter => "macro parameter"
  | cat => String.ofList (cat.name.toList.flatMap Text.lower)

def message : BuildFault → String
  | .unclosedGroup => "missing \x7d inserted: input ended inside a group"
  | .unopenedGroup => "too many \x7d's"
  | .notHorizontal name => "\\" ++ name ++ " is not allowed in horizontal mode"
  | .undefinedControl name => "undefined control sequence \\" ++ name
  | .undefinedActive c => "undefined active character " ++ Text.quoted (String.singleton c)
  | .unsupported c cat =>
    "unsupported " ++ kindOf cat ++ " character " ++ Text.quoted (String.singleton c)
  | .nothingToDefine => "missing control sequence after \\def"
  | .badCharacterCode n => "bad character code (" ++ toString n ++ ")"
  | .badCategoryCode n => "invalid code (" ++ toString n ++ "), should be at most 15"
  | .missingBox => "missing \x7b inserted after box command"
  | .boxTooLarge => "dimension too large"

end BuildFault

/-- A step whose conditions its callers see to, and that found them broken. -/
inductive Defect
  | missingArgument
  | unreadNumber
  | noNextOrder
  | noCharacter
  | noCategory
  deriving DecidableEq, Repr

inductive Cause
  | invalidCharacter (c : Char)
  | capacity (limit : Capacity)
  | extraElse
  | extraFi
  | incompleteConditional
  | capture (name : String) (fault : Definition.CaptureFault)
  | definition (name : String) (fault : Definition.ReadingFault)
  | scan (fault : ScanFault)
  | build (fault : BuildFault)
  | glyph (fault : UnknownGlyph)
  | defect (fault : Defect)
  deriving DecidableEq, Repr

/-- The stage that a fault belongs to. -/
inductive Stage
  | lexing | expansion | building | metrics | defect
  deriving DecidableEq, Repr

namespace Cause

def stage : Cause → Stage
  | .invalidCharacter _ => .lexing
  | .capacity _ | .extraElse | .extraFi | .incompleteConditional => .expansion
  | .capture _ _ => .expansion
  | .definition _ (.rejected _) => .defect
  | .definition _ _ => .expansion
  | .scan _ | .build _ => .building
  | .glyph _ => .metrics
  | .defect _ => .defect

def message : Cause → String
  | .invalidCharacter c =>
    "text line contains an invalid character " ++ Text.quoted (String.singleton c)
  | .capacity limit => "input stack capacity exceeded (" ++ limit.shown ++ ")"
  | .extraElse => "extra \\else"
  | .extraFi => "extra \\fi"
  | .incompleteConditional => "incomplete conditional: input ended in skipped branch"
  | .capture name fault => fault.message name
  | .definition name fault => fault.message name
  | .scan fault => fault.message
  | .build fault => fault.message
  | .glyph fault => fault.message
  | .defect _ => "broken condition"

end Cause

/-- `chain` names the calls whose replacements are still being read, outermost first. -/
structure Fault where
  cause : Cause
  place : Position
  chain : List String
  deriving DecidableEq, Repr

end Galley
