import Galley.Input
import Galley.Tables

/-!
Expansion: calls are replaced and conditionals resolved, and what remains is delivered token by
token. A branch that is not taken is skipped unread; with nesting tracked, the conditionals in it
are skipped whole.
-/

namespace Galley

/-- The tokens that conditionals are made of. -/
inductive Branch
  | opening (taken : Bool)
  | alternative
  | closing
  deriving DecidableEq, Repr

def Token.branch? : Token → Option Branch
  | .cs "iftrue" => some (.opening true)
  | .cs "iffalse" => some (.opening false)
  | .cs "else" => some .alternative
  | .cs "fi" => some .closing
  | _ => none

/-- Skips to the end of a branch. The state counts the conditionals opened on the way; the result
says whether the branch ended in an alternative, and is `none` at the end of input. -/
def skipStep (nested toElse : Bool) (level : Nat) (t : Lexeme) : Turn Nat (Option Bool) :=
  match t.token.branch? with
  | some (.opening _) => .again (if nested then level + 1 else level)
  | some .alternative => if toElse ∧ level = 0 then .finish (some true) else .again level
  | some .closing =>
    match level with
    | 0 => .finish (some false)
    | level + 1 => .again level
  | none => .again level

def skipper (nested toElse : Bool) : Consumer (Option Bool) :=
  Consumer.scan (skipStep nested toElse) (fun _ => none) 0

/-- An unfinished skip is blamed on the place where it began. -/
def Input.skip (a : Alphabet) (rounds : Nat) (toElse : Bool) (i : Input) : Outcome Input Bool :=
  (i.consume a rounds (skipper i.nested toElse)).andThen fun landed after =>
    match landed with
    | some landed => .done landed after
    | none => .failed (after.faultAt .incompleteConditional i.last) after

/-- What expansion asks of the input. -/
inductive RawRequest : Type → Type 1
  | next : RawRequest (Option Lexeme)
  | push (ts : List Lexeme) (origin : String) : RawRequest Unit
  | consume {β : Type} (c : Consumer β) : RawRequest β
  | skip (toElse : Bool) : RawRequest Bool
  | meaning (t : Token) : RawRequest (Option Definition)
  | openBranch : RawRequest Unit
  | closeBranch : RawRequest Bool

/-- Says whether a branch was open. -/
def Input.closeBranch (i : Input) : Outcome Input Bool :=
  match i.openBranches with
  | 0 => .done false i
  | n + 1 => .done true { i with openBranches := n }

def RawRequest.answer (tables : Tables) (rounds : Nat) {α : Type} :
    RawRequest α → Input → Outcome Input α
  | .next, i => i.next tables.alphabet
  | .push ts origin, i => i.push ⟨ts, some origin⟩
  | .consume c, i => i.consume tables.alphabet rounds c
  | .skip toElse, i => i.skip tables.alphabet rounds toElse
  | .meaning t, i => .done (tables.meaning? t) i
  | .openBranch, i => .done () { i with openBranches := i.openBranches + 1 }
  | .closeBranch, i => i.closeBranch

def rawHandler (tables : Tables) (rounds : Nat) : Handler RawRequest Input :=
  ⟨RawRequest.answer tables rounds, fun c i => i.fault c⟩

namespace Expansion

/-- The name under which a call is reported: its spelling without leading backslashes. -/
def originOf (t : Token) : String :=
  String.ofList (t.text.toList.dropWhile (· = '\\'))

/-- Reads the arguments of a call and puts its replacement on top of the input. -/
def call (t : Token) (d : Definition) : Reader RawRequest Unit := do
  match ← .ask (.consume d.capture) with
  | .error fault => .fail (.capture t.text fault)
  | .ok args =>
    match d.substitute args with
    | some ts => .ask (.push ts (originOf t))
    | none => .fail (.defect .missingArgument)

def resolve : Branch → Reader RawRequest Unit
  | .opening true => .ask .openBranch
  | .opening false => do
    if ← .ask (.skip true) then .ask .openBranch
  | .alternative => do
    if ← .ask .closeBranch then
      let _ ← .ask (.skip false)
    else .fail .extraElse
  | .closing => do
    if ← .ask .closeBranch then return () else .fail .extraFi

/-- Reads one raw token, and delivers it unless it stands for something else. -/
def step : Reader RawRequest (Turn Unit (Option Lexeme)) := do
  match ← .ask .next with
  | none => return .finish none
  | some t =>
    match t.token.branch? with
    | some b => do
      resolve b
      return .again ()
    | none =>
      match ← .ask (.meaning t.token) with
      | some d => do
        call t.token d
        return .again ()
      | none => return .finish (some t)

/-- The next token that stands for itself. -/
def next : Reader RawRequest (Option Lexeme) := .loop (fun _ => step) ()

end Expansion

def Input.nextExpanded (tables : Tables) (rounds : Nat) (i : Input) :
    Outcome Input (Option Lexeme) :=
  Expansion.next.run (rawHandler tables rounds) rounds i

/-- What the stages above expansion ask of it. -/
inductive Request : Type → Type 1
  | expanded : Request (Option Lexeme)
  | unexpanded : Request (Option Lexeme)
  | back (ts : List Lexeme) : Request Unit
  | consume {β : Type} (c : Consumer β) : Request β

def Request.answer (tables : Tables) (rounds : Nat) {α : Type} :
    Request α → Input → Outcome Input α
  | .expanded, i => i.nextExpanded tables rounds
  | .unexpanded, i => i.next tables.alphabet
  | .back ts, i => i.back ts
  | .consume c, i => i.consume tables.alphabet rounds c

def handler (tables : Tables) (rounds : Nat) : Handler Request Input :=
  ⟨Request.answer tables rounds, fun c i => i.fault c⟩

/-- Readers of expanded tokens. -/
abbrev Scan := Reader Request

namespace Scan

def next : Scan (Option Lexeme) := .ask .expanded

def nextRaw : Scan (Option Lexeme) := .ask .unexpanded

def back (ts : List Lexeme) : Scan Unit := .ask (.back ts)

def consume {β : Type} (c : Consumer β) : Scan β := .ask (.consume c)

end Scan

/-- Tokens read one after the other, and how the reading ended. -/
structure Drained where
  tokens : List Lexeme
  ending : Outcome Input Unit

/-- All expanded tokens up to the end of input or to a fault. -/
def Input.drain (tables : Tables) (rounds : Nat) : Nat → Input → Drained
  | 0, _ => ⟨[], .unfinished⟩
  | n + 1, i =>
    match i.nextExpanded tables rounds with
    | .done (some t) i =>
      let d := drain tables rounds n i
      { d with tokens := t :: d.tokens }
    | .done none i => ⟨[], .done () i⟩
    | .failed fault i => ⟨[], .failed fault i⟩
    | .unfinished => ⟨[], .unfinished⟩

end Galley
