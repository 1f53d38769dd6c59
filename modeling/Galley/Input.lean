import Galley.Lexer
import Galley.Reader

/-!
The input of a run: chunks of pending tokens above a lexer. Replacements and tokens that are put
back wait in chunks, the last one on top; the lexer is read when no chunk has a token left. The view
of the chunks is `pending`.
-/

namespace Galley

/-- Pending tokens; those of a replacement come with the name of the call. -/
structure Chunk where
  tokens : List Lexeme
  origin : Option String := none
  deriving DecidableEq, Repr

structure Input where
  lexer : Lexer
  capacity : Capacity := { chunks := 5000 }
  nested : Bool := true
  chunks : List Chunk := []
  openBranches : Nat := 0
  last : Position := ⟨1, 1⟩
  deriving DecidableEq, Repr

namespace Input

/-- An input over lines of which none has been read. -/
def ofLines (lines : List String) (strict nested : Bool) (capacity : Capacity) : Input :=
  { lexer := { lines := lines, strict := strict }, capacity := capacity, nested := nested }

/-- The names of the calls whose replacements are still being read, outermost first. -/
def chain (i : Input) : List String :=
  (i.chunks.filterMap fun c => if c.tokens.isEmpty then none else c.origin).reverse

def faultAt (i : Input) (c : Cause) (place : Position) : Fault := ⟨c, place, i.chain⟩

def fault (i : Input) (c : Cause) : Fault := i.faultAt c i.last

/-- Drops the empty chunks on top. -/
def dropEmpty : List Chunk → List Chunk
  | [] => []
  | c :: more => if c.tokens.isEmpty then dropEmpty more else c :: more

/-- Takes the first pending token. -/
def takePending : List Chunk → Option (Lexeme × List Chunk)
  | [] => none
  | ⟨[], _⟩ :: more => takePending more
  | ⟨t :: ts, origin⟩ :: more => some (t, ⟨ts, origin⟩ :: more)

/-- All pending tokens, in the order in which they are read. -/
def pending (chunks : List Chunk) : List Lexeme := chunks.flatMap (·.tokens)

theorem pending_dropEmpty (chunks : List Chunk) : pending (dropEmpty chunks) = pending chunks := by
  induction chunks with
  | nil => rfl
  | cons c more ih =>
    obtain ⟨ts, origin⟩ := c
    cases ts with
    | nil => simpa [dropEmpty, pending] using ih
    | cons t ts => simp [dropEmpty]

theorem takePending_eq_none_iff (chunks : List Chunk) :
    takePending chunks = none ↔ pending chunks = [] := by
  induction chunks with
  | nil => simp [takePending, pending]
  | cons c more ih =>
    obtain ⟨ts, origin⟩ := c
    cases ts with
    | nil => simpa [takePending, pending] using ih
    | cons t ts => simp [takePending, pending]

/-- A token is taken from the first chunk that has one. -/
theorem exists_of_takePending {chunks rest : List Chunk} {t : Lexeme}
    (h : takePending chunks = some (t, rest)) :
    ∃ ts origin more, dropEmpty chunks = ⟨t :: ts, origin⟩ :: more ∧
      rest = ⟨ts, origin⟩ :: more := by
  induction chunks with
  | nil => cases h
  | cons c more ih =>
    obtain ⟨ts, origin⟩ := c
    cases ts with
    | nil => exact ih h
    | cons u ts =>
      cases h
      exact ⟨ts, origin, more, rfl, rfl⟩

theorem pending_takePending {chunks rest : List Chunk} {t : Lexeme}
    (h : takePending chunks = some (t, rest)) : pending chunks = t :: pending rest := by
  obtain ⟨ts, origin, more, hd, rfl⟩ := exists_of_takePending h
  rw [← pending_dropEmpty, hd]
  rfl

/-- Where only the top chunk may be empty, all chunks with tokens are left. -/
theorem dropEmpty_eq_filter {chunks : List Chunk} (h : ∀ c ∈ chunks.tail, c.tokens ≠ []) :
    dropEmpty chunks = chunks.filter fun c => !c.tokens.isEmpty := by
  induction chunks with
  | nil => rfl
  | cons c more ih =>
    have hmore : more.filter (fun c => !c.tokens.isEmpty) = more :=
      List.filter_eq_self.mpr fun d hd => by simpa using h d hd
    by_cases hc : c.tokens.isEmpty = true
    · rw [dropEmpty, if_pos hc, List.filter_cons_of_neg (by simp [hc])]
      exact ih fun d hd => h d (List.mem_of_mem_tail hd)
    · rw [dropEmpty, if_neg hc, List.filter_cons_of_pos (by simp [hc]), hmore]

/-- A token without a place leaves the last place as it was. -/
def placeAfter (last : Position) (t : Lexeme) : Position :=
  match t.span with
  | some span => span.start
  | none => last

/-- A fault of the lexer, which knows of no calls. -/
def lexFault (c : Char) (place : Position) : Fault := ⟨.invalidCharacter c, place, []⟩

/-- Reads the next raw token, without noting its place. -/
def lex (a : Alphabet) (i : Input) : Outcome Input (Option Lexeme) :=
  match i.lexer.next a with
  | .token t lexer => .done (some t) { i with lexer := lexer }
  | .invalid c place lexer => .failed (lexFault c place) { i with lexer := lexer }
  | .finished lexer => .done none { i with lexer := lexer }

/-- Reads the next token without expanding it. -/
def next (a : Alphabet) (i : Input) : Outcome Input (Option Lexeme) :=
  match takePending i.chunks with
  | some (t, chunks) => .done (some t) { i with chunks := chunks, last := placeAfter i.last t }
  | none =>
    match lex a { i with chunks := [] } with
    | .done (some t) i => .done (some t) { i with last := placeAfter i.last t }
    | o => o

/-- Looks at the next token and leaves it to be read. -/
def peek (a : Alphabet) (i : Input) : Outcome Input (Option Lexeme) :=
  match dropEmpty i.chunks with
  | c :: more => .done c.tokens.head? { i with chunks := c :: more }
  | [] =>
    match lex a { i with chunks := [] } with
    | .done (some t) i => .done (some t) { i with chunks := [⟨[t], none⟩] }
    | o => o

/-- Puts a chunk on top, if it has tokens and there is room for it. -/
def push (i : Input) (c : Chunk) : Outcome Input Unit :=
  if c.tokens.isEmpty then .done () i
  else
    let i := { i with chunks := dropEmpty i.chunks }
    if i.capacity.chunks ≤ i.chunks.length then .failed (i.fault (.capacity i.capacity)) i
    else .done () { i with chunks := c :: i.chunks }

def back (i : Input) (ts : List Lexeme) : Outcome Input Unit := i.push ⟨ts, none⟩

/-- Gives raw tokens to a consumer until it stops. -/
def consume (a : Alphabet) (rounds : Nat) {β : Type} (c : Consumer β) (i : Input) :
    Outcome Input β :=
  match c.start with
  | .finish b => .done b i
  | .again s =>
    iterate (fun s i => (i.next a).map fun
      | some t => c.step s t
      | none => .finish (c.atEnd s)) rounds s i

end Input

end Galley
