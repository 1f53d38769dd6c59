import Galley.Proofs.WellFormed

/-!
What changes the tables. A command assigns if its first token, as expansion delivers it, is `\def`
or `\catcode` and if it then reads all that it needs. Every other command, every command that fails,
and whatever is skipped, captured, stored or looked ahead at, leaves the tables as they were: a run
leaves them as the assignments that it completed make them, one after the other.
-/

namespace Galley

/-! ## Completed assignments -/

/-- The token of the command that makes such an assignment. -/
def Assignment.command : Assignment → Token
  | .define _ _ => .cs "def"
  | .categorize _ _ => .cs "catcode"

/-- The commands that assign. -/
def Token.assigns (t : Token) : Bool := t = .cs "def" || t = .cs "catcode"

/-- The definition that is read behind a `\def`, if it is complete. -/
def Input.definition? (tables : Tables) (rounds : Nat) (i : Input) : Option Assignment :=
  match i.next tables.alphabet with
  | .done (some name) i =>
    if name.token.isDefinable then
      match i.consume tables.alphabet rounds Definition.read with
      | .done (.ok d) _ => some (.define name.token d)
      | _ => none
    else none
  | _ => none

/-- The category that is given behind a `\catcode`, if both numbers are read and in range. -/
def Input.category? (tables : Tables) (rounds : Nat) (i : Input) : Option Assignment :=
  match Quantity.int.run (handler tables rounds) rounds i with
  | .done code i =>
    if 0 ≤ code ∧ code ≤ Build.maxCodePoint then
      match Quantity.optionalEquals.run (handler tables rounds) rounds i with
      | .done () i =>
        match Quantity.int.run (handler tables rounds) rounds i with
        | .done value _ =>
          if 0 ≤ value ∧ value ≤ 15 then (Category.ofCode? value).map (.categorize code.toNat)
          else none
        | _ => none
      | _ => none
    else none
  | _ => none

namespace Machine

/-- The assignment that the next command completes. -/
def completed? (rounds : Nat) (m : Machine) : Option Assignment :=
  match m.input.nextExpanded m.tables rounds with
  | .done (some t) i =>
    if t.token = .cs "def" then i.definition? m.tables rounds
    else if t.token = .cs "catcode" then i.category? m.tables rounds
    else none
  | _ => none

/-- The assignments that a run completes, in that order. -/
def assignmentsFrom (face : Typeface) (rounds : Nat) : Nat → Nest → Machine → List Assignment
  | 0, _, _ => []
  | n + 1, nest, m =>
    (m.completed? rounds).toList ++
      match m.turn face rounds nest with
      | .done (.again nest) m => assignmentsFrom face rounds n nest m
      | _ => []

/-- What a reader of expanded tokens does under the tables of a machine. -/
def read (rounds : Nat) {α : Type} (r : Scan α) (m : Machine) : Outcome Machine α :=
  match r.run (handler m.tables rounds) rounds m.input with
  | .done a i => .done a { m with input := i }
  | .failed fault i => .failed fault { m with input := i }
  | .unfinished => .unfinished

end Machine

def Engine.assignments (rounds : Nat) (mode : Mode) (e : Engine) : List Assignment :=
  e.machine.assignmentsFrom e.face rounds rounds (.outer mode [])

@[simp] theorem Tables.assign_endLine (t : Tables) (a : Assignment) :
    (t.assign a).alphabet.endLine = t.alphabet.endLine := by
  cases a <;> rfl

theorem Tables.foldl_assign_endLine (t : Tables) (as : List Assignment) :
    (as.foldl Tables.assign t).alphabet.endLine = t.alphabet.endLine := by
  induction as generalizing t with
  | nil => rfl
  | cons a as ih => rw [List.foldl_cons, ih, assign_endLine]

theorem Input.command_of_definition? {tables : Tables} {rounds : Nat} {i : Input} {a : Assignment}
    (h : i.definition? tables rounds = some a) : a.command = .cs "def" := by
  unfold definition? at h
  repeat' split at h
  all_goals cases h
  rfl

theorem Input.command_of_category? {tables : Tables} {rounds : Nat} {i : Input} {a : Assignment}
    (h : i.category? tables rounds = some a) : a.command = .cs "catcode" := by
  unfold category? at h
  repeat' split at h
  all_goals try cases h
  obtain ⟨cat, -, rfl⟩ := Option.map_eq_some_iff.mp h
  rfl

/-! ## Commands that do not assign -/

namespace Build

variable {face : Typeface} {nest within : Nest}

/-- Whatever it is answered, the command assigns nothing, or it fails. -/
def Quiet (r : Step) : Prop :=
  r.wp Request.anything (fun _ => True) (fun e _ => e.assignment = none) ()

theorem quiet_bind {α : Type} {r : Scan α} {k : α → Step} (h : ∀ a, Quiet (k a)) :
    Quiet (r >>= k) :=
  Scan.safe_anything r _ () fun a _ => h a

theorem fault_quiet (f : BuildFault) : Quiet (fault f) := trivial

theorem goOn_quiet (nest : Nest) : Quiet (goOn nest) := rfl

theorem closeParagraph_quiet (items : List Item) (within : Nest) :
    Quiet (closeParagraph items within) := by
  unfold closeParagraph
  split
  · exact goOn_quiet within
  · exact quiet_bind fun _ => goOn_quiet _

theorem openParagraph_quiet (t : Lexeme) (nest : Nest) : Quiet (openParagraph t nest) :=
  quiet_bind fun _ => goOn_quiet _

theorem interword_quiet (face : Typeface) (nest : Nest) : Quiet (interword face nest) :=
  quiet_bind fun _ => goOn_quiet _

theorem endGroup_quiet (t : Lexeme) (nest : Nest) : Quiet (endGroup t nest) := by
  cases nest with
  | outer mode items => exact fault_quiet _
  | group mode items within => exact quiet_bind fun _ => goOn_quiet _
  | paragraph items within => exact quiet_bind fun _ => closeParagraph_quiet items within

theorem character_quiet (face : Typeface) (t : Lexeme) (c : Char) (cat : Category) (nest : Nest) :
    Quiet (character face t c cat nest) := by
  unfold character
  split
  · exact endGroup_quiet t nest
  · exact goOn_quiet _
  · split
    · exact openParagraph_quiet t nest
    · exact quiet_bind fun _ => goOn_quiet _
  · split
    · exact openParagraph_quiet t nest
    · exact quiet_bind fun _ => goOn_quiet _
  · split
    · exact goOn_quiet nest
    · exact interword_quiet face nest
  · exact fault_quiet _
  · exact fault_quiet _

theorem openBox_quiet (mode : Mode) (nest : Nest) : Quiet (openBox mode nest) := by
  apply quiet_bind
  intro t
  split
  · exact goOn_quiet _
  · exact fault_quiet _

theorem primitive_quiet (name : String) (nest : Nest) (hd : name ≠ "def")
    (hc : name ≠ "catcode") : Quiet (primitive face name nest) := by
  unfold primitive
  split
  · exact goOn_quiet nest
  · exact absurd rfl hd
  · exact absurd rfl hc
  · exact quiet_bind fun _ => goOn_quiet _
  · exact quiet_bind fun _ => goOn_quiet _
  · exact openBox_quiet _ nest
  · exact openBox_quiet _ nest
  · exact quiet_bind fun _ => goOn_quiet _
  · exact quiet_bind fun _ => goOn_quiet _
  · exact interword_quiet face nest
  · exact fault_quiet _

theorem control_quiet (t : Lexeme) (name : String) (nest : Nest) (hd : name ≠ "def")
    (hc : name ≠ "catcode") : Quiet (control face t name nest) := by
  unfold control
  split
  · cases nest with
    | paragraph items within => exact closeParagraph_quiet items within
    | outer mode items => exact goOn_quiet _
    | group mode items within => exact goOn_quiet _
  · split
    · exact openParagraph_quiet t nest
    · split
      · cases nest with
        | paragraph items within => exact quiet_bind fun _ => closeParagraph_quiet items within
        | outer mode items => exact fault_quiet _
        | group mode items within => exact fault_quiet _
      · exact primitive_quiet name nest hd hc

theorem atEnd_quiet (nest : Nest) : Quiet (atEnd nest) := by
  cases nest with
  | outer mode items => rfl
  | group mode items within => exact fault_quiet _
  | paragraph items within => exact closeParagraph_quiet items within

theorem control_def (face : Typeface) (t : Lexeme) (nest : Nest) :
    control face t "def" nest = define nest := by
  simp [control, horizontalCommands, verticalCommands, primitive]

theorem control_catcode (face : Typeface) (t : Lexeme) (nest : Nest) :
    control face t "catcode" nest = categorize nest := by
  simp [control, horizontalCommands, verticalCommands, primitive]

/-! ## Commands that assign -/

variable (tables : Tables) (rounds : Nat)

/-- A `\def` comes to an end exactly if it reads a definition, and assigns that. -/
theorem define_run (nest : Nest) (i : Input) :
    ((define nest).run (handler tables rounds) rounds i).Ensures
      (fun e _ => e.assignment.isSome ∧ i.definition? tables rounds = e.assignment)
      (fun _ _ => i.definition? tables rounds = none) := by
  unfold define Input.definition?
  rw [Reader.run_bind]
  change Outcome.Ensures _ _ ((i.next tables.alphabet).andThen _)
  cases i.next tables.alphabet with
  | failed f j => rfl
  | unfinished => trivial
  | done name j =>
    cases name with
    | none => rfl
    | some name =>
      dsimp only [Outcome.andThen]
      split
      · rw [Reader.run_bind]
        change Outcome.Ensures _ _ ((j.consume tables.alphabet rounds Definition.read).andThen _)
        cases j.consume tables.alphabet rounds Definition.read with
        | failed f k => rfl
        | unfinished => trivial
        | done result k =>
          cases result with
          | error f => rfl
          | ok d => exact ⟨rfl, rfl⟩
      · rfl

/-- A `\catcode` comes to an end exactly if it reads two numbers in range, and assigns by them. -/
theorem categorize_run (nest : Nest) (i : Input) :
    ((categorize nest).run (handler tables rounds) rounds i).Ensures
      (fun e _ => e.assignment.isSome ∧ i.category? tables rounds = e.assignment)
      (fun _ _ => i.category? tables rounds = none) := by
  unfold categorize Input.category?
  rw [Reader.run_bind]
  cases Quantity.int.run (handler tables rounds) rounds i with
  | failed f j => rfl
  | unfinished => trivial
  | done code j =>
    dsimp only [Outcome.andThen]
    split
    · rename_i hcode
      rw [Reader.run_bind]
      cases Quantity.optionalEquals.run (handler tables rounds) rounds j with
      | failed f k => rfl
      | unfinished => trivial
      | done u k =>
        dsimp only [Outcome.andThen]
        rw [Reader.run_bind]
        cases Quantity.int.run (handler tables rounds) rounds k with
        | failed f l => rfl
        | unfinished => trivial
        | done value l =>
          dsimp only [Outcome.andThen]
          split
          · rw [Build.codePoint?_eq hcode]
            cases Category.ofCode? value with
            | none => rfl
            | some cat => exact ⟨rfl, rfl⟩
          · rfl
    · rfl

end Build

/-! ## Whole runs -/

namespace Machine

variable {face : Typeface} {nest : Nest} {m : Machine} {rounds : Nat}

/-- A turn reads what its command needs, and then assigns. -/
theorem turn_eq_read (face : Typeface) (rounds : Nat) (nest : Nest) (m : Machine) :
    m.turn face rounds nest = (m.read rounds (Build.step face nest)).andThen fun e after =>
      .done e.turn { after with tables := e.assignment.elim after.tables after.tables.assign } := by
  unfold turn read
  cases (Build.step face nest).run (handler m.tables rounds) rounds m.input with
  | done e i => rfl
  | failed f i => rfl
  | unfinished => rfl

/-- What is sure of a reader is sure of what it does under the tables of a machine, which it
leaves. -/
theorem read_ensures {α : Type} {r : Scan α} {post : α → Prop} {bad : Prop}
    (h : (r.run (handler m.tables rounds) rounds m.input).Ensures (fun a _ => post a)
      (fun _ _ => bad)) :
    (m.read rounds r).Ensures (fun a after => after.tables = m.tables ∧ post a)
      (fun _ after => after.tables = m.tables ∧ bad) := by
  unfold read
  cases ho : r.run (handler m.tables rounds) rounds m.input with
  | done a i =>
    rw [ho] at h
    exact ⟨rfl, h⟩
  | failed f i =>
    rw [ho] at h
    exact ⟨rfl, h⟩
  | unfinished => trivial

theorem read_tables {α : Type} (r : Scan α) (rounds : Nat) (m : Machine) :
    (m.read rounds r).Ensures (fun _ after => after.tables = m.tables)
      (fun _ after => after.tables = m.tables) := by
  have hany : (r.run (handler m.tables rounds) rounds m.input).Ensures (fun _ _ => True)
      (fun _ _ => True) := by
    cases r.run (handler m.tables rounds) rounds m.input <;> trivial
  exact (read_ensures hany).mono (fun _ _ h => h.1) fun _ _ h => h.1

theorem command?_of_completed? {a : Assignment} (h : m.completed? rounds = some a) :
    m.command? rounds = some a.command := by
  unfold completed? at h
  unfold command?
  cases hn : m.input.nextExpanded m.tables rounds with
  | failed f i => simp [hn] at h
  | unfinished => simp [hn] at h
  | done t i =>
    cases t with
    | none => simp [hn] at h
    | some t =>
      simp only [hn] at h
      split at h
      · rename_i ht
        rw [Input.command_of_definition? h]
        simp [ht]
      · split at h
        · rename_i ht
          rw [Input.command_of_category? h]
          simp [ht]
        · cases h

/-- A command that comes to an end assigns what it completes; an assigning one completes something
then, and nothing if it fails. -/
theorem step_completes (face : Typeface) (rounds : Nat) (nest : Nest) (m : Machine) :
    ((Build.step face nest).run (handler m.tables rounds) rounds m.input).Ensures
      (fun e _ => m.completed? rounds = e.assignment ∧
        (e.assignment.isSome ↔ (m.command? rounds).any Token.assigns))
      (fun _ _ => m.completed? rounds = none) := by
  change ((Scan.next >>= Build.onToken face nest).run (handler m.tables rounds) rounds
    m.input).Ensures _ _
  rw [Reader.run_bind]
  change ((m.input.nextExpanded m.tables rounds).andThen _).Ensures _ _
  unfold completed? command?
  cases m.input.nextExpanded m.tables rounds with
  | failed f i => rfl
  | unfinished => trivial
  | done t i =>
    have quiet (hq : Build.Quiet (Build.onToken face nest t)) :
        ((Build.onToken face nest t).run (handler m.tables rounds) rounds i).Ensures
          (fun e _ => e.assignment = none) (fun _ _ => True) :=
      Scan.ensures_of_anything hq m.tables rounds i
    cases t with
    | none =>
      refine (quiet (Build.atEnd_quiet nest)).mono (fun e _ he => ?_) fun _ _ _ => rfl
      simp [he]
    | some t =>
      obtain ⟨token, span⟩ := t
      cases token with
      | ch c cat =>
        refine (quiet (Build.character_quiet face _ c cat nest)).mono (fun e _ he => ?_)
          fun _ _ _ => rfl
        simp [he, Token.assigns]
      | cs name =>
        by_cases hd : name = "def"
        · subst hd
          have hrun := Build.define_run m.tables rounds nest i
          rw [← Build.control_def face ⟨.cs "def", span⟩] at hrun
          exact hrun.mono (fun e _ ⟨hs, he⟩ => ⟨he, by simp [hs, Token.assigns]⟩) fun _ _ he => he
        · by_cases hc : name = "catcode"
          · subst hc
            have hrun := Build.categorize_run m.tables rounds nest i
            rw [← Build.control_catcode face ⟨.cs "catcode", span⟩] at hrun
            exact hrun.mono (fun e _ ⟨hs, he⟩ => ⟨he, by simp [hs, Token.assigns]⟩)
              fun _ _ he => he
          · refine (quiet (Build.control_quiet _ name nest hd hc)).mono (fun e _ he => ?_)
              fun _ _ _ => ?_
            · simp [he, Token.assigns, hd, hc]
            · simp [hd, hc]

/-- One command: the tables after it, and whether it completed something. -/
theorem turn_assigns (face : Typeface) (rounds : Nat) (nest : Nest) (m : Machine) :
    (m.turn face rounds nest).Ensures
      (fun _ after => after.tables = (m.completed? rounds).elim m.tables m.tables.assign ∧
        ((m.completed? rounds).isSome ↔ (m.command? rounds).any Token.assigns))
      (fun _ after => after.tables = m.tables ∧ m.completed? rounds = none) := by
  rw [turn_eq_read]
  refine Outcome.Ensures.andThen
    ((read_ensures (step_completes face rounds nest m)).mono ?_ fun _ _ hf => hf)
  rintro e after ⟨htables, he, hs⟩
  rw [← he] at hs
  exact ⟨by rw [htables, he], hs⟩

/-- The tables after a run, and the commands of it that assign: one for each assignment, and at most
one more that did not come to its end. -/
structure Assigned (m : Machine) (done : List Assignment) (commands : List Token)
    (interrupted : Option Token) (after : Machine) : Prop where
  tables : after.tables = done.foldl Tables.assign m.tables
  commands : commands.filter Token.assigns =
    done.map Assignment.command ++ interrupted.toList

theorem filter_command? (h : (m.completed? rounds).isSome ↔ (m.command? rounds).any Token.assigns) :
    (m.command? rounds).toList.filter Token.assigns =
      (m.completed? rounds).toList.map Assignment.command := by
  cases ha : m.completed? rounds with
  | some a =>
    rw [ha] at h
    have hc := command?_of_completed? ha
    rw [hc] at h ⊢
    simpa using h
  | none =>
    rw [ha] at h
    cases hc : m.command? rounds with
    | none => rfl
    | some t =>
      rw [hc] at h
      simpa using h

theorem Assigned.cons {m' after : Machine} {done : List Assignment} {commands : List Token}
    {interrupted : Option Token} (h : m'.Assigned done commands interrupted after)
    (ht : m'.tables = (m.completed? rounds).elim m.tables m.tables.assign)
    (hc : (m.completed? rounds).isSome ↔ (m.command? rounds).any Token.assigns) :
    m.Assigned ((m.completed? rounds).toList ++ done) ((m.command? rounds).toList ++ commands)
      interrupted after where
  tables := by
    rw [h.tables, ht, List.foldl_append]
    cases m.completed? rounds <;> rfl
  commands := by
    rw [List.filter_append, filter_command? hc, h.commands, List.map_append, List.append_assoc]

theorem Assigned.last {after : Machine}
    (ht : after.tables = (m.completed? rounds).elim m.tables m.tables.assign)
    (hc : (m.completed? rounds).isSome ↔ (m.command? rounds).any Token.assigns) :
    m.Assigned (m.completed? rounds).toList (m.command? rounds).toList none after where
  tables := by
    rw [ht]
    cases m.completed? rounds <;> rfl
  commands := by
    rw [filter_command? hc]
    exact (List.append_nil _).symm

theorem Assigned.broken {after : Machine} (ht : after.tables = m.tables)
    (hc : m.completed? rounds = none) :
    m.Assigned (m.completed? rounds).toList (m.command? rounds).toList
      ((m.command? rounds).filter Token.assigns) after where
  tables := by
    rw [ht, hc]
    rfl
  commands := by
    rw [hc, Option.toList_filter]
    rfl

theorem iterate_assigns (face : Typeface) (rounds n : Nat) (nest : Nest) (m : Machine) :
    (iterate (turn face rounds) n nest m).Ensures
      (fun _ after => m.Assigned (assignmentsFrom face rounds n nest m)
        (commandsFrom face rounds n nest m) none after)
      (fun _ after => ∃ interrupted, m.Assigned (assignmentsFrom face rounds n nest m)
        (commandsFrom face rounds n nest m) interrupted after) := by
  induction n generalizing nest m with
  | zero => trivial
  | succ n ih =>
    have hturn := turn_assigns face rounds nest m
    rw [iterate_succ, assignmentsFrom, commandsFrom]
    cases ho : m.turn face rounds nest with
    | unfinished => trivial
    | failed f after =>
      rw [ho] at hturn
      obtain ⟨ht, hc⟩ := hturn
      simp only [List.append_nil]
      exact ⟨_, .broken ht hc⟩
    | done turn after =>
      rw [ho] at hturn
      obtain ⟨ht, hc⟩ := hturn
      cases turn with
      | finish list =>
        simp only [List.append_nil]
        exact .last ht hc
      | again nest' =>
        refine (ih nest' after).mono (fun _ _ h => h.cons ht hc) fun _ _ h => ?_
        obtain ⟨interrupted, h⟩ := h
        exact ⟨interrupted, h.cons ht hc⟩

end Machine

namespace Engine

/-- What a run leaves in the tables. -/
structure Assigned (e : Engine) (rounds : Nat) (mode : Mode) (interrupted : Option Token)
    (after : Engine) : Prop where
  tables : after.machine.tables = (e.assignments rounds mode).foldl Tables.assign e.machine.tables
  endLine : after.machine.tables.alphabet.endLine = e.machine.tables.alphabet.endLine
  commands : (e.commands rounds mode).filter Token.assigns =
    (e.assignments rounds mode).map Assignment.command ++ interrupted.toList

theorem assigned_of_machine {e : Engine} {rounds : Nat} {mode : Mode} {interrupted : Option Token}
    {m : Machine} (h : e.machine.Assigned (e.assignments rounds mode) (e.commands rounds mode)
      interrupted m) : e.Assigned rounds mode interrupted { e with machine := m } where
  tables := h.tables
  endLine := by
    rw [h.tables, Tables.foldl_assign_endLine]
  commands := h.commands

theorem expand_tables (rounds : Nat) (e : Engine) :
    (e.expand rounds).Ensures (fun _ after => after.machine.tables = e.machine.tables)
      (fun _ after => after.machine.tables = e.machine.tables) := by
  unfold expand
  dsimp only
  split
  · rfl
  · rfl
  · trivial

/-- A run leaves the tables as its assignments make them in order, whether it ends or fails. There
is one for each `\def` and each `\catcode` that it executes, except for one that fails; the text at
line ends stays. A command changes the tables exactly by what it completes, and a failing one not at
all. Expanding, and reading expanded tokens in whatever way, changes nothing. -/
theorem run_assigns (rounds : Nat) (mode : Mode) (e : Engine) :
    (e.run rounds mode).Ensures (fun _ after => e.Assigned rounds mode none after)
      (fun _ after => ∃ interrupted, e.Assigned rounds mode interrupted after) ∧
    (∀ (nest : Nest) (m : Machine), (m.turn e.face rounds nest).Ensures
      (fun _ after => after.tables = (m.completed? rounds).elim m.tables m.tables.assign ∧
        ((m.completed? rounds).isSome ↔ (m.command? rounds).any Token.assigns))
      (fun _ after => after.tables = m.tables ∧ m.completed? rounds = none)) ∧
    (e.expand rounds).Ensures (fun _ after => after.machine.tables = e.machine.tables)
      (fun _ after => after.machine.tables = e.machine.tables) ∧
    ∀ {α : Type} (r : Scan α) (m : Machine), (m.read rounds r).Ensures
      (fun _ after => after.tables = m.tables) (fun _ after => after.tables = m.tables) := by
  refine ⟨?_, fun nest m => Machine.turn_assigns e.face rounds nest m, expand_tables rounds e,
    fun r m => Machine.read_tables r rounds m⟩
  have hbuild : (e.machine.build e.face rounds mode).Ensures _ _ :=
    Machine.iterate_assigns e.face rounds rounds (.outer mode []) e.machine
  unfold run
  cases ho : e.machine.build e.face rounds mode with
  | unfinished => trivial
  | done list m =>
    rw [ho] at hbuild
    exact assigned_of_machine hbuild
  | failed f m =>
    rw [ho] at hbuild
    obtain ⟨interrupted, h⟩ := hbuild
    exact ⟨interrupted, assigned_of_machine h⟩

/-- A definition in a skipped branch and one without an end leave nothing. -/
example : (start {} (usualMetrics {}) {}
    ["\\catcode64=11 \\iffalse\\def\\a\x7b\x7d\\fi\\def\\b\x7b"]).assignments 60 .vertical =
      [.categorize 64 .letter] := by decide +kernel

end Engine

end Galley
