import Galley.Expansion
import Galley.Proofs.Lexing
import Galley.Proofs.Validity

/-!
The faults that reading and expanding can end in. While all definitions in the tables are valid, no
call lacks an argument, so none of these faults is a defect; and only strict reading ends in a fault
of the lexer.
-/

namespace Galley

/-- A fault that a run may end in. -/
def Cause.Proper (strict : Bool) (c : Cause) : Prop :=
  c.stage ≠ .defect ∧ (c.stage = .lexing → strict = true)

/-- A fault of a stage behind the lexer. -/
theorem Cause.proper_of_stage {c : Cause} {strict : Bool} (hd : c.stage ≠ .defect)
    (hl : c.stage ≠ .lexing) : c.Proper strict := ⟨hd, fun h => absurd h hl⟩

/-! ## The input -/

namespace Input

variable {strict : Bool} {i : Input}

theorem lex_ensures (a : Alphabet) (h : i.lexer.strict = strict) :
    (i.lex a).Ensures (fun _ j => j.lexer.strict = strict) (fun f _ => f.cause.Proper strict) := by
  have ha := i.lexer.next_leaves a
  unfold lex
  cases hn : i.lexer.next a with
  | token t l =>
    rw [hn] at ha
    exact ha.1.trans h
  | finished l =>
    rw [hn] at ha
    exact ha.1.trans h
  | invalid c place l =>
    rw [hn] at ha
    exact ⟨nofun, fun _ => h ▸ ha.2.2⟩

theorem next_ensures (a : Alphabet) (h : i.lexer.strict = strict) :
    (i.next a).Ensures (fun _ j => j.lexer.strict = strict) (fun f _ => f.cause.Proper strict) := by
  unfold next
  split
  · exact h
  · have hl := lex_ensures a (i := { i with chunks := [] }) h
    split
    · rename_i ho
      rw [ho] at hl
      exact hl
    · exact hl

theorem consume_ensures (a : Alphabet) (rounds : Nat) {β : Type} (c : Consumer β)
    (h : i.lexer.strict = strict) :
    (i.consume a rounds c).Ensures
      (fun b j => j.lexer.strict = strict ∧ ∃ ts, (c.run ts).1 = b)
      (fun f _ => f.cause.Proper strict) := by
  have hkeep : (i.consume a rounds c).Ensures (fun _ j => j.lexer.strict = strict)
      (fun f _ => f.cause.Proper strict) :=
    consume_keeps (fun _ hj => next_ensures a hj) rounds c h
  cases ho : i.consume a rounds c with
  | unfinished => trivial
  | failed f j =>
    rw [ho] at hkeep
    exact hkeep
  | done b j =>
    rw [ho] at hkeep
    exact ⟨hkeep, exists_run_of_consume ho⟩

theorem skip_ensures (a : Alphabet) (rounds : Nat) (toElse : Bool)
    (h : i.lexer.strict = strict) :
    (i.skip a rounds toElse).Ensures (fun _ j => j.lexer.strict = strict)
      (fun f _ => f.cause.Proper strict) := by
  refine Outcome.Ensures.andThen ((consume_ensures a rounds _ h).mono ?_ fun _ _ hf => hf)
  rintro landed j ⟨hj, -⟩
  cases landed with
  | some landed => exact hj
  | none => exact Cause.proper_of_stage nofun nofun

theorem push_ensures (c : Chunk) (h : i.lexer.strict = strict) :
    (i.push c).Ensures (fun _ j => j.lexer.strict = strict)
      (fun f _ => f.cause.Proper strict) := by
  unfold push
  split
  · exact h
  · dsimp only
    split
    · exact Cause.proper_of_stage nofun nofun
    · exact h

end Input

/-! ## Expansion -/

/-- All definitions that tokens stand for are valid. -/
def Tables.Valid (t : Tables) : Prop := ∀ token d, t.meaning? token = some d → d.Valid

/-- A consumer delivers what a run of it delivers, and only valid definitions are looked up. -/
def RawRequest.promise : Promises RawRequest Unit
  | _, .consume c, post, u => ∀ ts, post (c.run ts).1 u
  | _, .meaning _, post, u => ∀ d? : Option Definition, (∀ d, d? = some d → d.Valid) → post d? u
  | _, _, post, u => ∀ a, post a u

theorem RawRequest.promise_of_all {γ : Type} (q : RawRequest γ) (post : γ → Unit → Prop) (u : Unit)
    (h : ∀ a u, post a u) : RawRequest.promise q post u := by
  cases q <;> simp [RawRequest.promise, h]

theorem RawRequest.answer_ensures {tables : Tables} (ht : tables.Valid) (rounds : Nat)
    {strict : Bool} {γ : Type} (q : RawRequest γ) (post : γ → Unit → Prop) (i : Input) (u : Unit)
    (h : i.lexer.strict = strict) (hq : q.promise post u) :
    (q.answer tables rounds i).Ensures
      (fun a j => ∃ u, j.lexer.strict = strict ∧ post a u) (fun f _ => f.cause.Proper strict) := by
  cases q with
  | next => exact (Input.next_ensures _ h).mono (fun a j hj => ⟨u, hj, hq a⟩) fun _ _ hf => hf
  | push ts origin =>
    exact (Input.push_ensures _ h).mono (fun a j hj => ⟨u, hj, hq a⟩) fun _ _ hf => hf
  | skip toElse =>
    exact (Input.skip_ensures _ rounds toElse h).mono (fun a j hj => ⟨u, hj, hq a⟩) fun _ _ hf => hf
  | consume c =>
    refine (Input.consume_ensures _ rounds c h).mono ?_ fun _ _ hf => hf
    rintro b j ⟨hj, ts, rfl⟩
    exact ⟨u, hj, hq ts⟩
  | meaning t => exact ⟨u, h, hq _ fun d hd => ht t d hd⟩
  | openBranch => exact ⟨u, h, hq ()⟩
  | closeBranch =>
    simp only [answer, Input.closeBranch]
    split
    · exact ⟨u, h, hq false⟩
    · exact ⟨u, h, hq true⟩

namespace Expansion

variable {strict : Bool}

theorem call_safe (t : Token) {d : Definition} (hd : d.Valid) :
    (call t d).Safe RawRequest.promise (Cause.Proper strict) := by
  intro post u h ts
  rcases hr : Consumer.run d.capture ts with ⟨f | args, rest⟩
  · exact Cause.proper_of_stage nofun nofun
  · obtain ⟨replacement, hs⟩ := Option.isSome_iff_exists.mp (Definition.substitute_isSome hd hr)
    simp only [hs]
    exact fun a => h a u

theorem ask_safe {γ : Type} (q : RawRequest γ) :
    (Reader.ask q).Safe RawRequest.promise (Cause.Proper strict) := q.promise_of_all

theorem resolve_safe (b : Branch) :
    (resolve b).Safe RawRequest.promise (Cause.Proper strict) := by
  have extra : ∀ {α : Type} {c : Cause}, c.stage = .expansion →
      (Reader.fail c : Reader RawRequest α).Safe RawRequest.promise (Cause.Proper strict) :=
    fun h => .fail (Cause.proper_of_stage (by simp [h]) (by simp [h]))
  cases b with
  | opening taken =>
    cases taken with
    | true => exact ask_safe _
    | false =>
      refine .bind (ask_safe _) fun landed => ?_
      split
      · exact ask_safe _
      · exact .pure ()
  | alternative =>
    refine .bind (ask_safe _) fun closed => ?_
    split
    · exact .bind (ask_safe _) fun _ => .pure ()
    · exact extra rfl
  | closing =>
    refine .bind (ask_safe _) fun closed => ?_
    split
    · exact .pure ()
    · exact extra rfl

theorem step_safe : step.Safe RawRequest.promise (Cause.Proper strict) := by
  refine .bind (ask_safe _) fun t => ?_
  cases t with
  | none => exact .pure _
  | some t =>
    dsimp only
    cases t.token.branch? with
    | some b => exact .bind (resolve_safe b) fun _ => .pure _
    | none =>
      intro post u h d? hd
      cases d? with
      | none => exact h _ u
      | some d => exact (call_safe t.token (hd d rfl)).bind (fun _ => .pure _) post u h

theorem next_safe : next.Safe RawRequest.promise (Cause.Proper strict) :=
  .loop (fun _ => step_safe) ()

end Expansion

theorem Input.nextExpanded_ensures {tables : Tables} (ht : tables.Valid) (rounds : Nat)
    {strict : Bool} {i : Input} (h : i.lexer.strict = strict) :
    (i.nextExpanded tables rounds).Ensures (fun _ j => j.lexer.strict = strict)
      (fun f _ => f.cause.Proper strict) := by
  have hs : Expansion.next.wp RawRequest.promise (Cause.Proper strict) (fun _ _ => True) () :=
    Expansion.next_safe _ () fun _ _ => trivial
  have hr : (i.nextExpanded tables rounds).Ensures
      (fun _ j => ∃ _ : Unit, j.lexer.strict = strict ∧ True) (fun f _ => f.cause.Proper strict) :=
    Reader.run_wp (h := rawHandler tables rounds) (RawRequest.answer_ensures ht rounds)
      (fun _ _ _ _ hc => hc) rounds Expansion.next h hs
  exact hr.mono (fun _ _ ⟨_, hj, _⟩ => hj) fun _ _ hf => hf

end Galley
