import Galley.Proofs.CallStack
import Galley.Proofs.Remaining

/-!
Expansion without arguments, seen as rewriting of what is ahead. A name that comes first is replaced
by its tokens, a part of a conditional takes more of what follows it or not, and what stands for
itself is delivered (`Rewrites`, `Expands`). How the tokens are split over chunks and lines plays no
part in it but for the room, and the rounds that are needed are bounded wherever a measure of what
is ahead gets smaller with each rewriting.
-/

namespace Galley

/-- A reading ends, with a value in `post` or with a fault in `bad`. -/
def Outcome.Ends {σ α : Type} (post : α → σ → Prop) (bad : Fault → σ → Prop) : Outcome σ α → Prop
  | .done a s => post a s
  | .failed f s => bad f s
  | .unfinished => False

namespace Outcome.Ends

variable {σ α β : Type} {post : α → σ → Prop} {bad : Fault → σ → Prop} {o : Outcome σ α}

theorem mono {post' : α → σ → Prop} {bad' : Fault → σ → Prop} (h : o.Ends post bad)
    (hp : ∀ a s, post a s → post' a s) (hb : ∀ f s, bad f s → bad' f s) : o.Ends post' bad' := by
  cases o with
  | done a s => exact hp a s h
  | failed f s => exact hb f s h
  | unfinished => exact h.elim

theorem andThen {post : β → σ → Prop} {k : α → σ → Outcome σ β}
    (h : o.Ends (fun a s => (k a s).Ends post bad) bad) : (o.andThen k).Ends post bad := by
  cases o with
  | done a s => exact h
  | failed f s => exact h
  | unfinished => exact h.elim

end Outcome.Ends

namespace Input

variable {a : Alphabet} {tables : Tables} {rounds : Nat} {i j : Input} {t : Lexeme}

/-- All that raw reading will deliver. -/
def ahead (a : Alphabet) (i : Input) : List Delivery := (i.view a).ahead

/-- A raw reading takes the first of what is ahead. -/
def Reads (a : Alphabet) (i : Input) : Option Lexeme → Input → Prop
  | none, j => i.ahead a = [] ∧ j.ahead a = []
  | some t, j => i.ahead a = .token t :: j.ahead a

theorem next_reads (a : Alphabet) (i : Input) :
    (i.next a).Ends (i.Reads a)
      (fun f j => ∃ c place, f = lexFault c place ∧ i.ahead a = .invalid c place :: j.ahead a) := by
  have hn := i.next_view a
  unfold View.next at hn
  cases ho : i.next a with
  | done x j =>
    rw [ho] at hn
    split at hn
    · rename_i ha
      obtain ⟨rfl, hj⟩ := hn
      exact ⟨ha, by rw [ahead, hj, ha]⟩
    · rename_i ha
      obtain ⟨rfl, hj⟩ := hn
      simp only [Outcome.Ends, Reads, ahead, ha, hj]
    · exact hn.elim
  | failed f j =>
    rw [ho] at hn
    split at hn
    · exact hn.elim
    · exact hn.elim
    · rename_i ha
      obtain ⟨hf, hj⟩ := hn
      exact ⟨_, _, hf, by simp only [ahead, ha, hj]⟩
  | unfinished =>
    rw [ho] at hn
    split at hn
    · exact hn.elim
    · exact hn.elim
    · exact hn.elim

/-- A consumer comes to its end within what is ahead, and leaves an end of it. -/
theorem consume_ends {β : Type} (c : Consumer β) (hr : (i.ahead a).length < rounds) :
    (i.consume a rounds c).Ends (fun _ j => j.ahead a <:+ i.ahead a) (fun _ _ => True) := by
  unfold consume
  cases c.start with
  | finish b => exact List.suffix_refl _
  | again s =>
    simp only
    induction rounds generalizing s i with
    | zero => omega
    | succ rounds ih =>
      rw [iterate_succ, Outcome.map_eq_andThen]
      refine .andThen (.andThen ((i.next_reads a).mono (fun x j hj => ?_) fun _ _ _ => trivial))
      cases x with
      | none =>
        simp only [Outcome.Ends, hj.2]
        exact List.nil_suffix
      | some t =>
        have hj : i.ahead a = .token t :: j.ahead a := hj
        have hlen := congrArg List.length hj
        have hsuffix : j.ahead a <:+ i.ahead a := hj ▸ List.suffix_cons _ _
        simp only [Outcome.Ends]
        cases c.step s t with
        | finish b => exact hsuffix
        | again s' =>
          rw [List.length_cons] at hlen
          exact (ih (by omega) s').mono (fun _ k hk => hk.trans hsuffix) fun _ _ _ => trivial

theorem skip_ends (toElse : Bool) (hr : (i.ahead a).length < rounds) :
    (i.skip a rounds toElse).Ends (fun _ j => j.ahead a <:+ i.ahead a) (fun _ _ => True) := by
  refine .andThen ((consume_ends _ hr).mono (fun landed j hj => ?_) fun _ _ hf => hf)
  cases landed with
  | some landed => exact hj
  | none => trivial

/-- A part of a conditional takes some of what follows it. -/
theorem resolve_ends (b : Branch) (hr : (i.ahead tables.alphabet).length < rounds) :
    ((Expansion.resolve b).run (rawHandler tables rounds) rounds i).Ends
      (fun _ j => j.ahead tables.alphabet <:+ i.ahead tables.alphabet) (fun _ _ => True) := by
  -- the number of open branches is no part of what is ahead
  have hclose : i.closeBranch.Ends (fun _ j => j.ahead tables.alphabet = i.ahead tables.alphabet)
      (fun _ _ => True) := by
    unfold closeBranch
    split
    · rfl
    · rfl
  rw [run_resolve]
  cases b with
  | opening taken =>
    cases taken with
    | true => exact List.suffix_refl _
    | false => exact .andThen ((skip_ends true hr).mono (fun _ _ hj => hj) fun _ _ hf => hf)
  | alternative =>
    refine .andThen (hclose.mono (fun closed j hj => ?_) fun _ _ hf => hf)
    cases closed with
    | true =>
      refine .andThen ((skip_ends false (hj ▸ hr)).mono (fun _ k hk => ?_) fun _ _ hf => hf)
      exact hj ▸ hk
    | false => trivial
  | closing =>
    refine .andThen (hclose.mono (fun closed j hj => ?_) fun _ _ hf => hf)
    cases closed with
    | true => exact hj ▸ List.suffix_refl _
    | false => trivial

end Input

/-! ## Rewriting -/

/-- What is ahead before and behind a step that delivers nothing. -/
inductive Rewrites (tables : Tables) : List Delivery → List Delivery → Prop
  | call {t : Lexeme} {ts : List Lexeme} (hb : t.token.branch? = none)
    (hm : tables.meaning? t.token = some (.ofTokens ts)) (more : List Delivery) :
    Rewrites tables (.token t :: more) (ts.map .token ++ more)
  | resolve {t : Lexeme} {b : Branch} (hb : t.token.branch? = some b) {more rest : List Delivery}
    (hr : rest <:+ more) : Rewrites tables (.token t :: more) rest

/-- What a call of expansion delivers, and what is ahead behind it. -/
inductive Expands (tables : Tables) : List Delivery → Option Lexeme → List Delivery → Prop
  | finished : Expands tables [] none []
  | delivered {t : Lexeme} (ht : Inert tables t) (more : List Delivery) :
    Expands tables (.token t :: more) (some t) more
  | again {ds es rest : List Delivery} {x : Option Lexeme} (h : Rewrites tables ds es)
    (later : Expands tables es x rest) : Expands tables ds x rest

/-- A fault that a call of expansion can end in. -/
inductive Breaks (tables : Tables) : List Delivery → Fault → Prop
  | full {f : Fault} (hf : f.OfCapacity) (ds : List Delivery) : Breaks tables ds f
  | refused (c : Char) (place : Position) (more : List Delivery) :
    Breaks tables (.invalid c place :: more) (Input.lexFault c place)
  | unmatched {t : Lexeme} {b : Branch} (hb : t.token.branch? = some b) (more : List Delivery)
    (f : Fault) : Breaks tables (.token t :: more) f
  | again {ds es : List Delivery} {f : Fault} (h : Rewrites tables ds es)
    (later : Breaks tables es f) : Breaks tables ds f

/-- A measure of what is ahead that every step of expansion makes smaller. -/
structure Lightens (tables : Tables) (size : List Delivery → Nat) : Prop where
  length : ∀ ds, ds.length ≤ size ds
  rewritten : ∀ {ds es}, Rewrites tables ds es → size es < size ds
  delivered : ∀ t more, size more < size (.token t :: more)

theorem Lightens.expanded {tables : Tables} {size : List Delivery → Nat} (h : Lightens tables size)
    {ds rest : List Delivery} {t : Lexeme} (he : Expands tables ds (some t) rest) :
    size rest < size ds := by
  generalize hx : some t = x at he
  induction he with
  | finished => cases hx
  | delivered ht more => exact h.delivered _ more
  | again hd later ih => exact Nat.lt_trans (ih hx) (h.rewritten hd)

/-- All that is delivered, and the fault that ends it, if any. -/
inductive Unfolds (tables : Tables) : List Delivery → List Lexeme → Option Fault → Prop
  | finished {ds rest : List Delivery} (h : Expands tables ds none rest) :
    Unfolds tables ds [] none
  | failed {ds : List Delivery} {f : Fault} (h : Breaks tables ds f) :
    Unfolds tables ds [] (some f)
  | delivered {ds rest : List Delivery} {t : Lexeme} {ts : List Lexeme} {e : Option Fault}
    (h : Expands tables ds (some t) rest) (later : Unfolds tables rest ts e) :
    Unfolds tables ds (t :: ts) e

namespace Input

variable {tables : Tables} {rounds : Nat} {i : Input}

/-- A call without arguments takes nothing behind its name. -/
theorem call_ends {t : Lexeme} {ts : List Lexeme} :
    ((Expansion.call t.token (.ofTokens ts)).run (rawHandler tables rounds) rounds i).Ends
      (fun _ j => j.ahead tables.alphabet = ts.map .token ++ i.ahead tables.alphabet)
      (fun f _ => f.OfCapacity) := by
  have hcapture : i.consume tables.alphabet rounds (Definition.capture (.ofTokens ts)) =
      .done (.ok .empty) i := rfl
  rw [run_call, hcapture]
  simp only [Outcome.andThen, Definition.substitute_ofTokens]
  rcases i.push_view tables.alphabet ⟨ts, some (Expansion.originOf t.token)⟩ with
    ⟨j, ho, hj⟩ | ⟨f, j, ho, hf⟩
  · rw [ho]
    exact congrArg View.ahead hj
  · rw [ho]
    exact hf

/-- A step rewrites what is ahead, or delivers the first of it. -/
theorem step_ends (hp : tables.Parameterless) (hr : (i.ahead tables.alphabet).length < rounds) :
    (Expansion.step.run (rawHandler tables rounds) rounds i).Ends
      (fun turn j => turn.Holds
        (fun _ => Rewrites tables (i.ahead tables.alphabet) (j.ahead tables.alphabet))
        (fun x => Expands tables (i.ahead tables.alphabet) x (j.ahead tables.alphabet)))
      (fun f _ => Breaks tables (i.ahead tables.alphabet) f) := by
  rw [run_step_next]
  refine .andThen ((i.next_reads tables.alphabet).mono (fun x j hj => ?_) ?_)
  · cases x with
    | none =>
      simp only [Outcome.Ends, Turn.Holds, hj.1, hj.2]
      exact .finished
    | some t =>
      have hj : i.ahead tables.alphabet = .token t :: j.ahead tables.alphabet := hj
      have hlen := congrArg List.length hj
      rw [List.length_cons] at hlen
      dsimp only
      rw [hj]
      cases hb : t.token.branch? with
      | some b =>
        exact .andThen ((resolve_ends b (by omega)).mono (fun _ k hk => .resolve hb hk)
          fun f _ _ => .unmatched hb _ f)
      | none =>
        cases hm : tables.meaning? t.token with
        | none => exact .delivered ⟨hb, hm⟩ _
        | some d =>
          obtain ⟨ts, hts⟩ := hp.exists_tokens hm
          cases hm.symm.trans hts
          refine .andThen (call_ends.mono (fun _ k hk => ?_) fun f _ hf => .full hf _)
          simp only [Outcome.Ends, Turn.Holds, hk]
          exact .call hb hts _
  · rintro f j ⟨c, place, rfl, ha⟩
    rw [ha]
    exact .refused c place _

/-- A call of expansion ends within as many rounds as the measure has. -/
theorem nextExpanded_ends (hp : tables.Parameterless) {size : List Delivery → Nat}
    (h : Lightens tables size) (hr : size (i.ahead tables.alphabet) < rounds) :
    (i.nextExpanded tables rounds).Ends
      (fun x j => Expands tables (i.ahead tables.alphabet) x (j.ahead tables.alphabet))
      (fun f _ => Breaks tables (i.ahead tables.alphabet) f) := by
  suffices hall : ∀ n i, size (i.ahead tables.alphabet) < n →
      size (i.ahead tables.alphabet) < rounds →
      (iterate (fun _ i => Expansion.step.run (rawHandler tables rounds) rounds i) n () i).Ends
        (fun x j => Expands tables (i.ahead tables.alphabet) x (j.ahead tables.alphabet))
        (fun f _ => Breaks tables (i.ahead tables.alphabet) f) from hall rounds i hr hr
  intro n
  induction n with
  | zero =>
    intro i hn
    omega
  | succ n ih =>
    intro i hn hr
    have hlen := h.length (i.ahead tables.alphabet)
    rw [iterate_succ]
    refine .andThen ((step_ends hp (by omega)).mono (fun turn j hj => ?_) fun _ _ hf => hf)
    cases turn with
    | finish x => exact hj
    | again u =>
      have hlt := h.rewritten hj
      exact (ih j (by omega) (by omega)).mono (fun x k hk => .again hj hk)
        fun f k hf => .again hj hf

/-- So does a reading of all that is left. -/
theorem drain_ends (hp : tables.Parameterless) {size : List Delivery → Nat}
    (h : Lightens tables size) {n : Nat} (hn : size (i.ahead tables.alphabet) < n)
    (hr : size (i.ahead tables.alphabet) < rounds) :
    (i.drain tables rounds n).ending.Ends
      (fun _ _ => Unfolds tables (i.ahead tables.alphabet) (i.drain tables rounds n).tokens none)
      (fun f _ => Unfolds tables (i.ahead tables.alphabet) (i.drain tables rounds n).tokens
        (some f)) := by
  induction n generalizing i with
  | zero => omega
  | succ n ih =>
    have hnext := nextExpanded_ends hp h hr
    rw [drain_succ]
    cases ho : i.nextExpanded tables rounds with
    | unfinished =>
      rw [ho] at hnext
      exact hnext.elim
    | failed f j =>
      rw [ho] at hnext
      exact .failed hnext
    | done x j =>
      rw [ho] at hnext
      cases x with
      | none => exact .finished hnext
      | some t =>
        have hlt := h.expanded hnext
        exact (ih (i := j) (by omega) (by omega)).mono (fun _ _ hk => .delivered hnext hk)
          fun f _ hf => .delivered hnext hf

end Input

end Galley
