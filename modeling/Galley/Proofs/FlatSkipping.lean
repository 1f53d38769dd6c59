import Galley.Proofs.Reaching

/-!
Flat and nested skipping. The two differ in what they make of a conditional that is opened in text
they skip, and in nothing else: a run with nesting tracked that skips no such token goes as the run
without. Branches are open, under either setting, as often as they have been opened and not closed.
-/

namespace Galley

/-- An opening of a conditional, passed over. -/
def InputEvent.skipsOpening : InputEvent → Bool
  | .skipped t =>
    match t.token.branch? with
    | some (.opening _) => true
    | _ => false
  | _ => false

namespace Recorded

theorem events_of_next {as : Lexeme → InputEvent} {a : Alphabet} {r s : Recorded Input} {t : Lexeme}
    (h : r.next as a = .done (some t) s) : s.events = r.events ++ [as t] := by
  unfold next at h
  cases ho : r.state.next a with
  | done x i =>
    rw [ho] at h
    cases h
    rfl
  | failed f i =>
    rw [ho] at h
    cases h
  | unfinished =>
    rw [ho] at h
    cases h

/-- No conditional has been opened in skipped text. -/
def SkipsFlat (r : Recorded Input) : Prop := ∀ e ∈ r.events, ¬ e.skipsOpening

instance (r : Recorded Input) : Decidable r.SkipsFlat :=
  inferInstanceAs (Decidable (∀ e ∈ r.events, ¬ e.skipsOpening))

/-- A token that was skipped is among the events behind it. -/
theorem SkipsFlat.not_skipsOpening {a : Alphabet} {r s : Recorded Input} {t : Lexeme}
    (hs : s.SkipsFlat) (ho : r.next .skipped a = .done (some t) s) :
    ¬ (InputEvent.skipped t).skipsOpening := by
  refine hs _ ?_
  rw [events_of_next ho]
  exact List.mem_append_right _ List.mem_cons_self

end Recorded

namespace Input

/-- The input with nesting not tracked. -/
def flat (i : Input) : Input := { i with nested := false }

/-- The second input tracks no nesting, and is the first one otherwise. -/
def Flattened (i j : Input) : Prop := i.nested = true ∧ j = i.flat

variable {i j : Input}

theorem Flattened.next (a : Alphabet) (h : Flattened i j) :
    (i.next a).Related Flattened Eq (j.next a) := by
  obtain ⟨hn, rfl⟩ := h
  cases ht : takePending i.chunks with
  | some p =>
    rw [next_of_pending ht, next_of_pending (i := i.flat) ht]
    exact ⟨rfl, hn, rfl⟩
  | none =>
    rw [next_of_lexer ht, next_of_lexer (i := i.flat) ht]
    simp only [flat]
    cases i.lexer.next a with
    | token t l => exact ⟨rfl, hn, rfl⟩
    | invalid c place l => exact ⟨rfl, hn, rfl⟩
    | finished l => exact ⟨rfl, hn, rfl⟩

theorem Flattened.push (c : Chunk) (h : Flattened i j) :
    (i.push c).Related Flattened Eq (j.push c) := by
  obtain ⟨hn, rfl⟩ := h
  unfold Input.push flat
  dsimp only
  split
  · exact ⟨rfl, hn, rfl⟩
  · split
    · exact ⟨rfl, hn, rfl⟩
    · exact ⟨rfl, hn, rfl⟩

/-- Where no conditional has been opened, tokens that open none are skipped alike, and none is open
behind them. -/
theorem skipStep_flat {t : Lexeme} (ht : ¬ (InputEvent.skipped t).skipsOpening) (toElse : Bool) :
    skipStep true toElse 0 t = skipStep false toElse 0 t ∧
      ∀ level, skipStep true toElse 0 t = .again level → level = 0 := by
  unfold skipStep
  cases hb : t.token.branch? with
  | none => simp
  | some b =>
    cases b with
    | opening taken => exact absurd (by simp [InputEvent.skipsOpening, hb]) ht
    | alternative => cases toElse <;> simp
    | closing => simp

/-- No level is opened on the way, so both skips stop at the same token. -/
theorem Flattened.consume_skipper (a : Alphabet) (rounds : Nat) (toElse : Bool)
    {r : Recorded Input} (h : Flattened r.state j)
    (hok : ∀ s ∈ r.consumeStates .skipped a rounds (skipper true toElse), s.SkipsFlat) :
    (r.consume .skipped a rounds (skipper true toElse)).Related
      (fun s k => Flattened s.state k) Eq (j.consume a rounds (skipper false toElse)) := by
  refine iterate_related_from Recorded.SkipsFlat
    (fun _ r => (r.next .skipped a).state?.toList) (fun level : Nat => level = 0)
    ?_ ?_ rounds rfl h hok
  · rintro _ s k rfl hs hin
    have hnext : (s.next .skipped a).Related (fun s k => Flattened s.state k) Eq (k.next a) :=
      (hs.next a).recorded _ _ _
    rw [Outcome.map_eq_andThen, Outcome.map_eq_andThen]
    refine hnext.andThen fun x s' k' ho hs' => ?_
    rw [ho] at hin
    have hflat : s'.SkipsFlat := hin s' List.mem_cons_self
    cases x with
    | none => exact ⟨rfl, hs'⟩
    | some t => exact ⟨(skipStep_flat (hflat.not_skipsOpening ho) toElse).1, hs'⟩
  · rintro _ s level s' rfl hin ho
    cases hx : s.next .skipped a with
    | unfinished =>
      rw [hx] at ho
      cases ho
    | failed f k =>
      rw [hx] at ho
      cases ho
    | done x k =>
      rw [hx] at ho hin
      have hflat : k.SkipsFlat := hin k List.mem_cons_self
      cases x with
      | none => cases ho
      | some t =>
        injection ho with hturn _
        exact (skipStep_flat (hflat.not_skipsOpening hx) toElse).2 level hturn

theorem Flattened.skip (a : Alphabet) (rounds : Nat) (toElse : Bool) {r : Recorded Input}
    (h : Flattened r.state j)
    (hok : ∀ s ∈ r.consumeStates .skipped a rounds (skipper r.state.nested toElse), s.SkipsFlat) :
    (r.skip a rounds toElse).Related (fun s k => Flattened s.state k) Eq
      (j.skip a rounds toElse) := by
  have hj : j.nested = false := by rw [h.2]; rfl
  unfold Recorded.skip Input.skip
  rw [h.1, hj]
  refine (h.consume_skipper a rounds toElse (h.1 ▸ hok)).andThen fun landed s k _ hs => ?_
  cases landed with
  | some landed => exact ⟨rfl, hs⟩
  | none =>
    refine ⟨?_, hs⟩
    rw [h.2, hs.2]
    rfl

theorem flattened_accompanies : Accompanies Recorded.SkipsFlat Flattened where
  next a _ _ h := h.next a
  push _ _ c h := h.push c
  opened i j n h := ⟨h.1, by rw [h.2]; rfl⟩
  openBranches i j h := by rw [h.2]; rfl
  fault i j c h := by rw [h.2]; rfl
  skip a rounds toElse r j h hok := h.skip a rounds toElse hok

end Input

/-! ## Open branches -/

namespace Recorded

/-- As many branches are open as have been opened and not closed. -/
def Tallied (r : Recorded Input) : Prop :=
  r.state.openBranches + r.events.count .closed = r.events.count .opened

variable {r s : Recorded Input} {rounds : Nat} {tables : Tables} {α : Type}

/-- An answer that opens and closes nothing. -/
theorem Tallied.recorded (h : r.Tallied) (note : α → List InputEvent) {o : Outcome Input α}
    (ho : o.Ensures (fun _ j => j.openBranches = r.state.openBranches)
      fun _ j => j.openBranches = r.state.openBranches)
    (hnote : ∀ a, .opened ∉ note a ∧ .closed ∉ note a) :
    (o.recorded r.events note).Ensures (fun _ s => s.Tallied) fun _ s => s.Tallied := by
  cases o with
  | done a j =>
    have hj : j.openBranches = r.state.openBranches := ho
    change j.openBranches + List.count _ (r.events ++ note a) =
      List.count _ (r.events ++ note a)
    rw [List.count_append, List.count_append, List.count_eq_zero_of_not_mem (hnote a).1,
      List.count_eq_zero_of_not_mem (hnote a).2, hj]
    exact h
  | failed f j =>
    have hj : j.openBranches = r.state.openBranches := ho
    change j.openBranches + _ = _
    rw [hj]
    exact h
  | unfinished => trivial

end Recorded

theorem Input.next_openBranches (a : Alphabet) (i : Input) :
    (i.next a).Ensures (fun _ j => j.openBranches = i.openBranches)
      fun _ j => j.openBranches = i.openBranches := by
  cases ht : takePending i.chunks with
  | some p =>
    rw [next_of_pending ht]
    rfl
  | none =>
    rw [next_of_lexer ht]
    cases i.lexer.next a <;> rfl

theorem Input.push_openBranches (c : Chunk) (i : Input) :
    (i.push c).Ensures (fun _ j => j.openBranches = i.openBranches)
      fun _ j => j.openBranches = i.openBranches := by
  unfold push
  dsimp only
  split
  · rfl
  · split <;> rfl

theorem Input.peek_openBranches (a : Alphabet) (i : Input) :
    (i.peek a).Ensures (fun _ j => j.openBranches = i.openBranches)
      fun _ j => j.openBranches = i.openBranches := by
  unfold peek lex
  split
  · rfl
  · dsimp only
    cases i.lexer.next a <;> rfl

namespace Recorded

variable {r s : Recorded Input} {rounds : Nat} {tables : Tables} {α : Type}

theorem Tallied.next (h : r.Tallied) (as : Lexeme → InputEvent)
    (has : ∀ t, as t ≠ .opened ∧ as t ≠ .closed) (a : Alphabet) :
    (r.next as a).Ensures (fun _ s => s.Tallied) fun _ s => s.Tallied := by
  refine h.recorded _ (r.state.next_openBranches a) fun x => ?_
  cases x with
  | none => simp
  | some t => simpa using ⟨(has t).1.symm, (has t).2.symm⟩

theorem Tallied.push (h : r.Tallied) (c : Chunk) (note : List Lexeme → InputEvent)
    (hnote : ∀ ts, note ts ≠ .opened ∧ note ts ≠ .closed) :
    (r.push c note).Ensures (fun _ s => s.Tallied) fun _ s => s.Tallied :=
  h.recorded _ (r.state.push_openBranches c) fun _ => by
    simpa using ⟨(hnote c.tokens).1.symm, (hnote c.tokens).2.symm⟩

theorem Tallied.peek (h : r.Tallied) (a : Alphabet) :
    (r.peek a).Ensures (fun _ s => s.Tallied) fun _ s => s.Tallied := by
  refine h.recorded _ (r.state.peek_openBranches a) fun x => ?_
  split
  · cases x <;> simp
  · simp

theorem Tallied.consume (h : r.Tallied) (as : Lexeme → InputEvent)
    (has : ∀ t, as t ≠ .opened ∧ as t ≠ .closed) (a : Alphabet) (rounds : Nat) {β : Type}
    (c : Consumer β) :
    (∀ s ∈ r.consumeStates as a rounds c, s.Tallied) ∧
      (r.consume as a rounds c).Ensures (fun _ s => s.Tallied) fun _ s => s.Tallied := by
  have hnext : ∀ r : Recorded Input, r.Tallied →
      (r.next as a).Ensures (fun _ s => s.Tallied) fun _ s => s.Tallied :=
    fun _ hr => hr.next as has a
  exact consume_passes hnext (fun _ _ hf => hf) rounds c h

/-- A request of expansion keeps the tally at all times. -/
theorem Tallied.raw (h : r.Tallied) (q : RawRequest α) :
    (Reader.ask q).Passes (rawRecorder tables rounds) rounds Tallied r (fun _ s => s.Tallied)
      fun _ s => s.Tallied := by
  cases q with
  | next =>
    exact .ask_once rfl (h.next .read (fun _ => ⟨nofun, nofun⟩) _) (fun _ _ => id)
      fun _ _ => id
  | push ts origin =>
    exact .ask_once rfl (h.push _ .replaced fun _ => ⟨nofun, nofun⟩) (fun _ _ => id)
      fun _ _ => id
  | consume c =>
    obtain ⟨hin, hends⟩ := h.consume .read (fun _ => ⟨nofun, nofun⟩) tables.alphabet rounds c
    exact .ask hin hends
  | skip toElse =>
    obtain ⟨hin, hends⟩ := h.consume .skipped (fun _ => ⟨nofun, nofun⟩) tables.alphabet rounds
      (skipper r.state.nested toElse)
    refine .ask hin (Outcome.Ensures.andThen (hends.mono (fun landed s hs => ?_) fun _ _ => id))
    cases landed with
    | some landed => exact hs
    | none => exact hs
  | meaning t =>
    refine .ask_once rfl ?_ (fun _ _ => id) fun _ _ => id
    exact h.recorded (fun d : Option Definition => if d.isSome then [.called t] else [])
      (o := .done (tables.meaning? t) r.state) rfl fun d => by split <;> simp
  | openBranch =>
    refine .ask_once rfl ?_ (fun _ _ => id) fun _ _ => id
    have hr : r.state.openBranches + r.events.count .closed = r.events.count .opened := h
    change r.state.openBranches + 1 + List.count _ (r.events ++ [.opened]) =
      List.count _ (r.events ++ [.opened])
    simp only [List.count_append, List.count_singleton, reduceCtorEq, beq_iff_eq, if_false, if_true]
    omega
  | closeBranch =>
    refine .ask_once rfl ?_ (fun _ _ => id) fun _ _ => id
    have hr : r.state.openBranches + r.events.count .closed = r.events.count .opened := h
    change (r.state.closeBranch.recorded _ _).Ensures _ _
    unfold Input.closeBranch
    split
    · rename_i hn
      simpa [Outcome.recorded, Outcome.Ensures] using h
    · rename_i n hn
      change n + List.count _ (r.events ++ [.closed]) = List.count _ (r.events ++ [.closed])
      simp only [List.count_append, List.count_singleton, reduceCtorEq, beq_iff_eq, if_false,
        if_true]
      omega

theorem Reached.tallied (h : r.Reached) : r.Tallied := by
  induction h with
  | new lines strict nested capacity => rfl
  | peeked _ a hs ih => exact (ih.peek a).of_state? (fun _ _ => id) (fun _ _ => id) hs
  | @passed r s β _ tables rounds q hs ih =>
    cases q with
    | expanded =>
      exact (Reader.passes_of_answers (fun q _ hr => hr.raw q) (fun _ _ => id) Expansion.next
        ih).through s hs
    | unexpanded =>
      exact (ih.next .read (fun _ => ⟨nofun, nofun⟩) tables.alphabet).of_state?
        (fun _ _ => id) (fun _ _ => id) (Option.mem_toList.mp hs)
    | back ts =>
      exact (ih.push ⟨ts, none⟩ .returned fun _ => ⟨nofun, nofun⟩).of_state?
        (fun _ _ => id) (fun _ _ => id) (Option.mem_toList.mp hs)
    | consume c =>
      exact (ih.consume .read (fun _ => ⟨nofun, nofun⟩) tables.alphabet rounds c).1 s hs

end Recorded

/-! ## Runs -/

/-- The engine with nesting not tracked. -/
def Engine.flat (e : Engine) : Engine :=
  { e with machine := { e.machine with input := e.machine.input.flat } }

/-- Both settings agree where they should. A run with nesting tracked that opens no conditional in
skipped text ends with the list of the run without, or with its fault, and leaves the same engine up
to the setting; so it is with all expanded tokens. In every state that can be reached, under either
setting, as many branches are open as have been opened and not closed, never fewer than none. -/
theorem flat_skipping_agrees (config : Config) (metrics : Metrics) (tables : Tables)
    (lines : List String) (rounds : Nat) (mode : Mode) :
    let nested := Engine.start { config with nested := true } metrics tables lines
    let flat := Engine.start { config with nested := false } metrics tables lines
    ((∀ r ∈ nested.runStates rounds mode, r.SkipsFlat) →
      (nested.run rounds mode).Related (fun e f => f = e.flat) Eq (flat.run rounds mode)) ∧
    ((∀ r ∈ nested.expandStates rounds, r.SkipsFlat) →
      (nested.expand rounds).Related (fun e f => f = e.flat) Eq (flat.expand rounds)) ∧
    ∀ r : Recorded Input, r.Reached →
      (r.state.openBranches : Int) = r.events.count .opened - r.events.count .closed ∧
        (0 : Int) ≤ r.events.count .opened - r.events.count .closed := by
  intro nested flat
  have hmirrored : nested.Accompanied Input.Flattened flat := ⟨rfl, rfl, rfl, rfl⟩
  have hengines : ∀ e f : Engine, e.Accompanied Input.Flattened f → f = e.flat := by
    rintro ⟨⟨tables, i⟩, face⟩ ⟨⟨_, _⟩, _⟩ ⟨rfl, rfl, -, rfl⟩
    rfl
  refine ⟨fun hok => ?_, fun hok => ?_, fun r hr => ?_⟩
  · exact (Input.flattened_accompanies.run rounds mode hmirrored hok).mono hengines
  · exact (Input.flattened_accompanies.expand rounds hmirrored hok).mono hengines
  · have htally : r.state.openBranches + r.events.count .closed = r.events.count .opened :=
      hr.tallied
    omega

/-- A branch that is skipped, and glue in the other one. -/
def glueInAlternative (nested : Bool) : Engine :=
  .start { nested := nested } (Engine.usualMetrics {}) {}
    ["\\iffalse \\fill\\else\\vskip 1pt\\fi"]

theorem flat_skipping_agrees_alternative :
    (∀ r ∈ (glueInAlternative true).runStates 30 .vertical, r.SkipsFlat) ∧
      ((glueInAlternative true).run 30 .vertical).Yields (·.items.length = 1) ∧
      ((glueInAlternative true).run 30 .vertical).Related (fun e f => f = e.flat) Eq
        ((glueInAlternative false).run 30 .vertical) := by
  have hflat : ∀ r ∈ (glueInAlternative true).runStates 30 .vertical, r.SkipsFlat := by
    decide +kernel
  exact ⟨hflat, by decide +kernel, (flat_skipping_agrees {} _ {} _ 30 .vertical).1 hflat⟩

/-- A conditional in skipped text ends it for flat skipping, and what follows is one closing too
many. -/
example : ((Engine.start { nested := false } (Engine.usualMetrics {}) {}
    ["\\iffalse\\iftrue\\fi\\fi"]).expand 30).FailedBy (·.cause = .extraFi) := by
  decide +kernel

end Galley
