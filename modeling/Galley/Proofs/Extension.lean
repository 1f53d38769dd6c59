import Galley.Proofs.Answers

/-!
Inputs with more lines behind them. A reading that does not come to the end of its lines goes the
same way with more of them behind (`Carries`), and expansion that comes to the end by itself goes on
with what is behind (`settles_extend`).
-/

namespace Galley

/-! ## Reading lines -/

namespace Lexer

/-- More lines behind the last one. -/
def extend (more : List String) (l : Lexer) : Lexer :=
  { l with lines := l.lines ++ more, pending := l.pending ++ more }

/-- Nothing is left of the lines. -/
def Over (l : Lexer) : Prop := l.pending = [] ∧ l.cursor.rest = []

end Lexer

/-- What a reading comes to with more lines behind: the same, or what comes of those lines. -/
def Lexed.Extends (a : Alphabet) (more : List String) : Lexed → Lexed → Prop
  | .token t after, o => o = .token t (after.extend more)
  | .invalid c place after, o => o = .invalid c place (after.extend more)
  | .finished after, o => o = (after.extend more).next a ∧ after.Over

namespace Lexer

theorem scan_of_rest {c : Cursor} (h : c.rest = []) (cats : CategoryTable) (strict : Bool) :
    c.scan cats strict = .finished c := by
  obtain ⟨rest, column, state⟩ := c
  subst h
  rfl

section nextFrom

variable {a : Alphabet} {l : Lexer} {start : Nat} {after : Cursor}

theorem nextFrom_token {t : Token}
    (h : l.cursor.scan a.categories l.strict = .token t start after) (pending : List String) :
    l.nextFrom a pending = .token (l.lexeme t start after) { l with cursor := after } := by
  rw [nextFrom.eq_def, h]

theorem nextFrom_invalid {c : Char}
    (h : l.cursor.scan a.categories l.strict = .invalid c start after) (pending : List String) :
    l.nextFrom a pending = .invalid c (l.place start) { l with cursor := after } := by
  rw [nextFrom.eq_def, h]

theorem nextFrom_finished (h : l.cursor.scan a.categories l.strict = .finished after)
    (pending : List String) :
    l.nextFrom a pending =
      match pending with
      | [] => .finished { l with cursor := after }
      | line :: more => nextFrom a (l.enter a line more) more := by
  rw [nextFrom.eq_def]
  cases pending <;> simp only [h]

end nextFrom

theorem nextFrom_extends (a : Alphabet) (more : List String) {l : Lexer} {pending : List String}
    (h : l.pending = pending) :
    (l.nextFrom a pending).Extends a more ((l.extend more).nextFrom a (pending ++ more)) := by
  fun_induction nextFrom a l pending with
  | case1 pending l t start after hs => exact nextFrom_token (l := l.extend more) hs _
  | case2 pending l c start after hs => exact nextFrom_invalid (l := l.extend more) hs _
  | case3 l after hs =>
    have hrest : after.rest = [] := by
      have hleaves := scan_leaves a.categories l
      rwa [hs] at hleaves
    refine ⟨?_, h, hrest⟩
    -- what is left of the last line is passed over in both
    have hnext : next a (extend more { l with cursor := after }) =
        nextFrom a (extend more { l with cursor := after }) more := by
      rw [next, extend, h]
      rfl
    have hscan := scan_of_rest hrest a.categories l.strict
    rw [hnext, List.nil_append, nextFrom_finished (l := l.extend more) hs,
      nextFrom_finished (l := extend more { l with cursor := after }) hscan]
    cases more <;> rfl
  | case4 l after hs line rest ih =>
    rw [nextFrom_finished (l := l.extend more) hs]
    exact ih rfl

/-- A reading with more lines behind. -/
theorem next_extends (a : Alphabet) (more : List String) (l : Lexer) :
    (l.next a).Extends a more ((l.extend more).next a) :=
  nextFrom_extends a more rfl

end Lexer

/-! ## Readings that do not come to the end -/

namespace Input

def extend (more : List String) (i : Input) : Input := { i with lexer := i.lexer.extend more }

/-- If the one comes to such a value, the other comes to it too, with more lines behind. -/
def Carries {α : Type} (more : List String) (p : α → Prop) (o o' : Outcome Input α) : Prop :=
  ∀ x j, o = .done x j → p x → o' = .done x (j.extend more)

section Carries

variable {α β τ : Type} {more : List String} {p : α → Prop} {q : β → Prop}

theorem Carries.done (x : α) (j : Input) :
    Carries more p (.done x j) (.done x (j.extend more)) := by
  intro y k h _
  cases h
  rfl

theorem Carries.of_failed (f : Fault) (i : Input) (o' : Outcome Input α) :
    Carries more p (.failed f i) o' := nofun

theorem Carries.andThen {o o' : Outcome Input α} {k k' : α → Input → Outcome Input β}
    (h : Carries more p o o')
    (hk : ∀ x j, p x → Carries more q (k x j) (k' x (j.extend more)))
    (hn : ∀ x j, ¬p x → ∀ y s, k x j = .done y s → ¬q y) :
    Carries more q (o.andThen k) (o'.andThen k') := by
  intro y s hy hq
  cases o with
  | done x j =>
    by_cases hp : p x
    · rw [h x j rfl hp]
      exact hk x j hp y s hy hq
    · exact absurd hq (hn x j hp y s hy)
  | failed f j => cases hy
  | unfinished => cases hy

/-- Whatever the value, the first reading goes the same way. -/
theorem Carries.andThen_true {o o' : Outcome Input α} {k k' : α → Input → Outcome Input β}
    (h : Carries more (fun _ => True) o o')
    (hk : ∀ x j, Carries more q (k x j) (k' x (j.extend more))) :
    Carries more q (o.andThen k) (o'.andThen k') :=
  h.andThen (fun x j _ => hk x j) fun _ _ h => absurd trivial h

theorem iterate_carries {f g : τ → Input → Outcome Input (Turn τ α)}
    (h : ∀ t i, Carries more (Turn.Holds (fun _ => True) p) (f t i) (g t (i.extend more)))
    (rounds : Nat) (t : τ) (i : Input) :
    Carries more p (iterate f rounds t i) (iterate g rounds t (i.extend more)) := by
  induction rounds generalizing t i with
  | zero => exact nofun
  | succ rounds ih =>
    rw [iterate_succ, iterate_succ]
    refine (h t i).andThen (fun turn j _ => ?_) (fun turn j hturn => ?_)
    · cases turn with
      | again t => exact ih t j
      | finish x => exact .done x j
    · cases turn with
      | again t => exact absurd trivial hturn
      | finish x =>
        intro y s hy
        cases hy
        exact hturn

end Carries

variable {a : Alphabet} {tables : Tables} {more : List String} {i k : Input}

theorem next_carries (a : Alphabet) (more : List String) (i : Input) :
    Carries more (· ≠ none) (i.next a) ((i.extend more).next a) := by
  cases ht : takePending i.chunks with
  | some p =>
    obtain ⟨t, chunks⟩ := p
    rw [next_of_pending ht, next_of_pending (i := i.extend more) ht]
    exact .done _ _
  | none =>
    have he := i.lexer.next_extends a more
    rw [next_of_lexer ht, next_of_lexer (i := i.extend more) ht]
    cases hn : i.lexer.next a with
    | token t after =>
      rw [hn] at he
      have hnext : (i.extend more).lexer.next a = .token t (after.extend more) := he
      rw [hnext]
      intro x j h _
      cases h
      rfl
    | invalid c place after =>
      dsimp only
      exact .of_failed _ _ _
    | finished after =>
      intro x j h hx
      cases h
      exact absurd rfl hx

/-- At the end of the lines reading goes on with those behind. -/
theorem next_extend_of_none (h : i.next a = .done none k) (more : List String) :
    (i.extend more).next a = (k.extend more).next a ∧ k.chunks = [] ∧ k.lexer.Over := by
  cases ht : takePending i.chunks with
  | some p =>
    obtain ⟨t, chunks⟩ := p
    rw [next_of_pending ht] at h
    cases h
  | none =>
    have he := i.lexer.next_extends a more
    rw [next_of_lexer ht] at h
    cases hn : i.lexer.next a with
    | token t after =>
      rw [hn] at h
      cases h
    | invalid c place after =>
      rw [hn] at h
      cases h
    | finished after =>
      rw [hn] at h he
      cases h
      refine ⟨?_, rfl, he.2⟩
      rw [next_of_lexer (i := i.extend more) ht, show (i.extend more).lexer.next a = _ from he.1,
        next_of_lexer rfl]
      rfl

theorem consume_carries {β : Type} (c : Consumer β) (bad : β → Prop)
    (hc : ∀ s, bad (c.atEnd s)) (a : Alphabet) (rounds : Nat) (more : List String) (i : Input) :
    Carries more (¬bad ·) (i.consume a rounds c) ((i.extend more).consume a rounds c) := by
  unfold consume
  cases c.start with
  | finish b => exact .done b i
  | again s =>
    refine iterate_carries (fun s i => ?_) rounds s i
    rw [Outcome.map_eq_andThen, Outcome.map_eq_andThen]
    refine (next_carries a more i).andThen (fun x j hx => .done _ j) (fun x j hx => ?_)
    cases x with
    | some t => exact absurd nofun hx
    | none =>
      intro turn s' hturn
      cases hturn
      exact fun hgood => hgood (hc s)

theorem skip_carries (a : Alphabet) (rounds : Nat) (toElse : Bool) (more : List String)
    (i : Input) :
    Carries more (fun _ => True) (i.skip a rounds toElse)
      ((i.extend more).skip a rounds toElse) := by
  have hc := consume_carries (skipper i.nested toElse) (· = none) (fun _ => rfl) a rounds more i
  refine hc.andThen (fun landed j hl => ?_) (fun landed j hl => ?_)
  · cases landed with
    | some landed => exact .done landed j
    | none => exact absurd rfl hl
  · cases landed with
    | some landed => exact absurd nofun hl
    | none => exact nofun

theorem push_carries (c : Chunk) (more : List String) (i : Input) :
    Carries more (fun _ => True) (i.push c) ((i.extend more).push c) := by
  unfold push
  split
  · exact .done () i
  · dsimp only
    by_cases hroom : i.capacity.chunks ≤ (dropEmpty i.chunks).length
    · rw [if_pos hroom]
      exact .of_failed _ _ _
    · rw [if_neg hroom]
      have hroom' : ¬(i.extend more).capacity.chunks ≤ (dropEmpty (i.extend more).chunks).length :=
        hroom
      rw [if_neg hroom']
      exact .done _ _

theorem closeBranch_carries (more : List String) (i : Input) :
    Carries more (fun _ => True) i.closeBranch (i.extend more).closeBranch := by
  have hopen : (i.extend more).openBranches = i.openBranches := rfl
  unfold closeBranch
  rw [hopen]
  cases i.openBranches with
  | zero => exact .done _ _
  | succ n => exact .done _ _

end Input

/-! ## Captures -/

namespace Definition.Capture

/-- Wherever a capture is, the end of input is a fault. -/
def NeedsMore {α : Type} (c : Consumer (Except CaptureFault α)) : Prop :=
  ∀ s, ∃ f, c.atEnd s = .error f

section NeedsMore

variable {α β σ : Type}

theorem needsMore_ofScan (step : σ → Lexeme → Turn σ (Except CaptureFault α)) (s : σ) :
    NeedsMore (ofScan step s) := fun _ => ⟨.runaway, rfl⟩

theorem needsMore_pure (a : α) : NeedsMore (Pure.pure a : Capture α) := fun s => s.elim

theorem needsMore_throw (f : CaptureFault) : NeedsMore (throw f : Capture α) := fun s => s.elim

theorem needsMore_bind {x : Capture α} {f : α → Capture β} (hx : NeedsMore x)
    (hf : ∀ a, NeedsMore (f a)) : NeedsMore (x >>= f : Capture β) := by
  intro s
  change ∃ e, Consumer.bindEnd x (ExceptT.bindCont f) s = .error e
  rcases s with s | ⟨r, s⟩
  · obtain ⟨e, he⟩ := hx s
    refine ⟨e, ?_⟩
    simp only [Consumer.bindEnd, he]
    rfl
  · cases r with
    | error e => exact s.elim
    | ok a => exact hf a s

end NeedsMore

theorem needsMore_undelimited : NeedsMore undelimited := by
  refine needsMore_bind (needsMore_ofScan _ _) fun t => ?_
  split
  · exact needsMore_throw _
  · split
    · exact needsMore_ofScan _ _
    · exact needsMore_pure _

theorem needsMore_argument (ds : List Lexeme) : NeedsMore (argument ds) := by
  unfold argument
  split
  · exact needsMore_undelimited
  · exact needsMore_bind (needsMore_ofScan _ _) fun _ => needsMore_pure _

theorem needsMore_leading (es : List Element) : NeedsMore (leading es) := by
  induction es with
  | nil => exact needsMore_pure _
  | cons e es ih =>
    cases e with
    | parameter n => exact needsMore_pure _
    | delimiter expected =>
      refine needsMore_bind (needsMore_ofScan _ _) fun t => ?_
      split
      · exact ih
      · exact needsMore_throw _

theorem needsMore_parameters (args : Arguments) (es : List Element) :
    NeedsMore (parameters args es) := by
  induction es generalizing args with
  | nil => exact needsMore_pure _
  | cons e es ih =>
    cases e with
    | delimiter t => exact ih args
    | parameter n => exact needsMore_bind (needsMore_argument _) fun _ => ih _

end Definition.Capture

theorem Definition.needsMore_capture (d : Definition) : Capture.NeedsMore d.capture :=
  Capture.needsMore_bind (Capture.needsMore_leading _) fun _ => Capture.needsMore_parameters _ _

/-! ## Expansion -/

namespace Input

variable {tables : Tables} {i k : Input}

theorem call_carries (t : Token) (d : Definition) (rounds : Nat) (more : List String) (i : Input) :
    Carries more (fun _ => True)
      ((Expansion.call t d).run (rawHandler tables rounds) rounds i)
      ((Expansion.call t d).run (rawHandler tables rounds) rounds (i.extend more)) := by
  rw [run_call, run_call]
  have hc := consume_carries d.capture (fun r => ∃ f, r = .error f) d.needsMore_capture
    tables.alphabet rounds more i
  refine hc.andThen (fun captured j hgood => ?_) (fun captured j hbad => ?_)
  · cases captured with
    | error f => exact absurd ⟨f, rfl⟩ hgood
    | ok args =>
      dsimp only
      cases d.substitute args with
      | some ts => exact push_carries _ more j
      | none => exact .of_failed _ _ _
  · cases captured with
    | error f =>
      intro u s h
      cases h
    | ok args => exact absurd nofun hbad

theorem resolve_carries (b : Branch) (rounds : Nat) (more : List String) (i : Input) :
    Carries more (fun _ => True)
      ((Expansion.resolve b).run (rawHandler tables rounds) rounds i)
      ((Expansion.resolve b).run (rawHandler tables rounds) rounds (i.extend more)) := by
  rw [run_resolve, run_resolve]
  have hclose := closeBranch_carries more i
  cases b with
  | opening taken =>
    cases taken with
    | true => exact .done _ _
    | false => exact (skip_carries _ _ _ more i).andThen_true fun landed j => .done _ _
  | alternative =>
    refine hclose.andThen_true fun closed j => ?_
    cases closed with
    | true => exact (skip_carries _ _ _ more j).andThen_true fun _ k => .done _ _
    | false => exact .of_failed _ _ _
  | closing =>
    refine hclose.andThen_true fun closed j => ?_
    cases closed with
    | true => exact .done _ _
    | false => exact .of_failed _ _ _

theorem step_carries (rounds : Nat) (more : List String) (i : Input) :
    Carries more (Turn.Holds (fun _ => True) (· ≠ none))
      (Expansion.step.run (rawHandler tables rounds) rounds i)
      (Expansion.step.run (rawHandler tables rounds) rounds (i.extend more)) := by
  rw [run_step_next, run_step_next]
  refine (next_carries _ more i).andThen (fun x j hx => ?_) (fun x j hx => ?_)
  · cases x with
    | none => exact absurd rfl hx
    | some t =>
      dsimp only
      cases t.token.branch? with
      | some b => exact (resolve_carries b rounds more j).andThen_true fun _ k => .done _ _
      | none =>
        cases tables.meaning? t.token with
        | some d => exact (call_carries _ d rounds more j).andThen_true fun _ k => .done _ _
        | none => exact .done _ _
  -- without a token the step finishes with nothing, of which nothing is promised
  · cases x with
    | some t => exact absurd nofun hx
    | none =>
      intro turn s h
      cases h
      exact hx

/-- A token that is delivered is delivered with more lines behind, too. -/
theorem nextExpanded_carries (rounds : Nat) (more : List String) (i : Input) :
    Carries more (· ≠ none) (i.nextExpanded tables rounds)
      ((i.extend more).nextExpanded tables rounds) :=
  iterate_carries (fun _ i => step_carries rounds more i) rounds () i

/-! ## The end of the lines -/

theorem nextExpanded_congr {j : Input} (h : i.next tables.alphabet = j.next tables.alphabet)
    (rounds : Nat) : i.nextExpanded tables rounds = j.nextExpanded tables rounds := by
  cases rounds with
  | zero => rfl
  | succ rounds => rw [nextExpanded_succ, nextExpanded_succ, run_step_next, run_step_next, h]

theorem step_steady (tables : Tables) (i : Input) :
    Steady fun rounds => Expansion.step.run (rawHandler tables rounds) rounds i := by
  intro n m hn
  exact @Reader.run_below _ _ _ (rawHandler tables n) (rawHandler tables m)
    (rawAnswer_below hn tables) rfl _ _ hn Expansion.step i

/-- Nothing is left to be read. -/
def Over (i : Input) : Prop := i.chunks = [] ∧ i.lexer.Over

/-- An input goes on as another one does. -/
def GoesOn (tables : Tables) (i j : Input) : Prop :=
  ∀ o, Settles (fun rounds => j.nextExpanded tables rounds) o →
    Settles (fun rounds => i.nextExpanded tables rounds) o

theorem goesOn_of_iterate {rounds n : Nat}
    (h : iterate (fun _ i => Expansion.step.run (rawHandler tables rounds) rounds i) n () i =
      .done none k) :
    k.Over ∧ ∀ more, GoesOn tables (i.extend more) (k.extend more) := by
  -- by the number of steps: all but the last one are taken on the longer input, too
  induction n generalizing i with
  | zero => cases h
  | succ n ih =>
    rw [iterate_succ] at h
    cases hs : Expansion.step.run (rawHandler tables rounds) rounds i with
    | failed f j =>
      rw [hs] at h
      cases h
    | unfinished =>
      rw [hs] at h
      cases h
    | done turn j =>
      rw [hs] at h
      cases turn with
      | again u =>
        obtain ⟨hover, hgo⟩ := ih h
        refine ⟨hover, fun more o ho => ?_⟩
        have hstep : Steps tables (i.extend more) (.done (.again ()) (j.extend more)) :=
          (step_steady tables (i.extend more)).settles_of_eq
            (step_carries rounds more i _ j hs trivial) nofun
        exact hstep.settles_again (hgo more o ho)
      | finish x =>
        cases h
        -- the last one finds the end, and on the longer input what is behind it
        have hnext := (step_finish hs).1
        refine ⟨(next_extend_of_none hnext []).2, fun more o ho => ?_⟩
        simp only [nextExpanded_congr (next_extend_of_none hnext more).1]
        exact ho

/-- Where expansion finds nothing more, it goes on with the lines behind. -/
theorem goesOn_extend {rounds : Nat} (h : i.nextExpanded tables rounds = .done none k) :
    k.Over ∧ ∀ more, GoesOn tables (i.extend more) (k.extend more) := goesOn_of_iterate h

/-! ## All that is left -/

/-- With enough rounds these tokens are delivered, and then there is this ending. -/
def Drains (tables : Tables) (i : Input) (ts : List Lexeme) (o : Outcome Input Unit) : Prop :=
  ∃ enough, ∀ rounds n, enough ≤ rounds → enough ≤ n → i.drain tables rounds n = ⟨ts, o⟩

section Drains

variable {j : Input} {t : Lexeme} {ts us : List Lexeme} {o : Outcome Input Unit}

theorem Drains.of_goesOn (h : Drains tables j ts o) (hij : GoesOn tables i j) :
    Drains tables i ts o := by
  obtain ⟨p, n₁, h₁⟩ := (j.nextExpanded_steady tables).exists_settles
  obtain ⟨n₂, h₂⟩ := hij p ⟨n₁, h₁⟩
  obtain ⟨n₃, h₃⟩ := h
  refine ⟨max (n₁ + n₂) n₃ + 1, fun rounds n hr hn => ?_⟩
  obtain ⟨m, rfl⟩ : ∃ m, n = m + 1 := ⟨n - 1, by omega⟩
  have hsame : i.nextExpanded tables rounds = j.nextExpanded tables rounds :=
    (h₂ rounds (by omega)).trans (h₁ rounds (by omega)).symm
  rw [drain_succ, hsame, ← drain_succ]
  exact h₃ rounds (m + 1) (by omega) (by omega)

theorem Drains.cons (h : Settles (fun rounds => i.nextExpanded tables rounds) (.done (some t) j))
    (hj : Drains tables j ts o) : Drains tables i (t :: ts) o := by
  obtain ⟨n₁, h₁⟩ := h
  obtain ⟨n₂, h₂⟩ := hj
  refine ⟨max n₁ n₂ + 1, fun rounds n hr hn => ?_⟩
  obtain ⟨m, rfl⟩ : ∃ m, n = m + 1 := ⟨n - 1, by omega⟩
  have hi : i.nextExpanded tables rounds = .done (some t) j := h₁ rounds (by omega)
  simp only [drain_succ, hi, h₂ rounds m (by omega) (by omega)]

/-- Reading that ends before it has delivered a token. -/
theorem Drains.nil
    (h : Settles (fun rounds => i.nextExpanded tables rounds) (o.map fun _ => none)) :
    Drains tables i [] o := by
  obtain ⟨m, h⟩ := h
  refine ⟨m + 1, fun rounds n hr hn => ?_⟩
  obtain ⟨n, rfl⟩ : ∃ n', n = n' + 1 := ⟨n - 1, by omega⟩
  have hi : i.nextExpanded tables rounds = o.map fun _ => none := h rounds (by omega)
  rw [drain_succ, hi]
  cases o <;> rfl

theorem DrainsIn.drains {rounds : Nat} (h : DrainsIn tables rounds o i ts)
    (ho : o ≠ .unfinished) : Drains tables i ts o := by
  induction h with
  | @last i hn =>
    refine .nil ((i.nextExpanded_steady tables).settles_of_eq hn ?_)
    cases o with
    | done u k => exact nofun
    | failed f k => exact nofun
    | unfinished => exact absurd rfl ho
  | @next i j t ts hn rest ih =>
    exact .cons ((i.nextExpanded_steady tables).settles_of_eq hn nofun) ih

/-- What is delivered up to the end of the lines comes before what is delivered of those behind. -/
theorem DrainsIn.extend {rounds : Nat} (h : DrainsIn tables rounds (.done () k) i ts) :
    k.Over ∧ ∀ more us o, Drains tables (k.extend more) us o →
      Drains tables (i.extend more) (ts ++ us) o := by
  induction h with
  | last hn =>
    obtain ⟨hover, hgo⟩ := goesOn_extend hn
    exact ⟨hover, fun more us o hd => hd.of_goesOn (hgo more)⟩
  | @next i j t ts hn rest ih =>
    obtain ⟨hover, hd⟩ := ih
    refine ⟨hover, fun more us o hk => ?_⟩
    have hsettles := ((i.extend more).nextExpanded_steady tables).settles_of_eq
      (nextExpanded_carries rounds more i _ j hn nofun) nofun
    exact .cons hsettles (hd more us o hk)

end Drains

end Input

end Galley
