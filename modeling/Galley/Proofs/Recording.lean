import Galley.Proofs.Following
import Galley.Proofs.Passing

/-!
Recorded runs. A recorder answers requests as the input does, and notes what becomes of tokens and
conditionals: so statements about what has happened are about the events of a state that is passed.
A recorded run goes as the run itself (`Recorded.answer_matched`, `Engine.run_matched`), and as a
run on any other input that answers alike as long as the states passed are as they should be.
-/

namespace Galley

/-- What happens to an input. A name is called when it has a meaning, before its arguments are read;
a replacement and tokens that are put back are read before all others. -/
inductive InputEvent
  | read (t : Lexeme)
  | skipped (t : Lexeme)
  | called (name : Token)
  | replaced (ts : List Lexeme)
  | returned (ts : List Lexeme)
  | opened
  | closed
  deriving DecidableEq, Repr

/-- A state and what has happened up to it. -/
structure Recorded (σ : Type) where
  state : σ
  events : List InputEvent := []
  deriving DecidableEq, Repr

/-- Adds what an answer means to what has happened before; a fault adds nothing. -/
def Outcome.recorded {σ α : Type} (events : List InputEvent) (note : α → List InputEvent) :
    Outcome σ α → Outcome (Recorded σ) α
  | .done a s => .done a ⟨s, events ++ note a⟩
  | .failed f s => .failed f ⟨s, events⟩
  | .unfinished => .unfinished

/-- What a consumer makes of a token or of the end. -/
def Consumer.receive {β : Type} (c : Consumer β) (s : c.State) : Option Lexeme → Turn c.State β
  | some t => c.step s t
  | none => .finish (c.atEnd s)

/-! ## Recorders -/

namespace Recorded

/-- Reads a token, and notes it as one that is read or skipped. -/
def next (as : Lexeme → InputEvent) (a : Alphabet) (r : Recorded Input) :
    Outcome (Recorded Input) (Option Lexeme) :=
  (r.state.next a).recorded r.events fun x => x.toList.map as

/-- A token that has to be scanned first is then put back. -/
def peek (a : Alphabet) (r : Recorded Input) : Outcome (Recorded Input) (Option Lexeme) :=
  (r.state.peek a).recorded r.events fun x =>
    if Input.dropEmpty r.state.chunks = [] then x.toList.map fun t => .returned [t] else []

def push (c : Chunk) (note : List Lexeme → InputEvent) (r : Recorded Input) :
    Outcome (Recorded Input) Unit :=
  (r.state.push c).recorded r.events fun _ => [note c.tokens]

def openBranch (r : Recorded Input) : Recorded Input :=
  ⟨{ r.state with openBranches := r.state.openBranches + 1 }, r.events ++ [.opened]⟩

def closeBranch (r : Recorded Input) : Outcome (Recorded Input) Bool :=
  r.state.closeBranch.recorded r.events fun closed => if closed then [.closed] else []

def consume (as : Lexeme → InputEvent) (a : Alphabet) (rounds : Nat) {β : Type} (c : Consumer β)
    (r : Recorded Input) : Outcome (Recorded Input) β :=
  match c.start with
  | .finish b => .done b r
  | .again s => iterate (fun s r => (r.next as a).map (c.receive s)) rounds s r

/-- The states behind each reading of a consumer. -/
def consumeStates (as : Lexeme → InputEvent) (a : Alphabet) (rounds : Nat) {β : Type}
    (c : Consumer β) (r : Recorded Input) : List (Recorded Input) :=
  match c.start with
  | .finish _ => []
  | .again s =>
    iterateStates (fun s r => (r.next as a).map (c.receive s))
      (fun _ r => (r.next as a).state?.toList) rounds s r

def skip (a : Alphabet) (rounds : Nat) (toElse : Bool) (r : Recorded Input) :
    Outcome (Recorded Input) Bool :=
  (r.consume .skipped a rounds (skipper r.state.nested toElse)).andThen fun landed after =>
    match landed with
    | some landed => .done landed after
    | none => .failed (after.state.faultAt .incompleteConditional r.state.last) after

end Recorded

def RawRequest.record (tables : Tables) (rounds : Nat) {α : Type} :
    RawRequest α → Recorded Input → Outcome (Recorded Input) α
  | .next, r => r.next .read tables.alphabet
  | .push ts origin, r => r.push ⟨ts, some origin⟩ .replaced
  | .consume c, r => r.consume .read tables.alphabet rounds c
  | .skip toElse, r => r.skip tables.alphabet rounds toElse
  | .meaning t, r =>
    .done (tables.meaning? t)
      ⟨r.state, r.events ++ if (tables.meaning? t).isSome then [.called t] else []⟩
  | .openBranch, r => .done () r.openBranch
  | .closeBranch, r => r.closeBranch

def RawRequest.recordedStates (tables : Tables) (rounds : Nat) {α : Type} :
    RawRequest α → Recorded Input → List (Recorded Input)
  | .consume c, r => r.consumeStates .read tables.alphabet rounds c
  | .skip toElse, r =>
    r.consumeStates .skipped tables.alphabet rounds (skipper r.state.nested toElse)
  | q, r => (q.record tables rounds r).state?.toList

def rawRecorder (tables : Tables) (rounds : Nat) : Watched RawRequest (Recorded Input) :=
  ⟨⟨RawRequest.record tables rounds, fun c r => r.state.fault c⟩,
    RawRequest.recordedStates tables rounds⟩

def Request.record (tables : Tables) (rounds : Nat) {α : Type} :
    Request α → Recorded Input → Outcome (Recorded Input) α
  | .expanded, r => Expansion.next.run (rawRecorder tables rounds).toHandler rounds r
  | .unexpanded, r => r.next .read tables.alphabet
  | .back ts, r => r.push ⟨ts, none⟩ .returned
  | .consume c, r => r.consume .read tables.alphabet rounds c

def Request.recordedStates (tables : Tables) (rounds : Nat) {α : Type} :
    Request α → Recorded Input → List (Recorded Input)
  | .expanded, r => Expansion.next.states (rawRecorder tables rounds) rounds r
  | .consume c, r => r.consumeStates .read tables.alphabet rounds c
  | q, r => (q.record tables rounds r).state?.toList

def recorder (tables : Tables) (rounds : Nat) : Watched Request (Recorded Input) :=
  ⟨⟨Request.record tables rounds, fun c r => r.state.fault c⟩,
    Request.recordedStates tables rounds⟩

/-! ## Runs -/

namespace Recorded

def input (m : Recorded Machine) : Recorded Input := ⟨m.state.input, m.events⟩

def under (tables : Tables) (r : Recorded Input) : Recorded Machine := ⟨⟨tables, r.state⟩, r.events⟩

def turn (face : Typeface) (rounds : Nat) (nest : Nest) (m : Recorded Machine) :
    Outcome (Recorded Machine) (Turn Nest Composed) :=
  match (Build.step face nest).run (recorder m.state.tables rounds).toHandler rounds m.input with
  | .done e r => .done e.turn (r.under (e.assignment.elim m.state.tables m.state.tables.assign))
  | .failed f r => .failed f (r.under m.state.tables)
  | .unfinished => .unfinished

/-- The states passed in one command, under the tables that it is read under. -/
def turnStates (face : Typeface) (rounds : Nat) (nest : Nest) (m : Recorded Machine) :
    List (Recorded Machine) :=
  ((Build.step face nest).states (recorder m.state.tables rounds) rounds m.input).map
    (under m.state.tables)

def build (face : Typeface) (rounds : Nat) (mode : Mode) (m : Recorded Machine) :
    Outcome (Recorded Machine) Composed :=
  iterate (turn face rounds) rounds (.outer mode []) m

/-- The states passed where all that is left is expanded. -/
def drainStates (tables : Tables) (rounds : Nat) : Nat → Recorded Input → List (Recorded Input)
  | 0, _ => []
  | n + 1, r =>
    Request.expanded.recordedStates tables rounds r ++
      match Request.expanded.record tables rounds r with
      | .done (some _) r => drainStates tables rounds n r
      | _ => []

end Recorded

namespace Engine

/-- The states that the input passes where a list is built. -/
def runStates (rounds : Nat) (mode : Mode) (e : Engine) : List (Recorded Input) :=
  (iterateStates (Recorded.turn e.face rounds) (Recorded.turnStates e.face rounds) rounds
    (.outer mode []) ⟨e.machine, []⟩).map Recorded.input

/-- The states that the input passes where all tokens are expanded. -/
def expandStates (rounds : Nat) (e : Engine) : List (Recorded Input) :=
  Recorded.drainStates e.machine.tables rounds rounds ⟨e.machine.input, []⟩

end Engine

/-! ## Runs beside recorded runs -/

namespace Outcome

variable {σ τ α β : Type} {states : σ → τ → Prop}

theorem Related.andThen {o : Outcome σ α} {p : Outcome τ α} (h : o.Related states Eq p)
    {k : α → σ → Outcome σ β} {l : α → τ → Outcome τ β}
    (hk : ∀ a s t, o = .done a s → states s t → (k a s).Related states Eq (l a t)) :
    (o.andThen k).Related states Eq (p.andThen l) := by
  cases o with
  | done a s =>
    cases p with
    | done b t =>
      obtain ⟨rfl, hs⟩ := h
      exact hk a s t rfl hs
    | failed g t => exact h.elim
    | unfinished => exact h.elim
  | failed f s =>
    cases p with
    | failed g t => exact h
    | done b t => exact h.elim
    | unfinished => exact h.elim
  | unfinished =>
    cases p with
    | unfinished => trivial
    | done b t => exact h.elim
    | failed g t => exact h.elim

theorem Related.refl (o : Outcome σ α) : o.Related Eq Eq o := by
  cases o with
  | done a s => exact ⟨rfl, rfl⟩
  | failed f s => exact ⟨rfl, rfl⟩
  | unfinished => trivial

theorem Related.mono {states' : σ → τ → Prop} {o : Outcome σ α} {p : Outcome τ α}
    (h : o.Related states Eq p) (hs : ∀ s t, states s t → states' s t) :
    o.Related states' Eq p := by
  cases o <;> cases p <;> first | exact h.elim | exact ⟨h.1, hs _ _ h.2⟩ | trivial

/-- Two runs beside a third one. -/
theorem Related.beside {υ : Type} {states' : σ → υ → Prop} {both : τ → υ → Prop}
    {o : Outcome σ α} {p : Outcome τ α} {q : Outcome υ α} (hp : o.Related states Eq p)
    (hq : o.Related states' Eq q) (h : ∀ s t u, states s t → states' s u → both t u) :
    p.Related both Eq q := by
  cases o <;> cases p <;> cases q <;>
    first
    | exact hp.elim
    | exact hq.elim
    | exact ⟨hp.1.symm.trans hq.1, h _ _ _ hp.2 hq.2⟩
    | trivial

theorem Related.recorded (rel : σ → τ → Prop) {o : Outcome σ α} {p : Outcome τ α}
    (h : o.Related rel Eq p) (events : List InputEvent) (note : α → List InputEvent) :
    (o.recorded events note).Related (fun r t => rel r.state t) Eq p := by
  cases o <;> cases p <;> first | exact h.elim | exact ⟨h.1, h.2⟩ | trivial

end Outcome

/-- Two repetitions go on alike as long as the states passed are in order; `start` is what they know
of the rounds. -/
theorem iterate_related_from {σ τ υ α : Type} {states : σ → τ → Prop}
    {f : υ → σ → Outcome σ (Turn υ α)} {g : υ → τ → Outcome τ (Turn υ α)} (ok : σ → Prop)
    (inside : υ → σ → List σ) (start : υ → Prop)
    (h : ∀ u s t, start u → states s t → (∀ s' ∈ inside u s, ok s') →
      (f u s).Related states Eq (g u t))
    (hagain : ∀ u s u' s', start u → (∀ s' ∈ inside u s, ok s') →
      f u s = .done (.again u') s' → start u')
    (rounds : Nat) {u : υ} {s : σ} {t : τ} (hu : start u) (hs : states s t)
    (hok : ∀ s' ∈ iterateStates f inside rounds u s, ok s') :
    (iterate f rounds u s).Related states Eq (iterate g rounds u t) := by
  induction rounds generalizing u s t with
  | zero => trivial
  | succ rounds ih =>
    rw [iterateStates] at hok
    obtain ⟨hin, hrest⟩ := List.forall_mem_append.mp hok
    rw [iterate_succ, iterate_succ]
    refine (h u s t hu hs hin).andThen fun turn s' t' ho hs' => ?_
    cases turn with
    | finish a => exact ⟨rfl, hs'⟩
    | again u' =>
      rw [ho] at hrest
      exact ih (hagain u s u' s' hu hin ho) hs' hrest

theorem iterate_related {σ τ υ α : Type} {states : σ → τ → Prop}
    {f : υ → σ → Outcome σ (Turn υ α)} {g : υ → τ → Outcome τ (Turn υ α)} (ok : σ → Prop)
    (inside : υ → σ → List σ)
    (h : ∀ u s t, states s t → (∀ s' ∈ inside u s, ok s') → (f u s).Related states Eq (g u t))
    (rounds : Nat) {u : υ} {s : σ} {t : τ} (hs : states s t)
    (hok : ∀ s' ∈ iterateStates f inside rounds u s, ok s') :
    (iterate f rounds u s).Related states Eq (iterate g rounds u t) :=
  iterate_related_from ok inside (fun _ => True) (fun u s t _ => h u s t)
    (fun _ _ _ _ _ _ _ => trivial) rounds trivial hs hok

theorem iterate_related_always {σ τ υ α : Type} {states : σ → τ → Prop}
    {f : υ → σ → Outcome σ (Turn υ α)} {g : υ → τ → Outcome τ (Turn υ α)}
    (h : ∀ u s t, states s t → (f u s).Related states Eq (g u t)) (rounds : Nat) {u : υ} {s : σ}
    {t : τ} (hs : states s t) :
    (iterate f rounds u s).Related states Eq (iterate g rounds u t) :=
  iterate_related (fun _ => True) (fun _ _ => []) (fun u s t hs _ => h u s t hs) rounds hs
    fun _ _ => trivial

/-- What the answers do while all states passed are in order, every reader does. -/
theorem Reader.run_related {Request : Type → Type 1} {σ τ α : Type} {h : Watched Request σ}
    {g : Handler Request τ} {states : σ → τ → Prop} {ok : σ → Prop}
    (answers : ∀ {γ : Type} (q : Request γ) (s : σ) (t : τ), states s t →
      (∀ s' ∈ h.passes q s, ok s') → (h.answer q s).Related states Eq (g.answer q t))
    (blames : ∀ (c : Cause) (s : σ) (t : τ), states s t → h.blame c s = g.blame c t)
    (rounds : Nat) (r : Reader Request α) {s : σ} {t : τ} (hs : states s t)
    (hok : ∀ s' ∈ r.states h rounds s, ok s') :
    (r.run h.toHandler rounds s).Related states Eq (r.run g rounds t) := by
  induction r generalizing s t with
  | pure a => exact ⟨rfl, hs⟩
  | bind r k ihr ihk =>
    rw [Reader.states] at hok
    obtain ⟨hr, hk⟩ := List.forall_mem_append.mp hok
    change ((r >>= k).run h.toHandler rounds s).Related states Eq ((r >>= k).run g rounds t)
    rw [run_bind, run_bind]
    refine (ihr hs hr).andThen fun a s' t' ho hs' => ihk a hs' ?_
    rw [ho] at hk
    exact hk
  | ask q => exact answers q s t hs hok
  | fail c => exact ⟨blames c s t hs, hs⟩
  | loop body u ih => exact iterate_related ok _ (fun u s t hs hok => ih u hs hok) rounds hs hok

theorem Recorded.consume_related (rel : Input → Input → Prop) {a : Alphabet}
    (hnext : ∀ i j, rel i j → (i.next a).Related rel Eq (j.next a)) (as : Lexeme → InputEvent)
    (rounds : Nat) {β : Type} (c : Consumer β) {r : Recorded Input} {j : Input}
    (hr : rel r.state j) :
    (r.consume as a rounds c).Related (fun s k => rel s.state k) Eq (j.consume a rounds c) := by
  unfold Recorded.consume Input.consume
  cases c.start with
  | finish b => exact ⟨rfl, hr⟩
  | again s =>
    refine iterate_related_always (fun s r j hr => ?_) rounds hr
    rw [Outcome.map_eq_andThen, Outcome.map_eq_andThen]
    exact ((hnext r.state j hr).recorded _ _ _).andThen fun _ _ _ _ hs => ⟨rfl, hs⟩

/-- While the states passed are in order, the second of two related inputs answers as the recorder
does on the first one. -/
structure Input.Accompanies (ok : Recorded Input → Prop) (rel : Input → Input → Prop) : Prop where
  next : ∀ a i j, rel i j → (i.next a).Related rel Eq (j.next a)
  push : ∀ i j c, rel i j → (i.push c).Related rel Eq (j.push c)
  opened : ∀ i j n, rel i j → rel { i with openBranches := n } { j with openBranches := n }
  openBranches : ∀ i j, rel i j → i.openBranches = j.openBranches
  fault : ∀ i j c, rel i j → i.fault c = j.fault c
  skip : ∀ a rounds toElse (r : Recorded Input) j, rel r.state j →
    (∀ s ∈ r.consumeStates .skipped a rounds (skipper r.state.nested toElse), ok s) →
      (r.skip a rounds toElse).Related (fun s k => rel s.state k) Eq (j.skip a rounds toElse)

namespace Input.Accompanies

variable {ok : Recorded Input → Prop} {rel : Input → Input → Prop} {r : Recorded Input}
  {j : Input}

/-- The state of a recorded one is related to an input. -/
abbrev Shows (rel : Input → Input → Prop) (r : Recorded Input) (j : Input) : Prop := rel r.state j

theorem consume (h : Accompanies ok rel) (as : Lexeme → InputEvent) (a : Alphabet) (rounds : Nat)
    {β : Type} (c : Consumer β) (hr : rel r.state j) :
    (r.consume as a rounds c).Related (Shows rel) Eq (j.consume a rounds c) :=
  Recorded.consume_related rel (h.next a) as rounds c hr

theorem closeBranch (h : Accompanies ok rel) (hr : rel r.state j) :
    r.closeBranch.Related (Shows rel) Eq j.closeBranch := by
  refine Outcome.Related.recorded rel ?_ _ _
  unfold Input.closeBranch
  rw [h.openBranches _ _ hr]
  cases j.openBranches with
  | zero => exact ⟨rfl, hr⟩
  | succ n => exact ⟨rfl, h.opened _ _ n hr⟩

theorem rawAnswer (h : Accompanies ok rel) (tables : Tables) (rounds : Nat) {γ : Type}
    (q : RawRequest γ) (r : Recorded Input) (j : Input) (hr : rel r.state j)
    (hok : ∀ s ∈ q.recordedStates tables rounds r, ok s) :
    (q.record tables rounds r).Related (Shows rel) Eq (q.answer tables rounds j) := by
  cases q with
  | next => exact (h.next _ _ _ hr).recorded _ _ _
  | push ts origin => exact (h.push _ _ _ hr).recorded _ _ _
  | consume c => exact h.consume _ _ rounds c hr
  | skip toElse => exact h.skip _ rounds toElse r j hr hok
  | meaning t => exact ⟨rfl, hr⟩
  | openBranch =>
    refine ⟨rfl, ?_⟩
    rw [← h.openBranches _ _ hr]
    exact h.opened _ _ _ hr
  | closeBranch => exact h.closeBranch hr

theorem answer (h : Accompanies ok rel) (tables : Tables) (rounds : Nat) {γ : Type} (q : Request γ)
    (r : Recorded Input) (j : Input) (hr : rel r.state j)
    (hok : ∀ s ∈ q.recordedStates tables rounds r, ok s) :
    (q.record tables rounds r).Related (Shows rel) Eq (q.answer tables rounds j) := by
  cases q with
  | expanded =>
    exact Reader.run_related (g := rawHandler tables rounds) (h.rawAnswer tables rounds)
      (fun c _ _ hr => h.fault _ _ c hr) rounds Expansion.next hr hok
  | unexpanded => exact (h.next _ _ _ hr).recorded _ _ _
  | back ts => exact (h.push _ _ _ hr).recorded _ _ _
  | consume c => exact h.consume _ _ rounds c hr

theorem turn (h : Accompanies ok rel) (face : Typeface) (rounds : Nat) (nest : Nest)
    (m : Recorded Machine) (n : Machine) (hm : m.state.Beside rel n)
    (hok : ∀ m' ∈ m.turnStates face rounds nest, ok m'.input) :
    (m.turn face rounds nest).Related (fun m n => m.state.Beside rel n) Eq
      (n.turn face rounds nest) := by
  obtain ⟨⟨tables, i⟩, events⟩ := m
  obtain ⟨_, j⟩ := n
  obtain ⟨rfl, hij⟩ := hm
  have hs := Reader.run_related (h := recorder tables rounds) (g := handler tables rounds)
    (h.answer tables rounds) (fun c _ _ hr => h.fault _ _ c hr) rounds (Build.step face nest)
    (s := ⟨i, events⟩) hij fun s hs => hok _ (List.mem_map_of_mem hs)
  simp only [Recorded.turn, Recorded.input, Machine.turn]
  generalize (Build.step face nest).run (recorder tables rounds).toHandler rounds ⟨i, events⟩ = o
    at hs ⊢
  generalize (Build.step face nest).run (handler tables rounds) rounds j = p at hs ⊢
  cases o <;> cases p <;>
    first
    | exact hs.elim
    | exact ⟨congrArg Build.Effect.turn hs.1, by rw [hs.1]; rfl, hs.2⟩
    | exact ⟨hs.1, rfl, hs.2⟩
    | trivial

/-- One call of expansion after the other, on both inputs. -/
theorem drain (h : Accompanies ok rel) (self : Accompanies (fun _ => True) Eq) (tables : Tables)
    (rounds n : Nat) {r : Recorded Input} {j : Input} (hr : rel r.state j)
    (hok : ∀ s ∈ r.drainStates tables rounds n, ok s) :
    (r.state.drain tables rounds n).tokens = (j.drain tables rounds n).tokens ∧
      (r.state.drain tables rounds n).ending.Related rel Eq (j.drain tables rounds n).ending := by
  induction n generalizing r j with
  | zero => exact ⟨rfl, trivial⟩
  | succ n ih =>
    rw [Recorded.drainStates] at hok
    obtain ⟨hcall, hrest⟩ := List.forall_mem_append.mp hok
    have hi : (Request.expanded.record tables rounds r).Related (Shows Eq) Eq
        (r.state.nextExpanded tables rounds) :=
      self.answer tables rounds .expanded r r.state rfl fun _ _ => trivial
    have hj : (Request.expanded.record tables rounds r).Related (Shows rel) Eq
        (j.nextExpanded tables rounds) := h.answer tables rounds .expanded r j hr hcall
    rw [drain_succ, drain_succ]
    generalize Request.expanded.record tables rounds r = o at hi hj hrest
    generalize r.state.nextExpanded tables rounds = p at hi ⊢
    generalize j.nextExpanded tables rounds = q at hj ⊢
    cases o with
    | unfinished =>
      cases p <;> cases q <;> first | exact hi.elim | exact hj.elim | exact ⟨rfl, trivial⟩
    | failed f s =>
      cases p <;> cases q <;> try first | exact hi.elim | exact hj.elim
      obtain ⟨rfl, rfl⟩ := hi
      exact ⟨rfl, hj⟩
    | done x s =>
      cases p <;> cases q <;> try first | exact hi.elim | exact hj.elim
      obtain ⟨rfl, rfl⟩ := hi
      obtain ⟨rfl, hj⟩ := hj
      cases x with
      | none => exact ⟨rfl, rfl, hj⟩
      | some t =>
        obtain ⟨ht, he⟩ := ih hj hrest
        exact ⟨congrArg (t :: ·) ht, he⟩

end Input.Accompanies

/-- Recording changes nothing. -/
theorem Input.accompanies_self : Accompanies (fun _ => True) Eq where
  next a i j h := h ▸ .refl _
  push i j c h := h ▸ .refl _
  opened i j n h := by rw [h]
  openBranches i j h := by rw [h]
  fault i j c h := by rw [h]
  skip a rounds toElse r j h _ := by
    subst h
    have hconsume := Recorded.consume_related Eq (a := a) (fun i j h => h ▸ .refl _)
      .skipped rounds (skipper r.state.nested toElse) (r := r) rfl
    refine hconsume.andThen fun landed s j _ hs => ?_
    subst hs
    cases landed with
    | some landed => exact ⟨rfl, rfl⟩
    | none => exact ⟨rfl, rfl⟩

theorem Recorded.build_related (face : Typeface) (rounds : Nat) (mode : Mode) (m : Machine) :
    (Recorded.build face rounds mode ⟨m, []⟩).Related (fun r n => r.state = n) Eq
      (m.build face rounds mode) := by
  refine iterate_related_always (fun nest r n hr => ?_) rounds rfl
  refine (Input.accompanies_self.turn face rounds nest r n ?_ fun _ _ => trivial).mono ?_
  · exact ⟨congrArg Machine.tables hr, congrArg Machine.input hr⟩
  · rintro ⟨⟨tables, i⟩, events⟩ ⟨_, j⟩ ⟨rfl, rfl⟩
    rfl

/-! ## Engines -/

/-- Engines with one face and the same tables, on related inputs. -/
def Engine.Accompanied (rel : Input → Input → Prop) (e f : Engine) : Prop :=
  e.face = f.face ∧ e.Beside rel f

namespace Input.Accompanies

variable {ok : Recorded Input → Prop} {rel : Input → Input → Prop} {e f : Engine}

/-- While the states passed are in order, a run goes as one on a related input. -/
theorem run (h : Accompanies ok rel) (rounds : Nat) (mode : Mode) (hef : e.Accompanied rel f)
    (hok : ∀ r ∈ e.runStates rounds mode, ok r) :
    (e.run rounds mode).Related (Engine.Accompanied rel) Eq (f.run rounds mode) := by
  obtain ⟨machine, face⟩ := e
  obtain ⟨machine', _⟩ := f
  obtain ⟨rfl, hb⟩ := hef
  have hself := Recorded.build_related face rounds mode machine
  have hmirror : (Recorded.build face rounds mode ⟨machine, []⟩).Related
      (fun m n => m.state.Beside rel n) Eq (machine'.build face rounds mode) :=
    iterate_related (fun m => ok m.input) (Recorded.turnStates face rounds)
      (fun nest m n hm hin => h.turn face rounds nest m n hm hin) rounds (s := ⟨machine, []⟩) hb
      fun m hm => hok _ (List.mem_map_of_mem hm)
  have hbuild : (machine.build face rounds mode).Related (Machine.Beside rel) Eq
      (machine'.build face rounds mode) := by
    exact hself.beside hmirror fun m i j hi hj => hi ▸ hj
  unfold Engine.run
  dsimp only
  generalize machine.build face rounds mode = o at hbuild ⊢
  generalize machine'.build face rounds mode = p at hbuild ⊢
  cases o <;> cases p <;> first | exact hbuild.elim | exact ⟨hbuild.1, rfl, hbuild.2⟩ | trivial

/-- So do the calls of expansion that deliver all that is left. -/
theorem expand (h : Accompanies ok rel) (rounds : Nat) (hef : e.Accompanied rel f)
    (hok : ∀ r ∈ e.expandStates rounds, ok r) :
    (e.expand rounds).Related (Engine.Accompanied rel) Eq (f.expand rounds) := by
  obtain ⟨⟨tables, i⟩, face⟩ := e
  obtain ⟨⟨_, j⟩, _⟩ := f
  obtain ⟨rfl, rfl, hij⟩ := hef
  obtain ⟨htokens, hending⟩ := h.drain accompanies_self tables rounds rounds (r := ⟨i, []⟩) hij hok
  unfold Engine.expand
  dsimp only at htokens hending ⊢
  rw [htokens]
  generalize (i.drain tables rounds rounds).ending = o at hending ⊢
  generalize (j.drain tables rounds rounds).ending = p at hending ⊢
  cases o <;> cases p <;>
    first
    | exact hending.elim
    | exact ⟨rfl, rfl, rfl, hending.2⟩
    | exact ⟨hending.1, rfl, rfl, hending.2⟩
    | trivial

end Input.Accompanies

end Galley
