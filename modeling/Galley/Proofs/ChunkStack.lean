import Galley.Proofs.Passing
import Galley.Proofs.Stream

/-!
The stack of chunks under calls of all kinds. A reading leaves an empty chunk on top at most, and it
is dropped before the next push measures the stack, so what fills the stack are chunks with tokens
alone (`Input.Stacked`). A call fails for lack of room exactly where it pushes tokens on a stack
that is full of such chunks (`Call.lostAt`).
-/

namespace Galley

/-! ## Readers that are lost -/

namespace Outcome

variable {σ α β : Type} {lost : Fault → Prop} {stuck : Fault → σ → Prop}

/-- A reading is lost with a fault in just those of the states that are stuck with it. -/
def LostAt (lost : Fault → Prop) (stuck : Fault → σ → Prop) (o : Outcome σ α)
    (states : List σ) : Prop :=
  ∀ f s, o = .failed f s ∧ lost f ↔ s ∈ states ∧ stuck f s

theorem lostAt_nil {o : Outcome σ α} (h : ¬ o.FailedBy lost) : o.LostAt lost stuck [] := by
  intro f s
  constructor
  · rintro ⟨rfl, hf⟩
    exact absurd hf h
  · rintro ⟨hs, -⟩
    cases hs

/-- One reading after the other: the second one begins where the first is done, so not lost. -/
theorem LostAt.andThen {o : Outcome σ β} {states later : List σ} (h : o.LostAt lost stuck states)
    {k : β → σ → Outcome σ α}
    (hk : ∀ b s, o = .done b s → (k b s).LostAt lost stuck later)
    (hlater : (∀ b s, o ≠ .done b s) → later = []) :
    (o.andThen k).LostAt lost stuck (states ++ later) := by
  intro f s
  have hf := h f s
  cases o with
  | done b u =>
    -- of the states before none is stuck, or the first reading would have failed
    have hnone : ¬ (s ∈ states ∧ stuck f s) := by
      intro hs
      cases (hf.mpr hs).1
    simp only [List.mem_append, or_and_right, hnone, false_or]
    exact hk b u rfl f s
  | failed g u =>
    rw [hlater (by simp), List.append_nil, ← hf]
    simp [Outcome.andThen]
  | unfinished =>
    rw [hlater (by simp), List.append_nil, ← hf]
    simp [Outcome.andThen]

end Outcome

theorem iterate_lostAt {σ τ α : Type} {lost : Fault → Prop} {stuck : Fault → σ → Prop}
    {body : τ → σ → Outcome σ (Turn τ α)} {inside : τ → σ → List σ} {inv : σ → Prop}
    (hbody : ∀ t s, inv s → (body t s).LostAt lost stuck (inside t s))
    (hinv : ∀ t s, inv s → (body t s).Ensures (fun _ s => inv s) (fun _ s => inv s))
    (rounds : Nat) {t : τ} {s : σ} (hs : inv s) :
    (iterate body rounds t s).LostAt lost stuck (iterateStates body inside rounds t s) := by
  induction rounds generalizing t s with
  | zero => exact Outcome.lostAt_nil id
  | succ rounds ih =>
    rw [iterate_succ, iterateStates]
    refine (hbody t s hs).andThen (fun turn s' ho => ?_) fun hn => ?_
    · have hend := hinv t s hs
      rw [ho] at hend ⊢
      cases turn with
      | again t' => exact ih hend
      | finish a => exact Outcome.lostAt_nil id
    · split
      · rename_i ho
        exact absurd ho (hn _ _)
      · rfl

namespace Reader

variable {Request : Type → Type 1} {σ α β : Type} {fails : Cause → Prop}

/-- Of itself the reader fails for such causes alone. -/
def FailsFor (fails : Cause → Prop) {α : Type} : Reader Request α → Prop
  | .pure _ => True
  | .bind r k => r.FailsFor fails ∧ ∀ a, (k a).FailsFor fails
  | .ask _ => True
  | .fail c => fails c
  | .loop body _ => ∀ s, (body s).FailsFor fails

theorem FailsFor.bind {r : Reader Request β} {k : β → Reader Request α}
    (hr : r.FailsFor fails) (hk : ∀ b, (k b).FailsFor fails) : (r >>= k).FailsFor fails :=
  ⟨hr, hk⟩

/-- Where the answers are lost, and nowhere else, the reader is. -/
theorem lostAt {h : Watched Request σ} {rounds : Nat} {lost : Fault → Prop}
    {stuck : Fault → σ → Prop} {inv : σ → Prop}
    (keeps : ∀ {γ : Type} (q : Request γ) (s : σ), inv s →
      (h.answer q s).Ensures (fun _ s => inv s) (fun _ s => inv s))
    (answers : ∀ {γ : Type} (q : Request γ) (s : σ), inv s →
      (h.answer q s).LostAt lost stuck (h.passes q s))
    (blames : ∀ (c : Cause) (s : σ), fails c → ¬ lost (h.blame c s)) (r : Reader Request α)
    (hr : r.FailsFor fails) {s : σ} (hs : inv s) :
    (r.run h.toHandler rounds s).LostAt lost stuck (r.states h rounds s) := by
  induction r generalizing s with
  | pure a => exact Outcome.lostAt_nil id
  | bind r k ihr ihk =>
    have hkeeps := run_keeps keeps rounds r hs
    change ((r >>= k).run h.toHandler rounds s).LostAt _ _ _
    rw [run_bind, states]
    refine (ihr hr.1 hs).andThen (fun b s' ho => ?_) fun hn => ?_
    · rw [ho] at hkeeps ⊢
      exact ihk b (hr.2 b) hkeeps
    · split
      · rename_i ho
        exact absurd ho (hn _ _)
      · rfl
  | ask q => exact answers q s hs
  | fail c => exact Outcome.lostAt_nil (blames c s hr)
  | loop body t ih =>
    exact iterate_lostAt (fun t s (hs : inv s) => ih t (hr t) hs)
      (fun t s hs => run_keeps keeps rounds (body t) hs) rounds hs

end Reader

/-! ## The stack -/

namespace Input

variable {capacity : Capacity} {a : Alphabet} {i j : Input}

/-- The chunks that still have tokens. -/
def waiting (i : Input) : List Chunk := i.chunks.filter fun c => !c.tokens.isEmpty

/-- As many chunks have tokens as may wait at once. -/
def Fills (capacity : Capacity) (i : Input) : Prop := (i.waiting.length : Int) = capacity.chunks

instance (capacity : Capacity) (i : Input) : Decidable (i.Fills capacity) :=
  inferInstanceAs (Decidable ((i.waiting.length : Int) = capacity.chunks))

/-- No chunk but the top one is empty, and there are no more than there may be. -/
structure Stacked (capacity : Capacity) (i : Input) : Prop where
  ofCapacity : i.capacity = capacity
  packed : ∀ c ∈ i.chunks.tail, c.tokens ≠ []
  room : (i.chunks.length : Int) ≤ capacity.chunks

theorem tokens_of_mem_waiting {c : Chunk} (h : c ∈ i.waiting) : c.tokens ≠ [] := by
  simpa using (List.mem_filter.mp h).2

theorem waiting_sublist (i : Input) : i.waiting.Sublist i.chunks := List.filter_sublist

namespace Stacked

theorem dropEmpty_eq (h : i.Stacked capacity) : dropEmpty i.chunks = i.waiting :=
  dropEmpty_eq_filter h.packed

theorem waiting_le (h : i.Stacked capacity) : (i.waiting.length : Int) ≤ capacity.chunks := by
  have hle := i.waiting_sublist.length_le
  have hroom := h.room
  omega

/-- A stack that is full has no empty chunk. -/
theorem waiting_eq (h : i.Stacked capacity) (hf : i.Fills capacity) : i.waiting = i.chunks := by
  have hroom := h.room
  unfold Fills at hf
  exact i.waiting_sublist.eq_of_length_le (by omega)

/-- On top of chunks that have tokens there may be any one, if there is room for it. -/
theorem cover (h : i.Stacked capacity) {c : Chunk} {more : List Chunk}
    (hj : j.capacity = i.capacity) (hc : j.chunks = c :: more) (hm : ∀ d ∈ more, d ∈ i.waiting)
    (hroom : ((c :: more).length : Int) ≤ capacity.chunks) : j.Stacked capacity where
  ofCapacity := hj.trans h.ofCapacity
  packed := by
    rw [hc]
    exact fun d hd => tokens_of_mem_waiting (hm d hd)
  room := by rwa [hc]

theorem cleared (h : i.Stacked capacity) (hj : j.capacity = i.capacity) (hc : j.chunks = []) :
    j.Stacked capacity where
  ofCapacity := hj.trans h.ofCapacity
  packed := by
    rw [hc]
    exact List.forall_mem_nil _
  room := by
    have hroom := h.room
    rw [hc, List.length_nil]
    omega

end Stacked

/-! ## Readings and pushes -/

/-- The stack is left in order, and there is no lack of room. -/
def Orderly (capacity : Capacity) {α : Type} (o : Outcome Input α) : Prop :=
  o.Ensures (fun _ j => j.Stacked capacity) fun f j => j.Stacked capacity ∧ ¬ f.OfCapacity

theorem Orderly.stacked {α : Type} {o : Outcome Input α} (h : Orderly capacity o) :
    o.Ensures (fun _ j => j.Stacked capacity) (fun _ j => j.Stacked capacity) :=
  h.mono (fun _ _ hj => hj) fun _ _ hf => hf.1

theorem Orderly.lostAt {α : Type} {o : Outcome Input α} {stuck : Fault → Input → Prop}
    (h : Orderly capacity o) : o.LostAt Fault.OfCapacity stuck [] :=
  Outcome.lostAt_nil (h.not_failedBy fun _ _ hf => hf.2)

theorem next_orderly (a : Alphabet) (h : i.Stacked capacity) : Orderly capacity (i.next a) := by
  cases ht : takePending i.chunks with
  | some p =>
    obtain ⟨t, rest⟩ := p
    obtain ⟨ts, origin, more, hd, rfl⟩ := exists_of_takePending ht
    rw [h.dropEmpty_eq] at hd
    have hle := h.waiting_le
    rw [hd] at hle
    rw [next_of_pending ht]
    exact h.cover rfl rfl (fun d hm => hd ▸ List.mem_cons_of_mem _ hm) hle
  | none =>
    rw [next_of_lexer ht]
    cases i.lexer.next a with
    | token t l => exact h.cleared rfl rfl
    | invalid c place l => exact ⟨h.cleared rfl rfl, fun ⟨_, hf⟩ => nomatch hf⟩
    | finished l => exact h.cleared rfl rfl

/-- A token that is looked at gets a chunk of its own where there is no other. -/
theorem peek_orderly (a : Alphabet) (hc : 1 ≤ capacity.chunks) (h : i.Stacked capacity) :
    Orderly capacity (i.peek a) := by
  have hle := h.waiting_le
  unfold peek
  rw [h.dropEmpty_eq]
  cases hw : i.waiting with
  | cons c more =>
    rw [hw] at hle
    exact h.cover rfl rfl (fun d hm => hw ▸ List.mem_cons_of_mem _ hm) hle
  | nil =>
    unfold lex
    dsimp only
    cases i.lexer.next a with
    | token t l => exact h.cover rfl rfl (List.forall_mem_nil _) hc
    | invalid c place l => exact ⟨h.cleared rfl rfl, fun ⟨_, hf⟩ => nomatch hf⟩
    | finished l => exact h.cleared rfl rfl

/-- Tokens go on top of the chunks that have tokens, and a full stack stays as it is. -/
theorem push_of_stacked (h : i.Stacked capacity) {c : Chunk} (hc : c.tokens ≠ []) :
    i.push c =
      if i.Fills capacity then .failed (i.fault (.capacity capacity)) i
      else .done () { i with chunks := c :: i.waiting } := by
  have hle := h.waiting_le
  obtain rfl := h.ofCapacity
  unfold push
  rw [if_neg (by simpa using hc), h.dropEmpty_eq]
  dsimp only
  by_cases hf : i.Fills i.capacity
  · -- there was no empty chunk to drop
    rw [if_pos hf, if_pos (Int.le_of_eq hf.symm), h.waiting_eq hf]
  · have hroom : ¬ i.capacity.chunks ≤ i.waiting.length := by
      unfold Fills at hf
      omega
    rw [if_neg hf, if_neg hroom]

theorem push_stacked (c : Chunk) (h : i.Stacked capacity) :
    (i.push c).Ensures (fun _ j => j.Stacked capacity) (fun _ j => j.Stacked capacity) := by
  by_cases hc : c.tokens = []
  · unfold push
    rw [if_pos (by simp [hc])]
    exact h
  · rw [push_of_stacked h hc]
    split
    · exact h
    · rename_i hf
      have hle := h.waiting_le
      unfold Fills at hf
      refine h.cover rfl rfl (fun _ hd => hd) ?_
      rw [List.length_cons]
      omega

/-- The stack is full, and this is the fault with which it takes no more tokens. -/
def Refuses (capacity : Capacity) (f : Fault) (i : Input) : Prop :=
  i.Fills capacity ∧ f = i.fault (.capacity capacity)

theorem push_lostAt (h : i.Stacked capacity) {c : Chunk} (hc : c.tokens ≠ []) :
    (i.push c).LostAt Fault.OfCapacity (Refuses capacity) [i] := by
  intro f j
  rw [push_of_stacked h hc, List.mem_singleton]
  split
  · rename_i hf
    constructor
    · rintro ⟨ho, -⟩
      cases ho
      exact ⟨rfl, hf, rfl⟩
    · rintro ⟨rfl, -, rfl⟩
      exact ⟨rfl, capacity, rfl⟩
  · rename_i hf
    constructor
    · rintro ⟨ho, -⟩
      cases ho
    · rintro ⟨rfl, hj, -⟩
      exact absurd hj hf

/-! ## Expansion -/

variable {tables : Tables} {rounds : Nat}

theorem consume_orderly (a : Alphabet) (rounds : Nat) {β : Type} (c : Consumer β)
    (h : i.Stacked capacity) : Orderly capacity (i.consume a rounds c) :=
  consume_keeps (fun _ hj => next_orderly a hj) rounds c h

theorem skip_orderly (a : Alphabet) (rounds : Nat) (toElse : Bool) (h : i.Stacked capacity) :
    Orderly capacity (i.skip a rounds toElse) := by
  have hconsume := consume_orderly a rounds (skipper i.nested toElse) h
  refine Outcome.Ensures.andThen (hconsume.mono (fun landed j hj => ?_) fun _ _ hf => hf)
  cases landed with
  | some landed => exact hj
  | none => exact ⟨hj, fun ⟨_, hf⟩ => nomatch hf⟩

theorem closeBranch_orderly (h : i.Stacked capacity) : Orderly capacity i.closeBranch := by
  unfold closeBranch
  split
  · exact h
  · exact ⟨h.ofCapacity, h.packed, h.room⟩

end Input

namespace RawRequest

variable {capacity : Capacity} {tables : Tables} {rounds : Nat} {i : Input} {γ : Type}

theorem answer_stacked (q : RawRequest γ) (h : i.Stacked capacity) :
    (q.answer tables rounds i).Ensures (fun _ j => j.Stacked capacity)
      (fun _ j => j.Stacked capacity) := by
  cases q with
  | next => exact (Input.next_orderly _ h).stacked
  | push ts origin => exact Input.push_stacked _ h
  | consume c => exact (Input.consume_orderly _ rounds c h).stacked
  | skip toElse => exact (Input.skip_orderly _ rounds toElse h).stacked
  | meaning t => exact h
  | openBranch => exact ⟨h.ofCapacity, h.packed, h.room⟩
  | closeBranch => exact (Input.closeBranch_orderly h).stacked

theorem passes_stacked (q : RawRequest γ) (h : i.Stacked capacity) :
    (Reader.ask q).Passes (watched tables rounds) rounds (Input.Stacked capacity) i
      (fun _ j => j.Stacked capacity) (fun _ j => j.Stacked capacity) := by
  have hanswer : (q.answer tables rounds i).Ensures (fun _ j => j.Stacked capacity)
      (fun _ j => j.Stacked capacity) := q.answer_stacked h
  -- a consumer passes an input with each of its readings
  have hconsume : ∀ {β : Type} (c : Consumer β),
      ∀ j ∈ i.consumeStates tables.alphabet rounds c, j.Stacked capacity := fun c =>
    Input.forall_mem_consumeStates (fun _ hj => Input.next_orderly _ hj) (fun _ _ hf => hf.1)
      rounds c h
  cases q with
  | consume c => exact .ask (hconsume c) hanswer
  | skip toElse => exact .ask (hconsume (skipper i.nested toElse)) hanswer
  | _ => exact .ask_once rfl hanswer (fun _ _ hj => hj) fun _ _ hf => hf

/-- The input that tokens are pushed on. -/
def pushedOn {γ : Type} : RawRequest γ → Input → List Input
  | .push (_ :: _) _, i => [i]
  | _, _ => []

theorem answer_lostAt (q : RawRequest γ) (h : i.Stacked capacity) :
    (q.answer tables rounds i).LostAt Fault.OfCapacity (Input.Refuses capacity) (q.pushedOn i) := by
  cases q with
  | next => exact (Input.next_orderly _ h).lostAt
  | push ts origin =>
    cases ts with
    | nil => exact Outcome.lostAt_nil id
    | cons t ts => exact Input.push_lostAt h (List.cons_ne_nil t ts)
  | consume c => exact (Input.consume_orderly _ rounds c h).lostAt
  | skip toElse => exact (Input.skip_orderly _ rounds toElse h).lostAt
  | meaning t => exact Outcome.lostAt_nil id
  | openBranch => exact Outcome.lostAt_nil id
  | closeBranch => exact (Input.closeBranch_orderly h).lostAt

end RawRequest

namespace Expansion

/-- Room is a matter of pushes: no other step of expansion fails for the lack of it. -/
def NotCapacity (c : Cause) : Prop := ∀ limit, c ≠ .capacity limit

theorem resolve_failsFor (b : Branch) : (resolve b).FailsFor NotCapacity := by
  cases b with
  | opening taken =>
    cases taken with
    | true => exact trivial
    | false =>
      refine .bind trivial fun landed => ?_
      cases landed <;> exact trivial
  | alternative =>
    refine .bind trivial fun closed => ?_
    cases closed with
    | true => exact .bind trivial fun _ => trivial
    | false => exact fun _ => nofun
  | closing =>
    refine .bind trivial fun closed => ?_
    cases closed with
    | true => exact trivial
    | false => exact fun _ => nofun

theorem call_failsFor (t : Token) (d : Definition) : (call t d).FailsFor NotCapacity := by
  refine .bind trivial fun captured => ?_
  cases captured with
  | error f => exact fun _ => nofun
  | ok args =>
    dsimp only
    split
    · exact trivial
    · exact fun _ => nofun

theorem step_failsFor : step.FailsFor NotCapacity := by
  refine .bind trivial fun t => ?_
  cases t with
  | none => exact trivial
  | some t =>
    dsimp only
    split
    · exact .bind (resolve_failsFor _) fun _ => trivial
    · refine .bind trivial fun d => ?_
      cases d with
      | none => exact trivial
      | some d => exact .bind (call_failsFor t.token d) fun _ => trivial

theorem next_failsFor : next.FailsFor NotCapacity := fun _ => step_failsFor

end Expansion

/-! ## Calls -/

namespace Call

variable {capacity : Capacity} {tables : Tables} {rounds : Nat} {i j : Input}

/-- The inputs that a call passes. -/
def passes (tables : Tables) (rounds : Nat) : Call → Input → List Input
  | .expanded, i => i.passed tables rounds
  | c, i => (c.answer tables rounds i).state?.toList

/-- The inputs that tokens are pushed on in a call. -/
def pushedOn (tables : Tables) (rounds : Nat) : Call → Input → List Input
  | .expanded, i => Expansion.next.states ⟨rawHandler tables rounds, RawRequest.pushedOn⟩ rounds i
  | .back (_ :: _), i => [i]
  | _, _ => []

theorem passes_endsAt (c : Call) (h : (c.answer tables rounds i).state? = some j) :
    EndsAt i (c.passes tables rounds i) j := by
  cases c with
  | expanded => exact Input.passed_endsAt h
  | peek => simp [passes, h, EndsAt]
  | next => simp [passes, h, EndsAt]
  | back ts => simp [passes, h, EndsAt]

theorem answer_stacked (c : Call) (hc : 1 ≤ capacity.chunks) (h : i.Stacked capacity) :
    (c.answer tables rounds i).Ensures (fun _ j => j.Stacked capacity)
      (fun _ j => j.Stacked capacity) := by
  cases c with
  | peek => exact (Input.peek_orderly _ hc h).stacked
  | next => exact (Input.next_orderly _ h).stacked
  | expanded =>
    exact Reader.run_keeps (h := rawHandler tables rounds) (fun q _ hj => q.answer_stacked hj)
      rounds Expansion.next h
  | back ts =>
    rw [answer, Outcome.map_eq_andThen]
    exact Outcome.Ensures.andThen (Input.push_stacked _ h)

theorem passes_stacked (c : Call) (hc : 1 ≤ capacity.chunks) (h : i.Stacked capacity) :
    ∀ j ∈ c.passes tables rounds i, j.Stacked capacity := by
  have hends : ∀ j ∈ (c.answer tables rounds i).state?.toList, j.Stacked capacity := fun j hj =>
    (c.answer_stacked hc h).of_state? (fun _ _ hj => hj) (fun _ _ hf => hf) (by simpa using hj)
  cases c with
  | expanded =>
    exact (Reader.passes_of_answers (h := watched tables rounds) (fun q _ hj => q.passes_stacked hj)
      (fun _ _ hj => hj) Expansion.next h).through
  | peek => exact hends
  | next => exact hends
  | back ts => exact hends

/-- Tokens are pushed on the input that is called or on one that is passed. -/
theorem pushedOn_passed (c : Call) (h : j ∈ c.pushedOn tables rounds i) :
    j = i ∨ j ∈ c.passes tables rounds i := by
  cases c with
  | expanded =>
    refine Reader.mem_states_of_asked (h := watched tables rounds) (fun q k k' hk' => ?_)
      (fun q _ _ hq => q.states_endsAt hq) Expansion.next h
    cases q with
    | push ts origin =>
      cases ts with
      | nil => cases hk'
      | cons t ts => exact List.mem_singleton.mp hk'
    | _ => cases hk'
  | back ts =>
    cases ts with
    | nil => cases h
    | cons t ts => exact Or.inl (List.mem_singleton.mp h)
  | peek => cases h
  | next => cases h

/-- A call is lost where it pushes tokens on a full stack. -/
theorem lostAt (c : Call) (hc : 1 ≤ capacity.chunks) (h : i.Stacked capacity) :
    (c.answer tables rounds i).LostAt Fault.OfCapacity (Input.Refuses capacity)
      (c.pushedOn tables rounds i) := by
  cases c with
  | peek => exact (Input.peek_orderly _ hc h).lostAt
  | next => exact (Input.next_orderly _ h).lostAt
  | expanded =>
    exact Reader.lostAt (h := ⟨rawHandler tables rounds, RawRequest.pushedOn⟩)
      (fun q _ hj => q.answer_stacked hj) (fun q _ hj => q.answer_lostAt hj)
      (fun c _ hcause ⟨limit, hf⟩ => hcause limit hf) Expansion.next Expansion.next_failsFor h
  | back ts =>
    cases ts with
    | nil => exact Outcome.lostAt_nil id
    | cons t ts =>
      have hpush := Input.push_lostAt h (c := ⟨t :: ts, none⟩) (List.cons_ne_nil t ts)
      rw [answer, Outcome.map_eq_andThen]
      exact hpush.andThen (fun _ _ _ => Outcome.lostAt_nil id) fun _ => rfl

end Call

namespace Input

variable {capacity : Capacity} {i j : Input}

/-- Calls lead from an input with this capacity, of which nothing has been read, to this one, or
pass it: each under tables of its own and in any number of rounds, whether it is completed, fails or
goes on forever. -/
inductive Visited (capacity : Capacity) : Input → Prop
  | new (lexer : Lexer) (nested : Bool) :
    Visited capacity { lexer := lexer, capacity := capacity, nested := nested }
  | passed {i j : Input} (h : Visited capacity i) (c : Call) (tables : Tables) (rounds : Nat)
    (hj : j ∈ c.passes tables rounds i) : Visited capacity j

theorem Visited.ended (h : Visited capacity i) (c : Call) (tables : Tables) (rounds : Nat)
    (hj : (c.answer tables rounds i).state? = some j) : Visited capacity j := by
  rcases (c.passes_endsAt hj).mem with rfl | hj
  · exact h
  · exact h.passed c tables rounds hj

theorem Visited.stacked (hc : 1 ≤ capacity.chunks) (h : Visited capacity i) :
    i.Stacked capacity := by
  induction h with
  | new lexer nested =>
    refine ⟨rfl, List.forall_mem_nil _, ?_⟩
    rw [List.length_nil]
    omega
  | passed _ c tables rounds hj ih => exact c.passes_stacked hc ih _ hj

/-- With room for one chunk at least, an input that calls lead to or pass has no empty chunk but on
top and no more chunks than there may be. Tokens that are pushed on it come to stand on the chunks
that still have tokens, unless these are as many as there may be: then the push fails, and the input
is as it was. A call fails for lack of room exactly if it pushes tokens on such an input, and it
ends in that. -/
theorem stack_bounded (hc : 1 ≤ capacity.chunks) (h : Visited capacity i) :
    (∀ c ∈ i.chunks.tail, c.tokens ≠ []) ∧
    (i.chunks.length : Int) ≤ capacity.chunks ∧
    (∀ c : Chunk, c.tokens ≠ [] →
      i.push c =
        if (i.waiting.length : Int) = capacity.chunks then
          .failed (i.fault (.capacity capacity)) i
        else .done () { i with chunks := c :: i.waiting }) ∧
    ∀ (c : Call) (tables : Tables) (rounds : Nat),
      (∀ j ∈ c.pushedOn tables rounds i, Visited capacity j) ∧
      ∀ (f : Fault) (j : Input), c.answer tables rounds i = .failed f j ∧ f.OfCapacity ↔
        j ∈ c.pushedOn tables rounds i ∧ (j.waiting.length : Int) = capacity.chunks ∧
          f = j.fault (.capacity capacity) := by
  have hs := h.stacked hc
  refine ⟨hs.packed, hs.room, fun c hcs => push_of_stacked hs hcs, fun c tables rounds => ⟨?_, ?_⟩⟩
  · intro j hj
    rcases c.pushedOn_passed hj with rfl | hj
    · exact h
    · exact h.passed c tables rounds hj
  · exact c.lostAt hc hs

/-- A call whose argument is a call, with a character behind that. -/
def callInArgument : Input := .ofLines ["\\m\x7b\\m zy\x7d"] false true { chunks := 1 }

theorem stack_bounded_callInArgument :
    ∃ i, Visited { chunks := 1 } i ∧ i.chunks.length = 1 ∧
      ∃ j, Call.expanded.answer doubling 9 i = .failed (j.fault (.capacity { chunks := 1 })) j ∧
        j ∈ Call.expanded.pushedOn doubling 9 i ∧ j.waiting.length = 1 ∧
        j.push ⟨[⟨.cs "m", none⟩], none⟩ = .failed (j.fault (.capacity { chunks := 1 })) j := by
  have hroom : 1 ≤ ({ chunks := 1 } : Capacity).chunks := by decide
  -- the outer call has been looked at, so that it waits in a chunk
  obtain ⟨i, hpeek, hlength, hexpanded⟩ : ∃ i,
      (Call.peek.answer doubling 9 callInArgument).state? = some i ∧ i.chunks.length = 1 ∧
      (Call.expanded.answer doubling 9 i).FailedBy (fun f => f.cause = .capacity { chunks := 1 }) :=
    ⟨_, rfl, rfl, by decide +kernel⟩
  have hi : Visited { chunks := 1 } i := Visited.ended (.new _ _) .peek doubling 9 hpeek
  obtain ⟨f, j, ho, hf⟩ := Outcome.exists_failed_of_failedBy hexpanded
  obtain ⟨-, -, -, hcalls⟩ := stack_bounded hroom hi
  obtain ⟨hvisited, hlost⟩ := hcalls .expanded doubling 9
  obtain ⟨hj, hfull, rfl⟩ := (hlost f j).mp ⟨ho, _, hf⟩
  obtain ⟨-, -, hpush, -⟩ := stack_bounded hroom (hvisited j hj)
  refine ⟨i, hi, hlength, j, ho, hj, Int.ofNat.inj hfull, ?_⟩
  rw [hpush _ (List.cons_ne_nil _ _), if_pos hfull]

/-- Where there is room for no chunk, a token that is looked at has one all the same. -/
example : ((Input.ofLines ["x"] false true { chunks := 0 }).peek {}).state?.map
    (·.chunks.map (·.tokens.length)) = some [1] := by
  decide +kernel

end Input

end Galley
