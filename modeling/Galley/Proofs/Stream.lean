import Galley.Proofs.Places

/-!
The stream of an input: its pending tokens, top chunk first, and then all tokens of what is left of
its lines. Without strict reading every operation is one on the stream, so how the tokens are split
over chunks and lines cannot be told from the replies to any sequence of calls.
-/

namespace Galley

/-! ## Lines -/

namespace Lexer

variable {a : Alphabet} {l : Lexer}

theorem deliveriesWithin_of_lenient (h : l.strict = false) (n : Nat) :
    deliveriesWithin a n l = (drainWithin a n l).tokens.map .token := by
  induction n generalizing l with
  | zero => rfl
  | succ n ih =>
    have hs := l.next_leaves a
    simp only [deliveriesWithin, drainWithin]
    cases hn : l.next a with
    | token t after =>
      rw [hn] at hs
      simp only [ih (hs.1.trans h), List.map_cons]
    | invalid c place after =>
      rw [hn] at hs
      exact absurd (h.symm.trans hs.2.2) Bool.false_ne_true
    | finished after => rfl

theorem deliveries_of_lenient (h : l.strict = false) :
    l.deliveries a = (l.drain a).tokens.map .token := by
  rw [← deliveriesWithin_eq a (Nat.le_succ (l.size a)), deliveriesWithin_of_lenient h]
  rfl

/-- Lenient reading takes the first token of what is left, or there is none. -/
theorem next_of_lenient (a : Alphabet) (h : l.strict = false) :
    (∃ t after, l.next a = .token t after ∧ after.strict = false ∧
      (l.drain a).tokens = t :: (after.drain a).tokens) ∨
    ∃ after, l.next a = .finished after ∧ after.strict = false ∧
      (l.drain a).tokens = [] ∧ (after.drain a).tokens = [] := by
  have hs := l.next_leaves a
  have hd := l.deliveries_next a
  rw [deliveries_of_lenient h] at hd
  cases hn : l.next a with
  | token t after =>
    rw [hn] at hs hd
    have hafter : after.strict = false := hs.1.trans h
    simp only [deliveries_of_lenient hafter] at hd
    refine Or.inl ⟨t, after, rfl, hafter, ?_⟩
    exact List.map_inj_right (fun _ _ => Delivery.token.inj) |>.mp hd
  | invalid c place after =>
    rw [hn] at hs
    exact absurd (h.symm.trans hs.2.2) Bool.false_ne_true
  | finished after =>
    rw [hn] at hs hd
    have hafter : after.strict = false := hs.1.trans h
    have hend := deliveries_finished hn
    rw [deliveries_of_lenient hafter] at hend
    exact Or.inr ⟨after, rfl, hafter, List.map_eq_nil_iff.mp hd, List.map_eq_nil_iff.mp hend⟩

end Lexer

/-! ## The stream -/

namespace Input

def stream (a : Alphabet) (i : Input) : List Lexeme := pending i.chunks ++ (i.lexer.drain a).tokens

/-- An input has become one with this stream, and is otherwise what expansion took it for. -/
structure Becomes (a : Alphabet) (i : Input) (ts : List Lexeme) (j : Input) : Prop where
  stream : j.stream a = ts
  strict : j.lexer.strict = i.lexer.strict
  nested : j.nested = i.nested
  openBranches : j.openBranches = i.openBranches

variable {a : Alphabet} {i j : Input}

/-- Empty chunks hold none of the stream. -/
theorem stream_dropEmpty (a : Alphabet) (i : Input) :
    i.stream a = pending (dropEmpty i.chunks) ++ (i.lexer.drain a).tokens := by
  rw [pending_dropEmpty]
  rfl

theorem next_stream (h : i.lexer.strict = false) :
    ∃ j, i.next a = .done (i.stream a).head? j ∧ i.Becomes a (i.stream a).tail j := by
  cases ht : takePending i.chunks with
  | some p =>
    obtain ⟨t, chunks⟩ := p
    have hi : i.stream a = t :: (pending chunks ++ (i.lexer.drain a).tokens) := by
      rw [stream, pending_takePending ht, List.cons_append]
    rw [next_of_pending ht, hi]
    exact ⟨_, rfl, rfl, rfl, rfl, rfl⟩
  | none =>
    have hi : i.stream a = (i.lexer.drain a).tokens := by
      rw [stream, (takePending_eq_none_iff i.chunks).mp ht, List.nil_append]
    rw [next_of_lexer ht, hi]
    rcases Lexer.next_of_lenient a h with ⟨t, after, hn, hs, hd⟩ | ⟨after, hn, hs, hd, hafter⟩
    · simp only [hn, hd]
      exact ⟨_, rfl, rfl, hs.trans h.symm, rfl, rfl⟩
    · simp only [hn, hd]
      exact ⟨_, rfl, hafter, hs.trans h.symm, rfl, rfl⟩

/-- The top chunk has a token. -/
theorem dropEmpty_ne_nil_cons (chunks more : List Chunk) (origin : Option String) :
    dropEmpty chunks ≠ ⟨[], origin⟩ :: more := by
  induction chunks with
  | nil => exact nofun
  | cons c chunks ih =>
    obtain ⟨ts, origin'⟩ := c
    cases ts with
    | nil => exact ih
    | cons t ts =>
      intro h
      cases h

theorem peek_stream (h : i.lexer.strict = false) :
    ∃ j, i.peek a = .done (i.stream a).head? j ∧ i.Becomes a (i.stream a) j := by
  have hi := i.stream_dropEmpty a
  unfold peek
  cases hc : dropEmpty i.chunks with
  | cons c more =>
    rw [hc] at hi
    obtain ⟨ts, origin⟩ := c
    cases ts with
    | nil => exact absurd hc (dropEmpty_ne_nil_cons _ _ _)
    | cons t ts =>
      rw [hi]
      exact ⟨_, rfl, rfl, rfl, rfl, rfl⟩
  | nil =>
    rw [hc] at hi
    rcases Lexer.next_of_lenient a h with ⟨t, after, hn, hs, hd⟩ | ⟨after, hn, hs, hd, hafter⟩
    · rw [hi, hd]
      simp only [lex, hn]
      exact ⟨_, rfl, rfl, hs.trans h.symm, rfl, rfl⟩
    · rw [hi, hd]
      simp only [lex, hn]
      exact ⟨_, rfl, hafter, hs.trans h.symm, rfl, rfl⟩

/-- Tokens are put before the stream, unless as many chunks as there may be have tokens left. -/
theorem push_stream (a : Alphabet) (i : Input) (c : Chunk) :
    (∃ j, i.push c = .done () j ∧ i.Becomes a (c.tokens ++ i.stream a) j) ∨
      i.capacity.chunks ≤ (dropEmpty i.chunks).length ∧
        ∃ f j, i.push c = .failed f j ∧ f.OfCapacity := by
  have hi := i.stream_dropEmpty a
  unfold push
  split
  · rename_i hc
    rw [List.isEmpty_iff.mp hc]
    exact Or.inl ⟨i, rfl, rfl, rfl, rfl, rfl⟩
  · dsimp only
    split
    · rename_i hroom
      exact Or.inr ⟨hroom, _, _, rfl, _, rfl⟩
    · refine Or.inl ⟨_, rfl, ?_, rfl, rfl, rfl⟩
      rw [hi, ← List.append_assoc]
      rfl

/-! ## Two inputs of one stream -/

/-- Lenient inputs of one stream, however it is split and wherever its tokens come from. -/
structure SameStream (a : Alphabet) (i j : Input) : Prop where
  lenient : i.lexer.strict = false ∧ j.lexer.strict = false
  tokens : SameTokens (i.stream a) (j.stream a)
  nested : i.nested = j.nested
  openBranches : i.openBranches = j.openBranches

theorem SameStream.become {ts us : List Lexeme} {i' j' : Input} (h : SameStream a i j)
    (hi : i.Becomes a ts i') (hj : j.Becomes a us j') (hs : SameTokens ts us) :
    SameStream a i' j' where
  lenient := ⟨hi.strict.trans h.lenient.1, hj.strict.trans h.lenient.2⟩
  tokens := by rwa [hi.stream, hj.stream]
  nested := by rw [hi.nested, hj.nested, h.nested]
  openBranches := by rw [hi.openBranches, hj.openBranches, h.openBranches]

theorem next_matches (h : SameStream a i j) :
    (i.next a).Matches Fault.OfCapacity (Option.Rel SameToken) (SameStream a) (j.next a) := by
  obtain ⟨i', hi, hbi⟩ := next_stream (a := a) h.lenient.1
  obtain ⟨j', hj, hbj⟩ := next_stream (a := a) h.lenient.2
  rw [hi, hj]
  exact .done h.tokens.head? (h.become hbi hbj h.tokens.tail)

theorem peek_matches (h : SameStream a i j) :
    (i.peek a).Matches Fault.OfCapacity (Option.Rel SameToken) (SameStream a) (j.peek a) := by
  obtain ⟨i', hi, hbi⟩ := peek_stream (a := a) h.lenient.1
  obtain ⟨j', hj, hbj⟩ := peek_stream (a := a) h.lenient.2
  rw [hi, hj]
  exact .done h.tokens.head? (h.become hbi hbj h.tokens)

theorem push_matches (h : SameStream a i j) {ts us : List Lexeme} (hs : SameTokens ts us)
    (origin : Option String) :
    (i.push ⟨ts, origin⟩).Matches Fault.OfCapacity Eq (SameStream a) (j.push ⟨us, origin⟩) := by
  rcases i.push_stream a ⟨ts, origin⟩ with ⟨i', hi, hbi⟩ | ⟨-, f, i', hi, hf⟩
  · rcases j.push_stream a ⟨us, origin⟩ with ⟨j', hj, hbj⟩ | ⟨-, f, j', hj, hf⟩
    · rw [hi, hj]
      exact .done rfl (h.become hbi hbj (hs.append h.tokens))
    · rw [hj]
      exact .lostRight hf
  · rw [hi]
    exact .lostLeft hf

theorem mirrors_sameStream (a : Alphabet) : Mirrors a Fault.OfCapacity (SameStream a) where
  next _ _ h := next_matches h
  push _ _ _ _ origin h hs := push_matches h hs origin
  nested _ _ h := h.nested
  openBranches _ _ h := h.openBranches
  opened _ _ _ h := ⟨h.lenient, h.tokens, h.nested, rfl⟩

end Input

/-! ## Sequences of calls -/

/-- A call that may be made of an input. -/
inductive Call
  | peek
  | next
  | expanded
  | back (ts : List Lexeme)
  deriving DecidableEq, Repr

/-- What a call comes to; nothing is returned for tokens that are put back. -/
def Call.answer (tables : Tables) (rounds : Nat) : Call → Input → Outcome Input (Option Lexeme)
  | .peek, i => i.peek tables.alphabet
  | .next, i => i.next tables.alphabet
  | .expanded, i => i.nextExpanded tables rounds
  | .back ts, i => (i.back ts).map fun _ => none

/-- A token without its place or the end of input, or what went wrong. -/
abbrev Reply := Except Cause (Option Token)

namespace Input

/-- The reply to a call that came to this, and the replies to more calls. -/
def repliesTo (more : Input → List Reply) : Outcome Input (Option Lexeme) → List Reply
  | .done x i => .ok (x.map (·.token)) :: more i
  | .failed f i => .error f.cause :: more i
  | .unfinished => []

/-- The replies to calls one after the other, up to one that is not completed. -/
def replies (tables : Tables) (rounds : Nat) : List Call → Input → List Reply
  | [], _ => []
  | c :: calls, i => repliesTo (replies tables rounds calls) (c.answer tables rounds i)

variable {tables : Tables} {i j : Input}

theorem answer_matches (rounds : Nat) (c : Call) (h : SameStream tables.alphabet i j) :
    (c.answer tables rounds i).Matches Fault.OfCapacity (Option.Rel SameToken)
      (SameStream tables.alphabet) (c.answer tables rounds j) := by
  cases c with
  | peek => exact peek_matches h
  | next => exact next_matches h
  | expanded => exact (mirrors_sameStream tables.alphabet).nextExpanded rounds h
  | back ts =>
    simp only [Call.answer, back, Outcome.map_eq_andThen]
    exact (push_matches h rfl none).andThen fun _ _ _ _ _ h => .done .none h

/-- Says that there is no room for another chunk. -/
def overCapacity : Reply → Bool
  | .error (.capacity _) => true
  | _ => false

def HasRoom (replies : List Reply) : Prop := ∀ r ∈ replies, overCapacity r = false

instance (replies : List Reply) : Decidable (HasRoom replies) :=
  inferInstanceAs (Decidable (∀ r ∈ replies, overCapacity r = false))

theorem HasRoom.of_cons {r : Reply} {rs : List Reply} (h : HasRoom (r :: rs)) : HasRoom rs :=
  (List.forall_mem_cons.mp h).2

theorem not_hasRoom_repliesTo {o : Outcome Input (Option Lexeme)}
    (h : o.FailedBy Fault.OfCapacity) (more : Input → List Reply) :
    ¬HasRoom (repliesTo more o) := by
  intro hroom
  cases o with
  | failed f i =>
    obtain ⟨limit, hf⟩ := h
    have hr := hroom (.error f.cause) List.mem_cons_self
    rw [hf] at hr
    exact absurd hr nofun
  | done x i => exact h
  | unfinished => exact h

theorem replies_eq (rounds : Nat) {calls : List Call} (h : SameStream tables.alphabet i j)
    (hi : HasRoom (i.replies tables rounds calls)) (hj : HasRoom (j.replies tables rounds calls)) :
    i.replies tables rounds calls = j.replies tables rounds calls := by
  induction calls generalizing i j with
  | nil => rfl
  | cons c calls ih =>
    have hc := answer_matches rounds c h
    rw [replies] at hi hj ⊢
    rw [replies]
    generalize c.answer tables rounds i = o at hc hi ⊢
    generalize c.answer tables rounds j = p at hc hj ⊢
    cases hc with
    | lostLeft h => exact absurd hi (not_hasRoom_repliesTo h _)
    | lostRight h => exact absurd hj (not_hasRoom_repliesTo h _)
    | done hv hs =>
      simp only [repliesTo] at hi hj ⊢
      rw [ih hs hi.of_cons hj.of_cons, map_token_eq hv]
    | failed hf hs =>
      simp only [repliesTo] at hi hj ⊢
      rw [ih hs hi.of_cons hj.of_cons, hf]
    | unfinished => rfl

/-- On the stream of a lenient input, looking ahead finds the head, reading takes it off, and tokens
that are put back come first as long as there is room for a chunk; and inputs of one stream, with as
many branches open, reply alike to all calls as long as there is room in both. -/
theorem refines_stream (h : i.lexer.strict = false) :
    (∃ j, i.peek tables.alphabet = .done (i.stream tables.alphabet).head? j ∧
      i.Becomes tables.alphabet (i.stream tables.alphabet) j) ∧
    (∃ j, i.next tables.alphabet = .done (i.stream tables.alphabet).head? j ∧
      i.Becomes tables.alphabet (i.stream tables.alphabet).tail j) ∧
    (∀ ts, (∃ j, i.back ts = .done () j ∧
        i.Becomes tables.alphabet (ts ++ i.stream tables.alphabet) j) ∨
      i.capacity.chunks ≤ (dropEmpty i.chunks).length ∧
        ∃ f j, i.back ts = .failed f j ∧ f.OfCapacity) ∧
    ∀ j, SameStream tables.alphabet i j → ∀ rounds calls,
      HasRoom (i.replies tables rounds calls) → HasRoom (j.replies tables rounds calls) →
      i.replies tables rounds calls = j.replies tables rounds calls :=
  ⟨peek_stream h, next_stream h, fun ts => push_stream tables.alphabet i ⟨ts, none⟩,
    fun _ hs rounds _ hi hj => replies_eq rounds hs hi hj⟩

/-- A call and its argument, all still to be read from a line. -/
def unread : Input := .ofLines ["\\m]b"] false true { chunks := 9 }

/-- The same call in one chunk, its argument in another, above an empty one. -/
def inChunks : Input :=
  { Input.ofLines ["b"] false true { chunks := 3 } with
    chunks := [⟨[⟨.cs "m", none⟩], none⟩, ⟨[⟨.ch ']' .other, none⟩], some "n"⟩, ⟨[], none⟩] }

/-- A call with one argument, which is doubled. -/
def doubling : Tables :=
  { definitions := Table.empty.set (.cs "m") ⟨[.parameter 1], [.reference 1, .reference 1]⟩ }

/-- A macro is expanded, and then again where it finds no argument. -/
def trial : List Call :=
  [.peek, .expanded, .expanded, .expanded, .back [⟨.cs "m", none⟩], .expanded, .next]

theorem refines_stream_of_call :
    (∃ j, unread.peek {} = .done (unread.stream {}).head? j ∧
      unread.Becomes {} (unread.stream {}) j) ∧
    unread.replies doubling 9 trial = inChunks.replies doubling 9 trial := by
  obtain ⟨hpeek, -, -, hreplies⟩ := @refines_stream doubling unread rfl
  have hs : SameStream {} unread inChunks :=
    ⟨by decide, by unfold SameTokens; decide +kernel, rfl, rfl⟩
  exact ⟨hpeek, hreplies inChunks hs 9 trial (by decide +kernel) (by decide +kernel)⟩

end Input

end Galley
