import Galley.Proofs.Answers
import Galley.Proofs.Passing
import Galley.Proofs.Validity

/-!
The stack of pending replacements where no definition has parameters. A call then reads nothing but
its name and puts its replacement on top, once the empty chunks there have been dropped. A
`Discipline` is an invariant of the chunks under which there is room whenever a name has been read:
it holds of every input that expansion passes, in runs that never end as well, and no call finds the
stack full. Tail calls are the first such discipline: where names occur in replacements at the end
alone, one chunk is enough.
-/

namespace Galley

/-! ## Calls without arguments -/

namespace Definition

theorem fill_literals (args : Arguments) (ts : List Lexeme) :
    fill args (ts.map .literal) = some ts := by
  induction ts with
  | nil => rfl
  | cons t ts ih => simp [fill, ih]

@[simp] theorem substitute_ofTokens (ts : List Lexeme) (args : Arguments) :
    (ofTokens ts).substitute args = some ts := fill_literals args ts

theorem ofTokens_inj {ts us : List Lexeme} (h : ofTokens ts = ofTokens us) : ts = us := by
  have hs := congrArg (substitute · .empty) h
  simpa using hs

theorem exists_literals_of_checkParts {parts : List Part} (h : checkParts 0 parts = .ok ()) :
    ∃ ts : List Lexeme, parts = ts.map .literal := by
  induction parts with
  | nil => exact ⟨[], rfl⟩
  | cons p parts ih =>
    cases p with
    | literal t =>
      obtain ⟨ts, rfl⟩ := ih h
      exact ⟨t :: ts, rfl⟩
    | reference n =>
      simp only [checkParts] at h
      split at h
      · omega
      · cases h

/-- Without parameters there is nothing to refer to, so the replacement is a list of tokens. -/
theorem exists_ofTokens {d : Definition} (hd : d.Valid) (hp : d.parameters = []) :
    ∃ ts, d = ofTokens ts := by
  obtain ⟨count, hc, hr⟩ := hd
  obtain ⟨parameters, replacement⟩ := d
  simp only at hp
  subst hp
  cases hc
  obtain ⟨ts, rfl⟩ := exists_literals_of_checkParts hr
  exact ⟨ts, rfl⟩

end Definition

/-- Definitions that are valid and have no parameters. -/
def Tables.Parameterless (tables : Tables) : Prop :=
  ∀ name d, tables.meaning? name = some d → d.Valid ∧ d.parameters = []

/-- The token is a name that a definition has been given to. -/
def Tables.Calls (tables : Tables) (t : Lexeme) : Prop := (tables.meaning? t.token).isSome

namespace Tables.Parameterless

variable {tables : Tables} {name : Token} {d : Definition}

theorem exists_tokens (h : tables.Parameterless) (hd : tables.meaning? name = some d) :
    ∃ ts, tables.meaning? name = some (.ofTokens ts) := by
  obtain ⟨ts, rfl⟩ := Definition.exists_ofTokens (h name d hd).1 (h name d hd).2
  exact ⟨ts, hd⟩

end Tables.Parameterless

/-- The faults of the text itself: characters of it that strict reading refuses, and parts of
conditionals without the other parts. -/
def Cause.OfText (strict : Bool) : Cause → Prop
  | .invalidCharacter _ => strict = true
  | .extraElse | .extraFi | .incompleteConditional => True
  | _ => False

theorem Cause.OfText.ne_capacity {strict : Bool} {f : Fault} (h : f.cause.OfText strict) :
    ¬ f.OfCapacity := by
  rintro ⟨limit, hf⟩
  rw [hf] at h
  exact h

/-! ## Disciplines -/

/-- `inv` holds of the chunks at all times, `ready` where a name has just been read. -/
structure Discipline (tables : Tables) (limit : Int) (inv : List Chunk → Prop)
    (ready : Lexeme → List Chunk → Prop) : Prop where
  empty : inv []
  taken : ∀ {chunks rest t}, Input.takePending chunks = some (t, rest) → inv chunks → inv rest
  called : ∀ {chunks rest t}, Input.takePending chunks = some (t, rest) → inv chunks →
    tables.Calls t → ready t rest
  scanned : ∀ {t}, tables.Calls t → ready t []
  room : ∀ {t chunks}, ready t chunks → ((Input.dropEmpty chunks).length : Int) < limit
  pushed : ∀ {t chunks ts}, ready t chunks → tables.meaning? t.token = some (.ofTokens ts) →
    ∀ origin, inv (⟨ts, origin⟩ :: Input.dropEmpty chunks)

/-- An input whose chunks are as they are to be. -/
structure Input.Disciplined (strict : Bool) (limit : Int) (inv : List Chunk → Prop)
    (i : Input) : Prop where
  chunks : inv i.chunks
  strict : i.lexer.strict = strict
  limit : i.capacity.chunks = limit

namespace Discipline

variable {tables : Tables} {limit : Int} {inv : List Chunk → Prop}
  {ready : Lexeme → List Chunk → Prop} {strict : Bool} {rounds : Nat} {i : Input}

/-- A fault of the text, in an input that can be read on. -/
def Sound (strict : Bool) (limit : Int) (inv : List Chunk → Prop) (f : Fault) (i : Input) : Prop :=
  i.Disciplined strict limit inv ∧ f.cause.OfText strict

/-- A raw reading keeps the invariant, and a name that it delivers can be called. -/
theorem next_disciplined (h : Discipline tables limit inv ready)
    (hi : i.Disciplined strict limit inv) :
    (i.next tables.alphabet).Ensures
      (fun x j => j.Disciplined strict limit inv ∧ ∀ t, x = some t → tables.Calls t →
        ready t j.chunks) (Sound strict limit inv) := by
  cases ht : Input.takePending i.chunks with
  | some p =>
    obtain ⟨t, rest⟩ := p
    rw [Input.next_of_pending ht]
    refine ⟨⟨h.taken ht hi.chunks, hi.strict, hi.limit⟩, ?_⟩
    rintro u hu hc
    cases hu
    exact h.called ht hi.chunks hc
  | none =>
    have hl := i.lexer.next_leaves tables.alphabet
    rw [Input.next_of_lexer ht]
    cases hn : i.lexer.next tables.alphabet with
    | token t l =>
      rw [hn] at hl
      refine ⟨⟨h.empty, hl.1.trans hi.strict, hi.limit⟩, ?_⟩
      rintro u hu hc
      exact h.scanned hc
    | invalid c place l =>
      rw [hn] at hl
      exact ⟨⟨h.empty, hl.1.trans hi.strict, hi.limit⟩, hi.strict ▸ hl.2.2⟩
    | finished l =>
      rw [hn] at hl
      refine ⟨⟨h.empty, hl.1.trans hi.strict, hi.limit⟩, ?_⟩
      rintro u hu
      cases hu

theorem next_stays (h : Discipline tables limit inv ready) (i : Input)
    (hi : i.Disciplined strict limit inv) :
    (i.next tables.alphabet).Ensures (fun _ j => j.Disciplined strict limit inv)
      (Sound strict limit inv) :=
  (h.next_disciplined hi).mono (fun _ _ hj => hj.1) fun _ _ hf => hf

/-- A reader keeps the discipline at all times, and fails for the text alone. -/
abbrev Keeps (tables : Tables) (rounds : Nat) (strict : Bool) (limit : Int)
    (inv : List Chunk → Prop) {α : Type} (r : Reader RawRequest α) (i : Input) : Prop :=
  r.Passes (watched tables rounds) rounds (Input.Disciplined strict limit inv) i
    (fun _ j => j.Disciplined strict limit inv) (Sound strict limit inv)

/-- A skip passes over names without calling them. -/
theorem skip_keeps (h : Discipline tables limit inv ready) (toElse : Bool)
    (hi : i.Disciplined strict limit inv) :
    Keeps tables rounds strict limit inv (.ask (.skip toElse)) i := by
  refine .ask (Input.forall_mem_consumeStates h.next_stays (fun _ _ hf => hf.1) rounds
    (skipper i.nested toElse) hi) ?_
  refine Outcome.Ensures.andThen
    ((Input.consume_keeps h.next_stays rounds _ hi).mono (fun landed j hj => ?_) fun _ _ hf => hf)
  cases landed with
  | some landed => exact hj
  | none => exact ⟨hj, trivial⟩

theorem openBranch_keeps (hi : i.Disciplined strict limit inv) :
    Keeps tables rounds strict limit inv (.ask .openBranch) i :=
  .ask_once rfl ⟨hi.chunks, hi.strict, hi.limit⟩ (fun _ _ hj => hj) fun _ _ hf => hf.1

theorem closeBranch_keeps (hi : i.Disciplined strict limit inv) :
    Keeps tables rounds strict limit inv (.ask .closeBranch) i := by
  have hclose : i.closeBranch.Ensures (fun _ j => j.Disciplined strict limit inv)
      (Sound strict limit inv) := by
    unfold Input.closeBranch
    split
    · exact hi
    · exact ⟨hi.chunks, hi.strict, hi.limit⟩
  exact .ask_once rfl hclose (fun _ _ hj => hj) fun _ _ hf => hf.1

theorem resolve_keeps (h : Discipline tables limit inv ready) (b : Branch)
    (hi : i.Disciplined strict limit inv) :
    Keeps tables rounds strict limit inv (Expansion.resolve b) i := by
  cases b with
  | opening taken =>
    cases taken with
    | true => exact openBranch_keeps hi
    | false =>
      refine .bind ((h.skip_keeps true hi).mono fun landed j hj => ?_)
      cases landed with
      | true => exact openBranch_keeps hj
      | false => exact .pure hj
  | alternative =>
    refine .bind ((closeBranch_keeps hi).mono fun closed j hj => ?_)
    cases closed with
    | true => exact .bind ((h.skip_keeps false hj).mono fun _ k hk => .pure hk)
    | false => exact .fail ⟨hj, trivial⟩
  | closing =>
    refine .bind ((closeBranch_keeps hi).mono fun closed j hj => ?_)
    cases closed with
    | true => exact .pure hj
    | false => exact .fail ⟨hj, trivial⟩

/-- There is room for the replacement of a name that has been read: empty chunks are dropped before
the stack is measured. -/
theorem push_disciplined (h : Discipline tables limit inv ready) {t : Lexeme} {ts : List Lexeme}
    (hi : i.Disciplined strict limit inv) (ht : ready t i.chunks)
    (hm : tables.meaning? t.token = some (.ofTokens ts)) (origin : Option String) :
    (i.push ⟨ts, origin⟩).Ensures (fun _ j => j.Disciplined strict limit inv)
      (Sound strict limit inv) := by
  have hroom := h.room ht
  unfold Input.push
  split
  · exact hi
  · dsimp only
    rw [hi.limit, if_neg (by omega)]
    exact ⟨h.pushed ht hm origin, hi.strict, hi.limit⟩

theorem call_keeps (h : Discipline tables limit inv ready) {t : Lexeme} {ts : List Lexeme}
    (hi : i.Disciplined strict limit inv) (ht : ready t i.chunks)
    (hm : tables.meaning? t.token = some (.ofTokens ts)) :
    Keeps tables rounds strict limit inv (Expansion.call t.token (.ofTokens ts)) i := by
  -- the arguments of no parameters are read without reading a token
  have hcapture : (Reader.ask (.consume (Definition.capture (.ofTokens ts)))).Passes
      (watched tables rounds) rounds (Input.Disciplined strict limit inv) i
      (fun captured j => captured = .ok .empty ∧ j = i) (Sound strict limit inv) :=
    .ask (List.forall_mem_nil _) ⟨rfl, rfl⟩
  refine .bind (hcapture.mono ?_)
  rintro captured j ⟨rfl, rfl⟩
  simp only [Definition.substitute_ofTokens]
  exact .ask_once rfl (h.push_disciplined hi ht hm _) (fun _ _ hk => hk) fun _ _ hf => hf.1

/-- A step keeps the discipline: what it has read as a name there is room to call. -/
theorem step_keeps (h : Discipline tables limit inv ready) (hp : tables.Parameterless)
    (hi : i.Disciplined strict limit inv) :
    Keeps tables rounds strict limit inv Expansion.step i := by
  have hnext : (Reader.ask .next).Passes (watched tables rounds) rounds
      (Input.Disciplined strict limit inv) i (fun x j => j.Disciplined strict limit inv ∧
        ∀ t, x = some t → tables.Calls t → ready t j.chunks) (Sound strict limit inv) :=
    .ask_once rfl (h.next_disciplined hi) (fun _ _ hj => hj.1) fun _ _ hf => hf.1
  refine .bind (hnext.mono ?_)
  rintro x j ⟨hj, hready⟩
  cases x with
  | none => exact .pure hj
  | some t =>
    dsimp only
    split
    · exact .bind ((h.resolve_keeps _ hj).mono fun _ k hk => .pure hk)
    · have hmeaning : (Reader.ask (.meaning t.token)).Passes (watched tables rounds) rounds
          (Input.Disciplined strict limit inv) j
          (fun d k => d = tables.meaning? t.token ∧ k = j) (Sound strict limit inv) :=
        .ask (List.forall_mem_singleton.mpr hj) ⟨rfl, rfl⟩
      refine .bind (hmeaning.mono ?_)
      rintro d k ⟨rfl, rfl⟩
      cases hm : tables.meaning? t.token with
      | none => exact .pure hj
      | some d =>
        obtain ⟨ts, hts⟩ := hp.exists_tokens hm
        cases hm.symm.trans hts
        exact .bind ((h.call_keeps hj (hready t rfl (by simp [Tables.Calls, hm])) hts).mono
          fun _ _ hk => .pure hk)

/-- So does a call of expansion, in any number of rounds. -/
theorem expansion_keeps (h : Discipline tables limit inv ready) (hp : tables.Parameterless)
    (rounds : Nat) (hi : i.Disciplined strict limit inv) :
    Keeps tables rounds strict limit inv Expansion.next i := by
  refine .loop (fun _ j => j.Disciplined strict limit inv) (fun _ j hj => ?_) hi
  refine (h.step_keeps hp hj).mono fun turn k hk => ?_
  cases turn with
  | again u => exact hk
  | finish x => exact hk

theorem nextExpanded_ensures (h : Discipline tables limit inv ready) (hp : tables.Parameterless)
    (rounds : Nat) (hi : i.Disciplined strict limit inv) :
    (i.nextExpanded tables rounds).Ensures (fun _ j => j.Disciplined strict limit inv)
      (Sound strict limit inv) :=
  (h.expansion_keeps hp rounds hi).ends

/-- A reading of all that is left fails for the text alone, if it fails. -/
theorem drain_sound (h : Discipline tables limit inv ready) (hp : tables.Parameterless)
    (rounds n : Nat) (hi : i.Disciplined strict limit inv) :
    (i.drain tables rounds n).ending.Ensures (fun _ _ => True) (Sound strict limit inv) := by
  induction n generalizing i with
  | zero => trivial
  | succ n ih =>
    have hends := h.nextExpanded_ensures hp rounds hi
    rw [Input.drain_succ]
    cases ho : i.nextExpanded tables rounds with
    | unfinished => trivial
    | failed f j =>
      rw [ho] at hends
      exact hends
    | done x j =>
      rw [ho] at hends
      cases x with
      | none => trivial
      | some t => exact ih hends

end Discipline

/-! ## One call after the other -/

/-- Calls of expansion lead from one input to another, each in some number of rounds and delivering
a token, the end or a fault. -/
inductive Input.Called (tables : Tables) : Input → Input → Prop
  | refl (i : Input) : Called tables i i
  | again {i j k : Input} (rounds : Nat) (before : Called tables i j)
    (h : (j.nextExpanded tables rounds).state? = some k) : Called tables i k

theorem Input.Called.disciplined {tables : Tables} {limit : Int} {inv : List Chunk → Prop}
    {ready : Lexeme → List Chunk → Prop} {strict : Bool} {i j : Input}
    (h : Discipline tables limit inv ready) (hp : tables.Parameterless)
    (hi : i.Disciplined strict limit inv) (hj : Called tables i j) :
    j.Disciplined strict limit inv := by
  induction hj with
  | refl => exact hi
  | again rounds before ho ih =>
    rcases (passed_endsAt ho).mem with rfl | hk
    · exact ih
    · exact (h.expansion_keeps hp rounds ih).through _ hk

/-! ## Tail calls -/

/-- A name occurs in a replacement as its last token alone. -/
def Tables.CallsLast (tables : Tables) : Prop :=
  ∀ name ts, tables.meaning? name = some (.ofTokens ts) → ∀ t ∈ ts.dropLast, ¬ tables.Calls t

namespace Tables

variable {tables : Tables} {chunks rest : List Chunk} {t : Lexeme}

/-- There is one chunk at most, and no name in it but at its end. -/
def OneChunk (tables : Tables) (chunks : List Chunk) : Prop :=
  chunks = [] ∨ ∃ c, chunks = [c] ∧ ∀ t ∈ c.tokens.dropLast, ¬ tables.Calls t

theorem OneChunk.length_le (h : tables.OneChunk chunks) : chunks.length ≤ 1 := by
  rcases h with rfl | ⟨c, rfl, -⟩
  · exact Nat.zero_le 1
  · exact Nat.le_refl 1

/-- What is read from one chunk leaves that chunk, and behind a name in it there is nothing. -/
theorem OneChunk.of_takePending (h : tables.OneChunk chunks)
    (ht : Input.takePending chunks = some (t, rest)) :
    tables.OneChunk rest ∧ (tables.Calls t → Input.dropEmpty rest = []) := by
  rcases h with rfl | ⟨⟨ts, origin⟩, rfl, hc⟩
  · cases ht
  · cases ts with
    | nil => cases ht
    | cons u us =>
      cases ht
      cases us with
      | nil => exact ⟨Or.inr ⟨_, rfl, List.forall_mem_nil _⟩, fun _ => rfl⟩
      | cons v vs =>
        obtain ⟨hu, hvs⟩ := List.forall_mem_cons.mp hc
        exact ⟨Or.inr ⟨_, rfl, hvs⟩, fun h => absurd h hu⟩

theorem CallsLast.discipline (h : tables.CallsLast) {limit : Int} (hl : 1 ≤ limit) :
    Discipline tables limit tables.OneChunk fun _ chunks => Input.dropEmpty chunks = [] where
  empty := Or.inl rfl
  taken ht hc := (hc.of_takePending ht).1
  called ht hc := (hc.of_takePending ht).2
  scanned _ := rfl
  room hr := by
    rw [hr]
    exact hl
  pushed hr hm origin := by
    rw [hr]
    exact Or.inr ⟨_, rfl, h _ _ hm⟩

end Tables

/-- Tail calls use no stack. Where no definition has parameters and names occur in replacements at
the end alone, an input that calls of expansion lead to from a new one never holds more than one
chunk, nor does any that the next call passes, even if it never ends; and no call finds the stack
full. -/
theorem Input.tail_calls_one_chunk {tables : Tables} (hp : tables.Parameterless)
    (hl : tables.CallsLast) {capacity : Capacity} (hc : 1 ≤ capacity.chunks) (lines : List String)
    (strict nested : Bool) {i : Input}
    (hi : Called tables (ofLines lines strict nested capacity) i) (rounds : Nat) :
    i.chunks.length ≤ 1 ∧ (∀ j ∈ i.passed tables rounds, j.chunks.length ≤ 1) ∧
      ¬ (i.nextExpanded tables rounds).FailedBy Fault.OfCapacity := by
  have hd := hl.discipline hc
  have hstart : (ofLines lines strict nested capacity).Disciplined strict capacity.chunks
      tables.OneChunk := ⟨hd.empty, rfl, rfl⟩
  have hi' := hi.disciplined hd hp hstart
  have hpassed := (hd.expansion_keeps hp rounds hi').through
  refine ⟨hi'.chunks.length_le, fun j hj => (hpassed j hj).chunks.length_le, ?_⟩
  exact (hd.nextExpanded_ensures hp rounds hi').not_failedBy fun _ _ hf => hf.2.ne_capacity

/-- A letter, a branch that is not taken, and a call of the same name again. -/
def selfCall : List Lexeme :=
  [⟨.ch 'x' .letter, none⟩, ⟨.cs "iffalse", none⟩, ⟨.ch 'y' .letter, none⟩, ⟨.cs "fi", none⟩,
    ⟨.cs "a", none⟩]

/-- One name stands for the tokens. -/
def Tables.standingFor (ts : List Lexeme) : Tables :=
  Tables.assign {} (.define (.cs "a") (.ofTokens ts))

def repeatedly : Tables := .standingFor selfCall

theorem Input.tail_calls_one_chunk_repeatedly :
    repeatedly.Parameterless ∧ repeatedly.CallsLast ∧
      ∃ i, Called repeatedly (ofLines ["\\a"] false true { chunks := 1 }) i ∧
        i.nextExpanded repeatedly 9 = .done (some ⟨.ch 'x' .letter, none⟩) i ∧
        i.chunks.length ≤ 1 ∧ (∀ j ∈ i.passed repeatedly 9, j.chunks.length ≤ 1) ∧
        ¬ (i.nextExpanded repeatedly 9).FailedBy Fault.OfCapacity := by
  have hm : ∀ name d, repeatedly.meaning? name = some d → d = .ofTokens selfCall := by
    intro name d hd
    rw [repeatedly, Tables.standingFor, Tables.meaning?_define, Tables.meaning?_fresh] at hd
    split at hd
    · exact (Option.some.inj hd).symm
    · cases hd
  have hp : repeatedly.Parameterless := by
    intro name d hd
    cases hm name d hd
    exact ⟨⟨0, rfl, rfl⟩, rfl⟩
  have hl : repeatedly.CallsLast := by
    intro name ts hts
    cases Definition.ofTokens_inj (hm name _ hts)
    simp [selfCall, Tables.Calls, repeatedly, Tables.standingFor, Tables.meaning?_define,
      Tables.meaning?_fresh]
  -- behind the letter there is the same input once more
  obtain ⟨i, hi, hnext⟩ : ∃ i, Called repeatedly (ofLines ["\\a"] false true { chunks := 1 }) i ∧
      i.nextExpanded repeatedly 9 = .done (some ⟨.ch 'x' .letter, none⟩) i :=
    ⟨_, .again 9 (.refl _) rfl, rfl⟩
  exact ⟨hp, hl, i, hi, hnext, tail_calls_one_chunk hp hl (by decide) _ _ _ hi 9⟩

/-- Tokens of the chunks in the second call: the branch is skipped, the name read, and the chunk
that this leaves empty makes room for the next one. -/
example : (((Input.ofLines ["\\a"] false true { chunks := 1 }).nextExpanded repeatedly
    9).state?.toList.flatMap fun i => (i.passed repeatedly 9).map fun j =>
      j.chunks.map (·.tokens.length)) = [[3], [2], [1], [0], [0], [5], [4], [4]] := by
  decide +kernel

/-- Tokens behind a name keep their chunk, and the next replacement finds no room above it. -/
example : ((Input.ofLines ["\\a"] false true { chunks := 1 }).drain
    (.standingFor (selfCall ++ selfCall)) 9 9).ending.FailedBy
      (fun f => f.cause = .capacity { chunks := 1 }) := by
  decide +kernel

end Galley
