import Galley.Proofs.Extension
import Galley.Proofs.Places
import Mathlib.Data.List.Forall2

/-!
Expansion of lines one part after the other. Where nothing is left of the first lines and no branch
is open, an input goes on with the lines behind as a new one does (`Alongside`), so the expansion of
all lines is that of the first ones followed by that of the others.
-/

namespace Galley

/-! ## Lexers -/

/-- In the same place of a line, or both at the end of one. -/
def Cursor.Alongside (c d : Cursor) : Prop := c = d ∨ c.rest = [] ∧ d.rest = []

/-- Lexers with the same lines before them. -/
structure Lexer.Alongside (l m : Lexer) : Prop where
  strict : l.strict = m.strict
  pending : l.pending = m.pending
  cursor : l.cursor.Alongside m.cursor

/-- Two scans find the same. -/
inductive Scanned.Alongside : Scanned → Scanned → Prop
  | token (t : Token) (start : Nat) (after : Cursor) :
    Alongside (.token t start after) (.token t start after)
  | invalid (c : Char) (start : Nat) (after : Cursor) :
    Alongside (.invalid c start after) (.invalid c start after)
  | finished {c d : Cursor} (h : c.Alongside d) : Alongside (.finished c) (.finished d)

/-- Two readings come to the same token, invalid character or end. -/
inductive Lexed.Alongside : Lexed → Lexed → Prop
  | token {t u : Lexeme} {l m : Lexer} (ht : t.token = u.token) (h : l.Alongside m) :
    Alongside (.token t l) (.token u m)
  | invalid (c : Char) (p q : Position) {l m : Lexer} (h : l.Alongside m) :
    Alongside (.invalid c p l) (.invalid c q m)
  | finished {l m : Lexer} (h : l.Alongside m) : Alongside (.finished l) (.finished m)

theorem Scanned.Alongside.refl (o : Scanned) : o.Alongside o := by
  cases o with
  | token t start after => exact .token t start after
  | invalid c start after => exact .invalid c start after
  | finished after => exact .finished (Or.inl rfl)

theorem Cursor.Alongside.scan {c d : Cursor} (h : c.Alongside d) (cats : CategoryTable)
    (strict : Bool) : (c.scan cats strict).Alongside (d.scan cats strict) := by
  rcases h with rfl | ⟨hc, hd⟩
  · exact .refl _
  · rw [Lexer.scan_of_rest hc, Lexer.scan_of_rest hd]
    exact .finished (Or.inr ⟨hc, hd⟩)

namespace Lexer

theorem nextFrom_alongside (a : Alphabet) (pending : List String) {l m : Lexer}
    (h : l.Alongside m) : (l.nextFrom a pending).Alongside (m.nextFrom a pending) := by
  have hs := h.cursor.scan a.categories l.strict
  rw [nextFrom.eq_def, nextFrom.eq_def a m, ← h.strict]
  generalize l.cursor.scan a.categories l.strict = x at hs ⊢
  generalize m.cursor.scan a.categories l.strict = y at hs ⊢
  cases hs with
  | token t start after => exact .token rfl ⟨rfl, h.pending, Or.inl rfl⟩
  | invalid c start after => exact .invalid c _ _ ⟨rfl, h.pending, Or.inl rfl⟩
  | finished hafter =>
    cases pending with
    | nil => exact .finished ⟨rfl, h.pending, hafter⟩
    -- both come to the beginning of the next line, wherever they were in the last one
    | cons line more => exact nextFrom_alongside a more ⟨h.strict, rfl, Or.inl rfl⟩

theorem next_alongside (a : Alphabet) {l m : Lexer} (h : l.Alongside m) :
    (l.next a).Alongside (m.next a) := by
  rw [next, next, h.pending]
  exact nextFrom_alongside a m.pending h

end Lexer

/-! ## Inputs -/

namespace Input

/-- What reading never changes. -/
def settings (i : Input) : Capacity × Bool × Bool := (i.capacity, i.nested, i.lexer.strict)

variable {a : Alphabet} {i j : Input}

theorem next_settings (a : Alphabet) (i : Input) :
    (i.next a).Ensures (fun _ j => j.settings = i.settings)
      (fun _ j => j.settings = i.settings) := by
  cases ht : takePending i.chunks with
  | some p =>
    obtain ⟨t, chunks⟩ := p
    rw [next_of_pending ht]
    rfl
  | none =>
    have hs := i.lexer.next_leaves a
    rw [next_of_lexer ht]
    cases hn : i.lexer.next a with
    | token t l =>
      rw [hn] at hs
      simp only [Outcome.Ensures, settings, hs.1]
    | invalid c place l =>
      rw [hn] at hs
      simp only [Outcome.Ensures, settings, hs.1]
    | finished l =>
      rw [hn] at hs
      simp only [Outcome.Ensures, settings, hs.1]

theorem push_settings (i : Input) (c : Chunk) :
    (i.push c).Ensures (fun _ j => j.settings = i.settings)
      (fun _ j => j.settings = i.settings) := by
  unfold push
  split
  · rfl
  · dsimp only
    split
    · rfl
    · rfl

theorem rawAnswer_settings {tables : Tables} (rounds : Nat) {γ : Type} (q : RawRequest γ)
    (s : Capacity × Bool × Bool) (i : Input) (h : i.settings = s) :
    (q.answer tables rounds i).Ensures (fun _ j => j.settings = s) (fun _ j => j.settings = s) := by
  subst h
  have hconsume : ∀ {β : Type} (c : Consumer β),
      (i.consume tables.alphabet rounds c).Ensures (fun _ j => j.settings = i.settings)
        (fun _ j => j.settings = i.settings) :=
    fun c => consume_keeps (fun j hj => hj ▸ next_settings _ j) rounds c rfl
  cases q with
  | next => exact next_settings tables.alphabet i
  | push ts origin => exact push_settings i _
  | consume c => exact hconsume c
  | skip toElse =>
    refine Outcome.Ensures.andThen ((hconsume _).mono (fun landed j hj => ?_) fun _ _ hj => hj)
    cases landed with
    | some landed => exact hj
    | none => exact hj
  | meaning t => rfl
  | openBranch => rfl
  | closeBranch =>
    simp only [RawRequest.answer, closeBranch]
    split
    · rfl
    · rfl

theorem nextExpanded_settings {tables : Tables} {rounds : Nat} {x : Option Lexeme}
    (h : i.nextExpanded tables rounds = .done x j) : j.settings = i.settings := by
  have hk : (i.nextExpanded tables rounds).Ensures _ _ :=
    @Reader.run_keeps _ _ _ (rawHandler tables rounds) (fun j => j.settings = i.settings)
      (fun q j hj => rawAnswer_settings rounds q _ j hj) rounds Expansion.next _ rfl
  rw [h] at hk
  exact hk

/-- Chunk by chunk the same tokens. -/
abbrev SameChunks : List Chunk → List Chunk → Prop :=
  List.Forall₂ fun c d => SameTokens c.tokens d.tokens

/-- Inputs that will be read alike: the chunks hold the same tokens, the lexers the same lines. -/
structure Alongside (i j : Input) : Prop where
  capacity : i.capacity = j.capacity
  nested : i.nested = j.nested
  lexer : i.lexer.Alongside j.lexer
  chunks : SameChunks i.chunks j.chunks
  openBranches : i.openBranches = j.openBranches

section chunks

variable {cs ds : List Chunk}

theorem takePending_alongside (h : SameChunks cs ds) :
    Option.Rel (fun p q => p.1.token = q.1.token ∧ SameChunks p.2 q.2) (takePending cs)
      (takePending ds) := by
  induction h with
  | nil => exact .none
  | @cons c d cs ds hc hs ih =>
    obtain ⟨ts, origin⟩ := c
    obtain ⟨us, origin'⟩ := d
    cases ts with
    | nil =>
      cases us with
      | nil => exact ih
      | cons u us => cases hc
    | cons t ts =>
      cases us with
      | nil => cases hc
      | cons u us =>
        obtain ⟨ht, htail⟩ := SameTokens.of_cons hc
        exact .some ⟨ht, .cons htail hs⟩

theorem dropEmpty_alongside (h : SameChunks cs ds) :
    SameChunks (dropEmpty cs) (dropEmpty ds) := by
  induction h with
  | nil => exact .nil
  | @cons c d cs ds hc hs ih =>
    simp only [dropEmpty, SameTokens.isEmpty hc]
    split
    · exact ih
    · exact .cons hc hs

end chunks

theorem next_alongside (a : Alphabet) (h : Alongside i j) :
    (i.next a).Matches (fun _ => False) (Option.Rel SameToken) Alongside (j.next a) := by
  have htake := takePending_alongside h.chunks
  cases hi : takePending i.chunks with
  | some p =>
    rw [hi] at htake
    cases hj : takePending j.chunks with
    | none =>
      rw [hj] at htake
      cases htake
    | some q =>
      rw [hj] at htake
      cases htake with
      | some hpq =>
        obtain ⟨t, cs⟩ := p
        obtain ⟨u, ds⟩ := q
        rw [next_of_pending hi, next_of_pending hj]
        exact .done (.some hpq.1) ⟨h.capacity, h.nested, h.lexer, hpq.2, h.openBranches⟩
  | none =>
    rw [hi] at htake
    cases hj : takePending j.chunks with
    | some q =>
      rw [hj] at htake
      cases htake
    | none =>
      rw [next_of_lexer hi, next_of_lexer hj]
      have hl := Lexer.next_alongside a h.lexer
      generalize i.lexer.next a = x at hl ⊢
      generalize j.lexer.next a = y at hl ⊢
      cases hl with
      | token ht hl => exact .done (.some ht) ⟨h.capacity, h.nested, hl, .nil, h.openBranches⟩
      | invalid c p q hl => exact .failed rfl ⟨h.capacity, h.nested, hl, .nil, h.openBranches⟩
      | finished hl => exact .done .none ⟨h.capacity, h.nested, hl, .nil, h.openBranches⟩

theorem push_alongside (h : Alongside i j) {ts us : List Lexeme} (hs : SameTokens ts us)
    (origin : Option String) :
    (i.push ⟨ts, origin⟩).Matches (fun _ => False) Eq Alongside (j.push ⟨us, origin⟩) := by
  have hdrop := dropEmpty_alongside h.chunks
  unfold push
  simp only [hs.isEmpty, h.capacity, hdrop.length_eq]
  split
  · exact .done rfl h
  · split
    · exact .failed rfl ⟨rfl, h.nested, h.lexer, hdrop, h.openBranches⟩
    · exact .done rfl ⟨rfl, h.nested, h.lexer, .cons hs hdrop, h.openBranches⟩

theorem mirrors_alongside (a : Alphabet) : Mirrors a (fun _ => False) Alongside where
  next _ _ h := next_alongside a h
  push _ _ _ _ origin h hs := push_alongside h hs origin
  nested _ _ h := h.nested
  openBranches _ _ h := h.openBranches
  opened _ _ _ h := ⟨h.capacity, h.nested, h.lexer, h.chunks, rfl⟩

/-- Two readings to the end deliver the same tokens and end alike. -/
structure SameDrained (d d' : Drained) : Prop where
  tokens : SameTokens d.tokens d'.tokens
  ending : d.ending.Matches (fun _ => False) Eq Alongside d'.ending

theorem drain_alongside (tables : Tables) (rounds n : Nat) (h : Alongside i j) :
    SameDrained (i.drain tables rounds n) (j.drain tables rounds n) := by
  induction n generalizing i j with
  | zero => exact ⟨.nil, .unfinished⟩
  | succ n ih =>
    have hn := (mirrors_alongside tables.alphabet).nextExpanded rounds h
    rw [drain_succ, drain_succ]
    generalize i.nextExpanded tables rounds = x at hn ⊢
    generalize j.nextExpanded tables rounds = y at hn ⊢
    cases hn with
    | lostLeft h => exact absurd h x.not_failedBy
    | lostRight h => exact absurd h y.not_failedBy
    | failed hf hs => exact ⟨.nil, .failed hf hs⟩
    | unfinished => exact ⟨.nil, .unfinished⟩
    | done hv hs =>
      cases hv with
      | none => exact ⟨.nil, .done rfl hs⟩
      | some ht => exact ⟨(ih hs).tokens.cons ht, (ih hs).ending⟩

/-! ## One part after the other -/

variable {tables : Tables} {k : Input} {ts us : List Lexeme}

theorem DrainsIn.settings {rounds : Nat} (h : DrainsIn tables rounds (.done () k) i ts) :
    k.settings = i.settings := by
  induction h with
  | last hn => exact nextExpanded_settings hn
  | next hn rest ih => exact ih.trans (nextExpanded_settings hn)

/-- An input of which nothing is left begins anew with the lines behind. -/
theorem alongside_extend (more : List String) {lines : List String} {strict nested : Bool}
    {capacity : Capacity} (hover : k.Over)
    (hs : k.settings = (ofLines lines strict nested capacity).settings) (hb : k.openBranches = 0) :
    Alongside (k.extend more) (ofLines more strict nested capacity) where
  capacity := congrArg (·.1) hs
  nested := congrArg (·.2.1) hs
  lexer := by
    refine ⟨congrArg (·.2.2) hs, ?_, Or.inr ⟨hover.2.2, rfl⟩⟩
    change k.lexer.pending ++ more = more
    rw [hover.2.1, List.nil_append]
  chunks := by
    change SameChunks k.chunks []
    rw [hover.1]
    exact .nil
  openBranches := hb

/-- What remains of one input, and then what remains of another that goes on like it. -/
theorem drains_append {more : List String} {rounds r m : Nat} {p : Outcome Input Unit}
    (h : DrainsIn tables rounds (.done () k) i ts) (hk : Alongside (k.extend more) j)
    (hj : j.drain tables r m = ⟨us, p⟩) (hp : p ≠ .unfinished) :
    ∃ vs o, Drains tables (i.extend more) (ts ++ vs) o ∧ SameTokens vs us ∧
      o.Matches (fun _ => False) Eq Alongside p := by
  have hsame := drain_alongside tables r m hk
  rw [hj] at hsame
  generalize hd : (k.extend more).drain tables r m = d at hsame
  obtain ⟨vs, o⟩ := d
  have ho : o ≠ .unfinished := by
    rintro rfl
    cases hsame.ending with
    | lostRight h => exact p.not_failedBy h
    | unfinished => exact hp rfl
    | lostLeft h => exact h
  have hdrains : Drains tables (k.extend more) vs o := (drainsIn_of_drain hd ho).drains ho
  exact ⟨vs, o, h.extend.2 more vs o hdrains, hsame.tokens, hsame.ending⟩

end Input

namespace Engine

/-- The tokens that have been delivered when expansion ends, in whatever way. -/
def produced (rounds : Nat) (e : Engine) : List Lexeme :=
  (e.machine.input.drain e.machine.tables rounds rounds).tokens

/-- The engine with another input. -/
def onto (e : Engine) (i : Input) : Engine := { e with machine := { e.machine with input := i } }

variable {e f : Engine} {i : Input} {rounds : Nat} {ts : List Lexeme}

theorem expand_of_drain
    (h : e.machine.input.drain e.machine.tables rounds rounds = ⟨ts, .done () i⟩) :
    e.expand rounds = .done ts (e.onto i) := by
  unfold expand
  rw [h]
  rfl

theorem expand_of_drain_failed {fault : Fault}
    (h : e.machine.input.drain e.machine.tables rounds rounds = ⟨ts, .failed fault i⟩) :
    e.expand rounds = .failed fault (e.onto i) ∧ e.produced rounds = ts := by
  unfold expand produced
  rw [h]
  exact ⟨rfl, rfl⟩

theorem drain_of_expand (h : e.expand rounds = .done ts f) :
    e.machine.input.drain e.machine.tables rounds rounds = ⟨ts, .done () f.machine.input⟩ := by
  unfold expand at h
  generalize e.machine.input.drain e.machine.tables rounds rounds = d at h ⊢
  obtain ⟨us, o⟩ := d
  cases o with
  | done u i =>
    cases h
    rfl
  | failed fault i => cases h
  | unfinished => cases h

theorem drain_of_expand_failed {fault : Fault} (h : e.expand rounds = .failed fault f) :
    e.machine.input.drain e.machine.tables rounds rounds =
      ⟨e.produced rounds, .failed fault f.machine.input⟩ := by
  unfold expand at h
  unfold produced
  generalize e.machine.input.drain e.machine.tables rounds rounds = d at h ⊢
  obtain ⟨us, o⟩ := d
  cases o with
  | done u i => cases h
  | failed fault i =>
    cases h
    rfl
  | unfinished => cases h

/-- Lines are expanded one part after the other: if the expansion of the first ones ends without a
fault and leaves no branch open, the expansion of all delivers what comes of the first ones and then
what comes of the others by themselves, and ends as that does, up to the places of the tokens. -/
theorem expand_append {config : Config} {metrics : Metrics} {tables : Tables}
    {first second : List String}
    (h : (start config metrics tables first).expand rounds = .done ts e)
    (hb : e.machine.input.openBranches = 0) :
    (∀ n us f, (start config metrics tables second).expand n = .done us f →
      ∃ vs g enough, SameTokens vs (ts ++ us) ∧ ∀ m, enough ≤ m →
        (start config metrics tables (first ++ second)).expand m = .done vs g) ∧
    ∀ n fault f, (start config metrics tables second).expand n = .failed fault f →
      ∃ fault' g enough, fault'.cause = fault.cause ∧ ∀ m, enough ≤ m →
        (start config metrics tables (first ++ second)).expand m = .failed fault' g ∧
        SameTokens ((start config metrics tables (first ++ second)).produced m)
          (ts ++ (start config metrics tables second).produced n) := by
  have hd := Input.drainsIn_of_drain (drain_of_expand h) (by simp)
  have hk := Input.alongside_extend second hd.extend.1 hd.settings hb
  constructor
  · intro n us f hf
    have hj := drain_of_expand hf
    obtain ⟨vs, o, ⟨enough, hm⟩, hs, ho⟩ := Input.drains_append hd hk hj (by simp)
    cases ho with
    | lostLeft h => exact absurd h o.not_failedBy
    | lostRight h => exact h.elim
    | @done u _ i =>
      refine ⟨ts ++ vs, (start config metrics tables (first ++ second)).onto i, enough,
        .append rfl hs, fun m hr => ?_⟩
      exact expand_of_drain (hm m m hr hr)
  · intro n fault f hf
    have hj := drain_of_expand_failed hf
    obtain ⟨vs, o, ⟨enough, hm⟩, hs, ho⟩ := Input.drains_append hd hk hj (by simp)
    cases ho with
    | lostLeft h => exact absurd h o.not_failedBy
    | lostRight h => exact h.elim
    | @failed fault' _ i _ hcause =>
      refine ⟨fault', (start config metrics tables (first ++ second)).onto i, enough, hcause,
        fun m hr => ?_⟩
      obtain ⟨hx, hp⟩ := expand_of_drain_failed
        (e := start config metrics tables (first ++ second)) (hm m m hr hr)
      exact ⟨hx, hp ▸ .append rfl hs⟩

/-- A macro that stands for its argument twice. -/
def repeating : Tables :=
  { definitions := Table.empty.set (.cs "m") ⟨[.parameter 1], [.reference 1, .reference 1]⟩ }

/-- A line with a conditional, its end in a comment. -/
def chosen : List String := ["\\iftrue\\m{a}\\fi b  % c"]

/-- Lines with the end of a conditional that they do not begin. -/
def closed : List String := ["\\m d", "\\fi"]

theorem expand_append_chosen :
    ∃ ts e, (start {} {} repeating chosen).expand 9 = .done ts e ∧
      e.machine.input.openBranches = 0 ∧
      ∃ fault g enough, fault.cause = .extraFi ∧ ∀ m, enough ≤ m →
        (start {} {} repeating (chosen ++ closed)).expand m = .failed fault g ∧
        SameTokens ((start {} {} repeating (chosen ++ closed)).produced m)
          (ts ++ (start {} {} repeating closed).produced 9) := by
  obtain ⟨ts, e, h, hb⟩ : ∃ ts e, (start {} {} repeating chosen).expand 9 = .done ts e ∧
      e.machine.input.openBranches = 0 := ⟨_, _, rfl, rfl⟩
  obtain ⟨fault, f, hf, hc⟩ : ∃ fault f, (start {} {} repeating closed).expand 9 =
      .failed fault f ∧ fault.cause = .extraFi := ⟨_, _, rfl, rfl⟩
  obtain ⟨fault', g, enough, hcause, hm⟩ := (expand_append h hb).2 9 fault f hf
  exact ⟨ts, e, h, hb, fault', g, enough, hcause.trans hc, hm⟩

end Engine

end Galley
