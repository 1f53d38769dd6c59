import Galley.Notice
import Galley.Proofs.Reaching
import Mathlib.Data.List.Nodup

/-!
The chain of calls. A ledger of what has happened numbers the calls, and says of each pending token
whose replacement it is from. The chain that faults come with names the calls that have such tokens,
outermost first. The name is the spelling without leading backslashes: this is the name of a control
sequence unless that name itself begins with one.
-/

namespace Galley

/-- Calls are numbered in their order, so that two calls of one name are told apart. -/
structure Invocation where
  number : Nat
  name : Token
  deriving DecidableEq, Repr

/-- All calls so far, and the pending tokens, each with the call whose replacement it is from. -/
structure Ledger where
  calls : List Invocation := []
  unread : List (Lexeme × Option Invocation) := []
  deriving DecidableEq, Repr

namespace Ledger

/-- What is pending is read first. A replacement is that of the last call, and what is put back is
of none. -/
def note (l : Ledger) : InputEvent → Ledger
  | .read _ | .skipped _ => { l with unread := l.unread.tail }
  | .called name => { l with calls := l.calls ++ [⟨l.calls.length, name⟩] }
  | .replaced ts => { l with unread := ts.map (·, l.calls.getLast?) ++ l.unread }
  | .returned ts => { l with unread := ts.map (·, none) ++ l.unread }
  | .opened | .closed => l

def of (events : List InputEvent) : Ledger := events.foldl note {}

/-- The calls whose replacements have unread tokens. -/
def active (l : Ledger) : List Invocation := l.calls.filter fun c => some c ∈ l.unread.map (·.2)

theorem of_append (events : List InputEvent) (e : InputEvent) :
    of (events ++ [e]) = (of events).note e := by
  rw [of, List.foldl_append]
  rfl

theorem note_numbered {l : Ledger} (h : l.calls.map (·.number) = List.range l.calls.length)
    (e : InputEvent) : (l.note e).calls.map (·.number) = List.range (l.note e).calls.length := by
  cases e with
  | called name => simp [note, h, List.range_succ]
  | read t => exact h
  | skipped t => exact h
  | replaced ts => exact h
  | returned ts => exact h
  | opened => exact h
  | closed => exact h

/-- Later calls have larger numbers. -/
theorem calls_increasing (events : List InputEvent) :
    (of events).calls.Pairwise fun c d => c.number < d.number := by
  have hnumbers : (of events).calls.map (·.number) = List.range (of events).calls.length :=
    List.foldlRecOn events note (motive := fun l => l.calls.map (·.number) =
      List.range l.calls.length) rfl fun _ h e _ => note_numbered h e
  exact List.pairwise_map.mp (hnumbers ▸ List.pairwise_lt_range)

theorem nodup_calls (events : List InputEvent) : (of events).calls.Nodup := by
  refine (calls_increasing events).imp ?_
  rintro c d h rfl
  exact Nat.lt_irrefl _ h

end Ledger

def Recorded.ledger (r : Recorded Input) : Ledger := .of r.events

/-! ## Chunks and calls -/

/-- Chunks with the pending tokens they hold, and the calls of those that are replacements, the last
call first. -/
inductive Owned : List Chunk → List (Lexeme × Option Invocation) → List Invocation → Prop
  | nil : Owned [] [] []
  | returned {chunks : List Chunk} {unread : List (Lexeme × Option Invocation)}
    {owners : List Invocation} (ts : List Lexeme) (below : Owned chunks unread owners) :
    Owned (⟨ts, none⟩ :: chunks) (ts.map (·, none) ++ unread) owners
  | replaced {chunks : List Chunk} {unread : List (Lexeme × Option Invocation)}
    {owners : List Invocation} (ts : List Lexeme) (c : Invocation)
    (below : Owned chunks unread owners) :
    Owned (⟨ts, some (Expansion.originOf c.name)⟩ :: chunks) (ts.map (·, some c) ++ unread)
      (c :: owners)

namespace Owned

variable {chunks rest : List Chunk} {unread : List (Lexeme × Option Invocation)}
  {owners : List Invocation} {t : Lexeme}

theorem tokens (h : Owned chunks unread owners) : unread.map (·.1) = Input.pending chunks := by
  induction h with
  | nil => rfl
  | returned ts below ih => simp [ih, Input.pending, Function.comp_def]
  | replaced ts c below ih => simp [ih, Input.pending, Function.comp_def]

theorem mem_owners {c : Invocation} (h : Owned chunks unread owners)
    (hc : some c ∈ unread.map (·.2)) : c ∈ owners := by
  induction h with
  | nil => cases hc
  | returned ts below ih =>
    rw [List.map_append, List.mem_append] at hc
    rcases hc with hc | hc
    · simp at hc
    · exact ih hc
  | replaced ts d below ih =>
    rw [List.map_append, List.mem_append] at hc
    rcases hc with hc | hc
    · have hd : d = c := by simp at hc; exact hc.2
      exact hd ▸ List.mem_cons_self
    · exact List.mem_cons_of_mem d (ih hc)

/-- The names of the chunks that have tokens left are those of the calls that have. -/
theorem origins (h : Owned chunks unread owners) (hn : owners.Nodup) :
    chunks.filterMap (fun c => if c.tokens.isEmpty then none else c.origin) =
      (owners.filter fun c => some c ∈ unread.map (·.2)).map
        fun c => Expansion.originOf c.name := by
  induction h with
  | nil => rfl
  | returned ts below ih =>
    rw [List.filterMap_cons_none (by simp), ih hn]
    congr 1
    exact List.filter_congr fun c _ => by simp
  | @replaced chunks unread owners ts c below ih =>
    obtain ⟨hc, hn⟩ := List.nodup_cons.mp hn
    have hrest : owners.filter (fun d => some d ∈ (ts.map (·, some c) ++ unread).map (·.2)) =
        owners.filter fun d => some d ∈ unread.map (·.2) := by
      refine List.filter_congr fun d hd => ?_
      have hne : c ≠ d := fun h => hc (h ▸ hd)
      simp [hne]
    cases ts with
    | nil =>
      have hnone : ¬ some c ∈ unread.map (·.2) := fun h => hc (below.mem_owners h)
      rw [List.filterMap_cons_none rfl, List.filter_cons_of_neg (by simpa using hnone), hrest]
      exact ih hn
    | cons t ts =>
      rw [List.filter_cons_of_pos (by simp), hrest, List.map_cons, ← ih hn]
      rfl

theorem of_dropEmpty (h : Owned chunks unread owners) :
    ∃ owners', owners'.Sublist owners ∧ Owned (Input.dropEmpty chunks) unread owners' := by
  induction h with
  | nil => exact ⟨[], .slnil, .nil⟩
  | returned ts below ih =>
    cases ts with
    | nil => exact ih
    | cons t ts => exact ⟨_, .refl _, .returned (t :: ts) below⟩
  | replaced ts c below ih =>
    cases ts with
    | nil =>
      obtain ⟨owners', hs, h⟩ := ih
      exact ⟨owners', hs.cons c, h⟩
    | cons t ts => exact ⟨_, .refl _, .replaced (t :: ts) c below⟩

theorem of_takePending (h : Owned chunks unread owners)
    (ht : Input.takePending chunks = some (t, rest)) :
    ∃ owners', owners'.Sublist owners ∧ Owned rest unread.tail owners' := by
  obtain ⟨ts, origin, more, hd, rfl⟩ := Input.exists_of_takePending ht
  obtain ⟨owners', hs, h⟩ := h.of_dropEmpty
  rw [hd] at h
  cases h with
  | returned _ below => exact ⟨_, hs, .returned ts below⟩
  | replaced _ c below => exact ⟨_, hs, .replaced ts c below⟩

end Owned

/-- A list without repetitions is filtered as any part of it that has all that is kept. -/
theorem filter_eq_of_sublist {α : Type} [DecidableEq α] {xs ys : List α} (h : xs.Sublist ys)
    (hn : ys.Nodup) {p : α → Bool} (hp : ∀ y, p y → y ∈ xs) : ys.filter p = xs.filter p := by
  induction h generalizing p with
  | slnil => rfl
  | @cons xs ys y h ih =>
    obtain ⟨hy, hn⟩ := List.nodup_cons.mp hn
    rw [List.filter_cons_of_neg fun hpy => hy (h.subset (hp y hpy))]
    exact ih hn hp
  | @cons_cons xs ys y h ih =>
    obtain ⟨hy, hn⟩ := List.nodup_cons.mp hn
    -- behind `y` there is no other `y`
    have hrest : ys.filter (fun z => p z && z != y) = xs.filter fun z => p z && z != y := by
      refine ih hn fun z hz => ?_
      simp only [Bool.and_eq_true, bne_iff_ne] at hz
      exact List.mem_of_ne_of_mem hz.2 (hp z hz.1)
    have hwithout : ∀ zs : List α, y ∉ zs → zs.filter (fun z => p z && z != y) = zs.filter p :=
      fun zs hzs => List.filter_congr fun z hz => by simp [show z ≠ y from fun h => hzs (h ▸ hz)]
    rw [hwithout ys hy, hwithout xs fun hx => hy (h.subset hx)] at hrest
    rw [List.filter_cons, List.filter_cons, hrest]

/-! ## Accounts -/

/-- These are the calls, and the replacements among the chunks are those of some in `bound`. -/
structure Ledger.Accounts (calls bound : List Invocation) (l : Ledger) (chunks : List Chunk) :
    Prop where
  calls : l.calls = calls
  owned : ∃ owners, Owned chunks l.unread owners ∧ owners.reverse.Sublist bound

namespace Ledger.Accounts

variable {l : Ledger} {chunks rest : List Chunk} {calls bound before : List Invocation} {t : Lexeme}

theorem taken (h : l.Accounts calls bound chunks)
    (ht : Input.takePending chunks = some (t, rest)) :
    Accounts calls bound { l with unread := l.unread.tail } rest := by
  obtain ⟨hc, owners, ho, hs⟩ := h
  obtain ⟨owners', hsub, ho'⟩ := ho.of_takePending ht
  exact ⟨hc, owners', ho', hsub.reverse.trans hs⟩

theorem unread_eq_nil (h : l.Accounts calls bound chunks) (ht : Input.takePending chunks = none) :
    l.unread = [] := by
  obtain ⟨-, owners, ho, -⟩ := h
  have htokens := ho.tokens
  rw [(Input.takePending_eq_none_iff chunks).mp ht] at htokens
  exact List.map_eq_nil_iff.mp htokens

theorem cleared (h : l.Accounts calls bound chunks) (ht : Input.takePending chunks = none) :
    Accounts calls bound l [] :=
  ⟨h.calls, [], h.unread_eq_nil ht ▸ .nil, List.nil_sublist _⟩

theorem dropEmpty (h : l.Accounts calls bound chunks) :
    l.Accounts calls bound (Input.dropEmpty chunks) := by
  obtain ⟨hc, owners, ho, hs⟩ := h
  obtain ⟨owners', hsub, ho'⟩ := ho.of_dropEmpty
  exact ⟨hc, owners', ho', hsub.reverse.trans hs⟩

theorem returned (h : l.Accounts calls bound chunks) (ts : List Lexeme) :
    Accounts calls bound (l.note (.returned ts)) (⟨ts, none⟩ :: chunks) := by
  obtain ⟨hc, owners, ho, hs⟩ := h
  exact ⟨hc, owners, .returned ts ho, hs⟩

/-- The replacement of the last call, of which there was nothing yet. -/
theorem replaced {c : Invocation} (h : l.Accounts (before ++ [c]) before chunks)
    (ts : List Lexeme) :
    Accounts (before ++ [c]) (before ++ [c]) (l.note (.replaced ts))
      (⟨ts, some (Expansion.originOf c.name)⟩ :: chunks) := by
  obtain ⟨hc, owners, ho, hs⟩ := h
  have hlast : l.calls.getLast? = some c := by rw [hc, List.getLast?_concat]
  refine ⟨hc, c :: owners, ?_, ?_⟩
  · rw [note, hlast]
    exact .replaced ts c ho
  · rw [List.reverse_cons]
    exact hs.append (.refl [c])

theorem called (h : l.Accounts calls calls chunks) (name : Token) :
    Accounts (calls ++ [⟨calls.length, name⟩]) calls (l.note (.called name)) chunks :=
  ⟨by rw [note, h.calls], h.owned⟩

theorem mono {bound' : List Invocation} (h : l.Accounts calls bound chunks)
    (hb : bound.Sublist bound') : l.Accounts calls bound' chunks := by
  obtain ⟨hc, owners, ho, hs⟩ := h
  exact ⟨hc, owners, ho, hs.trans hb⟩

end Ledger.Accounts

namespace Recorded

/-- The calls and replacements are accounted for. -/
def Traced (calls bound : List Invocation) (r : Recorded Input) : Prop :=
  r.ledger.Accounts calls bound r.state.chunks

/-- Every replacement that is pending is that of a call of its own. -/
def Accounted (r : Recorded Input) : Prop := r.Traced r.ledger.calls r.ledger.calls

/-- The chain of the fault is that of the state it leaves. -/
def Blamed (f : Fault) (r : Recorded Input) : Prop := f.chain = r.state.chain

variable {r : Recorded Input} {i : Input} {events : List InputEvent} {e : InputEvent}
  {calls bound before : List Invocation} {rounds : Nat} {tables : Tables}

theorem Traced.accounted (h : r.Traced calls bound) (hb : bound.Sublist calls) : r.Accounted := by
  have hc : r.ledger.calls = calls := h.calls
  rw [Accounted, hc]
  exact Ledger.Accounts.mono h hb

/-- The chain names the calls that have unread tokens. -/
theorem Accounted.chain (h : r.Accounted) :
    r.state.chain = r.ledger.active.map fun c => Expansion.originOf c.name := by
  obtain ⟨-, owners, ho, hs⟩ := h
  have hn : r.ledger.calls.Nodup := Ledger.nodup_calls r.events
  have hactive : r.ledger.active =
      owners.reverse.filter fun c => some c ∈ r.ledger.unread.map (·.2) :=
    filter_eq_of_sublist hs hn fun c hc =>
      List.mem_reverse.mpr (ho.mem_owners (of_decide_eq_true hc))
  rw [Input.chain, ho.origins (List.nodup_reverse.mp (hs.nodup hn)), hactive, List.filter_reverse,
    List.map_reverse]

theorem traced_noted (h : ((Ledger.of events).note e).Accounts calls bound i.chunks) :
    (Recorded.mk i (events ++ [e])).Traced calls bound := by
  rw [Traced, ledger, Ledger.of_append]
  exact h

/-- Reads the next token, for whatever it is read. -/
theorem next_traced (as : Lexeme → InputEvent)
    (has : ∀ (l : Ledger) (t : Lexeme), l.note (as t) = { l with unread := l.unread.tail })
    (a : Alphabet) (h : r.Traced calls bound) :
    (r.next as a).Ensures (fun _ s => s.Traced calls bound)
      (fun f s => s.Traced calls bound ∧ Blamed f s) := by
  obtain ⟨i, events⟩ := r
  unfold next
  cases ht : Input.takePending i.chunks with
  | some p =>
    obtain ⟨t, rest⟩ := p
    rw [Input.next_of_pending ht]
    refine traced_noted ?_
    rw [has]
    exact h.taken ht
  | none =>
    rw [Input.next_of_lexer ht]
    cases i.lexer.next a with
    | token t l =>
      refine traced_noted ?_
      rw [has]
      -- nothing is unread, so that nothing is taken from what is unread
      have hunread : (Ledger.of events).unread = [] := h.unread_eq_nil ht
      rw [hunread, List.tail_nil, ← hunread]
      exact h.cleared ht
    | invalid c place l => exact ⟨h.cleared ht, rfl⟩
    | finished l =>
      simp only [Outcome.recorded, Option.toList_none, List.map_nil, List.append_nil]
      exact h.cleared ht

/-- A token that is looked at and had to be scanned is pending from then on. -/
theorem peek_traced (a : Alphabet) (h : r.Traced calls bound) :
    (r.peek a).Ensures (fun _ s => s.Traced calls bound)
      (fun f s => s.Traced calls bound ∧ Blamed f s) := by
  obtain ⟨i, events⟩ := r
  unfold peek Input.peek
  dsimp only
  cases hd : Input.dropEmpty i.chunks with
  | cons c more =>
    have hdropped := Ledger.Accounts.dropEmpty h
    rw [hd] at hdropped
    simp only [Outcome.recorded, reduceCtorEq, if_false, List.append_nil]
    exact hdropped
  | nil =>
    have ht : Input.takePending i.chunks = none := by
      rw [Input.takePending_eq_none_iff, ← Input.pending_dropEmpty, hd]
      rfl
    have hnil := h.cleared ht
    unfold Input.lex
    dsimp only
    cases i.lexer.next a with
    | token t l => exact traced_noted (hnil.returned [t])
    | invalid c place l => exact ⟨hnil, rfl⟩
    | finished l =>
      simp only [Outcome.recorded, if_true, Option.toList_none, List.map_nil, List.append_nil]
      exact hnil

/-- Puts a chunk on top, which changes nothing if it has no tokens. -/
theorem push_traced {bound' : List Invocation} {c : Chunk} {note : List Lexeme → InputEvent}
    (h : r.Traced calls bound)
    (hpush : ∀ chunks, r.ledger.Accounts calls bound chunks →
      (r.ledger.note (note c.tokens)).Accounts calls bound' (c :: chunks))
    (hempty : c.tokens = [] →
      (r.ledger.note (note c.tokens)).Accounts calls bound' r.state.chunks) :
    (r.push c note).Ensures (fun _ s => s.Traced calls bound')
      (fun f s => s.Traced calls bound ∧ Blamed f s) := by
  obtain ⟨i, events⟩ := r
  unfold push Input.push
  dsimp only
  split
  · rename_i hc
    exact traced_noted (hempty (List.isEmpty_iff.mp hc))
  · split
    · exact ⟨h.dropEmpty, rfl⟩
    · exact traced_noted (hpush _ h.dropEmpty)

theorem back_traced (h : r.Traced calls bound) (ts : List Lexeme) :
    (r.push ⟨ts, none⟩ .returned).Ensures (fun _ s => s.Traced calls bound)
      (fun f s => s.Traced calls bound ∧ Blamed f s) := by
  refine push_traced h (fun chunks hc => hc.returned ts) fun hts => ?_
  cases (show ts = [] from hts)
  exact h

theorem replace_traced {c : Invocation} (h : r.Traced (before ++ [c]) before) (ts : List Lexeme) :
    (r.push ⟨ts, some (Expansion.originOf c.name)⟩ .replaced).Ensures
      (fun _ s => s.Traced (before ++ [c]) (before ++ [c]))
      (fun f s => s.Traced (before ++ [c]) before ∧ Blamed f s) := by
  refine push_traced h (fun chunks hc => hc.replaced ts) fun hts => ?_
  cases (show ts = [] from hts)
  exact Ledger.Accounts.mono h (List.sublist_append_left before [c])

/-! ## Expansion -/

/-- Replacements and calls are accounted for at all times, and a fault has the chain of the state it
leaves. -/
abbrev Keeps (tables : Tables) (rounds : Nat) {α : Type} (x : Reader RawRequest α)
    (r : Recorded Input) : Prop :=
  x.Passes (rawRecorder tables rounds) rounds Accounted r (fun _ s => s.Accounted)
    fun f s => s.Accounted ∧ Blamed f s

theorem accounted_of_fault {f : Fault} (h : r.Traced calls bound ∧ Blamed f r)
    (hb : bound.Sublist calls) : r.Accounted ∧ Blamed f r := ⟨Traced.accounted h.1 hb, h.2⟩

/-- Reads with a consumer, under calls that no reading changes. -/
theorem consume_traced (as : Lexeme → InputEvent)
    (has : ∀ (l : Ledger) (t : Lexeme), l.note (as t) = { l with unread := l.unread.tail })
    (a : Alphabet) (rounds : Nat) {β : Type} (c : Consumer β) (h : r.Traced calls bound)
    (hb : bound.Sublist calls) :
    (∀ s ∈ r.consumeStates as a rounds c, s.Accounted) ∧
      (r.consume as a rounds c).Ensures (fun _ s => s.Traced calls bound)
        fun f s => s.Accounted ∧ Blamed f s := by
  obtain ⟨hin, hends⟩ := consume_passes (fun r hr => next_traced as has a hr) (fun _ _ hf => hf.1)
    rounds c h
  exact ⟨fun s hs => (hin s hs).accounted hb,
    hends.mono (fun _ _ hs => hs) fun _ _ hf => accounted_of_fault hf hb⟩

theorem skip_keeps (h : r.Accounted) (toElse : Bool) :
    Keeps tables rounds (.ask (.skip toElse)) r := by
  obtain ⟨hin, hends⟩ := consume_traced .skipped (fun _ _ => rfl) tables.alphabet
    rounds (skipper r.state.nested toElse) h (.refl _)
  refine .ask hin (Outcome.Ensures.andThen (hends.mono (fun landed s hs => ?_) fun _ _ hf => hf))
  cases landed with
  | some landed => exact hs.accounted (.refl _)
  | none => exact ⟨hs.accounted (.refl _), rfl⟩

theorem openBranch_keeps (h : r.Accounted) : Keeps tables rounds (.ask .openBranch) r := by
  have hopen : r.openBranch.Accounted :=
    Traced.accounted (traced_noted (i := { r.state with openBranches := _ }) h) (.refl _)
  exact .ask_once rfl hopen (fun _ _ hs => hs) fun _ _ hf => hf.1

theorem closeBranch_keeps (h : r.Accounted) : Keeps tables rounds (.ask .closeBranch) r := by
  have hclose : r.closeBranch.Ensures (fun _ s => s.Accounted)
      fun f s => s.Accounted ∧ Blamed f s := by
    unfold closeBranch Input.closeBranch
    split
    · simp only [Outcome.recorded, Bool.false_eq_true, if_false, List.append_nil]
      exact h
    · exact Traced.accounted (traced_noted (i := { r.state with openBranches := _ }) h) (.refl _)
  exact .ask_once rfl hclose (fun _ _ hs => hs) fun _ _ hf => hf.1

theorem resolve_keeps (b : Branch) (h : r.Accounted) :
    Keeps tables rounds (Expansion.resolve b) r := by
  cases b with
  | opening taken =>
    cases taken with
    | true => exact openBranch_keeps h
    | false =>
      refine .bind ((skip_keeps h true).mono fun landed s hs => ?_)
      cases landed with
      | true => exact openBranch_keeps hs
      | false => exact .pure hs
  | alternative =>
    refine .bind ((closeBranch_keeps h).mono fun closed s hs => ?_)
    cases closed with
    | true => exact .bind ((skip_keeps hs false).mono fun _ s hs => .pure hs)
    | false => exact .fail ⟨hs, rfl⟩
  | closing =>
    refine .bind ((closeBranch_keeps h).mono fun closed s hs => ?_)
    cases closed with
    | true => exact .pure hs
    | false => exact .fail ⟨hs, rfl⟩

/-- A call that has just been noted reads its arguments, which adds no call, and then puts its own
replacement on top. -/
theorem call_keeps {name : Token} {d : Definition}
    (h : r.Traced (before ++ [⟨before.length, name⟩]) before) :
    Keeps tables rounds (Expansion.call name d) r := by
  have hb : before.Sublist (before ++ [⟨before.length, name⟩]) :=
    List.sublist_append_left before [_]
  have hcapture : (Reader.ask (.consume d.capture)).Passes (rawRecorder tables rounds) rounds
      Accounted r (fun _ s => s.Traced (before ++ [⟨before.length, name⟩]) before)
      fun f s => s.Accounted ∧ Blamed f s :=
    .ask (consume_traced .read (fun _ _ => rfl) tables.alphabet rounds d.capture h hb).1
      (consume_traced .read (fun _ _ => rfl) tables.alphabet rounds d.capture h hb).2
  refine .bind (hcapture.mono fun captured s hs => ?_)
  cases captured with
  | error fault => exact .fail ⟨hs.accounted hb, rfl⟩
  | ok args =>
    dsimp only
    split
    · rename_i ts _
      refine .ask_once rfl ?_ (fun _ _ hs => hs) fun _ _ hf => hf.1
      exact (replace_traced (c := ⟨before.length, name⟩) hs ts).mono
        (fun _ _ hs => hs.accounted (.refl _)) fun _ _ hf => accounted_of_fault hf hb
    · exact .fail ⟨hs.accounted hb, rfl⟩

theorem step_keeps (h : r.Accounted) : Keeps tables rounds Expansion.step r := by
  have hnext : Keeps tables rounds (.ask .next) r :=
    .ask_once rfl ((next_traced .read (fun _ _ => rfl) tables.alphabet h).mono
      (fun _ _ hs => Traced.accounted hs (.refl _)) fun _ _ hf => accounted_of_fault hf (.refl _))
      (fun _ _ hs => hs) fun _ _ hf => hf.1
  refine .bind (hnext.mono fun x s hs => ?_)
  cases x with
  | none => exact .pure hs
  | some t =>
    dsimp only
    split
    · exact .bind ((resolve_keeps _ hs).mono fun _ s hs => .pure hs)
    · have hmeaning : (Reader.ask (.meaning t.token)).Passes (rawRecorder tables rounds) rounds
          Accounted s (fun d s' => s'.Accounted ∧ (d.isSome → ∃ before : List Invocation,
            s'.Traced (before ++ [⟨before.length, t.token⟩]) before))
          fun f s => s.Accounted ∧ Blamed f s := by
        have hcalled := traced_noted (i := s.state) (Ledger.Accounts.called hs t.token)
        refine .ask_once rfl ?_ (fun _ _ hs => hs.1) fun _ _ hf => hf.1
        change _ ∧ _
        cases tables.meaning? t.token with
        | none =>
          simp only [Option.isSome_none, Bool.false_eq_true, if_false, List.append_nil]
          exact ⟨hs, nofun⟩
        | some d =>
          exact ⟨Traced.accounted hcalled (List.sublist_append_left _ _), fun _ => ⟨_, hcalled⟩⟩
      refine .bind (hmeaning.mono ?_)
      rintro d s' ⟨hs', hcalled⟩
      cases d with
      | none => exact .pure hs'
      | some d =>
        obtain ⟨before, hb⟩ := hcalled rfl
        exact .bind ((call_keeps hb).mono fun _ _ hs => .pure hs)

theorem expansion_keeps (h : r.Accounted) : Keeps tables rounds Expansion.next r := by
  refine .loop (fun _ s => s.Accounted) (fun _ s hs => ?_) h
  refine (step_keeps hs).mono fun turn s hs => ?_
  cases turn with
  | again u => exact hs
  | finish x => exact hs

/-! ## Requests -/

/-- A request passes states that are accounted for, and comes to one. -/
theorem request_accounted {α : Type} (q : Request α) (h : r.Accounted) :
    (∀ s ∈ q.recordedStates tables rounds r, s.Accounted) ∧
      (q.record tables rounds r).Ensures (fun _ s => s.Accounted)
        fun f s => s.Accounted ∧ Blamed f s := by
  -- for the requests with which one state is passed
  have honce : ∀ {β : Type} {o : Outcome (Recorded Input) β},
      o.Ensures (fun _ s => s.Traced r.ledger.calls r.ledger.calls)
        (fun f s => s.Traced r.ledger.calls r.ledger.calls ∧ Blamed f s) →
      (∀ s ∈ o.state?.toList, s.Accounted) ∧
        o.Ensures (fun _ s => s.Accounted) fun f s => s.Accounted ∧ Blamed f s := by
    intro β o ho
    have ho' : o.Ensures (fun _ s => s.Accounted) fun f s => s.Accounted ∧ Blamed f s :=
      ho.mono (fun _ _ hs => hs.accounted (.refl _)) fun _ _ hf => accounted_of_fault hf (.refl _)
    exact ⟨fun s hs => ho'.of_state? (fun _ _ hs => hs) (fun _ _ hf => hf.1) (by simpa using hs),
      ho'⟩
  cases q with
  | expanded => exact ⟨(expansion_keeps h).through, (expansion_keeps h).ends⟩
  | unexpanded => exact honce (next_traced .read (fun _ _ => rfl) tables.alphabet h)
  | back ts => exact honce (back_traced h ts)
  | consume c =>
    obtain ⟨hin, hends⟩ := consume_traced .read (fun _ _ => rfl) tables.alphabet rounds c h
      (.refl _)
    exact ⟨hin, hends.mono (fun _ _ hs => hs.accounted (.refl _)) fun _ _ hf => hf⟩

theorem Reached.accounted (h : r.Reached) : r.Accounted := by
  induction h with
  | new lines strict nested capacity => exact ⟨rfl, [], .nil, List.nil_sublist _⟩
  | passed _ tables rounds q hs ih => exact (request_accounted q ih).1 _ hs
  | peeked _ a hs ih =>
    exact (peek_traced a ih).of_state? (fun _ _ hs => hs.accounted (.refl _))
      (fun _ _ hf => hf.1.accounted (.refl _)) hs

end Recorded

/-! ## Names -/

theorem Expansion.originOf_cs (name : String) :
    originOf (.cs name) = String.ofList (name.toList.dropWhile (· = '\\')) := by
  simp [originOf, Token.text]

/-- A control sequence is reported under its name, unless that begins with a backslash. -/
theorem Expansion.originOf_cs_eq_iff (name : String) :
    originOf (.cs name) = name ↔ name.toList.head? ≠ some '\\' := by
  rw [originOf_cs, ← String.toList_inj, String.toList_ofList]
  cases name.toList with
  | nil => simp
  | cons c cs =>
    by_cases hc : c = '\\'
    · have hshort := (List.dropWhile_suffix (l := cs) (· = '\\')).length_le
      have hne : cs.dropWhile (· = '\\') ≠ c :: cs := fun h => by
        rw [h, List.length_cons] at hshort
        omega
      simpa [hc] using hc ▸ hne
    · simp [hc]

/-! ## The chain -/

theorem Recorded.Reached.request_blamed {α : Type} (tables : Tables) (rounds : Nat) (q : Request α)
    {r : Recorded Input} (h : r.Reached) :
    (q.record tables rounds r).Ensures (fun _ _ => True) Recorded.Blamed :=
  (Recorded.request_accounted q h.accounted).2.mono (fun _ _ _ => trivial) fun _ _ hf => hf.2

/-- A request that fails has the chain of the state that it ends in. -/
theorem Recorded.Reached.exists_of_failed {α : Type} {tables : Tables} {rounds : Nat}
    {q : Request α} {r : Recorded Input} (h : r.Reached) {f : Fault} {i : Input}
    (hf : q.answer tables rounds r.state = .failed f i) :
    ∃ s : Recorded Input, s.Reached ∧ s.state = i ∧ f.chain = s.state.chain := by
  have hrecord := Input.accompanies_self.answer tables rounds q r r.state rfl fun _ _ => trivial
  have hblamed := h.request_blamed tables rounds q
  rw [hf] at hrecord
  cases ho : q.record tables rounds r with
  | done a s =>
    rw [ho] at hrecord
    exact hrecord.elim
  | unfinished =>
    rw [ho] at hrecord
    exact hrecord.elim
  | failed g s =>
    rw [ho] at hrecord hblamed
    obtain ⟨rfl, hs⟩ := hrecord
    exact ⟨s, h.ended tables rounds q (by rw [ho]; rfl), hs, hblamed⟩

/-- In every state that can be reached, the chain names each call whose replacement has unread
tokens once, the outermost first, and it is the chain of the faults of requests and runs that end in
the state; a run visits the state that it fails in. A control sequence is named by its name unless
that begins with a backslash, and where no name does, a report shows the calls as they are
spelled. -/
theorem chain_names_unread_calls {r : Recorded Input} (h : r.Reached) :
    r.ledger.unread.map (·.1) = Input.pending r.state.chunks ∧
    r.state.chain = r.ledger.active.map (fun c => Expansion.originOf c.name) ∧
    r.ledger.active.Pairwise (fun c d => c.number < d.number) ∧
    (∀ name, Expansion.originOf (.cs name) = name ↔ name.toList.head? ≠ some '\\') ∧
    ((∀ c ∈ r.ledger.active, ∃ name, c.name = .cs name ∧ name.toList.head? ≠ some '\\') →
      Notice.chainText r.state.chain = " -> ".intercalate (r.ledger.active.map (·.name.text))) ∧
    (∀ {α : Type} (q : Request α) (tables : Tables) (rounds : Nat) (f : Fault) (i : Input),
      q.answer tables rounds r.state = .failed f i →
        ∃ s : Recorded Input, s.Reached ∧ s.state = i ∧ f.chain = s.state.chain) ∧
    (∀ (config : Config) (metrics : Metrics) (tables : Tables) (lines : List String) (rounds : Nat)
      (mode : Mode) (f : Fault) (e : Engine),
      (Engine.start config metrics tables lines).run rounds mode = .failed f e →
        ∃ s : Recorded Input, s.Reached ∧
          (Engine.start config metrics tables lines).Visits rounds mode s ∧
          s.state = e.machine.input ∧ f.chain = s.state.chain) := by
  have haccounts := h.accounted
  obtain ⟨-, owners, howned, -⟩ := id haccounts
  refine ⟨howned.tokens, haccounts.chain, ?_, Expansion.originOf_cs_eq_iff, ?_, ?_, ?_⟩
  · exact (Ledger.calls_increasing r.events).filter _
  · intro hnames
    rw [haccounts.chain, Notice.chainText, List.map_map]
    congr 1
    refine List.map_congr_left fun c hc => ?_
    obtain ⟨name, hname, hhead⟩ := hnames c hc
    rw [Function.comp_apply, hname, (Expansion.originOf_cs_eq_iff name).mpr hhead]
    rfl
  · exact fun q tables rounds f i hf => h.exists_of_failed hf
  · intro config metrics tables lines rounds mode f e he
    obtain ⟨s, hs, hstate, hchain⟩ := Engine.exists_visited_of_failed
      (fun q tables s hs => hs.request_blamed tables rounds q) (fun _ _ => rfl) he
    exact ⟨s, hs.reached, hs, hstate, hchain⟩

/-- One name stands for the other and a letter, and the other for two letters. -/
def oneWithinOther : Tables :=
  let tables : Tables :=
    .assign {} (.define (.cs "a") (.ofTokens [⟨.cs "b", none⟩, ⟨.ch 'z' .letter, none⟩]))
  tables.assign (.define (.cs "b") (.ofTokens [⟨.ch 'x' .letter, none⟩, ⟨.ch 'y' .letter, none⟩]))

theorem chain_names_unread_calls_within :
    ∃ r : Recorded Input, r.Reached ∧ r.ledger.active = [⟨0, .cs "a"⟩, ⟨1, .cs "b"⟩] ∧
      r.state.chain = ["a", "b"] ∧ Notice.chainText r.state.chain = "\\a -> \\b" := by
  obtain ⟨r, hr, hactive⟩ := (Option.any_eq_true _ _).mp
    (show (Request.expanded.record oneWithinOther 9 ⟨.ofLines ["\\a"] false true { chunks := 9 },
      []⟩).state?.any (·.ledger.active = [⟨0, .cs "a"⟩, ⟨1, .cs "b"⟩]) by decide +kernel)
  have hactive : r.ledger.active = [⟨0, .cs "a"⟩, ⟨1, .cs "b"⟩] := of_decide_eq_true hactive
  have hreached : r.Reached := Recorded.Reached.ended (.new _ _ _ _) _ _ .expanded hr
  obtain ⟨-, hchain, -, -, htext, -⟩ := chain_names_unread_calls hreached
  rw [hactive] at hchain htext
  refine ⟨r, hreached, hactive, hchain.trans (by decide), (htext ?_).trans (by decide)⟩
  simp only [List.forall_mem_cons]
  exact ⟨⟨"a", rfl, by decide⟩, ⟨"b", rfl, by decide⟩, List.forall_mem_nil _⟩

/-- A control sequence of one backslash is called, and the chain has no name for it. -/
theorem chain_names_unread_calls_backslash :
    ∃ r : Recorded Input, r.Reached ∧ r.ledger.active = [⟨0, .cs "\\"⟩] ∧
      r.state.chain ≠ ["\\"] ∧ Notice.chainText r.state.chain ≠ Token.text (.cs "\\") := by
  let tables : Tables := .assign {} (.define (.cs "\\")
    (.ofTokens [⟨.ch 'x' .letter, none⟩, ⟨.ch 'y' .letter, none⟩]))
  obtain ⟨r, hr, hactive⟩ := (Option.any_eq_true _ _).mp
    (show (Request.expanded.record tables 9 ⟨.ofLines ["\\\\"] false true { chunks := 9 },
      []⟩).state?.any fun r => r.ledger.active = [⟨0, .cs "\\"⟩] ∧ r.state.chain = [""] by
        decide +kernel)
  obtain ⟨hactive, hchain⟩ : r.ledger.active = [⟨0, .cs "\\"⟩] ∧ r.state.chain = [""] :=
    of_decide_eq_true hactive
  refine ⟨r, Recorded.Reached.ended (.new _ _ _ _) _ _ .expanded hr, hactive, ?_, ?_⟩
  · rw [hchain]
    decide
  · rw [hchain]
    decide

end Galley
