import Galley.Proofs.LineTokens

/-!
What readers of expanded tokens make of the tokens ahead of them. Where these stand for themselves,
the reading is not strict and there is room for what is put back, the tokens alone decide to what
value or cause a reader comes and what it leaves (`Scan.Gives`). There is a rule for each form of
reader.
-/

namespace Galley

/-- Neither a part of a conditional nor a call. -/
def Token.Inert (tables : Tables) (t : Token) : Prop :=
  t.branch? = none ∧ tables.meaning? t = none

/-- Characters that are not active are never looked up. -/
theorem Token.inert_ch (tables : Tables) (c : Char) {cat : Category} (h : cat ≠ .active) :
    (Token.ch c cat).Inert tables :=
  ⟨rfl, by simp [Tables.meaning?, isDefinable, h]⟩

/-! ## Room for chunks -/

namespace Input

/-- No more tokens wait in chunks than are held, each in a chunk that others may lie upon. -/
structure Roomy (room held : Nat) (i : Input) : Prop where
  held : (pending i.chunks).length ≤ held
  packed : ∀ c ∈ i.chunks.tail, c.tokens ≠ []
  capacity : (room : Int) < i.capacity.chunks

variable {a : Alphabet} {i j : Input} {room held held' : Nat}

theorem Roomy.mono (h : Roomy room held i) (hle : held ≤ held') : Roomy room held' i :=
  { h with held := Nat.le_trans h.held hle }

theorem dropEmpty_packed {chunks : List Chunk} (h : ∀ c ∈ chunks.tail, c.tokens ≠ []) :
    ∀ c ∈ dropEmpty chunks, c.tokens ≠ [] := by
  intro c hc
  rw [dropEmpty_eq_filter h] at hc
  simpa using (List.mem_filter.mp hc).2

theorem takePending_packed {chunks rest : List Chunk} {t : Lexeme}
    (h : ∀ c ∈ chunks.tail, c.tokens ≠ []) (ht : takePending chunks = some (t, rest)) :
    ∀ c ∈ rest.tail, c.tokens ≠ [] := by
  obtain ⟨ts, origin, more, hd, rfl⟩ := exists_of_takePending ht
  have hpacked := dropEmpty_packed h
  rw [hd] at hpacked
  exact (List.forall_mem_cons.mp hpacked).2

theorem Roomy.next {x : Option Lexeme} (h : Roomy room held i) (hn : i.next a = .done x j) :
    Roomy room (held - 1) j := by
  have hheld := h.held
  cases ht : takePending i.chunks with
  | some p =>
    obtain ⟨t, chunks⟩ := p
    rw [next_of_pending ht] at hn
    cases hn
    have hp := pending_takePending ht
    refine ⟨?_, takePending_packed h.packed ht, h.capacity⟩
    rw [hp, List.length_cons] at hheld
    exact Nat.le_sub_of_add_le hheld
  | none =>
    rw [next_of_lexer ht] at hn
    cases hl : i.lexer.next a with
    | token t l =>
      rw [hl] at hn
      cases hn
      exact ⟨Nat.zero_le _, nofun, h.capacity⟩
    | invalid c place l =>
      rw [hl] at hn
      cases hn
    | finished l =>
      rw [hl] at hn
      cases hn
      exact ⟨Nat.zero_le _, nofun, h.capacity⟩

/-- Chunks that have tokens are no more than their tokens. -/
theorem length_le_pending {chunks : List Chunk} (h : ∀ c ∈ chunks, c.tokens ≠ []) :
    chunks.length ≤ (pending chunks).length := by
  induction chunks with
  | nil => exact Nat.le_refl 0
  | cons c more ih =>
    have hc : 0 < c.tokens.length := List.length_pos_iff.mpr (h c List.mem_cons_self)
    have hmore := ih fun d hd => h d (List.mem_cons_of_mem c hd)
    simp only [pending, List.flatMap_cons, List.length_append, List.length_cons] at hmore ⊢
    omega

/-- What is held leaves room for one chunk more. -/
theorem Roomy.push (h : Roomy room held i) (hle : held ≤ room) (c : Chunk) :
    ∃ j, i.push c = .done () j ∧ i.Becomes a (c.tokens ++ i.stream a) j ∧
      Roomy room (held + c.tokens.length) j := by
  have hheld := h.held
  have hpacked := dropEmpty_packed h.packed
  have hlength := length_le_pending hpacked
  rw [pending_dropEmpty] at hlength
  have hroom : ¬ i.capacity.chunks ≤ (dropEmpty i.chunks).length := by
    have := h.capacity
    omega
  rcases i.push_stream a c with ⟨j, hj, hb⟩ | ⟨hfull, -⟩
  · refine ⟨j, hj, hb, ?_⟩
    unfold Input.push at hj
    split at hj
    · cases hj
      exact h.mono (Nat.le_add_right _ _)
    · dsimp only at hj
      rw [if_neg hroom] at hj
      cases hj
      refine ⟨?_, hpacked, h.capacity⟩
      have hp := congrArg List.length (pending_dropEmpty i.chunks)
      simp only [pending, List.flatMap_cons, List.length_append] at hp hheld ⊢
      omega
  · exact absurd hfull hroom

end Input

/-! ## Tokens ahead -/

/-- The tokens ahead of a reader, and how many of them may wait in chunks. -/
structure Ahead where
  tokens : List Token
  held : Nat

/-- These tokens are ahead in the input, and stand for themselves. -/
structure Ahead.Of (tables : Tables) (room : Nat) (s : Ahead) (i : Input) : Prop where
  lenient : i.lexer.strict = false
  tokens : (i.stream tables.alphabet).map (·.token) = s.tokens
  inert : ∀ t ∈ s.tokens, t.Inert tables
  roomy : i.Roomy room s.held

/-- On any input with these tokens ahead, the reader comes to this value and leaves these tokens, or
it fails by this cause. -/
def Scan.Gives (tables : Tables) (room : Nat) {α : Type} (r : Scan α) (s : Ahead) :
    Except Cause (α × Ahead) → Prop
  | .ok (a, t) => ∀ i, s.Of tables room i →
    ∃ j, Reader.Comes (handler tables) r i (.done a j) ∧ t.Of tables room j
  | .error c => ∀ i, s.Of tables room i →
    ∃ f j, Reader.Comes (handler tables) r i (.failed f j) ∧ f.cause = c

namespace Scan

variable {tables : Tables} {room n m : Nat} {α β τ : Type} {s t : Ahead} {ts us : List Token}

/-- Fewer tokens may wait than are allowed to. -/
theorem Gives.weaken {r : Scan α} {a : α} (h : Gives tables room r ⟨ts, n⟩ (.ok (a, ⟨us, m⟩)))
    {n' m' : Nat} (hn : n' ≤ n) (hm : m ≤ m') :
    Gives tables room r ⟨ts, n'⟩ (.ok (a, ⟨us, m'⟩)) := by
  intro i hi
  obtain ⟨j, hj, ht⟩ := h i { hi with roomy := hi.roomy.mono hn }
  exact ⟨j, hj, { ht with roomy := ht.roomy.mono hm }⟩

theorem Gives.strengthen {r : Scan α} {o : Except Cause (α × Ahead)}
    (h : Gives tables room r ⟨ts, n⟩ o) {n' : Nat} (hn : n' ≤ n) :
    Gives tables room r ⟨ts, n'⟩ o := by
  match o with
  | .ok (a, ⟨us, m⟩) => exact h.weaken hn (Nat.le_refl m)
  | .error c =>
    intro i hi
    exact h i { hi with roomy := hi.roomy.mono hn }

theorem gives_pure (a : α) (s : Ahead) :
    Gives tables room (Pure.pure a : Scan α) s (.ok (a, s)) :=
  fun i hi => ⟨i, .pure a, hi⟩

theorem gives_fail (c : Cause) (s : Ahead) :
    Gives tables room (.fail c : Scan α) s (.error c) :=
  fun i _ => ⟨i.fault c, i, ⟨0, fun _ _ => rfl⟩, rfl⟩

theorem Gives.bind {r : Scan α} {k : α → Scan β} {a : α} {o : Except Cause (β × Ahead)}
    (hr : Gives tables room r s (.ok (a, t))) (hk : Gives tables room (k a) t o) :
    Gives tables room (r >>= k) s o := by
  match o with
  | .ok (b, u) =>
    intro i hi
    obtain ⟨j, hj, ht⟩ := hr i hi
    obtain ⟨l, hl, hu⟩ := hk j ht
    exact ⟨l, hj.bind hl, hu⟩
  | .error c =>
    intro i hi
    obtain ⟨j, hj, ht⟩ := hr i hi
    obtain ⟨f, l, hl, hf⟩ := hk j ht
    exact ⟨f, l, hj.bind hl, hf⟩

theorem Gives.bind_error {r : Scan α} {k : α → Scan β} {c : Cause}
    (hr : Gives tables room r s (.error c)) : Gives tables room (r >>= k) s (.error c) := by
  intro i hi
  obtain ⟨f, j, hj, hf⟩ := hr i hi
  exact ⟨f, j, hj.bind_failed, hf⟩

section loop

variable {body : τ → Scan (Turn τ α)} {u v : τ}

theorem Gives.loop_again {o : Except Cause (α × Ahead)}
    (hb : Gives tables room (body u) s (.ok (.again v, t)))
    (hl : Gives tables room (.loop body v) t o) : Gives tables room (.loop body u) s o := by
  match o with
  | .ok (a, w) =>
    intro i hi
    obtain ⟨j, hj, ht⟩ := hb i hi
    obtain ⟨k, hk, hw⟩ := hl j ht
    exact ⟨k, .loop_again (handler_improving tables) hj hk, hw⟩
  | .error c =>
    intro i hi
    obtain ⟨j, hj, ht⟩ := hb i hi
    obtain ⟨f, k, hk, hf⟩ := hl j ht
    exact ⟨f, k, .loop_again (handler_improving tables) hj hk, hf⟩

theorem Gives.loop_finish {a : α} (hb : Gives tables room (body u) s (.ok (.finish a, t))) :
    Gives tables room (.loop body u) s (.ok (a, t)) := by
  intro i hi
  obtain ⟨j, hj, ht⟩ := hb i hi
  exact ⟨j, hj.loop_finish, ht⟩

theorem Gives.loop_error {c : Cause} (hb : Gives tables room (body u) s (.error c)) :
    Gives tables room (.loop body u) s (.error c) := by
  intro i hi
  obtain ⟨f, j, hj, hf⟩ := hb i hi
  exact ⟨f, j, hj.loop_failed, hf⟩

end loop

/-! ## Requests -/

/-- An expanded token is the next raw one where that stands for itself. -/
theorem comes_next {i j : Input} {x : Option Lexeme} (h : i.next tables.alphabet = .done x j)
    (hx : ∀ t ∈ x, t.token.Inert tables) :
    Reader.Comes (handler tables) next i (.done x j) := by
  apply Input.Steps.settles_finish
  refine ⟨0, fun rounds _ => ?_⟩
  cases x with
  | none => exact Input.run_step_end h rounds
  | some t =>
    obtain ⟨hb, hm⟩ := hx t rfl
    simp only [Input.run_step h, hb, hm]

/-- The reader comes to this token, which stands for itself; where it stands is left open. -/
def Finds (tables : Tables) (room : Nat) (r : Scan (Option Lexeme)) (s : Ahead) (x : Token)
    (t : Ahead) : Prop :=
  ∀ i, s.Of tables room i → ∃ u j, Reader.Comes (handler tables) r i (.done (some u) j) ∧
    u.token = x ∧ x.Inert tables ∧ t.Of tables room j

theorem finds_next (x : Token) : Finds tables room next ⟨x :: ts, n⟩ x ⟨ts, n - 1⟩ := by
  intro i h
  obtain ⟨j, hn, hb⟩ := Input.next_stream (a := tables.alphabet) h.lenient
  obtain ⟨u, us, hs, rfl, hus⟩ := List.map_eq_cons_iff.mp h.tokens
  rw [hs] at hn hb
  have hu : u.token.Inert tables := h.inert _ List.mem_cons_self
  refine ⟨u, j, comes_next hn ?_, rfl, hu, hb.strict.trans h.lenient, ?_, ?_, h.roomy.next hn⟩
  · intro w hw
    cases hw
    exact hu
  · rw [hb.stream, List.tail_cons]
    exact hus
  · exact fun w hw => h.inert w (List.mem_cons_of_mem _ hw)

/-- What comes of a token that has been found must not depend on where it stands. -/
theorem Finds.bind {r : Scan (Option Lexeme)} {k : Option Lexeme → Scan β} {x : Token}
    {o : Except Cause (β × Ahead)} (hr : Finds tables room r s x t)
    (hk : ∀ u : Lexeme, u.token = x → x.Inert tables → Gives tables room (k (some u)) t o) :
    Gives tables room (r >>= k) s o := by
  match o with
  | .ok (b, w) =>
    intro i hi
    obtain ⟨u, j, hj, hu, hx, ht⟩ := hr i hi
    obtain ⟨l, hl, hw⟩ := hk u hu hx j ht
    exact ⟨l, hj.bind hl, hw⟩
  | .error c =>
    intro i hi
    obtain ⟨u, j, hj, hu, hx, ht⟩ := hr i hi
    obtain ⟨f, l, hl, hf⟩ := hk u hu hx j ht
    exact ⟨f, l, hj.bind hl, hf⟩

/-- A repetition may go on with a token that has been found. -/
theorem Finds.loop_again {body : τ → Scan (Turn τ α)} {v : τ} {r : Scan (Option Lexeme)}
    {f : Option Lexeme → τ} {x : Token} {o : Except Cause (α × Ahead)}
    (hr : Finds tables room r s x t)
    (hb : body v = (r >>= fun u => Pure.pure (.again (f u))))
    (hl : ∀ u : Lexeme, u.token = x → x.Inert tables →
      Gives tables room (.loop body (f (some u))) t o) :
    Gives tables room (.loop body v) s o := by
  match o with
  | .ok (a, w) =>
    intro i hi
    obtain ⟨u, j, hj, hu, hx, ht⟩ := hr i hi
    obtain ⟨k, hk, hw⟩ := hl u hu hx j ht
    exact ⟨k, .loop_again (handler_improving tables) (hb ▸ hj.bind (.pure _)) hk, hw⟩
  | .error c =>
    intro i hi
    obtain ⟨u, j, hj, hu, hx, ht⟩ := hr i hi
    obtain ⟨g, k, hk, hg⟩ := hl u hu hx j ht
    exact ⟨g, k, .loop_again (handler_improving tables) (hb ▸ hj.bind (.pure _)) hk, hg⟩

theorem gives_next_nil : Gives tables room next ⟨[], n⟩ (.ok (none, ⟨[], n - 1⟩)) := by
  intro i h
  obtain ⟨j, hn, hb⟩ := Input.next_stream (a := tables.alphabet) h.lenient
  have hs := List.map_eq_nil_iff.mp h.tokens
  rw [hs] at hn hb
  refine ⟨j, comes_next hn nofun, hb.strict.trans h.lenient, ?_, nofun, h.roomy.next hn⟩
  rw [hb.stream]
  rfl

theorem gives_back {xs : List Lexeme} (hx : ∀ x ∈ xs, x.token.Inert tables) (hn : n ≤ room) :
    Gives tables room (back xs) ⟨ts, n⟩
      (.ok ((), ⟨xs.map (·.token) ++ ts, n + xs.length⟩)) := by
  intro i hi
  obtain ⟨j, hj, hb, hr⟩ := hi.roomy.push (a := tables.alphabet) hn ⟨xs, none⟩
  refine ⟨j, ⟨0, fun _ _ => hj⟩, hb.strict.trans hi.lenient, ?_, ?_, hr⟩
  · rw [hb.stream, List.map_append, hi.tokens]
  · intro t ht
    rcases List.mem_append.mp ht with ht | ht
    · obtain ⟨x, hxs, rfl⟩ := List.mem_map.mp ht
      exact hx x hxs
    · exact hi.inert t ht

/-- To put nothing back changes nothing. -/
theorem gives_back_nil (s : Ahead) : Gives tables room (back []) s (.ok ((), s)) :=
  fun i hi => ⟨i, ⟨0, fun _ _ => rfl⟩, hi⟩

/-- A token that was looked at can be put back. -/
theorem gives_unread {u : Lexeme} (hu : u.token.Inert tables) (hroom : 0 < room) :
    Gives tables room (back [u]) ⟨ts, room - 1⟩ (.ok ((), ⟨u.token :: ts, room⟩)) := by
  have hback : Gives tables room (back [u]) ⟨ts, room - 1⟩
      (.ok ((), ⟨u.token :: ts, room - 1 + 1⟩)) :=
    gives_back (by simpa using hu) (Nat.sub_le room 1)
  refine hback.weaken (Nat.le_refl _) ?_
  omega

/-- A new input of one line. -/
theorem of_line {line : String} {nested : Bool} {capacity : Capacity}
    (ht : ∀ t ∈ tables.alphabet.lineTokens line, t.Inert tables)
    (hroom : (room : Int) < capacity.chunks) :
    Ahead.Of tables room ⟨tables.alphabet.lineTokens line, n⟩
      (.ofLines [line] false nested capacity) where
  lenient := rfl
  tokens := by simp [Input.ofLines_tokens]
  inert := ht
  roomy := ⟨Nat.zero_le n, nofun, hroom⟩

end Scan

end Galley
