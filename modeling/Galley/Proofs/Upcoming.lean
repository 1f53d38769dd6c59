import Galley.Proofs.Places
import Galley.Proofs.Remaining

/-!
What expansion will deliver of an input, call after call, however it ends (`Upcoming`). Inputs that
are the same but for empty chunks go the same way, so tokens that were delivered and are put back
come again, and behind them whatever came behind them before (`Leads.back`, `SameUpcoming`).
-/

namespace Galley

namespace Outcome

/-- Nothing is lost to a fault that does not exist. -/
theorem Alike.related {σ τ α : Type} {states : σ → τ → Prop} {faults : Fault → Fault → Prop}
    {o : Outcome σ α} {p : Outcome τ α} (h : o.Alike (fun _ => False) states faults p) :
    o.Related states faults p := by
  rcases h with h | h | h
  · exact absurd h o.not_failedBy
  · exact absurd h p.not_failedBy
  · exact h

end Outcome

namespace Input

/-! ## Empty chunks -/

/-- The same inputs, but for empty chunks on top and for the last place. -/
structure Like (i j : Input) : Prop where
  lexer : i.lexer = j.lexer
  capacity : i.capacity = j.capacity
  nested : i.nested = j.nested
  openBranches : i.openBranches = j.openBranches
  chunks : dropEmpty i.chunks = dropEmpty j.chunks

variable {tables : Tables} {a : Alphabet} {i j k : Input}

theorem Like.refl (i : Input) : i.Like i := ⟨rfl, rfl, rfl, rfl, rfl⟩

theorem Like.symm (h : i.Like j) : j.Like i :=
  ⟨h.lexer.symm, h.capacity.symm, h.nested.symm, h.openBranches.symm, h.chunks.symm⟩

theorem Like.trans (h : i.Like j) (h' : j.Like k) : i.Like k :=
  ⟨h.lexer.trans h'.lexer, h.capacity.trans h'.capacity, h.nested.trans h'.nested,
    h.openBranches.trans h'.openBranches, h.chunks.trans h'.chunks⟩

theorem takePending_dropEmpty (chunks : List Chunk) :
    takePending (dropEmpty chunks) = takePending chunks := by
  induction chunks with
  | nil => rfl
  | cons c more ih =>
    obtain ⟨ts, origin⟩ := c
    cases ts with
    | nil => exact ih
    | cons t ts => rfl

theorem dropEmpty_dropEmpty (chunks : List Chunk) :
    dropEmpty (dropEmpty chunks) = dropEmpty chunks := by
  induction chunks with
  | nil => rfl
  | cons c more ih =>
    obtain ⟨ts, origin⟩ := c
    cases ts with
    | nil => exact ih
    | cons t ts => rfl

theorem Like.next (h : i.Like j) :
    (i.next a).Alike (fun _ => False) Like Fault.SameCause (j.next a) := by
  have htake : takePending i.chunks = takePending j.chunks := by
    rw [← takePending_dropEmpty i.chunks, h.chunks, takePending_dropEmpty]
  cases ht : takePending j.chunks with
  | some p =>
    obtain ⟨t, chunks⟩ := p
    rw [next_of_pending (htake.trans ht), next_of_pending ht]
    exact .done ⟨h.lexer, h.capacity, h.nested, h.openBranches, rfl⟩
  | none =>
    rw [next_of_lexer (htake.trans ht), next_of_lexer ht, h.lexer]
    cases j.lexer.next a with
    | token t l => exact .done ⟨rfl, h.capacity, h.nested, h.openBranches, rfl⟩
    | invalid c place l => exact .failed rfl ⟨rfl, h.capacity, h.nested, h.openBranches, rfl⟩
    | finished l => exact .done ⟨rfl, h.capacity, h.nested, h.openBranches, rfl⟩

theorem Like.push (h : i.Like j) (c : Chunk) :
    (i.push c).Alike (fun _ => False) Like Fault.SameCause (j.push c) := by
  unfold Input.push
  split
  · exact .done h
  · dsimp only
    rw [h.capacity, h.chunks]
    split
    · exact .failed rfl ⟨h.lexer, rfl, h.nested, h.openBranches, rfl⟩
    · exact .done ⟨h.lexer, rfl, h.nested, h.openBranches, rfl⟩

theorem congruent_like (a : Alphabet) : Congruent a (fun _ => False) Like where
  next _ _ h := h.next
  push _ _ c h := h.push c
  nested _ _ h := h.nested
  openBranches _ _ h := h.openBranches
  opened _ _ _ h := ⟨h.lexer, h.capacity, h.nested, rfl, h.chunks⟩

/-! ## Answers -/

/-- With enough rounds the next call of expansion comes to this. -/
abbrev Answers (tables : Tables) (i : Input) (o : Outcome Input (Option Lexeme)) : Prop :=
  Settles (fun rounds => i.nextExpanded tables rounds) o

theorem Like.answers {o : Outcome Input (Option Lexeme)} (h : i.Like j)
    (hi : Answers tables i o) :
    ∃ p, Answers tables j p ∧ o.Related Like Fault.SameCause p := by
  obtain ⟨p, hp⟩ := (j.nextExpanded_steady tables).exists_settles
  refine ⟨p, hp, ?_⟩
  obtain ⟨n, hn⟩ := hi
  obtain ⟨m, hm⟩ := hp
  rw [← hn (max n m) (Nat.le_max_left n m), ← hm (max n m) (Nat.le_max_right n m)]
  exact ((congruent_like tables.alphabet).nextExpanded (max n m) h).related

theorem Like.answers_done {x : Option Lexeme} (h : i.Like j)
    (hi : Answers tables i (.done x k)) :
    ∃ l, Answers tables j (.done x l) ∧ k.Like l := by
  obtain ⟨p, hp, hrelated⟩ := h.answers hi
  cases p with
  | done y l =>
    obtain ⟨rfl, hl⟩ := hrelated
    exact ⟨l, hp, hl⟩
  | failed f l => exact hrelated.elim
  | unfinished => exact hrelated.elim

/-- Behind the end of input there is nothing. -/
theorem answers_end (h : Answers tables i (.done none j)) :
    ∃ k, Answers tables j (.done none k) := by
  have hnothing : (j.view tables.alphabet).ahead = [] := delivered_of_settles h
  have hn := j.next_view tables.alphabet
  unfold View.next at hn
  rw [hnothing] at hn
  cases ho : j.next tables.alphabet with
  | done x k =>
    rw [ho] at hn
    obtain ⟨rfl, -⟩ := hn
    have hs : Steps tables j (.done (.finish none) k) := ⟨0, fun rounds _ => run_step_end ho rounds⟩
    exact ⟨k, hs.settles_finish⟩
  | failed f k =>
    rw [ho] at hn
    exact hn.elim
  | unfinished =>
    rw [ho] at hn
    exact hn.elim

/-! ## What is upcoming -/

end Input

/-- How expansion goes on behind tokens that it has delivered. -/
inductive Onward
  | more
  | ended
  | failed (c : Cause)
  | endless
  deriving DecidableEq, Repr

namespace Input

/-- The next calls of expansion deliver these tokens, and it goes on like this behind them. -/
inductive Upcoming (tables : Tables) : Input → List Lexeme → Onward → Prop
  | more (i : Input) : Upcoming tables i [] .more
  | ended {i j : Input} (h : Answers tables i (.done none j)) : Upcoming tables i [] .ended
  | failed {i j : Input} {f : Fault} (h : Answers tables i (.failed f j)) :
    Upcoming tables i [] (.failed f.cause)
  | endless {i : Input} (h : Answers tables i .unfinished) : Upcoming tables i [] .endless
  | next {i j : Input} {t : Lexeme} {ts : List Lexeme} {e : Onward}
    (h : Answers tables i (.done (some t) j)) (rest : Upcoming tables j ts e) :
    Upcoming tables i (t :: ts) e

/-- What is upcoming of the first input are these tokens and then what is upcoming of the second. -/
def Precedes (tables : Tables) (i : Input) (front : List Lexeme) (j : Input) : Prop :=
  ∀ ts e, Upcoming tables i (front ++ ts) e ↔ Upcoming tables j ts e

variable {tables : Tables} {i j k l : Input} {t : Lexeme} {ts us : List Lexeme} {e : Onward}

theorem upcoming_cons (h : Answers tables i (.done (some t) j)) :
    Upcoming tables i (t :: ts) e ↔ Upcoming tables j ts e := by
  constructor
  · intro hu
    cases hu with
    | next h' rest =>
      cases h.unique h'
      exact rest
  · exact .next h

theorem Like.upcoming (h : i.Like j) (hi : Upcoming tables i ts e) : Upcoming tables j ts e := by
  induction hi generalizing j with
  | more i => exact .more j
  | ended hn =>
    obtain ⟨k, hk, -⟩ := h.answers_done hn
    exact .ended hk
  | failed hn =>
    obtain ⟨p, hp, hrelated⟩ := h.answers hn
    cases p with
    | failed g k =>
      rw [hrelated.1]
      exact .failed hp
    | done x k => exact hrelated.elim
    | unfinished => exact hrelated.elim
  | endless hn =>
    obtain ⟨p, hp, hrelated⟩ := h.answers hn
    cases p with
    | unfinished => exact .endless hp
    | done x k => exact hrelated.elim
    | failed g k => exact hrelated.elim
  | next hn rest ih =>
    obtain ⟨k, hk, hlike⟩ := h.answers_done hn
    exact .next hk (ih hlike)

theorem Like.precedes (h : i.Like j) : Precedes tables i [] j :=
  fun _ _ => ⟨h.upcoming, h.symm.upcoming⟩

theorem Precedes.trans (h : Precedes tables i ts j) (h' : Precedes tables j us k) :
    Precedes tables i (ts ++ us) k := by
  intro vs e
  rw [List.append_assoc]
  exact (h (us ++ vs) e).trans (h' vs e)

theorem precedes_cons (h : Answers tables i (.done (some t) j)) (h' : Precedes tables j ts k) :
    Precedes tables i (t :: ts) k :=
  fun us e => (upcoming_cons h).trans (h' us e)

/-! ## Ways of expansion -/

/-- Expansion leads over these tokens to another input, or else to the end of input. -/
inductive Leads (tables : Tables) : Input → List Lexeme → Option Input → Prop
  | here {i j : Input} (h : i.Like j) : Leads tables i [] (some j)
  | ended {i j : Input} (h : Answers tables i (.done none j)) : Leads tables i [] none
  | next {i j : Input} {t : Lexeme} {ts : List Lexeme} {b : Option Input}
    (h : Answers tables i (.done (some t) j)) (rest : Leads tables j ts b) :
    Leads tables i (t :: ts) b

variable {b : Option Input}

theorem Like.leads (h : i.Like j) (hi : Leads tables i ts b) : Leads tables j ts b := by
  induction hi generalizing j with
  | here hl => exact .here (h.symm.trans hl)
  | ended hn =>
    obtain ⟨k, hk, -⟩ := h.answers_done hn
    exact .ended hk
  | next hn rest ih =>
    obtain ⟨k, hk, hlike⟩ := h.answers_done hn
    exact .next hk (ih hlike)

theorem Leads.append (h : Leads tables i ts (some j)) (h' : Leads tables j us b) :
    Leads tables i (ts ++ us) b := by
  generalize ho : some j = o at h
  induction h with
  | here hl =>
    cases ho
    exact hl.symm.leads h'
  | ended hn => cases ho
  | next hn rest ih => exact .next hn (ih ho)

theorem Delivers.leads (h : Delivers tables i ts j) : Leads tables i ts (some j) := by
  induction h with
  | nil i => exact .here (.refl i)
  | cons hn rest ih => exact .next hn ih

theorem Leads.of_delivers (h : Delivers tables i ts j) (h' : Leads tables j us b) :
    Leads tables i (ts ++ us) b :=
  h.leads.append h'

theorem Leads.inert (h : Leads tables i ts b) : ∀ t ∈ ts, Inert tables t := by
  induction h with
  | here hl => exact nofun
  | ended hn => exact nofun
  | next hn rest ih => exact List.forall_mem_cons.mpr ⟨delivered_of_settles hn, ih⟩

/-- On two inputs that lead over the same tokens to the same, the same is upcoming. -/
theorem Leads.upcoming (h : Leads tables i ts b) (h' : Leads tables j ts b)
    (hu : Upcoming tables i us e) : Upcoming tables j us e := by
  induction h generalizing j us with
  | here hl =>
    cases h' with
    | here hl' => exact (hl.trans hl'.symm).upcoming hu
  | ended hn =>
    cases h' with
    | ended hn' =>
      cases hu with
      | more i => exact .more j
      | ended h => exact .ended hn'
      | failed h => cases hn.unique h
      | endless h => cases hn.unique h
      | next h rest => cases hn.unique h
  | next hn rest ih =>
    cases h' with
    | next hn' rest' =>
      cases hu with
      | more i => exact .more j
      | ended h => cases hn.unique h
      | failed h => cases hn.unique h
      | endless h => cases hn.unique h
      | next h hu =>
        cases hn.unique h
        exact .next hn' (ih rest' hu)

theorem Leads.same (h : Leads tables i ts b) (h' : Leads tables j ts b) :
    Precedes tables i [] j :=
  fun _ _ => ⟨h.upcoming h', h'.upcoming h⟩

theorem Delivers.precedes (h : Delivers tables i ts j) : Precedes tables i ts j := by
  induction h with
  | nil i => exact (Like.refl i).precedes
  | cons hn rest ih => exact precedes_cons hn ih

/-! ## Putting back -/

/-- A pending token that stands for itself is delivered. -/
theorem answers_of_pending {chunks : List Chunk} (ht : takePending i.chunks = some (t, chunks))
    (hin : Inert tables t) :
    Answers tables i
      (.done (some t) { i with chunks := chunks, last := placeAfter i.last t }) := by
  have hs : Steps tables i (.done (.finish (some t))
      { i with chunks := chunks, last := placeAfter i.last t }) := by
    refine ⟨0, fun rounds _ => ?_⟩
    simp only [run_step (next_of_pending ht tables.alphabet), hin.1, hin.2]
  exact hs.settles_finish

/-- Pending tokens that stand for themselves are delivered before what is under them. -/
theorem leads_of_pending {origin : Option String} {under : List Chunk}
    (hchunks : i.chunks = ⟨us, origin⟩ :: under) (hin : ∀ u ∈ us, Inert tables u)
    (h : Leads tables { i with chunks := under } ts b) : Leads tables i (us ++ ts) b := by
  induction us generalizing i with
  | nil =>
    have hlike : i.Like { i with chunks := under } :=
      ⟨rfl, rfl, rfl, rfl, by rw [hchunks]; rfl⟩
    exact hlike.symm.leads h
  | cons u us ih =>
    obtain ⟨hu, hus⟩ := List.forall_mem_cons.mp hin
    have htake : takePending i.chunks = some (u, ⟨us, origin⟩ :: under) := by
      rw [hchunks]
      rfl
    have hplace : Like { i with chunks := under }
        { i with chunks := under, last := placeAfter i.last u } := ⟨rfl, rfl, rfl, rfl, rfl⟩
    exact .next (answers_of_pending htake hu) (ih rfl hus (hplace.leads h))

/-- So are pending tokens that come without places. -/
theorem delivers_of_pending {origin : Option String} {under : List Chunk}
    (hchunks : i.chunks = ⟨us ++ ts, origin⟩ :: under) (hin : ∀ u ∈ us, Inert tables u)
    (hplace : ∀ u ∈ us, u.span = none) :
    Delivers tables i us { i with chunks := ⟨ts, origin⟩ :: under } := by
  induction us generalizing i with
  | nil =>
    rw [List.nil_append] at hchunks
    rw [← hchunks]
    exact .nil i
  | cons u us ih =>
    obtain ⟨hu, hus⟩ := List.forall_mem_cons.mp hin
    obtain ⟨hspan, hspans⟩ := List.forall_mem_cons.mp hplace
    have htake : takePending i.chunks = some (u, ⟨us ++ ts, origin⟩ :: under) := by
      rw [hchunks]
      rfl
    have hanswer := answers_of_pending htake hu
    rw [placeAfter, hspan] at hanswer
    exact .cons hanswer (ih rfl hus hspans)

/-- Characters of one category, without places. -/
def charsOf (cat : Category) (s : List Char) : List Lexeme := s.map fun c => ⟨.ch c cat, none⟩

theorem charsOf_plain (cat : Category) (s : List Char) :
    ∀ t ∈ charsOf cat s, Inert {} t ∧ t.span = none := by
  intro t ht
  obtain ⟨c, -, rfl⟩ := List.mem_map.mp ht
  exact ⟨⟨rfl, by cases cat <;> rfl⟩, rfl⟩

/-- These tokens are pending, and there are no lines. -/
def pendingTokens (room : Int) (ts : List Lexeme) : Input :=
  { lexer := { lines := [] }, capacity := { chunks := room }, chunks := [⟨ts, none⟩] }

theorem pendingTokens_delivers (room : Int) (us : List Lexeme)
    (h : ∀ t ∈ ts, Inert {} t ∧ t.span = none) :
    Delivers {} (pendingTokens room (ts ++ us)) ts (pendingTokens room us) :=
  delivers_of_pending rfl (fun t ht => (h t ht).1) fun t ht => (h t ht).2

theorem pendingTokens_answers (room : Int) (ts : List Lexeme) (h : Inert {} t)
    (hplace : t.span = none) :
    Answers {} (pendingTokens room (t :: ts)) (.done (some t) (pendingTokens room ts)) := by
  have hanswer : Answers {} (pendingTokens room (t :: ts)) _ := answers_of_pending rfl h
  rw [placeAfter, hplace] at hanswer
  exact hanswer

/-- Tokens that stand for themselves come again when they are put back, and then what came before
they were. -/
theorem Leads.back (h : Leads tables i ts b) (hin : ∀ u ∈ us, Inert tables u)
    (hj : i.back us = .done () j) : Leads tables j (us ++ ts) b := by
  unfold Input.back Input.push at hj
  split at hj
  · rename_i hempty
    cases hj
    obtain rfl : us = [] := List.isEmpty_iff.mp hempty
    exact h
  · dsimp only at hj
    split at hj
    · cases hj
    · cases hj
      refine leads_of_pending rfl hin ?_
      have hlike : i.Like { i with chunks := dropEmpty i.chunks } :=
        ⟨rfl, rfl, rfl, rfl, (dropEmpty_dropEmpty i.chunks).symm⟩
      exact hlike.leads h

end Input

end Galley
