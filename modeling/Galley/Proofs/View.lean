import Galley.Expansion
import Galley.Proofs.Consumption
import Galley.Proofs.Lexing

/-!
The view of an input: what raw reading will deliver, whatever it waits in. Reading, putting tokens
on top and consuming are described on views alone, so how tokens are split over chunks and lines
plays no part in them.
-/

namespace Galley

/-- What one raw reading comes to. -/
inductive Delivery
  | token (t : Lexeme)
  | invalid (c : Char) (place : Position)
  deriving DecidableEq, Repr

/-! ## What is left of the lines -/

namespace Lexer

def deliveriesWithin (a : Alphabet) : Nat → Lexer → List Delivery
  | 0, _ => []
  | n + 1, l =>
    match l.next a with
    | .token t after => .token t :: deliveriesWithin a n after
    | .invalid c place after => .invalid c place :: deliveriesWithin a n after
    | .finished _ => []

/-- All that is left of the lines. -/
def deliveries (a : Alphabet) (l : Lexer) : List Delivery := deliveriesWithin a (l.size a) l

/-- More than the size of the lexer is never needed. -/
theorem deliveriesWithin_succ (a : Alphabet) {n : Nat} {l : Lexer} (hn : l.size a ≤ n) :
    deliveriesWithin a (n + 1) l = deliveriesWithin a n l := by
  induction n generalizing l with
  | zero =>
    have hs := l.next_leaves a
    simp only [deliveriesWithin]
    cases hl : l.next a with
    | token t after =>
      rw [hl] at hs
      have hlt := hs.2
      omega
    | invalid c place after =>
      rw [hl] at hs
      have hlt := hs.2.1
      omega
    | finished after => rfl
  | succ n ih =>
    have hs := l.next_leaves a
    rw [deliveriesWithin, deliveriesWithin]
    cases hl : l.next a with
    | token t after =>
      rw [hl] at hs
      have hlt := hs.2
      simp only [ih (l := after) (by omega)]
    | invalid c place after =>
      rw [hl] at hs
      have hlt := hs.2.1
      simp only [ih (l := after) (by omega)]
    | finished after => rfl

theorem deliveriesWithin_eq (a : Alphabet) {n : Nat} {l : Lexer} (hn : l.size a ≤ n) :
    deliveriesWithin a n l = l.deliveries a := by
  obtain ⟨k, rfl⟩ : ∃ k, n = l.size a + k := ⟨n - l.size a, by omega⟩
  induction k with
  | zero => rfl
  | succ k ih =>
    rw [← ih (by omega)]
    exact deliveriesWithin_succ a (Nat.le_add_right _ k)

/-- What is left of the lines, one reading at a time. -/
theorem deliveries_next (a : Alphabet) (l : Lexer) :
    l.deliveries a =
      match l.next a with
      | .token t after => .token t :: after.deliveries a
      | .invalid c place after => .invalid c place :: after.deliveries a
      | .finished _ => [] := by
  have hs := l.next_leaves a
  rw [← deliveriesWithin_eq a (Nat.le_succ (l.size a)), deliveriesWithin]
  cases hl : l.next a with
  | token t after =>
    rw [hl] at hs
    simp only [deliveriesWithin_eq a (Nat.le_of_lt hs.2)]
  | invalid c place after =>
    rw [hl] at hs
    simp only [deliveriesWithin_eq a (Nat.le_of_lt hs.2.1)]
  | finished after => rfl

theorem deliveries_finished {a : Alphabet} {l after : Lexer} (h : l.next a = .finished after) :
    after.deliveries a = [] := by
  have hs := l.next_leaves a
  rw [h] at hs
  simp [deliveries, hs.2, deliveriesWithin]

end Lexer

/-! ## The view of an input -/

/-- What expansion can tell of an input, except for its room and its places. -/
structure View where
  ahead : List Delivery
  nested : Bool
  openBranches : Nat
  deriving DecidableEq, Repr

namespace View

/-- Reads one raw token. -/
def next (v : View) : Outcome View (Option Lexeme) :=
  match v.ahead with
  | [] => .done none v
  | .token t :: more => .done (some t) { v with ahead := more }
  | .invalid c place :: more => .failed (Input.lexFault c place) { v with ahead := more }

/-- Puts tokens before all others. -/
def push (ts : List Lexeme) (v : View) : View := { v with ahead := ts.map .token ++ v.ahead }

/-- Another number of branches is open. -/
def opened (n : Nat) (v : View) : View := { v with openBranches := n }

@[simp] theorem push_nil (v : View) : v.push [] = v := rfl

@[simp] theorem push_append (ts us : List Lexeme) (v : View) :
    v.push (ts ++ us) = (v.push us).push ts := by simp [push]

/-- Tokens up to one of them come before the others. -/
theorem push_split (t u : Lexeme) (ts us : List Lexeme) (v : View) :
    v.push (t :: ts ++ u :: us) = (v.push us).push (t :: (ts ++ [u])) := by
  rw [← push_append]
  simp

@[simp] theorem next_push_cons (t : Lexeme) (ts : List Lexeme) (v : View) :
    (v.push (t :: ts)).next = .done (some t) (v.push ts) := rfl

@[simp] theorem push_nested (ts : List Lexeme) (v : View) : (v.push ts).nested = v.nested := rfl

@[simp] theorem push_openBranches (ts : List Lexeme) (v : View) :
    (v.push ts).openBranches = v.openBranches := rfl

@[simp] theorem opened_push (n : Nat) (ts : List Lexeme) (v : View) :
    (v.push ts).opened n = (v.opened n).push ts := rfl

@[simp] theorem opened_opened (n m : Nat) (v : View) : (v.opened m).opened n = v.opened n := rfl

@[simp] theorem opened_self (v : View) : v.opened v.openBranches = v := rfl

@[simp] theorem opened_nested (n : Nat) (v : View) : (v.opened n).nested = v.nested := rfl

@[simp] theorem opened_openBranches (n : Nat) (v : View) : (v.opened n).openBranches = n := rfl

end View

/-- The fault that no view knows of. -/
def Fault.OfCapacity (f : Fault) : Prop := ∃ limit, f.cause = .capacity limit

namespace Input

def view (a : Alphabet) (i : Input) : View :=
  ⟨(pending i.chunks).map .token ++ i.lexer.deliveries a, i.nested, i.openBranches⟩

theorem next_of_pending {i : Input} {t : Lexeme} {chunks : List Chunk}
    (h : takePending i.chunks = some (t, chunks)) (a : Alphabet) :
    i.next a = .done (some t) { i with chunks := chunks, last := placeAfter i.last t } := by
  rw [next, h]

/-- Where nothing is pending the lexer is read. -/
theorem next_of_lexer {i : Input} (h : takePending i.chunks = none) (a : Alphabet) :
    i.next a =
      match i.lexer.next a with
      | .token t l =>
        .done (some t) { i with lexer := l, chunks := [], last := placeAfter i.last t }
      | .invalid c place l => .failed (lexFault c place) { i with lexer := l, chunks := [] }
      | .finished l => .done none { i with lexer := l, chunks := [] } := by
  rw [next, h]
  simp only [lex]
  cases i.lexer.next a <;> rfl

/-- A reading on an input is the reading on its view. -/
theorem next_view (a : Alphabet) (i : Input) :
    (i.next a).Related (fun j v => j.view a = v) Eq (i.view a).next := by
  cases ht : takePending i.chunks with
  | some p =>
    obtain ⟨t, chunks⟩ := p
    have hv : i.view a = (View.mk ((pending chunks).map .token ++ i.lexer.deliveries a) i.nested
        i.openBranches).push [t] := by
      simp [view, View.push, pending_takePending ht]
    rw [next_of_pending ht, hv, View.next_push_cons]
    exact ⟨rfl, rfl⟩
  | none =>
    have hp := (takePending_eq_none_iff i.chunks).mp ht
    have hd := i.lexer.deliveries_next a
    rw [next_of_lexer ht]
    cases hl : i.lexer.next a with
    | token t after =>
      simp only [hl] at hd
      simp only [View.next, view, hp, hd, List.map_nil, List.nil_append]
      exact ⟨rfl, rfl⟩
    | invalid c place after =>
      simp only [hl] at hd
      simp only [View.next, view, hp, hd, List.map_nil, List.nil_append]
      exact ⟨rfl, rfl⟩
    | finished after =>
      simp only [hl] at hd
      simp only [View.next, view, hp, hd, List.map_nil, List.nil_append]
      refine ⟨rfl, ?_⟩
      simp [pending, Lexer.deliveries_finished hl]

theorem next_of_view {a : Alphabet} {i : Input} {t : Lexeme} {ts : List Lexeme} {v : View}
    (h : i.view a = v.push (t :: ts)) :
    ∃ j, i.next a = .done (some t) j ∧ j.view a = v.push ts := by
  have hn := i.next_view a
  rw [h, View.next_push_cons] at hn
  cases ho : i.next a with
  | done x j =>
    rw [ho] at hn
    obtain ⟨rfl, hj⟩ := hn
    exact ⟨j, rfl, hj⟩
  | failed f j =>
    rw [ho] at hn
    exact hn.elim
  | unfinished =>
    rw [ho] at hn
    exact hn.elim

/-- Tokens come to stand before all others, or there is no room for them. -/
theorem push_view (a : Alphabet) (i : Input) (c : Chunk) :
    (∃ j, i.push c = .done () j ∧ j.view a = (i.view a).push c.tokens) ∨
      ∃ f j, i.push c = .failed f j ∧ f.OfCapacity := by
  unfold push
  split
  · rename_i hc
    have hn : c.tokens = [] := by simpa using hc
    exact Or.inl ⟨i, rfl, by simp [hn]⟩
  · dsimp only
    split
    · exact Or.inr ⟨_, _, rfl, _, rfl⟩
    · refine Or.inl ⟨_, rfl, ?_⟩
      have hp : pending (c :: dropEmpty i.chunks) = c.tokens ++ pending i.chunks := by
        rw [← pending_dropEmpty i.chunks]
        rfl
      simp [view, View.push, hp]

/-- A consumer that stops behind the given tokens, whatever follows them, takes just these from an
input. -/
theorem consume_of_run {a : Alphabet} {β : Type} {c : Consumer β} {b : β} {ts : List Lexeme}
    (h : ∀ rest, c.run (ts ++ rest) = (b, rest)) {i : Input} {v : View}
    (hi : i.view a = v.push ts) :
    ∃ j, j.view a = v ∧ ∀ rounds, ts.length ≤ rounds → i.consume a rounds c = .done b j := by
  unfold consume
  unfold Consumer.run at h
  cases hs : c.start with
  | finish b' =>
    have hb := h []
    rw [hs] at hb
    simp only [List.append_nil, Prod.mk.injEq] at hb
    obtain ⟨rfl, rfl⟩ := hb
    exact ⟨i, hi, fun _ _ => rfl⟩
  | again s =>
    -- one token is left over, so the consumer stops by itself and not at the end of input
    have hd := h [⟨.cs "", none⟩]
    rw [hs] at hd
    simp only at hd ⊢
    clear hs h
    induction ts generalizing s i with
    | nil =>
      simp only [List.nil_append, Consumer.drive] at hd
      cases hc : c.step s ⟨.cs "", none⟩ <;> simp [hc] at hd
    | cons t ts ih =>
      obtain ⟨j, hn, hj⟩ := next_of_view hi
      simp only [List.cons_append, Consumer.drive] at hd
      cases hc : c.step s t with
      | again s' =>
        rw [hc] at hd
        obtain ⟨k, hk, hrest⟩ := ih hj s' hd
        refine ⟨k, hk, fun rounds hr => ?_⟩
        simp only [List.length_cons] at hr
        obtain ⟨m, rfl⟩ : ∃ m, rounds = m + 1 := ⟨rounds - 1, by omega⟩
        simp only [iterate, hn, Outcome.map, hc]
        exact hrest m (by omega)
      | finish b' =>
        rw [hc] at hd
        simp only [Prod.mk.injEq] at hd
        obtain ⟨rfl, ht⟩ := hd
        have hts : ts = [] := by
          cases ts with
          | nil => rfl
          | cons u us => simp at ht
        subst hts
        refine ⟨j, hj, fun rounds hr => ?_⟩
        simp only [List.length_cons] at hr
        obtain ⟨m, rfl⟩ : ∃ m, rounds = m + 1 := ⟨rounds - 1, by omega⟩
        simp only [iterate, hn, Outcome.map, hc]

end Input

end Galley
