import Galley.Input
import Galley.Proofs.ReaderLogic

/-!
Runs of consumers: one token after the other, in sequence with faults, and on the input of a run,
where the result is that of a run on some list of tokens.
-/

namespace Galley

namespace Consumer

variable {α β σ ε : Type}

@[simp] theorem run_scan_nil (step : σ → Lexeme → Turn σ β) (atEnd : σ → β) (s : σ) :
    (scan step atEnd s).run [] = (atEnd s, []) := rfl

/-- The state in which a scan began plays no part later on. -/
theorem drive_scan (step : σ → Lexeme → Turn σ β) (atEnd : σ → β) (s₀ s : σ) (ts : List Lexeme) :
    (scan step atEnd s₀).drive s ts = (scan step atEnd s).run ts := by
  induction ts generalizing s₀ s with
  | nil => rfl
  | cons t ts ih =>
    simp only [run, scan, drive]
    cases step s t with
    | again s' => exact (ih s₀ s').trans (ih s s').symm
    | finish b => rfl

theorem run_scan_cons (step : σ → Lexeme → Turn σ β) (atEnd : σ → β) (s : σ) (t : Lexeme)
    (ts : List Lexeme) :
    (scan step atEnd s).run (t :: ts) =
      match step s t with
      | .again s => (scan step atEnd s).run ts
      | .finish b => (b, ts) := by
  have h := drive_scan step atEnd s
  simp only [scan] at h
  simp only [run, scan, drive]
  cases step s t with
  | again s' => exact h s' ts
  | finish b => rfl

/-- The result of a scan of tokens of a kind, by an invariant of its states. -/
theorem scan_result_of {step : σ → Lexeme → Turn σ β} {atEnd : σ → β} (kind : Lexeme → Prop)
    (inv : σ → Prop) (post : β → Prop)
    (hstep : ∀ s t, kind t → inv s → (step s t).Holds inv post)
    (hend : ∀ s, inv s → post (atEnd s)) {s : σ} (hs : inv s) {ts : List Lexeme}
    (hts : ∀ t ∈ ts, kind t) : post ((scan step atEnd s).run ts).1 := by
  induction ts generalizing s with
  | nil => exact hend s hs
  | cons t ts ih =>
    obtain ⟨ht, hts⟩ := List.forall_mem_cons.mp hts
    have h := hstep s t ht hs
    rw [run_scan_cons]
    cases hc : step s t with
    | again s' =>
      rw [hc] at h
      exact ih h hts
    | finish b =>
      rw [hc] at h
      exact h

/-- The result of a scan, by an invariant of its states. -/
theorem scan_result {step : σ → Lexeme → Turn σ β} {atEnd : σ → β} (inv : σ → Prop)
    (post : β → Prop) (hstep : ∀ s t, inv s → (step s t).Holds inv post)
    (hend : ∀ s, inv s → post (atEnd s)) {s : σ} (hs : inv s) (ts : List Lexeme) :
    post ((scan step atEnd s).run ts).1 :=
  scan_result_of (fun _ => True) inv post (fun s t _ => hstep s t) hend hs
    fun _ _ => trivial

/-- A consumer leaves the end of its list. -/
theorem rest_suffix (c : Consumer β) (ts : List Lexeme) : (c.run ts).2 <:+ ts := by
  have hdrive (s : c.State) : (c.drive s ts).2 <:+ ts := by
    induction ts generalizing s with
    | nil => exact List.suffix_refl []
    | cons t ts ih =>
      simp only [drive]
      cases c.step s t with
      | again s' => exact (ih s').trans (List.suffix_cons t ts)
      | finish b => exact List.suffix_cons t ts
  unfold run
  cases c.start with
  | again s => exact hdrive s
  | finish b => exact List.suffix_refl ts

theorem rest_subset {c : Consumer β} {ts rest : List Lexeme} {b : β} (h : c.run ts = (b, rest)) :
    rest ⊆ ts := by
  have hsuffix := c.rest_suffix ts
  rw [h] at hsuffix
  exact hsuffix.subset

/-- The state of a scan behind tokens at none of which it stopped. -/
def feed (step : σ → Lexeme → Turn σ β) : σ → List Lexeme → Option σ
  | s, [] => some s
  | s, t :: ts =>
    match step s t with
    | .again s => feed step s ts
    | .finish _ => none

theorem feed_cons {step : σ → Lexeme → Turn σ β} {s s' : σ} {t : Lexeme}
    (h : step s t = .again s') (ts : List Lexeme) : feed step s (t :: ts) = feed step s' ts := by
  simp [feed, h]

theorem feed_append (step : σ → Lexeme → Turn σ β) (s : σ) (ts us : List Lexeme) :
    feed step s (ts ++ us) = (feed step s ts).bind fun s => feed step s us := by
  induction ts generalizing s with
  | nil => rfl
  | cons t ts ih =>
    simp only [List.cons_append, feed]
    cases step s t with
    | again s' => exact ih s'
    | finish b => rfl

theorem run_of_feed {step : σ → Lexeme → Turn σ β} {s s' : σ} {us : List Lexeme}
    (h : feed step s us = some s') (atEnd : σ → β) (rest : List Lexeme) :
    (scan step atEnd s).run (us ++ rest) = (scan step atEnd s').run rest := by
  induction us generalizing s with
  | nil =>
    injection h with h
    rw [h]
    rfl
  | cons t us ih =>
    rw [List.cons_append, run_scan_cons]
    cases hc : step s t with
    | again s'' => exact ih (by simpa [feed, hc] using h)
    | finish b => simp [feed, hc] at h

/-- A scan that did not come to the end of its list has stopped at one of the tokens. -/
theorem exists_feed_of_run {step : σ → Lexeme → Turn σ β} {atEnd : σ → β} {s : σ}
    {ts rest : List Lexeme} {b : β} (h : (scan step atEnd s).run ts = (b, rest))
    (hb : ∀ s, atEnd s ≠ b) :
    ∃ us t s', ts = us ++ t :: rest ∧ feed step s us = some s' ∧ step s' t = .finish b := by
  induction ts generalizing s with
  | nil =>
    injection h with h
    exact absurd h (hb s)
  | cons t ts ih =>
    rw [run_scan_cons] at h
    cases hc : step s t with
    | again s' =>
      rw [hc] at h
      obtain ⟨us, u, s'', rfl, hf, hu⟩ := ih h
      exact ⟨t :: us, u, s'', rfl, by simp [feed, hc, hf], hu⟩
    | finish b' =>
      rw [hc] at h
      injection h with hb' ht
      subst ht
      exact ⟨[], t, s, rfl, rfl, by rw [hc, hb']⟩

/-- In a sequence the first fault ends the reading. -/
theorem run_bind_except (x : ExceptT ε Consumer α) (f : α → ExceptT ε Consumer β)
    (ts : List Lexeme) :
    run (x >>= f : ExceptT ε Consumer β) ts =
      match run x ts with
      | (.ok a, rest) => run (f a) rest
      | (.error e, rest) => (.error e, rest) := by
  change (Consumer.bind x (ExceptT.bindCont f)).run ts = _
  rw [run_bind]
  rcases run x ts with ⟨_ | _, rest⟩ <;> rfl

@[simp] theorem run_pure_except (a : α) (ts : List Lexeme) :
    run (Pure.pure a : ExceptT ε Consumer α) ts = (.ok a, ts) := rfl

@[simp] theorem run_throw_except (e : ε) (ts : List Lexeme) :
    run (throw e : ExceptT ε Consumer α) ts = (.error e, ts) := rfl

theorem run_bind_except_ok {x : ExceptT ε Consumer α} {f : α → ExceptT ε Consumer β} {b : β}
    {ts rest : List Lexeme} (h : run (x >>= f : ExceptT ε Consumer β) ts = (.ok b, rest)) :
    ∃ a more, run x ts = (.ok a, more) ∧ run (f a) more = (.ok b, rest) := by
  rw [run_bind_except] at h
  rcases hx : run x ts with ⟨e | a, more⟩
  · simp [hx] at h
  · rw [hx] at h
    exact ⟨a, more, rfl, h⟩

end Consumer

namespace Input

/-- What raw reading keeps, a consumer keeps. -/
theorem consume_keeps {a : Alphabet} {inv : Input → Prop} {bad : Fault → Input → Prop}
    (hnext : ∀ i, inv i → (i.next a).Ensures (fun _ j => inv j) bad) (rounds : Nat) {β : Type}
    (c : Consumer β) {i : Input} (hi : inv i) :
    (i.consume a rounds c).Ensures (fun _ j => inv j) bad := by
  unfold consume
  cases c.start with
  | finish b => exact hi
  | again s =>
    refine iterate_ensures (fun _ j => inv j) (fun s j hj => ?_) rounds hi
    have hn := hnext j hj
    cases ho : j.next a with
    | unfinished => trivial
    | failed f k =>
      rw [ho] at hn
      exact hn
    | done x k =>
      rw [ho] at hn
      cases x with
      | none => exact hn
      | some t =>
        simp only [Outcome.map, Outcome.Ensures]
        cases c.step s t with
        | again s => exact hn
        | finish b => exact hn

/-- Whatever a consumer makes of an input, it makes of some list of tokens. -/
theorem exists_run_of_consume {a : Alphabet} {rounds : Nat} {β : Type} {c : Consumer β}
    {i j : Input} {b : β} (h : i.consume a rounds c = .done b j) : ∃ ts, (c.run ts).1 = b := by
  unfold consume at h
  cases hs : c.start with
  | finish b' =>
    rw [hs] at h
    injection h with hb
    exact ⟨[], by simp [Consumer.run, hs, hb]⟩
  | again s =>
    rw [hs] at h
    simp only at h
    suffices hd : ∃ ts, (c.drive s ts).1 = b by
      obtain ⟨ts, hts⟩ := hd
      exact ⟨ts, by simp [Consumer.run, hs, hts]⟩
    clear hs
    induction rounds generalizing s i with
    | zero => cases h
    | succ rounds ih =>
      rw [iterate] at h
      cases hn : i.next a with
      | failed f k => simp [hn, Outcome.map] at h
      | unfinished => simp [hn, Outcome.map] at h
      | done x k =>
        cases x with
        | none =>
          simp only [hn, Outcome.map, Outcome.done.injEq] at h
          exact ⟨[], h.1⟩
        | some t =>
          simp only [hn, Outcome.map] at h
          cases ht : c.step s t with
          | again s' =>
            rw [ht] at h
            obtain ⟨ts, hts⟩ := ih s' h
            exact ⟨t :: ts, by simp [Consumer.drive, ht, hts]⟩
          | finish b' =>
            simp only [ht, Outcome.done.injEq] at h
            exact ⟨[t], by simp [Consumer.drive, ht, h.1]⟩

end Input

end Galley
