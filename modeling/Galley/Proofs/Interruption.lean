import Galley.Proofs.Lookahead

/-!
Readers that are interrupted: expansion fails on the way, or goes on for ever. What a reader asks
for is then never answered, and it comes to no result either (`Scan.Breaks`).
-/

namespace Galley

/-- There is no further token, and not for the end of input. -/
def Onward.Broken : Onward → Prop
  | .failed _ | .endless => True
  | .more | .ended => False

variable {tables : Tables} {i j k : Input} {t : Lexeme} {ts us vs blanks : List Lexeme}
  {e : Onward} {α β τ : Type}

namespace Input

/-- The reader comes to no result: it fails for this cause, or it goes on for ever. -/
def Halts (tables : Tables) {α : Type} (r : Scan α) (i : Input) : Onward → Prop
  | .failed c => ∃ f j, Reader.Comes (handler tables) r i (.failed f j) ∧ f.cause = c
  | .endless => Reader.Comes (handler tables) r i .unfinished
  | .more | .ended => False

theorem Halts.bind {r : Scan α} {f : α → Scan β} (h : Halts tables r i e) :
    Halts tables (r >>= f) i e := by
  cases e with
  | more => exact h
  | ended => exact h
  | failed c =>
    obtain ⟨g, j, hg, hc⟩ := h
    exact ⟨g, j, hg.bind_failed, hc⟩
  | endless => exact Reader.Comes.bind_unfinished h

theorem Halts.of_bind {r : Scan α} {f : α → Scan β} {a : α}
    (hr : Reader.Comes (handler tables) r i (.done a j)) (h : Halts tables (f a) j e) :
    Halts tables (r >>= f) i e := by
  cases e with
  | more => exact h
  | ended => exact h
  | failed c =>
    obtain ⟨g, k, hg, hc⟩ := h
    exact ⟨g, k, Reader.Comes.bind hr hg, hc⟩
  | endless => exact Reader.Comes.bind hr h

variable {body : τ → Scan (Turn τ α)} {u v : τ}

theorem Halts.loop (h : Halts tables (body u) i e) : Halts tables (.loop body u) i e := by
  cases e with
  | more => exact h
  | ended => exact h
  | failed c =>
    obtain ⟨g, j, hg, hc⟩ := h
    exact ⟨g, j, hg.loop_failed, hc⟩
  | endless => exact Reader.Comes.loop_unfinished h

theorem Halts.loop_again (hb : Reader.Comes (handler tables) (body u) i (.done (.again v) j))
    (h : Halts tables (.loop body v) j e) : Halts tables (.loop body u) i e := by
  have hi := handler_improving tables
  cases e with
  | more => exact h
  | ended => exact h
  | failed c =>
    obtain ⟨g, k, hg, hc⟩ := h
    exact ⟨g, k, Reader.Comes.loop_again hi hb hg, hc⟩
  | endless => exact Reader.Comes.loop_again hi hb h

/-- What is upcoming leads to where it goes on. -/
theorem Upcoming.exists_leads (h : Upcoming tables i ts e) :
    ∃ k, Leads tables i ts (some k) ∧ Upcoming tables k [] e := by
  induction h with
  | more i => exact ⟨i, .here (.refl i), .more i⟩
  | @ended i j h => exact ⟨i, .here (.refl i), .ended h⟩
  | @failed i j f h => exact ⟨i, .here (.refl i), .failed h⟩
  | @endless i h => exact ⟨i, .here (.refl i), .endless h⟩
  | next h rest ih =>
    obtain ⟨k, hl, hk⟩ := ih
    exact ⟨k, .next h hl, hk⟩

theorem Leads.upcoming_of (h : Leads tables i ts (some k)) (hk : Upcoming tables k us e) :
    Upcoming tables i (ts ++ us) e := by
  generalize ho : some k = o at h
  induction h with
  | here hl =>
    cases ho
    exact hl.symm.upcoming hk
  | ended hn => cases ho
  | next hn rest ih => exact .next hn (ih ho)

end Input

open Input

namespace Scan

/-- Wherever these tokens are upcoming and expansion then goes on like this, the reader comes to no
result either; unless the input stack is full. -/
def Breaks (tables : Tables) {α : Type} (r : Scan α) (ts : List Lexeme) (e : Onward) : Prop :=
  ∀ i, Upcoming tables i ts e → Overrun tables r i ∨ Halts tables r i e

theorem Breaks.bind {r : Scan α} {f : α → Scan β} (h : Breaks tables r ts e) :
    Breaks tables (r >>= f) ts e :=
  fun i hi => (h i hi).imp Overrun.bind Halts.bind

/-- The reader that is interrupted stands behind one that has returned. -/
theorem Takes.breaks {r : Scan α} {f : α → Scan β} {a : α}
    (hr : ∀ k, Takes tables r (some k) ts (.ok a) us) (h : Breaks tables (f a) us e) :
    Breaks tables (r >>= f) ts e := by
  intro i hi
  obtain ⟨k, hl, hk⟩ := hi.exists_leads
  rcases hr k i hl with ho | ⟨j, hj, hlj⟩
  · exact Or.inl ho.bind
  have hu := hlj.upcoming_of hk
  rw [List.append_nil] at hu
  exact (h j hu).imp (Overrun.of_bind hj) (Halts.of_bind hj)

variable {body : τ → Scan (Turn τ α)} {u v : τ}

theorem Breaks.loop (h : Breaks tables (body u) ts e) : Breaks tables (.loop body u) ts e :=
  fun i hi => (h i hi).imp Overrun.loop Halts.loop

theorem Takes.breaks_loop (hb : ∀ k, Takes tables (body u) (some k) ts (.ok (.again v)) us)
    (h : Breaks tables (.loop body v) us e) : Breaks tables (.loop body u) ts e := by
  intro i hi
  obtain ⟨k, hl, hk⟩ := hi.exists_leads
  rcases hb k i hl with ho | ⟨j, hj, hlj⟩
  · exact Or.inl ho.loop
  have hu := hlj.upcoming_of hk
  rw [List.append_nil] at hu
  exact (h j hu).imp (Overrun.loop_again hj) (Halts.loop_again hj)

theorem breaks_next (he : e.Broken) : Breaks tables next [] e := by
  intro i hi
  cases hi with
  | more => exact he.elim
  | ended => exact he.elim
  | failed h => exact Or.inr ⟨_, _, h, rfl⟩
  | endless h => exact Or.inr h

theorem breaks_optionalSpace (he : e.Broken) : Breaks tables Quantity.optionalSpace [] e :=
  (breaks_next he).bind

theorem breaks_nonBlank (he : e.Broken) (hb : AllSpaces blanks) :
    Breaks tables Quantity.nonBlank blanks e := by
  induction blanks with
  | nil => exact Breaks.loop (breaks_next he).bind
  | cons t blanks ih =>
    obtain ⟨ht, hb⟩ := List.forall_mem_cons.mp hb
    exact Takes.breaks_loop (fun _ => takes_blankStep ht _) (ih hb)

theorem breaks_matchLetters {letters more : List Char} (he : e.Broken) (hs : Spelled letters us)
    (hm : more ≠ []) (matched : List Lexeme) :
    Breaks tables (Quantity.matchLetters matched (letters ++ more)) us e := by
  induction spelled_iff.mp hs generalizing matched with
  | nil =>
    cases more with
    | nil => exact absurd rfl hm
    | cons letter more => exact (breaks_next he).bind
  | @cons letter t letters us hl hrest ih =>
    refine Takes.breaks (fun _ => takes_token t us) ?_
    simp only [Quantity.matchLetter, hl, if_true]
    exact ih (spelled_iff.mpr hrest) (t :: matched)

/-- A word of which only the first letters have come. -/
theorem breaks_keyword {word : String} {letters more : List Char} (he : e.Broken)
    (hb : AllSpaces blanks) (hw : word.toList = letters ++ more) (hm : more ≠ [])
    (hs : Spelled letters us) : Breaks tables (Quantity.keyword word) (blanks ++ us) e := by
  unfold Quantity.keyword
  rw [hw]
  cases spelled_iff.mp hs with
  | nil =>
    cases more with
    | nil => exact absurd rfl hm
    | cons letter more =>
      rw [List.append_nil]
      exact (breaks_nonBlank he hb).bind
  | @cons letter t letters us hl hrest =>
    refine Takes.breaks (fun k => takes_nonBlank hb (inSight_cons t us (some k))
      (isSpace_of_matchesLetter hl)) ?_
    simp only [List.head?_cons, Quantity.matchLetter, hl, if_true]
    exact breaks_matchLetters he (spelled_iff.mpr hrest) hm [t]

end Scan

end Galley
