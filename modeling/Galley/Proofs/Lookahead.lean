import Mathlib.Data.List.Forall2
import Galley.Proofs.Typesetting
import Galley.Proofs.Upcoming

/-!
Readers that look ahead and put back. What a reader does over the tokens that expansion leads over
is stated once for each of them (`Scan.Takes`), whether these come from the lexer, from replacements
or from tokens put back before. A look-ahead that fails is not seen: what was upcoming before it
still is, but for the spaces that it skips.
-/

namespace Galley

/-! ## What is looked for -/

def AllSpaces (ts : List Lexeme) : Prop := ∀ t ∈ ts, t.token.isSpace = true

/-- One letter or other character for each of the given ones, which is its lower-case form. -/
def Spelled : List Char → List Lexeme → Prop :=
  List.Forall₂ fun letter t => ∃ c cat,
    t.token = .ch c cat ∧ (cat = .letter ∨ cat = .other) ∧ Text.lower c = [letter]

/-- The first of these tokens, or that there is none, can be seen. -/
def InSight (ts : List Lexeme) (b : Option Input) : Prop := ts = [] → b = none

/-- These tokens do not go on with these letters, and enough of them is in sight that this shows. -/
inductive Misses (b : Option Input) : List Char → List Lexeme → Prop
  | here {letter : Char} {letters : List Char} {ts : List Lexeme} (hin : InSight ts b)
    (h : ∀ t ∈ ts.head?, Quantity.matchesLetter letter t.token = false) :
    Misses b (letter :: letters) ts
  | later {letter : Char} {letters : List Char} {t : Lexeme} {ts : List Lexeme}
    (h : Quantity.matchesLetter letter t.token = true) (rest : Misses b letters ts) :
    Misses b (letter :: letters) (t :: ts)

theorem Quantity.matchesLetter_iff (letter : Char) (t : Token) :
    matchesLetter letter t = true ↔ ∃ c cat,
      t = .ch c cat ∧ (cat = .letter ∨ cat = .other) ∧ Text.lower c = [letter] := by
  cases t with
  | cs name => simp [matchesLetter]
  | ch c cat =>
    simp only [matchesLetter, Token.ch.injEq, Bool.and_eq_true, Bool.or_eq_true, decide_eq_true_eq]
    constructor
    · intro h
      exact ⟨c, cat, ⟨rfl, rfl⟩, h⟩
    · rintro ⟨c, cat, ⟨rfl, rfl⟩, h⟩
      exact h

variable {tables : Tables} {i j k : Input} {b : Option Input} {t : Lexeme}
  {ts us vs blanks : List Lexeme} {x : Option Lexeme} {α β τ : Type}

theorem spelled_iff {letters : List Char} :
    Spelled letters ts ↔
      List.Forall₂ (fun letter t => Quantity.matchesLetter letter t.token = true) letters ts := by
  unfold Spelled
  simp only [Quantity.matchesLetter_iff]

namespace Input

/-! ## Readers over what lies ahead -/

/-- The reader stops where the input stack is full. -/
def Overrun (tables : Tables) {α : Type} (r : Scan α) (i : Input) : Prop :=
  ∃ f j, Reader.Comes (handler tables) r i (.failed f j) ∧ f.OfCapacity ∧ ¬ j.Spare

/-- The reader comes to this result and leaves this input. -/
def Returns (tables : Tables) {α : Type} (r : Scan α) (i : Input) (res : Except Cause α)
    (j : Input) : Prop :=
  match res with
  | .ok a => Reader.Comes (handler tables) r i (.done a j)
  | .error c => ∃ f, Reader.Comes (handler tables) r i (.failed f j) ∧ f.cause = c

theorem Overrun.not_done {r : Scan α} {a : α} (h : Overrun tables r i) :
    ¬ Reader.Comes (handler tables) r i (.done a j) := by
  intro hr
  obtain ⟨f, k, hf, -⟩ := h
  cases hf.unique hr

theorem Overrun.bind {r : Scan α} {k : α → Scan β} (h : Overrun tables r i) :
    Overrun tables (r >>= k) i := by
  obtain ⟨f, j, hf, hc, hj⟩ := h
  exact ⟨f, j, hf.bind_failed, hc, hj⟩

theorem Overrun.of_bind {r : Scan α} {k : α → Scan β} {a : α}
    (hr : Reader.Comes (handler tables) r i (.done a j)) (h : Overrun tables (k a) j) :
    Overrun tables (r >>= k) i := by
  obtain ⟨f, l, hf, hc, hl⟩ := h
  exact ⟨f, l, Reader.Comes.bind hr hf, hc, hl⟩

variable {body : τ → Scan (Turn τ α)} {u v : τ}

theorem Overrun.loop (h : Overrun tables (body u) i) : Overrun tables (.loop body u) i := by
  obtain ⟨f, j, hf, hc, hj⟩ := h
  exact ⟨f, j, hf.loop_failed, hc, hj⟩

theorem Overrun.loop_again (hb : Reader.Comes (handler tables) (body u) i (.done (.again v) j))
    (h : Overrun tables (.loop body v) j) : Overrun tables (.loop body u) i := by
  obtain ⟨f, l, hf, hc, hl⟩ := h
  exact ⟨f, l, Reader.Comes.loop_again (handler_improving tables) hb hf, hc, hl⟩

end Input

open Input

/-- Wherever expansion leads over the first tokens, the reader comes to this result and leaves an
input from where it leads over the second ones, to the same end; unless the input stack is full. -/
def Scan.Takes (tables : Tables) {α : Type} (r : Scan α) (b : Option Input) (ts : List Lexeme)
    (res : Except Cause α) (us : List Lexeme) : Prop :=
  ∀ i, Leads tables i ts b →
    Overrun tables r i ∨ ∃ j, Returns tables r i res j ∧ Leads tables j us b

namespace Scan

theorem takes_pure (a : α) (ts : List Lexeme) : Takes tables (pure a) b ts (.ok a) ts :=
  fun i hi => Or.inr ⟨i, Reader.Comes.pure a, hi⟩

theorem takes_fail (c : Cause) (ts : List Lexeme) :
    Takes tables (.fail c : Scan α) b ts (.error c) ts :=
  fun i hi => Or.inr ⟨i, ⟨i.fault c, ⟨0, fun _ _ => rfl⟩, rfl⟩, hi⟩

theorem Takes.bind {r : Scan α} {k : α → Scan β} {a : α} {res : Except Cause β}
    (hr : Takes tables r b ts (.ok a) us) (hk : Takes tables (k a) b us res vs) :
    Takes tables (r >>= k) b ts res vs := by
  intro i hi
  rcases hr i hi with h | ⟨j, hj, hl⟩
  · exact Or.inl h.bind
  rcases hk j hl with ho | ⟨l, hy, hl⟩
  · exact Or.inl (Overrun.of_bind hj ho)
  refine Or.inr ⟨l, ?_, hl⟩
  cases res with
  | ok c => exact Reader.Comes.bind hj hy
  | error c =>
    obtain ⟨f, hf, hc⟩ := hy
    exact ⟨f, Reader.Comes.bind hj hf, hc⟩

theorem Takes.bind_error {r : Scan α} {k : α → Scan β} {c : Cause}
    (hr : Takes tables r b ts (.error c) us) : Takes tables (r >>= k) b ts (.error c) us := by
  intro i hi
  rcases hr i hi with h | ⟨j, ⟨f, hf, hc⟩, hl⟩
  · exact Or.inl h.bind
  · exact Or.inr ⟨j, ⟨f, hf.bind_failed, hc⟩, hl⟩

variable {body : τ → Scan (Turn τ α)} {u v : τ}

theorem Takes.loop_again {res : Except Cause α}
    (hb : Takes tables (body u) b ts (.ok (.again v)) us)
    (hl : Takes tables (.loop body v) b us res vs) : Takes tables (.loop body u) b ts res vs := by
  intro i hi
  rcases hb i hi with ho | ⟨j, hj, hlead⟩
  · exact Or.inl ho.loop
  rcases hl j hlead with ho | ⟨l, hy, hlead⟩
  · exact Or.inl (Overrun.loop_again hj ho)
  refine Or.inr ⟨l, ?_, hlead⟩
  cases res with
  | ok c => exact Reader.Comes.loop_again (handler_improving tables) hj hy
  | error c =>
    obtain ⟨f, hf, hc⟩ := hy
    exact ⟨f, Reader.Comes.loop_again (handler_improving tables) hj hf, hc⟩

theorem Takes.loop_finish {a : α} (hb : Takes tables (body u) b ts (.ok (.finish a)) us) :
    Takes tables (.loop body u) b ts (.ok a) us := by
  intro i hi
  rcases hb i hi with ho | ⟨j, hj, hlead⟩
  · exact Or.inl ho.loop
  · exact Or.inr ⟨j, Reader.Comes.loop_finish hj, hlead⟩

/-- What has been delivered stands for itself. -/
theorem Takes.of_inert {r : Scan α} {res : Except Cause α}
    (h : (∀ t ∈ ts, Inert tables t) → Takes tables r b ts res us) : Takes tables r b ts res us :=
  fun i hi => h hi.inert i hi

theorem takes_next (h : InSight ts b) : Takes tables next b ts (.ok ts.head?) ts.tail := by
  intro i hi
  refine Or.inr ?_
  cases hi with
  | here hl => cases h rfl
  | ended hn =>
    obtain ⟨k, hk⟩ := answers_end hn
    exact ⟨_, hn, .ended hk⟩
  | next hn rest => exact ⟨_, hn, rest⟩

theorem inSight_cons (t : Lexeme) (ts : List Lexeme) (b : Option Input) : InSight (t :: ts) b :=
  fun h => by cases h

theorem takes_token (t : Lexeme) (ts : List Lexeme) :
    Takes tables next b (t :: ts) (.ok (some t)) ts := takes_next (inSight_cons t ts b)

/-- Putting tokens back does not fail but where there is no room for them. -/
theorem back_cases (us : List Lexeme) (i : Input) :
    (∃ j, i.back us = .done () j) ∨ ∃ f j, i.back us = .failed f j ∧ f.OfCapacity ∧ ¬ j.Spare := by
  unfold Input.back Input.push
  split
  · exact Or.inl ⟨i, rfl⟩
  · dsimp only
    split
    · rename_i hfull
      refine Or.inr ⟨_, _, rfl, ⟨_, rfl⟩, fun hspare => ?_⟩
      unfold Input.Spare at hspare
      rw [dropEmpty_dropEmpty] at hspare
      exact absurd hfull (Int.not_le.mpr hspare)
    · exact Or.inl ⟨_, rfl⟩

theorem takes_back (hin : ∀ u ∈ us, Inert tables u) :
    Takes tables (back us) b ts (.ok ()) (us ++ ts) := by
  intro i hi
  rcases back_cases us i with ⟨j, hj⟩ | ⟨f, j, hf, hc, hfull⟩
  · exact Or.inr ⟨j, ⟨0, fun _ _ => hj⟩, hi.back hin hj⟩
  · exact Or.inl ⟨f, j, ⟨0, fun _ _ => hf⟩, hc, hfull⟩

/-- The first token is put back. -/
theorem takes_unread (h : ∀ t ∈ ts, Inert tables t) :
    Takes tables (back ts.head?.toList) b ts.tail (.ok ()) ts := by
  cases ts with
  | nil => exact takes_back nofun
  | cons t ts => exact takes_back (List.forall_mem_singleton.mpr (h t List.mem_cons_self))

/-! ## Spaces and the equals sign -/

/-- One round of `nonBlank`. -/
def blankStep (_ : Unit) : Scan (Turn Unit (Option Lexeme)) := do
  let t ← next
  return if Quantity.isSpace t then .again () else .finish t

theorem takes_blankStep (hs : t.token.isSpace = true) (ts : List Lexeme) :
    Takes tables (blankStep ()) b (t :: ts) (.ok (.again ())) ts := by
  refine (takes_token t ts).bind ?_
  have hspace : Quantity.isSpace (some t) = true := hs
  rw [hspace]
  exact takes_pure _ _

theorem takes_nonBlank (hb : AllSpaces blanks) (hin : InSight ts b)
    (hx : Quantity.isSpace ts.head? = false) :
    Takes tables Quantity.nonBlank b (blanks ++ ts) (.ok ts.head?) ts.tail := by
  induction blanks with
  | nil =>
    apply Takes.loop_finish
    refine (takes_next hin).bind ?_
    simp only [hx]
    exact takes_pure _ _
  | cons t blanks ih =>
    obtain ⟨ht, hb⟩ := List.forall_mem_cons.mp hb
    exact Takes.loop_again (takes_blankStep ht _) (ih hb)

/-- Without the first token, if it is a space. -/
def withoutSpace (ts : List Lexeme) : List Lexeme :=
  if Quantity.isSpace ts.head? then ts.tail else ts

theorem takes_optionalSpace (hin : InSight ts b) :
    Takes tables Quantity.optionalSpace b ts (.ok ()) (withoutSpace ts) := by
  refine .of_inert fun hinert => (takes_next hin).bind ?_
  unfold withoutSpace
  cases Quantity.isSpace ts.head? with
  | true => exact takes_pure () ts.tail
  | false => exact takes_unread hinert

/-- Without the first token, if it is an equals sign. -/
def withoutEquals (ts : List Lexeme) : List Lexeme :=
  if Quantity.isOther ts.head? ['='] then ts.tail else ts

theorem takes_optionalEquals (hb : AllSpaces blanks) (hin : InSight ts b)
    (hx : Quantity.isSpace ts.head? = false) :
    Takes tables Quantity.optionalEquals b (blanks ++ ts) (.ok ()) (withoutEquals ts) := by
  refine .of_inert fun hinert => (takes_nonBlank hb hin hx).bind ?_
  unfold withoutEquals
  cases Quantity.isOther ts.head? ['='] with
  | true => exact takes_pure () ts.tail
  | false => exact takes_unread (List.forall_mem_append.mp hinert).2

/-! ## Keywords -/

theorem takes_matchLetters {letters : List Char} (h : Spelled letters us) (matched : List Lexeme) :
    Takes tables (Quantity.matchLetters matched letters) b (us ++ ts) (.ok true) ts := by
  induction spelled_iff.mp h generalizing matched with
  | nil => exact takes_pure true ts
  | @cons letter t letters us hl hrest ih =>
    refine (takes_token t _).bind ?_
    simp only [Quantity.matchLetter, hl, if_true]
    exact ih (spelled_iff.mpr hrest) (t :: matched)

/-- Letters that were matched in vain are put back. -/
theorem takes_matchLetters_missed {letters : List Char} (h : Misses b letters ts)
    (matched : List Lexeme) (hm : ∀ t ∈ matched, Inert tables t) :
    Takes tables (Quantity.matchLetters matched letters) b ts (.ok false)
      (matched.reverse ++ ts) := by
  have hreverse : ∀ t ∈ matched.reverse, Inert tables t :=
    fun t ht => hm t (List.mem_reverse.mp ht)
  induction h generalizing matched with
  | @here letter letters ts hin h =>
    refine .of_inert fun hinert => (takes_next hin).bind ?_
    cases ts with
    | nil => exact (takes_back hreverse).bind (takes_pure false _)
    | cons t ts =>
      simp only [List.head?_cons, Quantity.matchLetter, h t rfl]
      have hback : ∀ u ∈ matched.reverse ++ [t], Inert tables u :=
        List.forall_mem_append.mpr
          ⟨hreverse, List.forall_mem_singleton.mpr (hinert t List.mem_cons_self)⟩
      refine (takes_back hback).bind ?_
      rw [List.append_assoc]
      exact takes_pure false _
  | @later letter letters t ts h rest ih =>
    refine .of_inert fun hinert => (takes_token t ts).bind ?_
    simp only [Quantity.matchLetter, h, if_true]
    have hmatched : ∀ u ∈ t :: matched, Inert tables u :=
      List.forall_mem_cons.mpr ⟨hinert t List.mem_cons_self, hm⟩
    have htakes := ih (t :: matched) hmatched fun u hu => hmatched u (List.mem_reverse.mp hu)
    rwa [List.reverse_cons, List.append_assoc] at htakes

theorem isSpace_of_matchesLetter {letter : Char}
    (h : Quantity.matchesLetter letter t.token = true) : t.token.isSpace = false := by
  obtain ⟨c, cat, ht, hcat, -⟩ := (Quantity.matchesLetter_iff letter t.token).mp h
  rw [ht]
  rcases hcat with rfl | rfl <;> rfl

theorem takes_keyword {word : String} (hne : word.toList ≠ []) (hb : AllSpaces blanks)
    (h : Spelled word.toList us) :
    Takes tables (Quantity.keyword word) b (blanks ++ (us ++ ts)) (.ok true) ts := by
  unfold Quantity.keyword
  cases hw : word.toList with
  | nil => exact absurd hw hne
  | cons letter letters =>
    rw [hw] at h
    cases spelled_iff.mp h with
    | @cons _ t _ us hl hrest =>
      refine (takes_nonBlank hb (inSight_cons t _ b) (isSpace_of_matchesLetter hl)).bind ?_
      simp only [List.head?_cons, Quantity.matchLetter, hl, if_true]
      exact takes_matchLetters (spelled_iff.mpr hrest) [t]

theorem takes_keyword_missed {word : String} (hb : AllSpaces blanks)
    (h : Misses b word.toList ts) (hx : Quantity.isSpace ts.head? = false) :
    Takes tables (Quantity.keyword word) b (blanks ++ ts) (.ok false) ts := by
  unfold Quantity.keyword
  generalize word.toList = letters at h ⊢
  cases h with
  | @here letter letters ts hin h =>
    refine .of_inert fun hinert => (takes_nonBlank hb hin hx).bind ?_
    have hunread : Takes tables (back ts.head?.toList >>= fun _ => pure false) b ts.tail
        (.ok false) ts :=
      (takes_unread (List.forall_mem_append.mp hinert).2).bind (takes_pure false ts)
    cases ts with
    | nil => exact hunread
    | cons t ts =>
      simp only [List.head?_cons, Quantity.matchLetter, h t rfl]
      exact hunread
  | @later letter letters t ts h rest =>
    refine .of_inert fun hinert => (takes_nonBlank hb (inSight_cons t ts b) hx).bind ?_
    simp only [List.head?_cons, Quantity.matchLetter, h, if_true]
    exact takes_matchLetters_missed rest [t]
      (List.forall_mem_singleton.mpr (hinert t (by simp)))

end Scan

/-! ## Look-ahead that has returned -/

theorem Misses.inSight {letters : List Char} (h : Misses b letters ts) : InSight ts b := by
  cases h with
  | here hin => exact hin
  | later => exact Scan.inSight_cons _ _ b

namespace Input

theorem Leads.head_of_answers (h : Leads tables i ts b) (hin : InSight ts b)
    (hx : Answers tables i (.done x k)) : ts.head? = x := by
  cases h with
  | here hl => cases hin rfl
  | ended hn =>
    cases hn.unique hx
    rfl
  | next hn rest =>
    cases hn.unique hx
    rfl

theorem Leads.head_of_upcoming {e : Onward} (h : Leads tables i ts b) (hin : InSight ts b)
    (hu : Upcoming tables i (t :: us) e) : ts.head? = some t := by
  cases hu with
  | next hx rest => exact h.head_of_answers hin hx

theorem Leads.exists_answers (h : Leads tables i ts b) (hin : InSight ts b) :
    ∃ x k, Answers tables i (.done x k) := by
  cases h with
  | here hl => cases hin rfl
  | ended hn => exact ⟨_, _, hn⟩
  | next hn rest => exact ⟨_, _, hn⟩

theorem Leads.exists_delivers (h : Leads tables i (us ++ ts) b) :
    ∃ k, Delivers tables i us k ∧ Leads tables k ts b := by
  induction us generalizing i with
  | nil => exact ⟨i, .nil i, h⟩
  | cons u us ih =>
    cases h with
    | next hn rest =>
      obtain ⟨k, hd, hl⟩ := ih rest
      exact ⟨k, .cons hn hd, hl⟩

/-- What comes first is what an answer of expansion has delivered. -/
theorem exists_leads_of_answers (h : Answers tables i (.done x k)) :
    ∃ b, InSight x.toList b ∧ Leads tables i x.toList b := by
  cases x with
  | none => exact ⟨none, fun _ => rfl, .ended h⟩
  | some t => exact ⟨some k, Scan.inSight_cons t [] _, .next h (.here (.refl k))⟩

/-! ### What readers have met -/

/-- A returned word was found or missed in what expansion delivers. -/
def Tried (tables : Tables) (letters : List Char) (i : Input) (found : Bool) (j : Input) : Prop :=
  match found with
  | true => ∃ us, Spelled letters us ∧ Delivers tables i us j
  | false => ∃ ts b, Misses b letters ts ∧ Leads tables i ts b

theorem tried_cons {letter : Char} {letters : List Char} {matched : List Lexeme}
    {more : Lexeme → Scan Bool} {found : Bool} (hx : Answers tables i (.done x k))
    (h : Reader.Comes (handler tables) (Quantity.matchLetter matched letter x more) k
      (.done found j))
    (hmore : ∀ t, Reader.Comes (handler tables) (more t) k (.done found j) →
      Tried tables letters k found j) :
    Tried tables (letter :: letters) i found j := by
  cases x with
  | none =>
    obtain ⟨u, l, -, hl⟩ := h.exists_of_bind (handler_improving tables)
    cases (Reader.Comes.pure false).unique hl
    exact ⟨[], none, .here (fun _ => rfl) nofun, .ended hx⟩
  | some t =>
    cases hm : Quantity.matchesLetter letter t.token with
    | false =>
      simp only [Quantity.matchLetter, hm] at h
      obtain ⟨u, l, -, hl⟩ := h.exists_of_bind (handler_improving tables)
      cases (Reader.Comes.pure false).unique hl
      refine ⟨[t], some k, .here (Scan.inSight_cons t [] _) ?_, .next hx (.here (.refl k))⟩
      intro u hu
      cases hu
      exact hm
    | true =>
      simp only [Quantity.matchLetter, hm, if_true] at h
      have hrest := hmore t h
      cases found with
      | true =>
        obtain ⟨us, hs, hd⟩ := hrest
        exact ⟨t :: us, .cons ((Quantity.matchesLetter_iff _ _).mp hm) hs, .cons hx hd⟩
      | false =>
        obtain ⟨ts, b, hmiss, hl⟩ := hrest
        exact ⟨t :: ts, b, .later hm hmiss, .next hx hl⟩

theorem tried_of_matchLetters {letters : List Char} {matched : List Lexeme} {found : Bool}
    (h : Reader.Comes (handler tables) (Quantity.matchLetters matched letters) i (.done found j)) :
    Tried tables letters i found j := by
  induction letters generalizing i matched with
  | nil =>
    cases (Reader.Comes.pure true).unique h
    exact ⟨[], .nil, .nil _⟩
  | cons letter letters ih =>
    obtain ⟨x, k, hx, hk⟩ := h.exists_of_bind (handler_improving tables)
    exact tried_cons hx hk fun t ht => ih ht

theorem exists_of_nonBlank
    (h : Reader.Comes (handler tables) Quantity.nonBlank i (.done x j)) :
    ∃ blanks k, AllSpaces blanks ∧ Delivers tables i blanks k ∧ Answers tables k (.done x j) ∧
      Quantity.isSpace x = false := by
  refine Reader.Comes.loop_induction (handler_improving tables)
    (motive := fun _ i => ∃ blanks k, AllSpaces blanks ∧ Delivers tables i blanks k ∧
      Answers tables k (.done x j) ∧ Quantity.isSpace x = false) ?_ ?_ h
  · intro u i hround
    obtain ⟨y, k, hy, hk⟩ := hround.exists_of_bind (handler_improving tables)
    have hpure := (Reader.Comes.pure _).unique hk
    cases hs : Quantity.isSpace y with
    | true =>
      rw [hs] at hpure
      cases hpure
    | false =>
      rw [hs] at hpure
      cases hpure
      exact ⟨[], i, nofun, .nil i, hy, hs⟩
  · intro u v i i' hround hrest
    obtain ⟨y, k, hy, hk⟩ := hround.exists_of_bind (handler_improving tables)
    have hpure := (Reader.Comes.pure _).unique hk
    obtain ⟨blanks, l, hblanks, hd, hx, hs⟩ := hrest
    cases hspace : Quantity.isSpace y with
    | false =>
      rw [hspace] at hpure
      cases hpure
    | true =>
      rw [hspace] at hpure
      cases hpure
      cases y with
      | none => cases hspace
      | some t =>
        exact ⟨t :: blanks, l, List.forall_mem_cons.mpr ⟨hspace, hblanks⟩, .cons hy hd, hx, hs⟩

theorem exists_of_keyword {word : String} {found : Bool}
    (h : Reader.Comes (handler tables) (Quantity.keyword word) i (.done found j)) :
    ∃ blanks k, AllSpaces blanks ∧ Delivers tables i blanks k ∧
      Tried tables word.toList k found j ∧
      (word.toList ≠ [] → ∀ x l, Answers tables k (.done x l) → Quantity.isSpace x = false) := by
  unfold Quantity.keyword at h
  cases hw : word.toList with
  | nil =>
    rw [hw] at h
    cases (Reader.Comes.pure true).unique h
    exact ⟨[], i, nofun, .nil i, ⟨[], .nil, .nil i⟩, fun hne => absurd rfl hne⟩
  | cons letter letters =>
    rw [hw] at h
    obtain ⟨x, l, hx, hl⟩ := h.exists_of_bind (handler_improving tables)
    obtain ⟨blanks, k, hblanks, hd, hk, hs⟩ := exists_of_nonBlank hx
    refine ⟨blanks, k, hblanks, hd, tried_cons hk hl fun t ht => tried_of_matchLetters ht, ?_⟩
    intro _ y m hy
    cases hk.unique hy
    exact hs

/-! ### What they have left -/

/-- A reader that has returned has taken from its input what it takes wherever it returns. -/
theorem leads_of_takes {r : Scan α} {a : α} (h : Scan.Takes tables r b ts (.ok a) us)
    (hi : Leads tables i ts b) (hr : Reader.Comes (handler tables) r i (.done a j)) :
    Leads tables j us b := by
  rcases h i hi with ho | ⟨k, hk, hl⟩
  · exact absurd hr ho.not_done
  · cases hr.unique hk
    exact hl

theorem precedes_of_takes {r : Scan α} {a : α}
    (h : Scan.Takes tables r b (us ++ ts) (.ok a) ts) (hi : Leads tables i (us ++ ts) b)
    (hr : Reader.Comes (handler tables) r i (.done a j)) : Precedes tables i us j := by
  obtain ⟨k, hd, hk⟩ := hi.exists_delivers
  have htrans := hd.precedes.trans (hk.same (leads_of_takes h hi hr))
  rwa [List.append_nil] at htrans

/-- A missed word is not upcoming. -/
theorem not_upcoming_of_misses {letters : List Char} (h : Misses b letters ts)
    (hi : Leads tables i ts b) (hs : Spelled letters us) : ¬ Upcoming tables i us .more := by
  intro hu
  induction h generalizing i us with
  | here hin h =>
    cases spelled_iff.mp hs with
    | cons hl hrest =>
      rw [h _ (hi.head_of_upcoming hin hu)] at hl
      cases hl
  | later h rest ih =>
    cases spelled_iff.mp hs with
    | cons hl hrest =>
      cases hi with
      | next hn hrest' =>
        cases hu with
        | next hn' hu =>
          cases hn.unique hn'
          exact ih hrest' (spelled_iff.mpr hrest) hu

/-- What the look-ahead for a word leaves: behind the spaces the word has gone, or nothing has. -/
theorem precedes_of_keyword {word : String} {found : Bool}
    (h : Reader.Comes (handler tables) (Quantity.keyword word) i (.done found j)) :
    match found with
    | true => ∃ blanks us, AllSpaces blanks ∧ Spelled word.toList us ∧
      Precedes tables i (blanks ++ us) j
    | false => ∃ blanks, AllSpaces blanks ∧ Precedes tables i blanks j ∧
      (∀ t ts e, Upcoming tables j (t :: ts) e → t.token.isSpace = false) ∧
      ∀ us, Spelled word.toList us → ¬ Upcoming tables j us .more := by
  obtain ⟨blanks, k, hb, hd, htried, hfirst⟩ := exists_of_keyword h
  cases found with
  | true =>
    obtain ⟨us, hs, hus⟩ := htried
    exact ⟨blanks, us, hb, hs, hd.precedes.trans hus.precedes⟩
  | false =>
    obtain ⟨ts, b, hmiss, hk⟩ := htried
    have hne : word.toList ≠ [] := by
      intro he
      rw [he] at hmiss
      cases hmiss
    obtain ⟨x, l, hx⟩ := hk.exists_answers hmiss.inSight
    have hspace : Quantity.isSpace ts.head? = false := by
      rw [hk.head_of_answers hmiss.inSight hx]
      exact hfirst hne x l hx
    have hi : Leads tables i (blanks ++ ts) b := .of_delivers hd hk
    have htakes : Scan.Takes tables (Quantity.keyword word) b (blanks ++ ts) (.ok false) ts :=
      Scan.takes_keyword_missed hb hmiss hspace
    have hj := leads_of_takes htakes hi h
    refine ⟨blanks, hb, precedes_of_takes htakes hi h, ?_,
      fun us hs => not_upcoming_of_misses hmiss hj hs⟩
    intro t us e hu
    rw [hj.head_of_upcoming hmiss.inSight hu] at hspace
    exact hspace

theorem precedes_of_optionalSpace
    (h : Reader.Comes (handler tables) Quantity.optionalSpace i (.done () j)) :
    ∃ blank : Option Lexeme, AllSpaces blank.toList ∧ Precedes tables i blank.toList j ∧
      (blank = none → ∀ t ts e, Upcoming tables j (t :: ts) e → t.token.isSpace = false) := by
  obtain ⟨x, k, hx, -⟩ := h.exists_of_bind (handler_improving tables)
  obtain ⟨b, hin, hi⟩ := exists_leads_of_answers hx
  have htakes : Scan.Takes tables Quantity.optionalSpace b x.toList (.ok ())
      (Scan.withoutSpace x.toList) := Scan.takes_optionalSpace hin
  cases hs : Quantity.isSpace x.toList.head? with
  | true =>
    simp only [Scan.withoutSpace, hs, if_true] at htakes
    cases x with
    | none => cases hs
    | some t =>
      exact ⟨some t, List.forall_mem_singleton.mpr hs, precedes_of_takes htakes hi h, nofun⟩
  | false =>
    simp only [Scan.withoutSpace, hs, Bool.false_eq_true, if_false] at htakes
    refine ⟨none, nofun, ?_, fun _ t us e hu => ?_⟩
    · rw [Option.toList_none]
      exact precedes_of_takes htakes hi h
    · rw [(leads_of_takes htakes hi h).head_of_upcoming hin hu] at hs
      exact hs

theorem precedes_of_optionalEquals
    (h : Reader.Comes (handler tables) Quantity.optionalEquals i (.done () j)) :
    ∃ (blanks : List Lexeme) (sign : Option Lexeme), AllSpaces blanks ∧
      (∀ t ∈ sign, t.token.isOther ['='] = true) ∧ Precedes tables i (blanks ++ sign.toList) j ∧
      (sign = none → ∀ t ts e, Upcoming tables j (t :: ts) e →
        t.token.isSpace = false ∧ t.token.isOther ['='] = false) := by
  obtain ⟨x, l, hx, -⟩ := h.exists_of_bind (handler_improving tables)
  obtain ⟨blanks, k, hb, hd, hk, hspace⟩ := exists_of_nonBlank hx
  obtain ⟨b, hin, hl⟩ := exists_leads_of_answers hk
  have hi : Leads tables i (blanks ++ x.toList) b := .of_delivers hd hl
  have hfirst : x.toList.head? = x := by cases x <;> rfl
  have htakes : Scan.Takes tables Quantity.optionalEquals b (blanks ++ x.toList) (.ok ())
      (Scan.withoutEquals x.toList) := Scan.takes_optionalEquals hb hin (hfirst.symm ▸ hspace)
  cases hs : Quantity.isOther x ['='] with
  | true =>
    simp only [Scan.withoutEquals, hfirst, hs, if_true] at htakes
    cases x with
    | none => cases hs
    | some t =>
      refine ⟨blanks, some t, hb, ?_, ?_, nofun⟩
      · intro u hu
        cases hu
        exact hs
      · exact precedes_of_takes (by rwa [List.append_nil]) (by rwa [List.append_nil]) h
  | false =>
    simp only [Scan.withoutEquals, hfirst, hs, Bool.false_eq_true, if_false] at htakes
    refine ⟨blanks, none, hb, nofun, ?_, fun _ t us e hu => ?_⟩
    · rw [Option.toList_none, List.append_nil]
      exact precedes_of_takes htakes hi h
    · have hhead := (leads_of_takes htakes hi h).head_of_upcoming hin hu
      rw [hfirst] at hhead
      subst hhead
      exact ⟨hspace, hs⟩

/-- Look-ahead is not seen. Behind a word that was not found there are no tokens missing but the
spaces before it; behind one that was, only they and its letters are; and of an optional space or
equals sign nothing but it is missing. -/
theorem lookahead_invisible (tables : Tables) (i j : Input) :
    (∀ word, Reader.Comes (handler tables) (Quantity.keyword word) i (.done false j) →
      ∃ blanks, AllSpaces blanks ∧ Precedes tables i blanks j ∧
        (∀ t ts e, Upcoming tables j (t :: ts) e → t.token.isSpace = false) ∧
        ∀ us, Spelled word.toList us → ¬ Upcoming tables j us .more) ∧
    (∀ word, Reader.Comes (handler tables) (Quantity.keyword word) i (.done true j) →
      ∃ blanks us, AllSpaces blanks ∧ Spelled word.toList us ∧
        Precedes tables i (blanks ++ us) j) ∧
    (Reader.Comes (handler tables) Quantity.optionalSpace i (.done () j) →
      ∃ blank : Option Lexeme, AllSpaces blank.toList ∧ Precedes tables i blank.toList j ∧
        (blank = none → ∀ t ts e, Upcoming tables j (t :: ts) e → t.token.isSpace = false)) ∧
    (Reader.Comes (handler tables) Quantity.optionalEquals i (.done () j) →
      ∃ (blanks : List Lexeme) (sign : Option Lexeme), AllSpaces blanks ∧
        (∀ t ∈ sign, t.token.isOther ['='] = true) ∧
        Precedes tables i (blanks ++ sign.toList) j ∧
        (sign = none → ∀ t ts e, Upcoming tables j (t :: ts) e →
          t.token.isSpace = false ∧ t.token.isOther ['='] = false)) :=
  ⟨fun _ => precedes_of_keyword, fun _ => precedes_of_keyword, precedes_of_optionalSpace,
    precedes_of_optionalEquals⟩

/-- A call that stands for a space and the letters `wi`. -/
def halfWord : Tables :=
  { definitions := Table.empty.set (.cs "w")
      ⟨[], [.literal ⟨.ch ' ' .space, none⟩, .literal ⟨.ch 'w' .letter, none⟩,
        .literal ⟨.ch 'i' .letter, none⟩]⟩ }

/-- Here the word is looked for in a replacement, a branch that is taken and a line. -/
theorem lookahead_invisible_halfWord :
    let i := Input.ofLines ["\\w\\iftrue d\\fi x"] false true { chunks := 2 }
    (∃ j, Reader.Comes (handler halfWord) (Quantity.keyword "width") i (.done false j) ∧
      ∃ blanks, AllSpaces blanks ∧ Precedes halfWord i blanks j) ∧
    (∃ j, Reader.Comes (handler halfWord) (Quantity.keyword "wid") i (.done true j) ∧
      ∃ blanks us, AllSpaces blanks ∧ Spelled "wid".toList us ∧
        Precedes halfWord i (blanks ++ us) j) ∧
    (∃ j, Reader.Comes (handler halfWord) Quantity.optionalSpace i (.done () j) ∧
      ∃ blank : Option Lexeme, AllSpaces blank.toList ∧ Precedes halfWord i blank.toList j) ∧
    (∃ j, Reader.Comes (handler halfWord) Quantity.optionalEquals i (.done () j) ∧
      ∃ (blanks : List Lexeme) (sign : Option Lexeme), AllSpaces blanks ∧
        Precedes halfWord i (blanks ++ sign.toList) j) := by
  intro i
  have himproving := handler_improving halfWord
  obtain ⟨-, j, hmissed, rfl⟩ := Outcome.exists_done_of_yields (p := (· = false))
    (o := (Quantity.keyword "width").run (handler halfWord 20) 20 i) (by decide +kernel)
  obtain ⟨-, k, hfound, rfl⟩ := Outcome.exists_done_of_yields (p := (· = true))
    (o := (Quantity.keyword "wid").run (handler halfWord 20) 20 i) (by decide +kernel)
  obtain ⟨-, l, hspace, rfl⟩ := Outcome.exists_done_of_yields (p := (· = ()))
    (o := Quantity.optionalSpace.run (handler halfWord 20) 20 i) (by decide +kernel)
  obtain ⟨-, m, hequals, rfl⟩ := Outcome.exists_done_of_yields (p := (· = ()))
    (o := Quantity.optionalEquals.run (handler halfWord 20) 20 i) (by decide +kernel)
  have hmissed := Reader.Comes.of_run himproving hmissed nofun
  have hfound := Reader.Comes.of_run himproving hfound nofun
  have hspace := Reader.Comes.of_run himproving hspace nofun
  have hequals := Reader.Comes.of_run himproving hequals nofun
  obtain ⟨blanks, hb, hj, -⟩ := (lookahead_invisible halfWord i j).1 "width" hmissed
  obtain ⟨before, us, hbefore, hs, hk⟩ := (lookahead_invisible halfWord i k).2.1 "wid" hfound
  obtain ⟨blank, hblank, hl, -⟩ := (lookahead_invisible halfWord i l).2.2.1 hspace
  obtain ⟨skipped, sign, hskipped, -, hm, -⟩ := (lookahead_invisible halfWord i m).2.2.2 hequals
  exact ⟨⟨j, hmissed, blanks, hb, hj⟩, ⟨k, hfound, before, us, hbefore, hs, hk⟩,
    ⟨l, hspace, blank, hblank, hl⟩, ⟨m, hequals, skipped, sign, hskipped, hm⟩⟩

end Input

end Galley
