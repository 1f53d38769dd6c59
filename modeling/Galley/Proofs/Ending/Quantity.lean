import Galley.Proofs.Ending.Input

/-!
Readers of quantities come to an end. Each round of their repetitions reads a token, and what they
put back they have read: so they leave no more than there was, and a keyword that is found has taken
something.
-/

namespace Galley

namespace Scan

variable {tables : Tables} {rounds n m : Nat}

/-- A reader of expanded tokens spends of the allowance. -/
abbrev Spends (tables : Tables) (rounds n : Nat) {α : Type} (values : Nat → α → Prop)
    (r : Scan α) : Prop :=
  Reader.Spends (handler tables rounds) rounds (Input.Bounded tables) n values r

/-- A reader that has so much to spend and leaves no more than `n`. -/
abbrev Within (tables : Tables) (rounds n m : Nat) {α : Type} (r : Scan α) : Prop :=
  Spends tables rounds m (fun k _ => k ≤ n) r

theorem next_spends : Spends tables rounds n (Expansion.Delivers n) next :=
  fun i hn hi => Expansion.next_spends i hn hi

theorem next_held (hm : m ≤ n) : Spends tables rounds m (fun k t => Held n k t) next :=
  next_spends.mono fun _ _ ht => ht.2.1.held.mono hm

theorem nextRaw_held (hm : m ≤ n) : Spends tables rounds m (fun k t => Held n k t) nextRaw :=
  fun _ hm' hi => hi.next.mono
    (fun _ _ ⟨k, hj, hk, ht⟩ => ⟨k, by omega, hj, ht.held.mono hm⟩) fun _ _ hf => hf

theorem back_within {ts : List Lexeme} (ht : ∀ t ∈ ts, t.token ≠ .cs "def")
    (hts : m + ts.length ≤ n) (hn : n < rounds) : Within tables rounds n m (back ts) :=
  fun _ _ hi => (hi.back ht).mono
    (fun _ _ hj => ⟨m + ts.length, Nat.lt_of_le_of_lt hts hn, hj.1, hts⟩) fun _ _ hf => hf

theorem putBack_within {t : Option Lexeme} (ht : Held n m t) (hn : n < rounds) :
    Within tables rounds n m (back t.toList) :=
  back_within (by simpa using ht.1) ht.2 hn

end Scan

namespace Quantity

open Scan (Spends Within next_spends next_held nextRaw_held back_within putBack_within)

variable {tables : Tables} {rounds n m : Nat}

theorem fault_within {α : Type} {values : Nat → α → Prop} (f : ScanFault) :
    Spends tables rounds m values (fault f) := .fail _

theorem isSome_of_isSpace {t : Option Lexeme} (h : isSpace t) : t.isSome := by
  cases t with
  | none => cases h
  | some t => rfl

theorem isSome_of_isOther {t : Option Lexeme} {chars : List Char} (h : isOther t chars) :
    t.isSome := by
  cases t with
  | none => cases h
  | some t => rfl

/-- A token that has been read is one less to come. -/
theorem lt_of_took {k : Nat} {t : Option Lexeme} (h : Took m k t) (ht : t.isSome) : k < m := by
  cases t with
  | none => cases ht
  | some t => exact h.2

/-- The first token that is no space. -/
theorem nonBlank_spends : Spends tables rounds n (Took n) nonBlank := by
  refine .of_room fun hn => .loop (fun _ => 0) (fun m _ => m ≤ n) (fun m _ hm => ?_)
    (Nat.le_refl n) hn
  refine .bind next_spends fun k t ht => .pure ?_
  split
  · rename_i hspace
    exact ⟨Nat.le_trans ht.1 hm, lt_of_took ht.2.1 (isSome_of_isSpace hspace)⟩
  · cases t with
    | none => exact ht.2.1
    | some t => exact ⟨ht.2.1.1, Nat.lt_of_lt_of_le ht.2.1.2 hm⟩

theorem nonBlank_held (hm : m ≤ n) : Spends tables rounds m (fun k t => Held n k t) nonBlank :=
  nonBlank_spends.mono fun _ _ ht => ht.held.mono hm

theorem unlessUsed_within {t : Option Lexeme} (ht : Held n m t) (hn : n < rounds) (used : Bool) :
    Within tables rounds n m (if used then pure () else Scan.back t.toList) := by
  split
  · exact .pure ht.le
  · exact putBack_within ht hn

theorem optionalSpace_within (hm : m ≤ n) (hn : n < rounds) :
    Within tables rounds n m optionalSpace :=
  .bind (next_held hm) fun _ t ht => unlessUsed_within ht hn (isSpace t)

theorem optionalEquals_within (hm : m ≤ n) (hn : n < rounds) :
    Within tables rounds n m optionalEquals :=
  .bind (nonBlank_held hm) fun _ t ht => unlessUsed_within ht hn (isOther t ['='])

/-! ## Keywords -/

/-- The tokens that have been matched can be put back. -/
structure Matched (n m : Nat) (matched : List Lexeme) : Prop where
  words : ∀ t ∈ matched, t.token ≠ .cs "def"
  room : m + matched.length ≤ n

/-- What a keyword leaves: it has taken something if it was found. -/
def Found (n m : Nat) (found : Bool) : Prop := m + found.toNat ≤ n

theorem matchLetter_spends {matched : List Lexeme} {letter : Char} {t : Option Lexeme}
    {more : Lexeme → Scan Bool} (hm : Matched n m (t.toList ++ matched)) (hn : n < rounds)
    (hmore : ∀ u, t = some u → Spends tables rounds m (Found n) (more u)) :
    Spends tables rounds m (Found n) (matchLetter matched letter t more) := by
  have hback {ts : List Lexeme} (hw : ∀ t ∈ ts, t.token ≠ .cs "def") (hts : m + ts.length ≤ n) :
      Spends tables rounds m (Found n) (Scan.back ts >>= fun _ => pure false) :=
    .bind (back_within hw hts hn) fun _ _ hk => .pure hk
  have hroom := hm.room
  unfold matchLetter
  cases t with
  | none => exact hback (by simpa using hm.words) (by simpa using hroom)
  | some t =>
    dsimp only
    split
    · exact hmore t rfl
    · obtain ⟨ht, hw⟩ := List.forall_mem_cons.mp hm.words
      refine hback ?_ ?_
      · simpa [or_imp, forall_and] using ⟨hw, ht⟩
      · simp only [Option.toList_some, List.cons_append, List.nil_append, List.length_cons] at hroom
        simpa using hroom

theorem matchLetters_spends {matched : List Lexeme} (letters : List Char)
    (hm : Matched n m matched) (hne : matched ≠ []) (hn : n < rounds) :
    Spends tables rounds m (Found n) (matchLetters matched letters) := by
  have hroom := hm.room
  have hpos := List.length_pos_iff.mpr hne
  induction letters generalizing m matched with
  | nil => exact .pure (show m + 1 ≤ n by omega)
  | cons letter letters ih =>
    have hle : m ≤ n - matched.length := by omega
    refine .bind (next_held hle) fun k t ht => ?_
    have hk := ht.2
    have hm' : Matched n k (t.toList ++ matched) :=
      ⟨List.forall_mem_append.mpr ⟨by simpa using ht.1, hm.words⟩, by
        rw [List.length_append]
        omega⟩
    refine matchLetter_spends hm' hn fun u hu => ?_
    subst hu
    exact ih hm' (List.cons_ne_nil _ _) hm'.room (Nat.succ_pos _)

theorem keyword_spends {word : String} (hw : word.toList ≠ []) (hm : m ≤ n) (hn : n < rounds) :
    Spends tables rounds m (Found n) (keyword word) := by
  unfold keyword
  split
  · rename_i h
    exact absurd h hw
  · refine .bind (nonBlank_held hm) fun k t ht => ?_
    have hm' : Matched n k (t.toList ++ []) := by
      rw [List.append_nil]
      exact ⟨by simpa using ht.1, ht.2⟩
    refine matchLetter_spends hm' hn fun u hu => ?_
    subst hu
    exact matchLetters_spends _ hm' (List.cons_ne_nil _ _) hn

theorem keyword_within {word : String} (hw : word.toList ≠ []) (hm : m ≤ n) (hn : n < rounds) :
    Within tables rounds n m (keyword word) :=
  (keyword_spends hw hm hn).mono fun _ _ hk => Nat.le_trans (Nat.le_add_right _ _) hk

/-! ## Numbers -/

theorem signs_within (hm : m ≤ n) (hn : n < rounds) : Within tables rounds n m signs := by
  refine .loop (fun _ => 0) (fun k _ => k ≤ n) (fun k negative hk => ?_) hm (by omega)
  refine .bind nonBlank_spends fun l t ht => ?_
  have hsign {b : Bool} (h : t.isSome) : Turn.Holds (fun _ : Bool => l ≤ n ∧ l + 0 < k + 0)
      (fun _ : Bool => l ≤ n) (.again b) := by
    have hlt := lt_of_took ht h
    exact ⟨by omega, by omega⟩
  split
  · exact .pure (hsign (isSome_of_isOther ‹_›))
  · split
    · exact .pure (hsign (isSome_of_isOther ‹_›))
    · exact .bind (putBack_within (ht.held.mono hk) hn) fun _ _ hl => .pure hl

theorem isSome_of_digit {radix d : Nat} {t : Option Lexeme} (h : digit? radix t = some d) :
    t.isSome := by
  cases t with
  | none => cases h
  | some t => rfl

theorem isSome_of_decimalChar {c : Char} {t : Option Lexeme} (h : decimalChar? t = some c) :
    t.isSome := by
  cases t with
  | none => cases h
  | some t => rfl

/-- A token in hand that is used up makes room for the next one. -/
theorem next_for {t : Option Lexeme} (ht : Held n m t) (hsome : t.isSome) :
    Spends tables rounds m (fun k u => Held n k u ∧ k + u.toList.length < m + t.toList.length)
      Scan.next := by
  refine next_spends.mono fun k u hu => ⟨hu.2.1.held.mono ht.le, ?_⟩
  have hlen := hu.2.1.held.2
  cases t with
  | none => cases hsome
  | some t =>
    rw [Option.toList_some, List.length_singleton]
    omega

/-- Digits are read one by one, with the token behind them in hand. -/
theorem digits_spends (radix : Nat) {t : Option Lexeme} (ht : Held n m t) (hn : n < rounds) :
    Spends tables rounds m (fun k s => Held n k s.after) (digits radix t) := by
  refine .loop (fun s => s.after.toList.length) (fun k s => Held n k s.after) (fun k s hs => ?_) ht
    (Nat.lt_of_le_of_lt ht.2 hn)
  split
  · rename_i hd
    exact .bind (next_for hs (isSome_of_digit hd)) fun _ _ hu => .pure hu
  · exact .pure hs

theorem natural_within (radix : Nat) {t : Option Lexeme} (ht : Held n m t) (hn : n < rounds) :
    Within tables rounds n m (natural radix t) := by
  refine .bind (digits_spends radix ht hn) fun k s hs => ?_
  split
  · exact .bind (putBack_within hs hn) fun _ _ _ => fault_within _
  · dsimp only
    split
    · exact .pure hs.le
    · exact .bind (putBack_within hs hn) fun _ _ hl => .pure hl

theorem constant_within (hm : m ≤ n) (hn : n < rounds) : Within tables rounds n m constant := by
  refine .bind (nextRaw_held hm) fun k t ht => ?_
  split
  · exact .bind (optionalSpace_within ht.le hn) fun _ _ hl => .pure hl
  · exact fault_within _

theorem int_within (hm : m ≤ n) (hn : n < rounds) : Within tables rounds n m int := by
  refine .bind (signs_within hm hn) fun k negative hk => .bind (next_held hk) fun l t ht => ?_
  split
  · exact .bind (constant_within ht.le hn) fun _ _ hj => .pure hj
  · split
    · exact .bind (next_held ht.le) fun _ _ hu =>
        .bind (natural_within 8 hu hn) fun _ _ hj => .pure hj
    · split
      · exact .bind (next_held ht.le) fun _ _ hu =>
          .bind (natural_within 16 hu hn) fun _ _ hj => .pure hj
      · exact .bind (natural_within 10 ht hn) fun _ _ hj => .pure hj

theorem decimalText_within (hm : m ≤ n) (hn : n < rounds) :
    Within tables rounds n m decimalText := by
  refine .bind (next_held hm) fun k t ht => ?_
  refine .loop (fun s => s.2.toList.length) (fun l s => Held n l s.2) (fun l s hs => ?_) ht
    (Nat.lt_of_le_of_lt ht.2 hn)
  split
  · rename_i hc
    exact .bind (next_for hs (isSome_of_decimalChar hc)) fun _ _ hu => .pure hu
  · exact .bind (putBack_within hs hn) fun _ _ hj => .pure hj

theorem decimal_within (hm : m ≤ n) (hn : n < rounds) : Within tables rounds n m decimal := by
  refine .bind (decimalText_within hm hn) fun k text hk => ?_
  split
  · exact fault_within _
  · split
    · exact fault_within _
    · exact .pure hk

/-! ## Dimensions and glue -/

theorem unitFrom_within (us : List LengthUnit) (hm : m ≤ n) (hn : n < rounds) :
    Within tables rounds n m (unitFrom us) := by
  induction us generalizing m with
  | nil => exact fault_within _
  | cons u us ih =>
    have hname : u.name.toList ≠ [] := by cases u <;> decide
    refine .bind (keyword_within hname hm hn) fun k found hk => ?_
    split
    · exact .pure hk
    · exact ih hk

/-- Each further letter is a token. -/
theorem infiniteOrder_within (hm : m ≤ n) (hn : n < rounds) :
    Within tables rounds n m infiniteOrder := by
  refine .loop (fun _ => 0) (fun k _ => k ≤ n) (fun k order hk => ?_) hm (by omega)
  refine .bind (keyword_spends (by decide) (Nat.le_refl k) (by omega)) fun l found hl => ?_
  cases found with
  | true =>
    have hlt : l + 1 ≤ k := hl
    rw [if_pos rfl]
    split
    · exact fault_within _
    · split
      · exact .pure ⟨by omega, by omega⟩
      · exact .fail _
  | false => exact .pure (Nat.le_trans hl hk)

theorem unit_within (infinite : Bool) (hm : m ≤ n) (hn : n < rounds) :
    Within tables rounds n m (unit infinite) := by
  unfold unit
  extract_lets chosen
  have hc : ∀ k infinite, k ≤ n → Within tables rounds n k (chosen infinite) := by
    intro k infinite hk
    dsimp only [chosen]
    split
    · exact .bind (infiniteOrder_within hk hn) fun _ _ hl => .pure hl
    · exact .bind (keyword_within (by decide) hk hn) fun _ _ hl =>
        .bind (unitFrom_within _ hl hn) fun _ _ hj => .pure hj
  split
  · exact .bind (keyword_within (by decide) hm hn) hc
  · exact .bind (.pure hm) hc

theorem flex_within (infinite : Bool) (hm : m ≤ n) (hn : n < rounds) :
    Within tables rounds n m (flex infinite) := by
  refine .bind (signs_within hm hn) fun _ negative hk =>
    .bind (decimal_within hk hn) fun _ text hk =>
    .bind (unit_within infinite hk hn) fun _ u hk =>
    .bind (optionalSpace_within hk hn) fun _ _ hk => ?_
  split
  · exact .fail _
  · split
    · exact .pure hk
    · exact fault_within _

theorem dimension_within (hm : m ≤ n) (hn : n < rounds) : Within tables rounds n m dimension :=
  .bind (flex_within false hm hn) fun _ _ hk => .pure hk

theorem flexAfter_within {word : String} (hw : word.toList ≠ []) (hm : m ≤ n) (hn : n < rounds) :
    Within tables rounds n m (flexAfter word) := by
  refine .bind (keyword_within hw hm hn) fun k found hk => ?_
  split
  · exact flex_within true hk hn
  · exact .pure hk

theorem glue_within (hm : m ≤ n) (hn : n < rounds) : Within tables rounds n m glue :=
  .bind (dimension_within hm hn) fun _ _ hk => .bind (flexAfter_within (by decide) hk hn)
    fun _ _ hk => .bind (flexAfter_within (by decide) hk hn) fun _ _ hk => .pure hk

end Quantity

end Galley
