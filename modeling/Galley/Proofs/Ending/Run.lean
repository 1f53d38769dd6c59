import Galley.Proofs.Ending.Quantity
import Galley.Proofs.History
import Galley.Proofs.Typesetting
import Galley.Proofs.WellFormed

/-!
Runs come to an end. A command takes its token and goes on, or it puts the token back for another
list: a paragraph that the token begins, or the list around the paragraph that it ends
(`Nest.PutsBack`). It is not put back again, so of two turns one takes something, and there are at
most two for each character of the lines (`Machine.Poised`). That is so whatever the categories
become on the way, but nothing may be defined.
-/

namespace Galley

/-! ## Tokens that are put back -/

/-- In a vertical list the token begins a paragraph. -/
def Token.OpensParagraph : Token → Prop
  | .ch _ cat => cat = .letter ∨ cat = .other
  | .cs name => name ∈ Build.horizontalCommands

/-- In a paragraph the token ends it. -/
def Token.EndsParagraph : Token → Prop
  | .ch _ cat => cat = .endGroup
  | .cs name => name ∈ Build.verticalCommands

theorem Token.OpensParagraph.not_ends {t : Token} (h : t.OpensParagraph) : ¬ t.EndsParagraph := by
  cases t with
  | ch c cat =>
    rintro rfl
    simp [OpensParagraph] at h
  | cs name =>
    have hdisjoint : ∀ name ∈ Build.horizontalCommands, name ∉ Build.verticalCommands := by decide
    exact hdisjoint name h

namespace Nest

/-- The command leaves its token to a paragraph that it begins, or to the list around the paragraph
that it ends. -/
def PutsBack (nest : Nest) (t : Token) : Prop :=
  nest.mode = .vertical ∧ t.OpensParagraph ∨ nest.isParagraph ∧ t.EndsParagraph

/-- The next command puts nothing back, and the end of input finds no paragraph. -/
def Ready (nest : Nest) (n : Nat) : List Lexeme → Prop
  | t :: _ => t.token.branch? = none ∧ ¬ nest.PutsBack t.token
  | [] => n = 0 ∧ nest.isParagraph = false

variable {nest within : Nest} {t : Token}

/-- A paragraph takes the token that begins it. -/
theorem paragraph_takes (ht : t.OpensParagraph) (items : List Item) :
    ¬ (Nest.paragraph items within).PutsBack t := by
  rintro (⟨hm, -⟩ | ⟨-, he⟩)
  · cases hm
  · exact ht.not_ends he

/-- The list around a paragraph takes the token that ends it. -/
theorem takes_of_vertical (hm : nest.mode = .vertical) (ht : t.EndsParagraph) :
    ¬ nest.PutsBack t := by
  rintro (⟨-, ho⟩ | ⟨hp, -⟩)
  · exact ho.not_ends ht
  · rw [isParagraph_of_vertical hm] at hp
    cases hp

end Nest

/-! ## Commands -/

namespace Build

/-- The nests that a command goes on with are such, and it defines nothing. -/
structure Effect.Keeps (nests : Nest → Prop) (e : Effect) : Prop where
  turn : e.turn.Holds nests fun _ => True
  assignment : ∀ a ∈ e.assignment, ∃ code cat, a = .categorize code cat

theorem Effect.keeps_again {nests : Nest → Prop} {nest : Nest} (h : nests nest) :
    Effect.Keeps nests { turn := .again nest } := ⟨h, nofun⟩

theorem Effect.Keeps.mono {nests nests' : Nest → Prop} {e : Effect} (h : e.Keeps nests)
    (hn : ∀ nest, nests nest → nests' nest) : e.Keeps nests' := by
  refine ⟨?_, h.assignment⟩
  have hturn := h.turn
  cases ht : e.turn with
  | again nest =>
    rw [ht] at hturn
    exact hn nest hturn
  | finish list => trivial

variable {tables : Tables} {rounds n m : Nat} {face : Typeface} {nest within : Nest}
  {items : List Item} {mode : Mode}

section idle

/-! ### Commands that read nothing -/

variable {σ α : Type} {h : Handler Request σ} {fits : Nat → σ → Prop}

/-- The command leaves all that there is, and goes on with such a nest. -/
abbrev Idle (h : Handler Request σ) (rounds : Nat) (fits : Nat → σ → Prop) (n : Nat)
    (nests : Nest → Prop) (r : Step) : Prop :=
  Reader.Spends h rounds fits n (fun m e => m = n ∧ e.Keeps nests) r

theorem Idle.mono {nests nests' : Nest → Prop} {r : Step} (hr : Idle h rounds fits n nests r)
    (hn : ∀ nest, nests nest → nests' nest) : Idle h rounds fits n nests' r :=
  Reader.Spends.mono hr fun _ _ hk => ⟨hk.1, hk.2.mono hn⟩

theorem ofGlyph_spends (o : Except UnknownGlyph α) :
    Reader.Spends h rounds fits n (fun m _ => m = n) (ofGlyph o) := by
  cases o with
  | ok a => exact .pure rfl
  | error e => exact .fail _

theorem package_spends (mode : Mode) (items : List Item) :
    Reader.Spends h rounds fits n (fun m _ => m = n) (package mode items) := by
  unfold package
  split
  · exact .pure rfl
  · exact .fail _

theorem goOn_idle {nests : Nest → Prop} (hn : nests nest) :
    Idle h rounds fits n nests (goOn nest) :=
  .pure ⟨rfl, Effect.keeps_again hn⟩

theorem closeParagraph_idle {nests : Nest → Prop} (hw : nests within)
    (ha : ∀ i, nests (within.add i)) :
    Idle h rounds fits n nests (closeParagraph items within) := by
  unfold closeParagraph
  split
  · exact goOn_idle hw
  · refine .bind (package_spends _ _) fun m i hm => ?_
    obtain rfl := hm
    exact goOn_idle (ha i)

/-- A paragraph is closed in a vertical list. -/
theorem closeParagraph_vertical (hup : (Nest.paragraph items within).Upright) :
    Idle h rounds fits n (fun nest => nest.Upright ∧ nest.mode = .vertical)
      (closeParagraph items within) :=
  closeParagraph_idle ⟨hup.2, hup.1⟩ fun i => ⟨hup.2.add i, by rw [Nest.mode_add, hup.1]⟩

theorem closeGroup_idle (hup : within.Upright) :
    Idle h rounds fits n Nest.Upright (closeGroup mode items within) := by
  refine .bind (package_spends _ _) fun m i hm => ?_
  obtain rfl := hm
  exact goOn_idle (hup.add i)

theorem letter_idle (c : Char) (hup : nest.Upright) :
    Idle h rounds fits n Nest.Upright (letter face c nest) := by
  refine .bind (ofGlyph_spends _) fun m e hm => ?_
  obtain rfl := hm
  exact goOn_idle (hup.add _)

theorem interword_idle (hup : nest.Upright) :
    Idle h rounds fits n Nest.Upright (interword face nest) := by
  refine .bind (ofGlyph_spends _) fun m g hm => ?_
  obtain rfl := hm
  exact goOn_idle (hup.add _)

theorem paragraphEnd_idle (hup : nest.Upright) :
    Idle h rounds fits n Nest.Upright (paragraphEnd nest) := by
  cases nest with
  | outer mode items => exact goOn_idle hup
  | group mode items within => exact goOn_idle hup
  | paragraph items within =>
    exact (closeParagraph_vertical hup).mono fun _ hn => hn.1

/-- At the end of input a paragraph is closed in the list around it. -/
theorem atEnd_idle (hup : nest.Upright) :
    Idle h rounds fits n (fun nest' => nest'.Upright ∧ nest'.mode = .vertical ∧ nest.isParagraph)
      (atEnd nest) := by
  cases nest with
  | outer mode items => exact .pure ⟨rfl, trivial, nofun⟩
  | group mode items within => exact .fail _
  | paragraph items within =>
    exact (closeParagraph_vertical hup).mono fun _ hn => ⟨hn.1, hn.2, rfl⟩

end idle

/-! ### Commands that take their tokens -/

/-- The command has so much to spend and leaves no more than `n`. -/
abbrev Takes (tables : Tables) (rounds n m : Nat) (r : Step) : Prop :=
  Scan.Spends tables rounds m (fun k e => k ≤ n ∧ e.Keeps Nest.Upright) r

theorem takes_of_idle {r : Step} (hm : m ≤ n)
    (hr : Idle (handler tables rounds) rounds (Input.Bounded tables) m Nest.Upright r) :
    Takes tables rounds n m r :=
  Reader.Spends.mono hr fun _ _ hk => ⟨hk.1 ▸ hm, hk.2⟩

theorem goOn_takes (hup : nest.Upright) (hm : m ≤ n) : Takes tables rounds n m (goOn nest) :=
  takes_of_idle hm (goOn_idle hup)

theorem fault_takes (f : BuildFault) : Takes tables rounds n m (fault f) := .fail _

theorem categorize_takes (hup : nest.Upright) (hm : m ≤ n) (hn : n < rounds) :
    Takes tables rounds n m (categorize nest) := by
  refine .bind (Quantity.int_within hm hn) fun k code hk => ?_
  split
  · refine .bind (Quantity.optionalEquals_within hk hn) fun k _ hk =>
      .bind (Quantity.int_within hk hn) fun k value hk => ?_
    split
    · split
      · rename_i c cat _ _
        exact .pure ⟨hk, hup, fun a ha => ⟨c, cat, (Option.some.inj ha).symm⟩⟩
      · exact .fail _
      · exact .fail _
    · exact fault_takes _
  · exact fault_takes _

/-- Each `\relax` before the beginning of a box is a token. -/
theorem openBox_takes (mode : Mode) (hup : nest.Upright) (hm : m ≤ n) (hn : n < rounds) :
    Takes tables rounds n m (openBox mode nest) := by
  have hloop : Scan.Within tables rounds n m (.loop (fun () => do
      let t ← Quantity.nonBlank
      return if t.any (·.token = .cs "relax") then .again () else .finish t) ()) := by
    refine .loop (fun _ => 0) (fun k _ => k ≤ n) (fun k _ hk => ?_) hm (by omega)
    refine .bind Quantity.nonBlank_spends fun l t ht => .pure ?_
    have hl := ht.held.le
    split
    · rename_i hrelax
      have hsome : t.isSome := Option.isSome_of_any hrelax
      exact ⟨Nat.le_trans hl hk, Quantity.lt_of_took ht hsome⟩
    · exact Nat.le_trans hl hk
  refine .bind hloop fun k t hk => ?_
  split
  · exact goOn_takes hup hk
  · exact fault_takes _

/-- A keyword of a rule takes something. -/
theorem ruleStep_spends (r : Rule) (hn : n < rounds) :
    Scan.Spends tables rounds n (fun k turn => turn.Holds (fun _ => k < n) fun _ => k ≤ n)
      (ruleStep r) := by
  have hset {k : Nat} (set : Dimension → Rule) (hk : Quantity.Found n k true) :
      Scan.Spends tables rounds k
        (fun k (turn : Turn Rule Rule) => turn.Holds (fun _ => k < n) fun _ => k ≤ n)
        (Quantity.dimension >>= fun d => pure (.again (set d))) := by
    have hlt : k < n := hk
    exact .bind (Quantity.dimension_within (Nat.le_refl k) (by omega)) fun _ _ hj =>
      .pure (Nat.lt_of_le_of_lt hj hlt)
  refine .bind (Quantity.keyword_spends (by decide) (Nat.le_refl n) hn) fun k found hk => ?_
  cases found with
  | true => exact hset _ hk
  | false =>
    refine .bind (Quantity.keyword_spends (by decide) hk hn) fun k found hk => ?_
    cases found with
    | true => exact hset _ hk
    | false =>
      refine .bind (Quantity.keyword_spends (by decide) hk hn) fun k found hk => ?_
      cases found with
      | true => exact hset _ hk
      | false => exact .pure hk

theorem rule_takes (hup : nest.Upright) (hm : m ≤ n) (hn : n < rounds) :
    Takes tables rounds n m (rule nest) := by
  have hloop : Scan.Within tables rounds n m (.loop ruleStep (Rule.usual nest.mode)) := by
    refine .loop (fun _ => 0) (fun k _ => k ≤ n) (fun k r hk => ?_) hm (by omega)
    refine (ruleStep_spends r (by omega)).mono fun l turn hturn => ?_
    cases turn with
    | again r => exact ⟨Nat.le_trans (Nat.le_of_lt hturn) hk, hturn⟩
    | finish r => exact Nat.le_trans hturn hk
  exact .bind hloop fun _ r hk => goOn_takes (hup.add _) hk

theorem skip_takes (hup : nest.Upright) (hm : m ≤ n) (hn : n < rounds) :
    Takes tables rounds n m (skip nest) :=
  .bind (Quantity.glue_within hm hn) fun _ _ hk => goOn_takes (hup.add _) hk

theorem primitive_takes {name : String} (hname : name ≠ "def") (hup : nest.Upright) (hm : m ≤ n)
    (hn : n < rounds) : Takes tables rounds n m (primitive face name nest) := by
  unfold primitive
  split
  · exact goOn_takes hup hm
  · exact absurd rfl hname
  · exact categorize_takes hup hm hn
  · exact skip_takes hup hm hn
  · exact skip_takes hup hm hn
  · exact openBox_takes _ hup hm hn
  · exact openBox_takes _ hup hm hn
  · exact rule_takes hup hm hn
  · exact rule_takes hup hm hn
  · exact takes_of_idle hm (interword_idle hup)
  · exact fault_takes _

theorem character_takes {t : Lexeme} {c : Char} {cat : Category} (hup : nest.Upright)
    (hnot : ¬ nest.PutsBack (.ch c cat)) (hm : m ≤ n) :
    Takes tables rounds n m (character face t c cat nest) := by
  have hglyph (hc : cat = .letter ∨ cat = .other) (hv : nest.mode = .vertical) : False :=
    hnot (Or.inl ⟨hv, hc⟩)
  unfold character
  split
  · cases nest with
    | outer mode items => exact fault_takes _
    | group mode items within => exact takes_of_idle hm (closeGroup_idle hup)
    | paragraph items within => exact absurd (Or.inr ⟨rfl, rfl⟩) hnot
  · have hgroup : (Nest.group nest.mode [] nest).Upright := hup
    exact goOn_takes hgroup hm
  · split
    · rename_i hv
      exact (hglyph (Or.inl rfl) hv).elim
    · exact takes_of_idle hm (letter_idle c hup)
  · split
    · rename_i hv
      exact (hglyph (Or.inr rfl) hv).elim
    · exact takes_of_idle hm (letter_idle c hup)
  · split
    · exact goOn_takes hup hm
    · exact takes_of_idle hm (interword_idle hup)
  · exact fault_takes _
  · exact fault_takes _

theorem control_takes {t : Lexeme} {name : String} (hname : name ≠ "def") (hup : nest.Upright)
    (hnot : ¬ nest.PutsBack (.cs name)) (hm : m ≤ n) (hn : n < rounds) :
    Takes tables rounds n m (control face t name nest) := by
  unfold control
  split
  · exact takes_of_idle hm (paragraphEnd_idle hup)
  · split
    · rename_i hopens
      exact absurd (Or.inl hopens) hnot
    · split
      · rename_i hends
        cases nest with
        | outer mode items => exact fault_takes _
        | group mode items within => exact fault_takes _
        | paragraph items within => exact absurd (Or.inr ⟨rfl, hends.2⟩) hnot
      · exact primitive_takes hname hup hm hn

/-- A token that is not put back is taken, whatever the command reads behind it. -/
theorem onToken_takes {t : Lexeme} (ht : t.token ≠ .cs "def") (hup : nest.Upright)
    (hnot : ¬ nest.PutsBack t.token) (hm : m ≤ n) (hn : n < rounds) :
    Takes tables rounds n m (onToken face nest (some t)) := by
  obtain ⟨token, span⟩ := t
  cases token with
  | ch c cat => exact character_takes hup hnot hm
  | cs name => exact control_takes (fun h => ht (h ▸ rfl)) hup hnot hm hn

/-- A token is put back before anything else is done, and then not again. -/
theorem exists_putBack (face : Typeface) {t : Lexeme} (hup : nest.Upright)
    (hp : nest.PutsBack t.token) :
    ∃ r : Step, onToken face nest (some t) = (do Scan.back [t]; r) ∧
      ∀ (h : Handler Request Input) (rounds : Nat) (fits : Nat → Input → Prop) (n : Nat),
        Idle h rounds fits n (fun nest' => nest'.Upright ∧ ¬ nest'.PutsBack t.token) r := by
  obtain ⟨token, span⟩ := t
  rcases hp with ⟨hm, ho⟩ | ⟨hp, he⟩
  · refine ⟨goOn (.paragraph [] nest), ?_, fun _ _ _ _ =>
      goOn_idle ⟨⟨hm, hup⟩, Nest.paragraph_takes ho []⟩⟩
    cases token with
    | ch c cat => rcases ho with rfl | rfl <;> simp [onToken, character, hm, openParagraph]
    | cs name =>
      have hpar : name ≠ "par" := by
        rintro rfl
        exact absurd (show "par" ∈ horizontalCommands from ho) (by decide)
      have hname : name ∈ horizontalCommands := ho
      simp [onToken, control, hm, hpar, hname, openParagraph]
  · cases nest with
    | outer mode items => cases hp
    | group mode items within => cases hp
    | paragraph items within =>
      refine ⟨closeParagraph items within, ?_, fun _ _ _ _ => (closeParagraph_vertical hup).mono
        fun nest' hn => ⟨hn.1, Nest.takes_of_vertical hn.2 he⟩⟩
      cases token with
      | ch c cat =>
        obtain rfl : cat = .endGroup := he
        rfl
      | cs name =>
        have hpar : name ≠ "par" := by
          rintro rfl
          exact absurd (show "par" ∈ verticalCommands from he) (by decide)
        have hname : name ∈ verticalCommands := he
        simp [onToken, control, hpar, Nest.mode, hname, interrupt]

end Build

/-! ## The run -/

/-- An even number is twice what is left, where nothing is put back next, and an odd one is one
more than that. -/
structure Poised (tables : Tables) (w : Nat) (nest : Nest) (i : Input) : Prop where
  upright : nest.Upright
  room : ∃ n, i.Bounded tables n ∧
    (w = 2 * n + 1 ∨ w = 2 * n ∧ nest.Ready n (Input.pending i.chunks))

/-- What comes next and leaves so much: a token can be put back only where that is paid for, and
a paragraph ended at the end of input only where that is. -/
def Offered (w : Nat) (nest : Nest) (k : Nat) : Option Lexeme → Prop
  | some t => t.token ≠ .cs "def" ∧ t.token.branch? = none ∧ 2 * k + 1 < w ∧
      (nest.PutsBack t.token → 2 * (k + 1) < w)
  | none => k = 0 ∧ (nest.isParagraph → 0 < w)

/-- A pending token that is no part of a conditional comes next. -/
theorem Input.Bounded.exists_nextExpanded {tables : Tables} {rounds n : Nat} {i : Input}
    {t : Lexeme} {ts : List Lexeme} (hb : i.Bounded tables n)
    (hp : Input.pending i.chunks = t :: ts) (hbranch : t.token.branch? = none) (hr : 1 ≤ rounds) :
    ∃ j k, i.nextExpanded tables rounds = .done (some t) j ∧ j.Bounded tables k ∧
      t.token ≠ .cs "def" ∧ k < n := by
  cases ht : Input.takePending i.chunks with
  | none =>
    rw [(Input.takePending_eq_none_iff _).mp ht] at hp
    cases hp
  | some p =>
    obtain ⟨u, chunks⟩ := p
    rw [Input.pending_takePending ht] at hp
    obtain ⟨rfl, -⟩ := List.cons.inj hp
    have hnext := hb.next
    rw [Input.next_of_pending ht] at hnext
    obtain ⟨k, hj, -, hword, hlt⟩ := hnext
    have hinert := Input.nextExpanded_inert hbranch (hb.undefined _) (Input.next_of_pending ht _) hr
    exact ⟨_, k, hinert, hj, hword, hlt⟩

namespace Poised

variable {tables : Tables} {rounds w : Nat} {face : Typeface} {nest : Nest} {i : Input}

theorem categorize (h : Poised tables w nest i) (code : Nat) (cat : Category) :
    Poised (tables.assign (.categorize code cat)) w nest i := by
  obtain ⟨n, hb, hw⟩ := h.room
  exact ⟨h.upright, n, hb.categorize code cat, hw⟩

/-- Where nothing is put back next, what comes next is what was put back, or there is nothing. -/
theorem next (h : Poised tables w nest i) (hr : w < rounds) :
    (i.nextExpanded tables rounds).Ends
      (fun x j => ∃ k, j.Bounded tables k ∧ Offered w nest k x) (fun _ _ => True) := by
  obtain ⟨n, hb, hw⟩ := h.room
  have hdelivers := Expansion.next_spends i (by omega : n < rounds) hb
  rcases hw with rfl | ⟨rfl, hready⟩
  · refine hdelivers.mono (fun x j hx => ?_) fun _ _ hf => hf
    obtain ⟨k, -, hj, -, htook, hbranch⟩ := hx
    refine ⟨k, hj, ?_⟩
    cases x with
    | none => exact ⟨htook, fun _ => Nat.succ_pos _⟩
    | some t =>
      have hlt : k < n := htook.2
      exact ⟨htook.1, hbranch t rfl, by omega, fun _ => by omega⟩
  · cases hp : Input.pending i.chunks with
    | nil =>
      rw [hp] at hready
      obtain ⟨rfl, hparagraph⟩ := hready
      refine hdelivers.mono (fun x j hx => ?_) fun _ _ hf => hf
      obtain ⟨k, -, hj, -, htook, -⟩ := hx
      refine ⟨k, hj, ?_⟩
      cases x with
      | none => exact ⟨htook, fun h => by simp [hparagraph] at h⟩
      | some t => exact absurd htook.2 (Nat.not_lt_zero k)
    | cons t ts =>
      rw [hp] at hready
      obtain ⟨hbranch, hnot⟩ := hready
      obtain ⟨j, k, hn, hj, hword, hlt⟩ := hb.exists_nextExpanded hp hbranch (by omega : 1 ≤ rounds)
      rw [hn]
      exact ⟨k, hj, hword, hbranch, by omega, fun h => absurd h hnot⟩

/-- A run goes on with less, or it ends. -/
abbrev Lowers (tables : Tables) (w : Nat) (o : Outcome Input Build.Effect) : Prop :=
  o.Ends (fun e j => e.Keeps fun nest => ∃ v < w, Poised tables v nest j) fun _ _ => True

/-- A paragraph that is ended at the end of input leaves nothing to do but to end the run. -/
theorem lowers_atEnd (hup : nest.Upright) (hr : w < rounds) (hi : i.Bounded tables 0)
    (hw : nest.isParagraph → 0 < w) :
    Lowers tables w ((Build.atEnd nest).run (handler tables rounds) rounds i) := by
  refine (Build.atEnd_idle hup i (by omega) hi).mono (fun e j he => ?_) fun _ _ hf => hf
  obtain ⟨m, -, hj, rfl, he⟩ := he
  have hpending : Input.pending j.chunks = [] := by
    have hleft := hj.left
    unfold Input.left at hleft
    exact List.eq_nil_of_length_eq_zero (by omega)
  refine he.mono fun nest' ⟨hup', hm, hp⟩ => ⟨0, hw hp, hup', 0, hj, Or.inr ⟨rfl, ?_⟩⟩
  rw [hpending]
  exact ⟨rfl, Nest.isParagraph_of_vertical hm⟩

/-- With a token that is put back there is as much as before it was read, and it is not put back
again. -/
theorem lowers_putBack {k : Nat} {t : Lexeme} (hup : nest.Upright) (hr : w < rounds)
    (hi : i.Bounded tables k) (hword : t.token ≠ .cs "def") (hbranch : t.token.branch? = none)
    (hp : nest.PutsBack t.token) (hw : 2 * (k + 1) < w) :
    Lowers tables w ((Build.onToken face nest (some t)).run (handler tables rounds) rounds i) := by
  obtain ⟨r, hr', hidle⟩ := Build.exists_putBack face hup hp
  rw [hr', Lowers, Reader.run_bind]
  have hback : ∀ u ∈ [t], u.token ≠ .cs "def" := by simpa using hword
  refine .andThen ((hi.back hback).mono (fun _ j hj => ?_) fun _ _ hf => hf)
  -- the rest of the command leaves the token where it is
  refine (hidle _ rounds (fun n l => l.Bounded tables n ∧ Input.pending l.chunks =
    [t] ++ Input.pending i.chunks) (k + 1) j (by omega) hj).mono (fun e l he => ?_)
    fun _ _ hf => hf
  obtain ⟨m, -, ⟨hl, hpending⟩, rfl, he⟩ := he
  refine he.mono fun nest' ⟨hup', hnot⟩ => ⟨_, hw, hup', _, hl, Or.inr ⟨rfl, ?_⟩⟩
  rw [hpending]
  exact ⟨hbranch, hnot⟩

theorem lowers_onToken (hup : nest.Upright) (hr : w < rounds) {k : Nat} (hi : i.Bounded tables k)
    {x : Option Lexeme} (hx : Offered w nest k x) :
    Lowers tables w ((Build.onToken face nest x).run (handler tables rounds) rounds i) := by
  cases x with
  | none =>
    obtain ⟨rfl, hw⟩ := hx
    exact lowers_atEnd hup hr hi hw
  | some t =>
    obtain ⟨hword, hbranch, hw, hpaid⟩ := hx
    by_cases hp : nest.PutsBack t.token
    · exact lowers_putBack hup hr hi hword hbranch hp (hpaid hp)
    · refine (Build.onToken_takes hword hup hp (Nat.le_refl k) (by omega) i (by omega) hi).mono
        (fun e j he => ?_) fun _ _ hf => hf
      obtain ⟨m, -, hj, hm, he⟩ := he
      exact he.mono fun nest' hup' => ⟨2 * m + 1, by omega, hup', m, hj, Or.inl rfl⟩

/-- Each turn goes on with less. -/
theorem turn {m : Machine} (h : Poised m.tables w nest m.input) (hr : w < rounds) :
    (m.turn face rounds nest).Ends
      (fun turn m' => turn.Holds (fun nest' => ∃ v < w, Poised m'.tables v nest' m'.input)
        fun _ => True) (fun _ _ => True) := by
  have hstep : Lowers m.tables w
      ((Build.step face nest).run (handler m.tables rounds) rounds m.input) := by
    change Lowers m.tables w ((Scan.next >>= Build.onToken face nest).run _ _ m.input)
    rw [Lowers, Reader.run_bind]
    refine .andThen ((h.next hr).mono (fun x j hx => ?_) fun _ _ hf => hf)
    obtain ⟨k, hj, hx⟩ := hx
    exact lowers_onToken h.upright hr hj hx
  unfold Machine.turn
  cases hrun : (Build.step face nest).run (handler m.tables rounds) rounds m.input with
  | unfinished =>
    rw [hrun] at hstep
    exact hstep
  | failed f j => trivial
  | done e j =>
    rw [hrun] at hstep
    obtain ⟨hturn, hassign⟩ := hstep
    obtain ⟨turn, assignment⟩ := e
    cases turn with
    | finish list => trivial
    | again nest' =>
      obtain ⟨v, hv, hpoised⟩ := hturn
      cases assignment with
      | none => exact ⟨v, hv, hpoised⟩
      | some a =>
        obtain ⟨code, cat, rfl⟩ := hassign a rfl
        exact ⟨v, hv, hpoised.categorize code cat⟩

theorem build {m : Machine} {mode : Mode} (h : Poised m.tables w (.outer mode []) m.input)
    (hr : w < rounds) :
    (m.build face rounds mode).Ends (fun _ _ => True) (fun _ _ => True) := by
  refine iterate_ends (fun v nest m => v ≤ w ∧ Poised m.tables v nest m.input)
    (fun v nest m hm => ?_) hr ⟨Nat.le_refl w, h⟩
  refine (hm.2.turn (Nat.lt_of_le_of_lt hm.1 hr)).mono (fun turn m' hturn => ?_) fun _ _ hf => hf
  cases turn with
  | finish list => trivial
  | again nest' =>
    obtain ⟨u, hu, hpoised⟩ := hturn
    exact ⟨u, hu, Nat.le_trans (Nat.le_of_lt hu) hm.1, hpoised⟩

end Poised

/-! ## Lines without the word -/

/-- The characters of the lines, with one for the end of each. -/
def charactersOf : List String → Nat
  | [] => 0
  | line :: more => line.length + 1 + charactersOf more

theorem buffers_length_le (lines : List String) :
    (lines.flatMap (Alphabet.buffer {})).length ≤ charactersOf lines := by
  induction lines with
  | nil => exact Nat.le_refl 0
  | cons line more ih =>
    have hline : (Alphabet.buffer {} line).length ≤ line.length + 1 :=
      Lexer.buffer_length_le {} line
    simp only [List.flatMap_cons, List.length_append, charactersOf]
    omega

theorem infix_of_infix_concat {word s : List Char} {c : Char} (h : word <:+: s ++ [c])
    (hc : c ∉ word) : word <:+: s := by
  rcases List.infix_concat_iff.mp h with h | h
  · rcases List.suffix_concat_iff.mp h with rfl | ⟨t, rfl, -⟩
    · exact List.nil_infix
    · simp at hc
  · exact h

theorem Input.Bounded.ofLines {lines : List String}
    (h : ∀ line ∈ lines, ¬ "def".toList <:+: line.toList) (strict nested : Bool)
    (capacity : Capacity) :
    Input.Bounded {} (charactersOf lines) (.ofLines lines strict nested capacity) where
  left := by
    simpa [Input.left, Input.ofLines, Input.pending, Lexer.size] using buffers_length_le lines
  undefined := Tables.meaning?_fresh
  pending := List.forall_mem_nil _
  lines := by
    have hstart : ¬ "def".toList <:+: [] := by decide
    refine ⟨hstart, fun line hline hi => h line hline ?_⟩
    have hprefix : withoutTrailingSpaces line.toList <+: line.toList := by
      have hsuffix := List.dropWhile_suffix (fun c => decide (c = ' ')) (l := line.toList.reverse)
      simpa [withoutTrailingSpaces] using List.reverse_prefix.mpr hsuffix
    exact (infix_of_infix_concat hi (by decide)).trans hprefix.isInfix

/-- Without the word that defines something, the builder comes to an end on all lines, under any
metrics and with any room for pending tokens: within two turns for each character of the lines and
each end of line it has a list or a fault. -/
theorem Engine.run_ends {lines : List String}
    (h : ∀ line ∈ lines, ¬ "def".toList <:+: line.toList) (config : Config) (metrics : Metrics)
    (mode : Mode) :
    ∃ o, o ≠ .unfinished ∧ ∀ rounds, 2 * charactersOf lines + 1 < rounds →
      (start config metrics {} lines).run rounds mode = o := by
  let e := start config metrics {} lines
  let w := 2 * charactersOf lines + 1
  have hpoised : Poised e.machine.tables w (.outer mode []) e.machine.input :=
    ⟨trivial, _, .ofLines h config.strict config.nested config.capacity, Or.inl rfl⟩
  have hends : e.run (w + 1) mode ≠ .unfinished := by
    have hbuild : (e.machine.build e.face (w + 1) mode).Ends (fun _ _ => True) fun _ _ => True :=
      hpoised.build (Nat.lt_succ_self w)
    unfold run
    cases hb : e.machine.build e.face (w + 1) mode with
    | done list m => exact nofun
    | failed f m => exact nofun
    | unfinished =>
      rw [hb] at hbuild
      exact hbuild.elim
  refine ⟨e.run (w + 1) mode, hends, fun rounds hr => ?_⟩
  exact (e.run_below hr mode).eq_of_ne hends

/-- The ampersand begins control sequences behind the first command. -/
def recategorizing : List String :=
  ["\\catcode38=0 a&hskip 1pt plus 1fil b", "&vskip 2pt \x7bc\x7d", "&catcode99=11 c"]

theorem Engine.run_ends_recategorizing :
    (∀ line ∈ recategorizing, ¬ "def".toList <:+: line.toList) ∧
      ∃ o, o ≠ .unfinished ∧
        ∀ rounds, 2 * charactersOf recategorizing + 1 < rounds →
          (start {} {} {} recategorizing).run rounds .vertical = o :=
  have h : ∀ line ∈ recategorizing, ¬ "def".toList <:+: line.toList := by decide +kernel
  ⟨h, run_ends h {} {} .vertical⟩

end Galley
