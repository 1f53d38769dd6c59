import Galley.Proofs.Lookahead

/-!
Runs that go on alike. Where a look-ahead for letters has stopped, it has put back what it looked at
behind the call or the line that this came from. A run over these tokens is the same as one over
what they came from: letters are read one by one by both, and behind them both find the same input
or both the end (`Machine.buildsAlike_of_glance`).
-/

namespace Galley

/-- Letters and other characters, and the token behind them or the end of input. -/
inductive Glance : List Lexeme → Option Input → Prop
  | ended : Glance [] none
  | token (t : Lexeme) (k : Input) : Glance [t] (some k)
  | letter {t : Lexeme} {ts : List Lexeme} {b : Option Input} {c : Char} {cat : Category}
    (ht : t.token = .ch c cat) (hcat : cat = .letter ∨ cat = .other) (rest : Glance ts b) :
    Glance (t :: ts) b

namespace Machine

variable {face : Typeface} {nest nest' : Nest} {m k m' k' : Machine} {tables : Tables}
  {i j : Input} {b : Option Input} {ts : List Lexeme}

/-! ## Runs from a nest -/

/-- With enough rounds a run that goes on from this nest comes to this. -/
def Comes (face : Typeface) (nest : Nest) (m : Machine) (o : Outcome Machine Composed) : Prop :=
  Settles (fun rounds => iterate (turn face rounds) rounds nest m) o

theorem turn_steady (face : Typeface) (nest : Nest) (m : Machine) :
    Steady fun rounds => m.turn face rounds nest :=
  fun _ _ hn => turn_below hn face nest m

theorem exists_comes (face : Typeface) (nest : Nest) (m : Machine) : ∃ o, Comes face nest m o :=
  Steady.exists_settles fun _ _ hn =>
    iterate_below (fun nest m => turn_steady face nest m _ _ hn) hn nest m

/-- What a run comes to behind its first turn. -/
def Onwards (face : Typeface) : Outcome Machine (Turn Nest Composed) →
    Outcome Machine Composed → Prop
  | .done (.again nest) m, o => Comes face nest m o
  | .done (.finish list) m, o => o = .done list m
  | .failed f m, o => o = .failed f m
  | .unfinished, o => o = .unfinished

theorem comes_of_turn {o : Outcome Machine (Turn Nest Composed)} {q : Outcome Machine Composed}
    (ht : Settles (fun rounds => m.turn face rounds nest) o) (hq : Onwards face o q) :
    Comes face nest m q := by
  cases o with
  | done turn m' =>
    cases turn with
    | again nest' =>
      exact Settles.iterate_again (f := turn face)
        (fun _ _ hn nest m => turn_steady face nest m _ _ hn) ht hq
    | finish list =>
      cases hq
      exact Settles.iterate_finish (f := turn face) ht
  | failed f m' =>
    cases hq
    exact Settles.iterate_failed (f := turn face) ht
  | unfinished =>
    cases hq
    exact Settles.iterate_unfinished (f := turn face) ht

/-- Runs that go on from this nest come to the same list or to faults of one cause, and leave the
same tables, unless the input stack of one of them is full. -/
def BuildsAlike (face : Typeface) (nest : Nest) (m k : Machine) : Prop :=
  ∃ o p, Comes face nest m o ∧ Comes face nest k p ∧
    o.Matches Fault.OfCapacity Eq (fun m' k' => m'.tables = k'.tables) p

/-- A run that is lost in its first turn is like any other one. -/
theorem buildsAlike_of_lost {o : Outcome Machine (Turn Nest Composed)}
    (hm : Settles (fun rounds => m.turn face rounds nest) o) (h : o.FailedBy Fault.OfCapacity)
    (k : Machine) : BuildsAlike face nest m k ∧ BuildsAlike face nest k m := by
  obtain ⟨p, hp⟩ := exists_comes face nest k
  obtain ⟨f, m', rfl, hf⟩ := Outcome.exists_failed_of_failedBy h
  have hcomes : Comes face nest m (.failed f m') := comes_of_turn hm rfl
  exact ⟨⟨_, p, hcomes, hp, .lostLeft hf⟩, ⟨p, _, hp, hcomes, .lostRight hf⟩⟩

/-- So they do if their first turns come to the same. -/
theorem buildsAlike_of_turns {o p : Outcome Machine (Turn Nest Composed)}
    {rel : Machine → Machine → Prop} (hm : Settles (fun rounds => m.turn face rounds nest) o)
    (hk : Settles (fun rounds => k.turn face rounds nest) p)
    (h : o.Matches Fault.OfCapacity Eq rel p)
    (htables : ∀ m' k', rel m' k' → m'.tables = k'.tables)
    (hrest : ∀ nest' m' k', o = .done (.again nest') m' → rel m' k' →
      BuildsAlike face nest' m' k') : BuildsAlike face nest m k := by
  cases h with
  | lostLeft h => exact (buildsAlike_of_lost hm h k).1
  | lostRight h => exact (buildsAlike_of_lost hk h m).2
  | @done turn _ m' k' hv hrel =>
    subst hv
    cases turn with
    | again nest' =>
      obtain ⟨q, r, hq, hr, hmatches⟩ := hrest nest' m' k' rfl hrel
      exact ⟨q, r, comes_of_turn hm hq, comes_of_turn hk hr, hmatches⟩
    | finish list =>
      exact ⟨_, _, comes_of_turn hm rfl, comes_of_turn hk rfl, .done rfl (htables m' k' hrel)⟩
  | failed hf hrel =>
    exact ⟨_, _, comes_of_turn hm rfl, comes_of_turn hk rfl, .failed hf (htables _ _ hrel)⟩
  | unfinished => exact ⟨_, _, comes_of_turn hm rfl, comes_of_turn hk rfl, .unfinished⟩

/-- And so they do if all their turns do, the more rounds the better. -/
theorem buildsAlike_of_invariant {rel : Machine → Machine → Prop} (enough : Nat)
    (hturn : ∀ rounds nest m k, enough ≤ rounds → rel m k →
      (m.turn face rounds nest).Matches Fault.OfCapacity Eq rel (k.turn face rounds nest))
    (htables : ∀ m k, rel m k → m.tables = k.tables) (nest : Nest) (h : rel m k) :
    BuildsAlike face nest m k := by
  obtain ⟨o, n₁, h₁⟩ := exists_comes face nest m
  obtain ⟨p, n₂, h₂⟩ := exists_comes face nest k
  refine ⟨o, p, ⟨n₁, h₁⟩, ⟨n₂, h₂⟩, ?_⟩
  let rounds := n₁ + n₂ + enough
  rw [← h₁ rounds (by omega), ← h₂ rounds (by omega)]
  have hrun := iterate_alike (fun nest m k hrel =>
    Outcome.alike_iff_matches.mpr (hturn rounds nest m k (by omega) hrel)) rounds nest h
  exact (Outcome.alike_iff_matches.mp hrun).mono htables

/-! ## Turns -/

/-- What comes of a command comes of the turn. -/
def carriedOut (m : Machine) : Outcome Input Build.Effect → Outcome Machine (Turn Nest Composed)
  | .done e i => .done e.turn ⟨e.assignment.elim m.tables m.tables.assign, i⟩
  | .failed f i => .failed f { m with input := i }
  | .unfinished => .unfinished

theorem turn_eq_carriedOut (face : Typeface) (rounds : Nat) (nest : Nest) (m : Machine) :
    m.turn face rounds nest =
      m.carriedOut ((Build.step face nest).run (handler m.tables rounds) rounds m.input) := by
  unfold turn carriedOut
  cases (Build.step face nest).run (handler m.tables rounds) rounds m.input <;> rfl

/-- A turn goes on from what expansion answers. -/
theorem turn_settles {x : Option Lexeme} {o : Outcome Input Build.Effect}
    (hx : Input.Answers m.tables m.input (.done x j))
    (ho : Reader.Comes (handler m.tables) (Build.onToken face nest x) j o) :
    Settles (fun rounds => m.turn face rounds nest) (m.carriedOut o) := by
  have hstep : Reader.Comes (handler m.tables) (Build.step face nest) m.input o :=
    Reader.Comes.bind (r := Scan.next) (k := Build.onToken face nest) hx ho
  obtain ⟨n, hn⟩ := hstep
  exact ⟨n, fun rounds hr => (turn_eq_carriedOut face rounds nest m).trans
    (congrArg m.carriedOut (hn rounds hr))⟩

/-! ### The same input -/

/-- The same tables, and the same inputs but for empty chunks. -/
structure Like (m k : Machine) : Prop where
  tables : m.tables = k.tables
  input : m.input.Like k.input

theorem step_like (tables : Tables) (r : Build.Step) (rounds : Nat) (hl : i.Like j) :
    (r.run (handler tables rounds) rounds i).Matches Fault.OfCapacity Eq Input.Like
      (r.run (handler tables rounds) rounds j) :=
  Outcome.alike_iff_matches.mp
    (Or.inr (Or.inr ((Input.congruent_like tables.alphabet).scan rounds r hl).related))

theorem carriedOut_like {o p : Outcome Input Build.Effect} (ht : m.tables = k.tables)
    (h : o.Matches Fault.OfCapacity Eq Input.Like p) :
    (m.carriedOut o).Matches Fault.OfCapacity Eq Like (k.carriedOut p) := by
  cases h with
  | lostLeft h =>
    obtain ⟨f, i, rfl, hf⟩ := Outcome.exists_failed_of_failedBy h
    exact .lostLeft hf
  | lostRight h =>
    obtain ⟨f, i, rfl, hf⟩ := Outcome.exists_failed_of_failedBy h
    exact .lostRight hf
  | done hv hl =>
    subst hv
    exact .done rfl ⟨by simp only [ht], hl⟩
  | failed hf hl => exact .failed hf ⟨ht, hl⟩
  | unfinished => exact .unfinished

/-- Empty chunks make no difference to a run. -/
theorem Like.buildsAlike (h : m.Like k) (nest : Nest) : BuildsAlike face nest m k := by
  refine buildsAlike_of_invariant 0 (fun rounds nest m k _ h => ?_) (fun _ _ h => h.tables) nest h
  rw [turn_eq_carriedOut, turn_eq_carriedOut, ← h.tables]
  exact carriedOut_like h.tables (step_like m.tables _ rounds h.input)

/-- Behind a token that both have read they go on alike, whatever it does. -/
theorem buildsAlike_of_token {t : Lexeme} {i' j' : Input} (nest : Nest)
    (hi : Input.Answers tables i (.done (some t) i'))
    (hj : Input.Answers tables j (.done (some t) j')) (hl : i'.Like j') :
    BuildsAlike face nest ⟨tables, i⟩ ⟨tables, j⟩ := by
  let command := Build.onToken face nest (some t)
  have himproving := handler_improving tables
  obtain ⟨o, ho⟩ := (Reader.Comes.steady himproving command i').exists_settles
  obtain ⟨p, hp⟩ := (Reader.Comes.steady himproving command j').exists_settles
  have hmatches : o.Matches Fault.OfCapacity Eq Input.Like p := by
    obtain ⟨n₁, h₁⟩ := ho
    obtain ⟨n₂, h₂⟩ := hp
    rw [← h₁ (max n₁ n₂) (Nat.le_max_left n₁ n₂), ← h₂ (max n₁ n₂) (Nat.le_max_right n₁ n₂)]
    exact step_like tables command (max n₁ n₂) hl
  have hturns := carriedOut_like (m := ⟨tables, i⟩) (k := ⟨tables, j⟩) rfl hmatches
  exact buildsAlike_of_turns (turn_settles hi ho) (turn_settles hj hp) hturns
    (fun _ _ h => h.tables) fun nest' _ _ _ h => h.buildsAlike nest'

/-! ### Commands that read nothing -/

/-- A result that does not depend on the input, or a fault that is blamed on its last place. -/
def report (res : Except Cause (Turn Nest Composed)) (i : Input) :
    Outcome Input (Turn Nest Composed) :=
  match res with
  | .ok turn => .done turn i
  | .error c => .failed (i.fault c) i

theorem report_matches (res : Except Cause (Turn Nest Composed)) (m k : Machine) (i j : Input) :
    (m.onInput (report res i)).Matches Fault.OfCapacity Eq
      (fun m' k' => m' = { m with input := i } ∧ k' = { k with input := j })
      (k.onInput (report res j)) := by
  cases res with
  | ok turn => exact .done rfl ⟨rfl, rfl⟩
  | error c => exact .failed rfl ⟨rfl, rfl⟩

/-- A command that reads nothing comes to the same on every input. -/
def Silent (r : Build.Step) : Prop := ∃ res, ∀ tables i, Build.Comes tables r i (report res i)

theorem silent_letter (face : Typeface) (c : Char) (nest : Nest) :
    Silent (Build.letter face c nest) := by
  cases he : face.metrics.extentOf face.font (String.singleton c) with
  | ok e =>
    refine ⟨.ok (.again (nest.add (.char (String.singleton c) face.font e))), fun _ _ _ => ?_⟩
    rw [Build.letter, he]
    rfl
  | error e =>
    refine ⟨.error (.glyph e), fun _ _ _ => ?_⟩
    rw [Build.letter, he]
    rfl

theorem silent_atEnd (nest : Nest) : Silent (Build.atEnd nest) := by
  cases nest with
  | outer mode items => exact ⟨.ok (.finish ⟨mode, items.reverse⟩), fun _ _ _ => rfl⟩
  | group mode items within => exact ⟨.error (.build .unclosedGroup), fun _ _ _ => rfl⟩
  | paragraph items within =>
    have hcomes := fun tables i => Build.comes_closeParagraph tables items within i
    cases hs : (Nest.paragraph items within).settled with
    | ok nest' =>
      rw [hs] at hcomes
      exact ⟨.ok (.again nest'), hcomes⟩
    | error e =>
      rw [hs] at hcomes
      exact ⟨.error (.build e), hcomes⟩

/-- What a turn settles on where the command does not depend on the rounds. -/
theorem settles_of_comes {x : Option Lexeme} {o : Outcome Input (Turn Nest Composed)}
    (hx : Input.Answers m.tables m.input (.done x j))
    (ho : Build.Comes m.tables (Build.onToken face nest x) j o) :
    Settles (fun rounds => m.turn face rounds nest) (m.onInput o) := by
  obtain ⟨n, hn⟩ := hx
  exact ⟨n, fun rounds hr => turn_of_expanded (hn rounds hr) ho⟩

theorem buildsAlike_of_silent {x : Option Lexeme} {i' j' : Input}
    (hs : Silent (Build.onToken face nest x)) (hi : Input.Answers tables i (.done x i'))
    (hj : Input.Answers tables j (.done x j'))
    (hrest : ∀ nest', BuildsAlike face nest' ⟨tables, i'⟩ ⟨tables, j'⟩) :
    BuildsAlike face nest ⟨tables, i⟩ ⟨tables, j⟩ := by
  obtain ⟨res, hres⟩ := hs
  refine buildsAlike_of_turns (settles_of_comes (m := ⟨tables, i⟩) hi (hres tables i'))
    (settles_of_comes (m := ⟨tables, j⟩) hj (hres tables j')) (report_matches res _ _ i' j') ?_ ?_
  · rintro _ _ ⟨rfl, rfl⟩
    rfl
  · rintro nest' _ _ - ⟨rfl, rfl⟩
    exact hrest nest'

/-! ### The end of input -/

/-- Under the same tables there is nothing left of both inputs. -/
structure Exhausted (m k : Machine) : Prop where
  tables : m.tables = k.tables
  left : (m.input.view m.tables.alphabet).ahead = []
  right : (k.input.view k.tables.alphabet).ahead = []

theorem Exhausted.turn (h : Exhausted m k) {rounds : Nat} (hr : 1 ≤ rounds) :
    (m.turn face rounds nest).Matches Fault.OfCapacity Eq Exhausted (k.turn face rounds nest) := by
  obtain ⟨i, hni, hi⟩ := next_of_nothing h.left
  obtain ⟨j, hnj, hj⟩ := next_of_nothing h.right
  obtain ⟨res, hres⟩ := silent_atEnd nest
  rw [turn_of_expanded (x := none) (Input.nextExpanded_end hni hr) (hres m.tables i),
    turn_of_expanded (x := none) (Input.nextExpanded_end hnj hr) (hres k.tables j)]
  refine (report_matches res m k i j).mono ?_
  rintro _ _ ⟨rfl, rfl⟩
  exact ⟨h.tables, hi, hj⟩

theorem Exhausted.buildsAlike (h : Exhausted m k) (nest : Nest) : BuildsAlike face nest m k :=
  buildsAlike_of_invariant 1 (fun _ _ _ _ hr h => h.turn hr) (fun _ _ h => h.tables) nest h

theorem buildsAlike_of_end {i' j' : Input} (nest : Nest)
    (hi : Input.Answers tables i (.done none i')) (hj : Input.Answers tables j (.done none j')) :
    BuildsAlike face nest ⟨tables, i⟩ ⟨tables, j⟩ := by
  have hexhausted : Exhausted ⟨tables, i'⟩ ⟨tables, j'⟩ :=
    ⟨rfl, Input.delivered_of_settles hi, Input.delivered_of_settles hj⟩
  have hsilent : Silent (Build.onToken face nest none) := silent_atEnd nest
  exact buildsAlike_of_silent hsilent hi hj hexhausted.buildsAlike

/-! ### Letters -/

theorem comes_openParagraph (tables : Tables) (t : Lexeme) (nest : Nest) (i : Input) :
    Build.Comes tables (Build.openParagraph t nest) i
      ((i.back [t]).map fun _ => .again (.paragraph [] nest)) := by
  intro rounds
  rw [Build.openParagraph, Reader.run_bind]
  change ((i.back [t]).andThen _) = _
  cases i.back [t] <;> rfl

/-- A letter that opens a paragraph is put back. -/
theorem buildsAlike_of_openParagraph {t : Lexeme}
    (ho : Build.onToken face nest (some t) = Build.openParagraph t nest)
    (hi : Input.Leads tables i (t :: ts) b) (hj : Input.Leads tables j (t :: ts) b)
    (hrest : ∀ i j, Input.Leads tables i (t :: ts) b → Input.Leads tables j (t :: ts) b →
      BuildsAlike face (.paragraph [] nest) ⟨tables, i⟩ ⟨tables, j⟩) :
    BuildsAlike face nest ⟨tables, i⟩ ⟨tables, j⟩ := by
  have hin : ∀ u ∈ [t], Inert tables u :=
    List.forall_mem_singleton.mpr (hi.inert t List.mem_cons_self)
  cases hi with
  | @next _ i' _ _ _ hi resti =>
    cases hj with
    | @next _ j' _ _ _ hj restj =>
      have hcomes (l : Input) : Build.Comes tables (Build.onToken face nest (some t)) l
          ((l.back [t]).map fun _ => .again (.paragraph [] nest)) :=
        ho ▸ comes_openParagraph tables t nest l
      have hmturn := settles_of_comes (m := ⟨tables, i⟩) hi (hcomes i')
      have hkturn := settles_of_comes (m := ⟨tables, j⟩) hj (hcomes j')
      rcases Scan.back_cases [t] i' with ⟨l, hl⟩ | ⟨f, l, hl, hf, -⟩
      case inr =>
        rw [hl] at hmturn
        exact (buildsAlike_of_lost hmturn hf _).1
      rcases Scan.back_cases [t] j' with ⟨l', hl'⟩ | ⟨f, l', hl', hf, -⟩
      case inr =>
        rw [hl'] at hkturn
        exact (buildsAlike_of_lost hkturn hf _).2
      rw [hl] at hmturn
      rw [hl'] at hkturn
      obtain ⟨o, p, ho, hp, hmatches⟩ := hrest l l' (resti.back hin hl) (restj.back hin hl')
      exact ⟨o, p, comes_of_turn hmturn ho, comes_of_turn hkturn hp, hmatches⟩

/-- Runs go on alike over letters and to the token behind them. -/
theorem buildsAlike_of_glance (hg : Glance ts b) (hi : Input.Leads tables i ts b)
    (hj : Input.Leads tables j ts b) (nest : Nest) :
    BuildsAlike face nest ⟨tables, i⟩ ⟨tables, j⟩ := by
  induction hg generalizing nest i j with
  | ended =>
    cases hi with
    | ended hi =>
      cases hj with
      | ended hj => exact buildsAlike_of_end nest hi hj
  | token t k =>
    cases hi with
    | next hi resti =>
      cases hj with
      | next hj restj =>
        cases resti with
        | here hli =>
          cases restj with
          | here hlj => exact buildsAlike_of_token nest hi hj (hli.trans hlj.symm)
  | @letter t ts b c cat ht hcat rest ih =>
    have hletter (nest : Nest) {i j : Input} (hmode : nest.mode = .horizontal)
        (hi : Input.Leads tables i (t :: ts) b) (hj : Input.Leads tables j (t :: ts) b) :
        BuildsAlike face nest ⟨tables, i⟩ ⟨tables, j⟩ := by
      have ho : Build.onToken face nest (some t) = Build.letter face c nest := by
        rcases hcat with rfl | rfl <;> simp [Build.onToken, ht, Build.character, hmode]
      have hsilent : Silent (Build.onToken face nest (some t)) := ho ▸ silent_letter face c nest
      cases hi with
      | next hi resti =>
        cases hj with
        | next hj restj =>
          exact buildsAlike_of_silent hsilent hi hj fun nest' => ih resti restj nest'
    cases hmode : nest.mode with
    | horizontal => exact hletter nest hmode hi hj
    | vertical =>
      have ho : Build.onToken face nest (some t) = Build.openParagraph t nest := by
        rcases hcat with rfl | rfl <;> simp [Build.onToken, ht, Build.character, hmode]
      exact buildsAlike_of_openParagraph ho hi hj fun i j hi hj => hletter _ rfl hi hj

end Machine

end Galley
