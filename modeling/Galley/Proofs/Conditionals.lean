import Galley.Proofs.Answers

/-!
Conditionals as trees. With nesting tracked, expansion delivers just the leaves of the selected
branches, whatever stands in the others and however deep it is nested, and then goes on with what
follows under as many open branches as before.
-/

namespace Galley

/-! ## Trees -/

def Branch.token : Branch → Token
  | .opening true => .cs "iftrue"
  | .opening false => .cs "iffalse"
  | .alternative => .cs "else"
  | .closing => .cs "fi"

/-- Part of a conditional at some place. -/
def Branch.lexeme (b : Branch) (span : Option Span) : Lexeme := ⟨b.token, span⟩

@[simp] theorem Branch.branch?_lexeme (b : Branch) (span : Option Span) :
    (b.lexeme span).token.branch? = some b := by
  cases b with
  | opening taken => cases taken <;> rfl
  | alternative => rfl
  | closing => rfl

/-- A sequence of leaves and of conditionals with or without an alternative, each of these with the
places of its parts. -/
inductive Trees
  | nil
  | leaf (t : Lexeme) (h : t.token.branch? = none) (more : Trees)
  | choice (taken : Bool) (opening : Option Span) (main : Trees) (closing : Option Span)
    (more : Trees)
  | choiceElse (taken : Bool) (opening : Option Span) (main : Trees) (between : Option Span)
    (alternative : Trees) (closing : Option Span) (more : Trees)

namespace Trees

/-- The tokens that trees are written with. -/
def spell : Trees → List Lexeme
  | nil => []
  | leaf t _ more => t :: more.spell
  | choice taken opening main closing more =>
    (Branch.opening taken).lexeme opening :: main.spell ++
      Branch.closing.lexeme closing :: more.spell
  | choiceElse taken opening main between alternative closing more =>
    (Branch.opening taken).lexeme opening :: main.spell ++
      Branch.alternative.lexeme between :: alternative.spell ++
      Branch.closing.lexeme closing :: more.spell

/-- The leaves of the selected branches. -/
def live : Trees → List Lexeme
  | nil => []
  | leaf t _ more => t :: more.live
  | choice taken _ main _ more => (if taken then main.live else []) ++ more.live
  | choiceElse taken _ main _ alternative _ more =>
    (if taken then main.live else alternative.live) ++ more.live

end Trees

/-! ## Skipping -/

section skipping

variable (toElse : Bool) (level : Nat)

theorem skipStep_leaf {t : Lexeme} (h : t.token.branch? = none) :
    skipStep true toElse level t = .again level := by
  simp [skipStep, h]

@[simp] theorem skipStep_opening (taken : Bool) (span : Option Span) :
    skipStep true toElse level ((Branch.opening taken).lexeme span) = .again (level + 1) := by
  simp [skipStep]

/-- The alternative of a conditional that is skipped whole. -/
@[simp] theorem skipStep_alternative (span : Option Span) :
    skipStep true toElse (level + 1) (Branch.alternative.lexeme span) = .again (level + 1) := by
  simp [skipStep]

@[simp] theorem skipStep_closing (span : Option Span) :
    skipStep true toElse (level + 1) (Branch.closing.lexeme span) = .again level := by
  simp [skipStep]

/-- Skipping whole trees ends on the level on which it began. -/
theorem skip_spell (trees : Trees) (rest : List Lexeme) :
    (Consumer.scan (skipStep true toElse) (fun _ => none) level).run (trees.spell ++ rest) =
      (Consumer.scan (skipStep true toElse) (fun _ => none) level).run rest := by
  induction trees generalizing level rest with
  | nil => rfl
  | leaf t h more ih =>
    simp only [Trees.spell, List.cons_append, Consumer.run_scan_cons, skipStep_leaf _ _ h]
    exact ih level rest
  | choice taken opening main closing more ihMain ihMore =>
    simp only [Trees.spell, List.cons_append, List.append_assoc, Consumer.run_scan_cons,
      skipStep_opening]
    rw [ihMain, Consumer.run_scan_cons, skipStep_closing]
    exact ihMore level rest
  | choiceElse taken opening main between alternative closing more ihMain ihOther ihMore =>
    simp only [Trees.spell, List.cons_append, List.append_assoc, Consumer.run_scan_cons,
      skipStep_opening]
    rw [ihMain, Consumer.run_scan_cons, skipStep_alternative]
    simp only
    rw [ihOther, Consumer.run_scan_cons, skipStep_closing]
    exact ihMore level rest

end skipping

theorem skipper_to_closing (trees : Trees) (toElse : Bool) (span : Option Span)
    (rest : List Lexeme) :
    (skipper true toElse).run (trees.spell ++ [Branch.closing.lexeme span] ++ rest) =
      (some false, rest) := by
  rw [List.append_assoc, skipper, skip_spell]
  simp [Consumer.run_scan_cons, skipStep]

theorem skipper_to_alternative (trees : Trees) (span : Option Span) (rest : List Lexeme) :
    (skipper true true).run (trees.spell ++ [Branch.alternative.lexeme span] ++ rest) =
      (some true, rest) := by
  rw [List.append_assoc, skipper, skip_spell]
  simp [Consumer.run_scan_cons, skipStep]

namespace Input

variable {tables : Tables} {i j : Input} {v : View}

theorem skip_of_run {a : Alphabet} {toElse landed : Bool} {ts : List Lexeme}
    (h : ∀ rest, (skipper v.nested toElse).run (ts ++ rest) = (some landed, rest))
    (hi : i.view a = v.push ts) :
    ∃ j, j.view a = v ∧ ∀ rounds, ts.length ≤ rounds →
      i.skip a rounds toElse = .done landed j := by
  have hn : i.nested = v.nested := congrArg View.nested hi
  rw [← hn] at h
  obtain ⟨j, hj, hc⟩ := consume_of_run h hi
  exact ⟨j, hj, fun rounds hr => by rw [skip, hc rounds hr]; rfl⟩

/-! ## Steps on the parts of a conditional -/

/-- Resolving a part of a conditional comes to an input of this view. -/
def Resolves (tables : Tables) (b : Branch) (i : Input) (v : View) : Prop :=
  ∃ j, j.view tables.alphabet = v ∧
    Settles (fun rounds => (Expansion.resolve b).run (rawHandler tables rounds) rounds i)
      (.done () j)

theorem steps_of_resolves {b : Branch} {span : Option Span} {ts : List Lexeme} {w : View}
    (hi : i.view tables.alphabet = v.push (b.lexeme span :: ts))
    (h : ∀ j, j.view tables.alphabet = v.push ts → Resolves tables b j w) :
    ∃ k, Steps tables i (.done (.again ()) k) ∧ k.view tables.alphabet = w := by
  obtain ⟨j, hn, hj⟩ := next_of_view hi
  obtain ⟨k, hw, n, hk⟩ := h j hj
  refine ⟨k, ⟨n, fun rounds hr => ?_⟩, hw⟩
  have hs : (Expansion.resolve b).run (rawHandler tables rounds) rounds j = .done () k :=
    hk rounds hr
  simp only [run_step hn, Branch.branch?_lexeme, hs, Outcome.andThen]

theorem resolves_opening_true (hi : i.view tables.alphabet = v) :
    Resolves tables (.opening true) i (v.opened (v.openBranches + 1)) := by
  subst hi
  exact ⟨{ i with openBranches := i.openBranches + 1 }, rfl, 0, fun _ _ => rfl⟩

/-- A branch that is not taken is skipped, and an alternative behind it is taken. -/
theorem resolves_opening_false {ts : List Lexeme} {landed : Bool}
    (h : ∀ rest, (skipper v.nested true).run (ts ++ rest) = (some landed, rest))
    (hi : i.view tables.alphabet = v.push ts) :
    Resolves tables (.opening false) i
      (if landed then v.opened (v.openBranches + 1) else v) := by
  obtain ⟨j, hj, hs⟩ := skip_of_run h hi
  subst hj
  refine ⟨{ j with openBranches := if landed then j.openBranches + 1 else j.openBranches }, ?_,
    ts.length, fun rounds hr => ?_⟩
  · cases landed <;> rfl
  · simp only [run_resolve, hs rounds hr, Outcome.andThen]

/-- The input behind a branch that is closed. -/
theorem closeBranch_of_view {n : Nat} (hi : i.view tables.alphabet = v)
    (hv : v.openBranches = n + 1) :
    ∃ j, i.closeBranch = .done true j ∧ j.view tables.alphabet = v.opened n := by
  subst hi
  have hn : i.openBranches = n + 1 := hv
  refine ⟨{ i with openBranches := n }, ?_, rfl⟩
  simp only [closeBranch, hn]

theorem resolves_closing {n : Nat} (hi : i.view tables.alphabet = v)
    (hv : v.openBranches = n + 1) : Resolves tables .closing i (v.opened n) := by
  obtain ⟨j, hc, hj⟩ := closeBranch_of_view hi hv
  refine ⟨j, hj, 0, fun rounds _ => ?_⟩
  simp only [run_resolve, hc, Outcome.andThen, if_true]

/-- The alternative of a branch that was taken is skipped. -/
theorem resolves_alternative {ts : List Lexeme} {n : Nat} {landed : Bool}
    (h : ∀ rest, (skipper v.nested false).run (ts ++ rest) = (some landed, rest))
    (hi : i.view tables.alphabet = v.push ts) (hv : v.openBranches = n + 1) :
    Resolves tables .alternative i (v.opened n) := by
  obtain ⟨j, hc, hj⟩ := closeBranch_of_view hi hv
  obtain ⟨k, hk, hs⟩ := @skip_of_run j (v.opened n) tables.alphabet false landed ts h hj
  refine ⟨k, hk, ts.length, fun rounds hr => ?_⟩
  simp only [run_resolve, hc, hs rounds hr, Outcome.andThen, if_true]

/-! ## Whole trees -/

theorem steps_opening_true {span : Option Span} {ts us : List Lexeme}
    (hi : i.view tables.alphabet =
      v.push ((Branch.opening true).lexeme span :: ts ++ us)) :
    ∃ j, Steps tables i (.done (.again ()) j) ∧
      j.view tables.alphabet = ((v.opened (v.openBranches + 1)).push us).push ts := by
  obtain ⟨j, hs, hj⟩ := steps_of_resolves hi fun _ hk => resolves_opening_true hk
  exact ⟨j, hs, by simpa using hj⟩

theorem steps_closing {span : Option Span} {ts : List Lexeme}
    (hi : i.view tables.alphabet =
      (v.opened (v.openBranches + 1)).push (Branch.closing.lexeme span :: ts)) :
    ∃ j, Steps tables i (.done (.again ()) j) ∧ j.view tables.alphabet = v.push ts := by
  obtain ⟨j, hs, hj⟩ := steps_of_resolves hi fun _ hk => resolves_closing hk rfl
  exact ⟨j, hs, by simpa using hj⟩

/-- A branch that is not taken, with the end of its conditional. -/
theorem steps_whole {trees : Trees} {opening closing : Option Span} {ts : List Lexeme}
    (hv : v.nested = true)
    (hi : i.view tables.alphabet = v.push ((Branch.opening false).lexeme opening :: trees.spell ++
      Branch.closing.lexeme closing :: ts)) :
    ∃ j, Steps tables i (.done (.again ()) j) ∧ j.view tables.alphabet = v.push ts := by
  rw [View.push_split] at hi
  refine steps_of_resolves hi fun _ hk => ?_
  exact @resolves_opening_false _ _ _ _ false
    (by simpa [hv] using skipper_to_closing trees true closing) hk

/-- A branch that is not taken, up to its alternative. -/
theorem steps_to_alternative {trees : Trees} {opening between : Option Span} {ts : List Lexeme}
    (hv : v.nested = true)
    (hi : i.view tables.alphabet = v.push ((Branch.opening false).lexeme opening :: trees.spell ++
      Branch.alternative.lexeme between :: ts)) :
    ∃ j, Steps tables i (.done (.again ()) j) ∧
      j.view tables.alphabet = (v.opened (v.openBranches + 1)).push ts := by
  rw [View.push_split] at hi
  refine steps_of_resolves hi fun _ hk => ?_
  exact @resolves_opening_false _ _ _ _ true
    (by simpa [hv] using skipper_to_alternative trees between) hk

/-- The alternative of a branch that was taken, with the end of its conditional. -/
theorem steps_alternative {trees : Trees} {between closing : Option Span} {ts : List Lexeme}
    (hv : v.nested = true)
    (hi : i.view tables.alphabet = (v.opened (v.openBranches + 1)).push
      (Branch.alternative.lexeme between :: trees.spell ++ Branch.closing.lexeme closing :: ts)) :
    ∃ j, Steps tables i (.done (.again ()) j) ∧ j.view tables.alphabet = v.push ts := by
  rw [View.push_split] at hi
  obtain ⟨j, hs, hj⟩ := steps_of_resolves hi fun _ hk => resolves_alternative
    (by simpa [hv] using skipper_to_closing trees false closing) hk rfl
  exact ⟨j, hs, by simpa using hj⟩

/-- Expansion of trees delivers the live leaves and comes to what stands behind the trees. -/
theorem reaches_live (trees : Trees) (hl : ∀ t ∈ trees.live, tables.meaning? t.token = none)
    (hv : v.nested = true) (hi : i.view tables.alphabet = v.push trees.spell) :
    ∃ k, Reaches tables i trees.live k ∧ k.view tables.alphabet = v := by
  induction trees generalizing i v with
  | nil => exact ⟨i, .refl i, hi⟩
  | leaf t h more ih =>
    obtain ⟨j, hs, hj⟩ := steps_of_inert h (hl t (by simp [Trees.live])) hi
    obtain ⟨k, hr, hk⟩ := ih (fun u hu => hl u (by simp [Trees.live, hu])) hv hj
    exact ⟨k, .deliver hs hr, hk⟩
  | choice taken opening main closing more ihMain ihMore =>
    cases taken with
    | true =>
      simp only [Trees.live, if_true] at hl ⊢
      obtain ⟨j₁, hs₁, hj₁⟩ := steps_opening_true hi
      obtain ⟨j₂, hr₂, hj₂⟩ := ihMain (fun t ht => hl t (by simp [ht])) (by simpa using hv) hj₁
      obtain ⟨j₃, hs₃, hj₃⟩ := steps_closing hj₂
      obtain ⟨k, hr, hk⟩ := ihMore (fun t ht => hl t (by simp [ht])) hv hj₃
      exact ⟨k, .again hs₁ (hr₂.trans (.again hs₃ hr)), hk⟩
    | false =>
      obtain ⟨j, hs, hj⟩ := steps_whole hv hi
      obtain ⟨k, hr, hk⟩ := ihMore (fun t ht => hl t (by simp [Trees.live, ht])) hv hj
      exact ⟨k, .again hs (by simpa [Trees.live] using hr), hk⟩
  | choiceElse taken opening main between alternative closing more ihMain ihOther ihMore =>
    rw [Trees.spell, List.append_assoc] at hi
    cases taken with
    | true =>
      simp only [Trees.live, if_true] at hl ⊢
      obtain ⟨j₁, hs₁, hj₁⟩ := steps_opening_true hi
      obtain ⟨j₂, hr₂, hj₂⟩ := ihMain (fun t ht => hl t (by simp [ht])) (by simpa using hv) hj₁
      obtain ⟨j₃, hs₃, hj₃⟩ := steps_alternative hv hj₂
      obtain ⟨k, hr, hk⟩ := ihMore (fun t ht => hl t (by simp [ht])) hv hj₃
      exact ⟨k, .again hs₁ (hr₂.trans (.again hs₃ hr)), hk⟩
    | false =>
      simp only [Trees.live, Bool.false_eq_true, if_false] at hl ⊢
      obtain ⟨j₁, hs₁, hj₁⟩ := steps_to_alternative hv hi
      replace hj₁ := hj₁.trans (View.push_append _ _ _)
      obtain ⟨j₂, hr₂, hj₂⟩ := ihOther (fun t ht => hl t (by simp [ht])) (by simpa using hv) hj₁
      obtain ⟨j₃, hs₃, hj₃⟩ := steps_closing hj₂
      obtain ⟨k, hr, hk⟩ := ihMore (fun t ht => hl t (by simp [ht])) hv hj₃
      exact ⟨k, .again hs₁ (hr₂.trans (.again hs₃ hr)), hk⟩

/-- On trees of conditionals in front of anything, expansion delivers the leaves of the selected
branches one after the other, if these leaves have no meaning, and answers from then on as it does
on what stands behind the trees. -/
theorem delivers_live (trees : Trees) (hl : ∀ t ∈ trees.live, tables.meaning? t.token = none)
    (hn : i.nested = true)
    (hi : i.view tables.alphabet = (j.view tables.alphabet).push trees.spell) :
    ∃ k, Delivers tables i trees.live k ∧ ∀ n, AnswersAlike tables n k j := by
  have hv : (j.view tables.alphabet).nested = true := (congrArg View.nested hi).symm.trans hn
  obtain ⟨k, hr, hk⟩ := reaches_live trees hl hv hi
  obtain ⟨m, hd, hm⟩ := hr.delivers
  exact ⟨m, hd, fun n => (answersAlike_of_view hk n).of_settles hm⟩

/-- Here the branch that is not taken holds a brace in a conditional of its own. -/
theorem delivers_live_of_alternative :
    ∃ k, Delivers {}
      { Input.ofLines ["z"] false true { chunks := 5000 } with
        chunks := [⟨(Trees.choiceElse false none
          (.choice true none (.leaf ⟨.ch '{' .beginGroup, none⟩ rfl .nil) none .nil) none
          (.leaf ⟨.ch 'b' .letter, none⟩ rfl .nil) none .nil).spell, none⟩] }
      [⟨.ch 'b' .letter, none⟩] k ∧
      ∀ n, AnswersAlike {} n k (Input.ofLines ["z"] false true { chunks := 5000 }) :=
  delivers_live (.choiceElse false none
    (.choice true none (.leaf ⟨.ch '{' .beginGroup, none⟩ rfl .nil) none .nil) none
    (.leaf ⟨.ch 'b' .letter, none⟩ rfl .nil) none .nil)
    (by decide) rfl (by decide +kernel)

end Input

end Galley
