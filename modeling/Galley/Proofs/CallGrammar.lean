import Galley.Proofs.Captured

/-!
The grammar of calls. `Splits` says how the tokens of a call come apart: the delimiters at the
beginning, and for each parameter a token or a group, or the shortest balanced stretch before its
delimiters. Arguments are captured exactly where the tokens split so, and they are the ones of the
split; everywhere else the fault tells what stands there instead.
-/

namespace Galley.Definition

open Consumer (feed feed_append)
open Capture (depthAfter delimiters)

/-! ## The grammar -/

/-- A balanced stretch is followed by these delimiters and then by the rest. -/
def EndsBefore (ds us ts rest : List Lexeme) : Prop :=
  Balanced us ∧ ∃ vs, ts = us ++ (vs ++ rest) ∧ vs.map (·.token) = ds.map (·.token)

/-- The shortest stretch that is followed by these delimiters. -/
def EndsFirst (ds us ts rest : List Lexeme) : Prop :=
  EndsBefore ds us ts rest ∧ ∀ us' rest', EndsBefore ds us' ts rest' → us.length ≤ us'.length

/-- Exactly one group, with this body. -/
def IsGroup (us body : List Lexeme) : Prop :=
  ∃ o c, us = o :: (body ++ [c]) ∧ o.token.isBegin = true ∧ c.token.isEnd = true ∧ Balanced body

/-- The argument that a parameter with these delimiters takes off a list, and what it leaves. -/
inductive Argument : List Lexeme → List Lexeme → List Lexeme → List Lexeme → Prop
  | token {blanks rest : List Lexeme} {t : Lexeme} (hb : ∀ b ∈ blanks, b.token.isSpace = true)
    (hs : t.token.isSpace = false) (ht : t.token.Plain) :
    Argument [] [t] (blanks ++ t :: rest) rest
  | group {blanks us body rest : List Lexeme} (hb : ∀ b ∈ blanks, b.token.isSpace = true)
    (hu : IsGroup us body) : Argument [] body (blanks ++ (us ++ rest)) rest
  | whole {ds us ts rest : List Lexeme} (hn : ds ≠ []) (hu : EndsFirst ds us ts rest)
    (hg : ∀ body, ¬IsGroup us body) : Argument ds us ts rest
  | stripped {ds us body ts rest : List Lexeme} (hn : ds ≠ []) (hu : EndsFirst ds us ts rest)
    (hg : IsGroup us body) : Argument ds body ts rest

/-- The arguments of parameters, one behind the other, each with its own delimiters. -/
inductive ArgumentsOf : List Element → List (List Lexeme) → List Lexeme → List Lexeme → Prop
  | nil {rest : List Lexeme} : ArgumentsOf [] [] rest rest
  | cons {n : Int} {ds a ts more rest : List Lexeme} {es : List Element}
    {args : List (List Lexeme)} (ha : Argument ds a ts more) (hm : ArgumentsOf es args more rest) :
    ArgumentsOf (.parameter n :: (ds.map .delimiter ++ es)) (a :: args) ts rest

/-- The tokens of a call come apart into the delimiters at the beginning of the parameter text and
these arguments, with this rest behind them. -/
def Splits (d : Definition) (args : List (List Lexeme)) (ts rest : List Lexeme) : Prop :=
  ∃ (ds us more : List Lexeme) (es : List Element), d.parameters = ds.map .delimiter ++ es ∧
    ts = us ++ more ∧ us.map (·.token) = ds.map (·.token) ∧
    ArgumentsOf es args more rest

/-- What is there instead of an argument: a brace that ends no group, or the end of the tokens. -/
def CaptureFault.Stops (ts rest : List Lexeme) : CaptureFault → Prop
  | .mismatch => False
  | .extraEnd => ∃ us c, ts = us ++ c :: rest ∧ Balanced us ∧ c.token.isEnd = true
  | .runaway => rest = [] ∧ (depthThrough 0 ts).isSome

/-- What is there instead of a call: another token than the delimiter that has to come, the end of
the tokens before such a delimiter, or no argument behind all delimiters at the beginning. -/
def CaptureFault.Explains (d : Definition) (ts rest : List Lexeme) (f : CaptureFault) : Prop :=
  ∃ (ds us more : List Lexeme) (es : List Element), ts = us ++ more ∧
    us.map (·.token) = ds.map (·.token) ∧
    ((∃ expected, d.parameters = ds.map .delimiter ++ .delimiter expected :: es ∧
        ((f = .mismatch ∧ ∃ t, more = t :: rest ∧ t.token ≠ expected.token) ∨
          (f = .runaway ∧ more = [] ∧ rest = []))) ∨
      ∃ n, d.parameters = ds.map .delimiter ++ .parameter n :: es ∧ f.Stops more rest)

/-- A fault behind balanced tokens is a fault behind all of these. -/
theorem CaptureFault.Stops.behind {f : CaptureFault} {us ts rest : List Lexeme}
    (h : f.Stops ts rest) (hu : Balanced us) : f.Stops (us ++ ts) rest := by
  cases f with
  | mismatch => exact h
  | extraEnd =>
    obtain ⟨vs, c, rfl, hv, hc⟩ := h
    exact ⟨us ++ vs, c, by simp, hu.append hv, hc⟩
  | runaway =>
    refine ⟨h.1, ?_⟩
    rw [depthThrough_append, hu]
    exact h.2

namespace Capture

variable {ts rest a : List Lexeme}

/-- A scan stops at one of the tokens, or it runs away. -/
theorem ofScan_cases {σ α : Type} (step : σ → Lexeme → Turn σ (Except CaptureFault α)) (s : σ)
    (ts : List Lexeme) :
    (∃ s', feed step s ts = some s' ∧
        Consumer.run (ofScan step s) ts = (.error .runaway, [])) ∨
      ∃ us t rest s' x, ts = us ++ t :: rest ∧ feed step s us = some s' ∧
        step s' t = .finish x ∧ Consumer.run (ofScan step s) ts = (x, rest) := by
  induction ts generalizing s with
  | nil => exact Or.inl ⟨s, rfl, rfl⟩
  | cons t ts ih =>
    rw [run_ofScan_cons]
    cases ht : step s t with
    | finish x => exact Or.inr ⟨[], t, ts, s, x, rfl, rfl, ht, rfl⟩
    | again s₁ =>
      rcases ih s₁ with ⟨s', hf, hr⟩ | ⟨us, u, rest, s', x, rfl, hf, hs, hr⟩
      · exact Or.inl ⟨s', by rw [Consumer.feed_cons ht, hf], hr⟩
      · exact Or.inr ⟨t :: us, u, rest, s', x, rfl, by rw [Consumer.feed_cons ht, hf], hs, hr⟩

/-! ## Arguments without delimiters -/

theorem run_nonBlank_blanks {blanks : List Lexeme} {t : Lexeme}
    (hb : ∀ b ∈ blanks, b.token.isSpace = true) (ht : t.token.isSpace = false) :
    Consumer.run nonBlank (blanks ++ t :: rest) = (.ok t, rest) := by
  induction blanks with
  | nil =>
    rw [nonBlank, List.nil_append, run_ofScan_cons]
    simp [ht]
  | cons b blanks ih =>
    obtain ⟨hb, hblanks⟩ := List.forall_mem_cons.mp hb
    rw [nonBlank, List.cons_append, run_ofScan_cons]
    simp only [hb, if_true]
    exact ih hblanks

theorem run_nonBlank_error {f : CaptureFault} (h : Consumer.run nonBlank ts = (.error f, rest)) :
    f = .runaway ∧ rest = [] ∧ ∀ t ∈ ts, t.token.isSpace = true := by
  induction ts with
  | nil =>
    simp only [nonBlank, ofScan, Consumer.run_scan_nil, Prod.mk.injEq, Except.error.injEq] at h
    exact ⟨h.1.symm, h.2.symm, List.forall_mem_nil _⟩
  | cons u us ih =>
    rw [nonBlank, run_ofScan_cons] at h
    cases hu : u.token.isSpace with
    | true =>
      simp only [hu, if_true] at h
      obtain ⟨hf, hr, hb⟩ := ih h
      exact ⟨hf, hr, List.forall_mem_cons.mpr ⟨hu, hb⟩⟩
    | false => simp [hu] at h

theorem run_groupBody {c : Lexeme} (ha : Balanced a) (hc : c.token.isEnd = true) :
    Consumer.run groupBody (a ++ c :: rest) = (.ok a, rest) := by
  rw [groupBody, run_body ha, run_ofScan_cons]
  simp [bodyStep, hc, Token.isBegin_false_of_isEnd hc]

/-- A body without an end runs away, with its group and those begun in it still open. -/
theorem run_groupBody_error {f : CaptureFault} (h : Consumer.run groupBody ts = (.error f, rest)) :
    f = .runaway ∧ rest = [] ∧ (depthThrough 1 ts).isSome := by
  rcases ofScan_cases bodyStep {} ts with ⟨b, hf, hr⟩ | ⟨us, t, more, b, x, hts, hf, hs, hr⟩
  · rw [groupBody, hr] at h
    cases h
    obtain ⟨hdepth, -⟩ := collects_bodyStep.feed hf
    exact ⟨rfl, rfl, by rw [depthThrough_succ hdepth]; rfl⟩
  · rw [groupBody, hr] at h
    cases h
    rw [bodyStep_eq] at hs
    cases hd : depthAfter b.depth t.token with
    | some d => simp [hd] at hs
    | none => simp [hd] at hs

theorem run_undelimited_iff :
    Consumer.run undelimited ts = (.ok a, rest) ↔ Argument [] a ts rest := by
  constructor
  · intro h
    obtain ⟨t, more, ht, hk⟩ := Consumer.run_bind_except_ok h
    obtain ⟨blanks, rfl, hb, hspace⟩ := of_nonBlank ht
    cases he : t.token.isEnd with
    | true => simp [he] at hk
    | false =>
      cases ho : t.token.isBegin with
      | true =>
        simp only [he, ho, Bool.false_eq_true, if_false, if_true] at hk
        obtain ⟨c, rfl, hc, ha⟩ := of_groupBody hk
        have hgroup : IsGroup (t :: (a ++ [c])) a := ⟨t, c, rfl, ho, hc, ha⟩
        simpa using @Argument.group blanks _ a rest hb hgroup
      | false =>
        simp only [he, ho, Bool.false_eq_true, if_false, Consumer.run_pure_except, Prod.mk.injEq,
          Except.ok.injEq] at hk
        obtain ⟨rfl, rfl⟩ := hk
        exact .token hb hspace ⟨ho, he⟩
  · intro h
    rw [undelimited, Consumer.run_bind_except]
    cases h with
    | @token blanks _ t hb hs ht =>
      have hblank : Consumer.run nonBlank (blanks ++ t :: rest) = (.ok t, rest) :=
        run_nonBlank_blanks hb hs
      rw [hblank]
      simp [ht.1, ht.2]
    | @group blanks us body _ hb hu =>
      obtain ⟨o, c, rfl, ho, hc, ha⟩ := hu
      have hblank : Consumer.run nonBlank (blanks ++ (o :: (a ++ [c]) ++ rest)) =
          (.ok o, a ++ c :: rest) := by
        have hrun : Consumer.run nonBlank (blanks ++ o :: (a ++ c :: rest)) =
            (.ok o, a ++ c :: rest) :=
          run_nonBlank_blanks hb (Token.isSpace_false_of_isBegin ho)
        simpa using hrun
      rw [hblank]
      simp [ho, Token.isEnd_false_of_isBegin ho, run_groupBody ha hc]
    | whole hn hu hg => exact absurd rfl hn
    | stripped hn hu hg => exact absurd rfl hn

theorem balanced_of_blanks {blanks : List Lexeme} (hb : ∀ b ∈ blanks, b.token.isSpace = true) :
    Balanced blanks :=
  .of_plain fun b hm => Token.plain_of_hasCategory (hb b hm) nofun nofun

theorem run_undelimited_error {f : CaptureFault}
    (h : Consumer.run undelimited ts = (.error f, rest)) : f.Stops ts rest := by
  rw [undelimited, Consumer.run_bind_except] at h
  rcases hn : Consumer.run nonBlank ts with ⟨g | t, more⟩
  · rw [hn] at h
    cases h
    obtain ⟨rfl, rfl, hb⟩ := run_nonBlank_error hn
    exact ⟨rfl, by rw [balanced_of_blanks hb]; rfl⟩
  · obtain ⟨blanks, rfl, hb, hspace⟩ := of_nonBlank hn
    have hbal := balanced_of_blanks hb
    rw [hn] at h
    cases he : t.token.isEnd with
    | true =>
      simp only [he, if_true, Consumer.run_throw_except, Prod.mk.injEq, Except.error.injEq] at h
      obtain ⟨rfl, rfl⟩ := h
      exact ⟨blanks, t, rfl, hbal, he⟩
    | false =>
      cases ho : t.token.isBegin with
      | true =>
        simp only [he, ho, Bool.false_eq_true, if_false, if_true] at h
        obtain ⟨rfl, rfl, hdepth⟩ := run_groupBody_error h
        refine ⟨rfl, ?_⟩
        rw [depthThrough_append, hbal]
        simp only [Option.bind_some, depthThrough_cons (Token.depthAfter_begin 0 ho)]
        exact hdepth
      | false => simp [he, ho] at h

/-! ## Arguments with delimiters -/

section delimited

variable {ds us vs : List Lexeme}

/-- Behind a balanced stretch the last of the delimiters ends the scan. -/
theorem delimitedStep_last {p : List Lexeme} {t : Lexeme} {b : Body}
    (hd : ∀ t ∈ ds, t.token.Plain) (hu : Balanced us)
    (hv : vs.map (·.token) = ds.map (·.token)) (hp : p ++ [t] = us ++ vs)
    (hdepth : depthThrough 0 p = some b.depth) (htokens : b.tokens = p.reverse) :
    delimitedStep ds.reverse b t = .finish (.ok us) := by
  have hend : depthAfter b.depth t.token = some 0 := by
    have hwhole : depthThrough 0 (p ++ [t]) = some 0 := by
      rw [hp]
      exact depthThrough_trans hu (depthThrough_plain 0 (plain_of_tokens hd hv))
    rw [depthThrough_append, hdepth] at hwhole
    obtain ⟨m, hm, hnil⟩ := exists_of_depthThrough_cons hwhole
    injection hnil with hnil
    rw [hm, hnil]
  have hread : t :: b.tokens = vs.reverse ++ us.reverse := by
    have hr := congrArg List.reverse hp
    rw [htokens]
    simpa using hr
  have hmatch : withoutDelimiters ds.reverse (t :: b.tokens) = some us.reverse := by
    rw [hread]
    exact withoutDelimiters_append (by simp [List.map_reverse, hv])
  simp [delimitedStep, hend, hmatch]

/-- A scan does not go on behind delimiters that end a balanced stretch. -/
theorem not_feed_of_ends {w tail : List Lexeme} {b : Body} (hn : ds ≠ [])
    (hd : ∀ t ∈ ds, t.token.Plain) (hu : Balanced us)
    (hv : vs.map (·.token) = ds.map (·.token)) (hw : w = us ++ vs ++ tail) :
    feed (delimitedStep ds.reverse) {} w ≠ some b := by
  intro hf
  have hne : us ++ vs ≠ [] := by
    intro h
    have hvs : vs = [] := (List.append_eq_nil_iff.mp h).2
    rw [hvs] at hv
    exact hn (by simpa using hv.symm)
  obtain ⟨p, t, hp⟩ : ∃ p t, us ++ vs = p ++ [t] :=
    ⟨_, _, (List.dropLast_concat_getLast hne).symm⟩
  have hsplit : w = p ++ t :: tail := by
    rw [hw, hp]
    simp
  rw [hsplit, feed_append] at hf
  obtain ⟨b', hb, hrest⟩ := Option.bind_eq_some_iff.mp hf
  obtain ⟨hdepth, htokens⟩ := delimitedStep_again.feed hb
  have hlast := delimitedStep_last hd hu hv hp.symm hdepth (by simpa using htokens)
  simp [feed, hlast] at hrest

theorem endsFirst_of_run (hn : ds ≠ []) (hd : ∀ t ∈ ds, t.token.Plain)
    (h : Consumer.run (ofScan (delimitedStep ds.reverse) {}) ts = (.ok us, rest)) :
    EndsFirst ds us ts rest := by
  obtain ⟨hu, vs, hts, hv⟩ := of_delimitedScan hd h
  refine ⟨⟨hu, vs, hts, hv⟩, ?_⟩
  rintro us' rest' ⟨hu', vs', hts', hv'⟩
  obtain ⟨w, t, b, hw, hf, -⟩ := exists_feed_of_ofScan h
  refine Nat.le_of_not_lt fun hlt => ?_
  have hlen : vs.length = ds.length := by simpa using congrArg List.length hv
  have hlen' : vs'.length = ds.length := by simpa using congrArg List.length hv'
  have hcount : us.length + vs.length = w.length + 1 := by
    have hl := congrArg List.length (hts.symm.trans hw)
    simp only [List.length_append, List.length_cons] at hl
    omega
  -- a shorter stretch would have ended the scan within what it went on with
  have hwhole : us' ++ vs' <+: ts := ⟨rest', by rw [hts', List.append_assoc]⟩
  have hread : w <+: ts := ⟨t :: rest, hw.symm⟩
  have hprefix : us' ++ vs' <+: w := by
    apply List.prefix_of_prefix_length_le hwhole hread
    simp only [List.length_append]
    omega
  obtain ⟨tail, htail⟩ := hprefix
  exact not_feed_of_ends hn hd hu' hv' htail.symm hf

theorem run_of_endsFirst (hn : ds ≠ []) (hd : ∀ t ∈ ds, t.token.Plain)
    (h : EndsFirst ds us ts rest) :
    Consumer.run (ofScan (delimitedStep ds.reverse) {}) ts = (.ok us, rest) := by
  obtain ⟨⟨hu, vs, hts, hv⟩, hfirst⟩ := h
  have hends : ts = us ++ vs ++ rest := by rw [hts, List.append_assoc]
  rcases ofScan_cases (delimitedStep ds.reverse) {} ts with
    ⟨b, hf, -⟩ | ⟨w, t, more, b, x, hw, hf, hs, hr⟩
  · exact absurd hf (not_feed_of_ends hn hd hu hv hends)
  · -- the scan stops within the stretch and its delimiters
    obtain ⟨tail, htail⟩ : ∃ tail, us ++ vs = w ++ t :: tail := by
      rcases List.append_eq_append_iff.mp (hends.symm.trans hw) with
        ⟨c, hc, -⟩ | ⟨c, hc, hrest⟩
      · exact absurd hf (not_feed_of_ends hn hd hu hv hc)
      · cases c with
        | nil =>
          have hw' : w = us ++ vs ++ [] := by rw [hc, List.append_nil, List.append_nil]
          exact absurd hf (not_feed_of_ends hn hd hu hv hw')
        | cons u c =>
          injection hrest with hut
          exact ⟨c, by rw [hc, hut]⟩
    obtain ⟨hdepth, -⟩ := delimitedStep_again.feed hf
    have hwhole : depthThrough 0 (w ++ t :: tail) = some 0 := by
      rw [← htail]
      exact depthThrough_trans hu (depthThrough_plain 0 (plain_of_tokens hd hv))
    cases x with
    | error f =>
      rw [depthThrough_append, hdepth] at hwhole
      obtain ⟨m, hm, -⟩ := exists_of_depthThrough_cons hwhole
      simp only [delimitedStep, hm] at hs
      split at hs <;> cases hs
    | ok us' =>
      have hfirst' := (endsFirst_of_run hn hd hr).1
      have hle := hfirst us' more hfirst'
      obtain ⟨-, vs', hts', hv'⟩ := hfirst'
      have hlen : vs.length = ds.length := by simpa using congrArg List.length hv
      have hlen' : vs'.length = ds.length := by simpa using congrArg List.length hv'
      have hcount := congrArg List.length htail
      have hcount' := congrArg List.length (hts'.symm.trans hw)
      simp only [List.length_append, List.length_cons] at hcount hcount'
      have heq : us' ++ (vs' ++ more) = us ++ (vs ++ rest) := hts'.symm.trans hts
      obtain ⟨hus, hvs⟩ := List.append_inj heq (by omega)
      have hrest := (List.append_inj hvs (by omega)).2
      rw [hr, hus, hrest]

theorem run_delimitedScan_error {f : CaptureFault}
    (h : Consumer.run (ofScan (delimitedStep ds.reverse) {}) ts = (.error f, rest)) :
    f.Stops ts rest := by
  rcases ofScan_cases (delimitedStep ds.reverse) {} ts with
    ⟨b, hf, hr⟩ | ⟨us, t, more, b, x, hts, hf, hs, hr⟩
  · rw [hr] at h
    cases h
    exact ⟨rfl, by rw [(delimitedStep_again.feed hf).1]; rfl⟩
  · rw [hr] at h
    cases h
    have hdepth := (delimitedStep_again.feed hf).1
    unfold delimitedStep at hs
    cases ht : depthAfter b.depth t.token with
    | some d =>
      simp only [ht] at hs
      split at hs <;> cases hs
    | none =>
      simp only [ht, Turn.finish.injEq, Except.error.injEq] at hs
      subst hs
      obtain ⟨hzero, hend⟩ := Token.eq_zero_of_depthAfter ht
      rw [hzero] at hdepth
      exact ⟨us, t, hts, hdepth, hend⟩

/-- An argument loses its braces just when it is one group. -/
theorem stripGroup_cases (hu : Balanced us) :
    (∃ body, IsGroup us body ∧ stripGroup us = body) ∨
      (∀ body, ¬IsGroup us body) ∧ stripGroup us = us := by
  cases h : isSingleGroup us with
  | true =>
    obtain ⟨o, body, c, rfl, ho, hc, hb⟩ := exists_of_isSingleGroup hu h
    exact Or.inl ⟨body, ⟨o, c, rfl, ho, hc, hb⟩, stripGroup_group ho hc hb⟩
  | false =>
    refine Or.inr ⟨?_, by simp [stripGroup, h]⟩
    rintro body ⟨o, c, rfl, ho, hc, hb⟩
    rw [isSingleGroup_group ho hc hb] at h
    cases h

theorem run_delimited_iff (hn : ds ≠ []) (hd : ∀ t ∈ ds, t.token.Plain) :
    Consumer.run (delimited ds) ts = (.ok a, rest) ↔ Argument ds a ts rest := by
  constructor
  · intro h
    obtain ⟨us, more, hscan, hk⟩ := Consumer.run_bind_except_ok h
    simp only [Consumer.run_pure_except, Prod.mk.injEq, Except.ok.injEq] at hk
    obtain ⟨rfl, rfl⟩ := hk
    have hu := endsFirst_of_run hn hd hscan
    rcases stripGroup_cases hu.1.1 with ⟨body, hg, hs⟩ | ⟨hg, hs⟩
    · rw [hs]
      exact .stripped hn hu hg
    · rw [hs]
      exact .whole hn hu hg
  · intro h
    have hrun : ∀ us, EndsFirst ds us ts rest →
        Consumer.run (delimited ds) ts = (.ok (stripGroup us), rest) := by
      intro us hu
      rw [delimited, Consumer.run_bind_except, run_of_endsFirst hn hd hu]
      rfl
    cases h with
    | token hb hs ht => exact absurd rfl hn
    | group hb hu => exact absurd rfl hn
    | whole _ hu hg =>
      rcases stripGroup_cases hu.1.1 with ⟨body, hg', -⟩ | ⟨-, hs⟩
      · exact absurd hg' (hg body)
      · rw [hrun _ hu, hs]
    | stripped _ hu hg =>
      obtain ⟨o, c, rfl, ho, hc, hb⟩ := hg
      rw [hrun _ hu, stripGroup_group ho hc hb]

end delimited

/-! ## All arguments -/

theorem run_argument_iff {ds : List Lexeme} (hd : ∀ t ∈ ds, t.token.Plain) :
    Consumer.run (argument ds) ts = (.ok a, rest) ↔ Argument ds a ts rest := by
  cases ds with
  | nil => exact run_undelimited_iff
  | cons t ds => exact run_delimited_iff (by simp) hd

theorem run_argument_error {ds : List Lexeme} {f : CaptureFault}
    (h : Consumer.run (argument ds) ts = (.error f, rest)) : f.Stops ts rest := by
  cases ds with
  | nil => exact run_undelimited_error h
  | cons t ds =>
    change Consumer.run (delimited (t :: ds)) ts = _ at h
    rw [delimited, Consumer.run_bind_except] at h
    rcases hs : Consumer.run (ofScan (delimitedStep (t :: ds).reverse) {}) ts with ⟨g | us, more⟩
    · rw [hs] at h
      cases h
      exact run_delimitedScan_error hs
    · rw [hs] at h
      cases h

theorem delimiters_of_argumentsOf {es : List Element} {args : List (List Lexeme)}
    (h : ArgumentsOf es args ts rest) (ds : List Lexeme) :
    delimiters (ds.map .delimiter ++ es) = (ds, es) := by
  induction ds with
  | nil => cases h <;> rfl
  | cons t ds ih => simp [delimiters, ih]

theorem of_argumentsOf_parameter {n : Int} {es : List Element} {args : List (List Lexeme)}
    (h : ArgumentsOf (.parameter n :: es) args ts rest) :
    ∃ a more args', args = a :: args' ∧ Argument (delimiters es).1 a ts more ∧
      ArgumentsOf (delimiters es).2 args' more rest := by
  cases h with
  | @cons _ ds a _ more _ es args' ha hm =>
    rw [delimiters_of_argumentsOf hm]
    exact ⟨a, more, args', rfl, ha, hm⟩

theorem run_parameters_iff {es : List Element} {first count : Nat}
    (hc : countFrom first es = .ok count) (hd : ∀ e ∈ es, PlainElement e) {acc args : Arguments} :
    Consumer.run (parameters acc es) ts = (.ok args, rest) ↔
      ∃ as, ArgumentsOf (delimiters es).2 as ts rest ∧ args = numberFrom first acc as := by
  induction es generalizing first acc ts with
  | nil =>
    simp only [parameters, Consumer.run_pure_except, Prod.mk.injEq, Except.ok.injEq]
    constructor
    · rintro ⟨rfl, rfl⟩
      exact ⟨[], .nil, rfl⟩
    · rintro ⟨as, h, rfl⟩
      cases h
      exact ⟨rfl, rfl⟩
  | cons e es ih =>
    have hes : ∀ e ∈ es, PlainElement e := fun e he => hd e (List.mem_cons_of_mem _ he)
    have hplain : ∀ t ∈ (delimiters es).1, t.token.Plain :=
      fun t ht => plain_of_mem_delimiters hes ht
    cases e with
    | delimiter t => exact ih hc hes
    | parameter n =>
      simp only [countFrom] at hc
      split at hc
      · rename_i hfirst
        constructor
        · intro h
          rw [parameters] at h
          obtain ⟨a, more, ha, hk⟩ := Consumer.run_bind_except_ok h
          obtain ⟨as, has, rfl⟩ := (ih hc hes).mp hk
          refine ⟨a :: as, ?_, by rw [numberFrom, ← hfirst]⟩
          have hcons := ArgumentsOf.cons (n := n) ((run_argument_iff hplain).mp ha) has
          rwa [delimiters_append] at hcons
        · rintro ⟨as, h, rfl⟩
          obtain ⟨a, more, as', rfl, ha, hm⟩ := of_argumentsOf_parameter h
          rw [parameters, Consumer.run_bind_except, (run_argument_iff hplain).mpr ha]
          subst hfirst
          exact (ih hc hes).mpr ⟨as', hm, rfl⟩
      · cases hc

theorem run_parameters_error {es : List Element} (hd : ∀ e ∈ es, PlainElement e)
    {acc : Arguments} {f : CaptureFault}
    (h : Consumer.run (parameters acc es) ts = (.error f, rest)) :
    ∃ n es', (delimiters es).2 = .parameter n :: es' ∧ f.Stops ts rest := by
  induction es generalizing acc ts with
  | nil => simp [parameters] at h
  | cons e es ih =>
    have hes : ∀ e ∈ es, PlainElement e := fun e he => hd e (List.mem_cons_of_mem _ he)
    cases e with
    | delimiter t => exact ih hes h
    | parameter n =>
      refine ⟨n, es, rfl, ?_⟩
      rw [parameters, Consumer.run_bind_except] at h
      rcases ha : Consumer.run (argument (delimiters es).1) ts with ⟨g | a, more⟩
      · rw [ha] at h
        cases h
        exact run_argument_error ha
      · rw [ha] at h
        have hplain : ∀ t ∈ (delimiters es).1, t.token.Plain :=
          fun t ht => plain_of_mem_delimiters hes ht
        obtain ⟨us, rfl, htaken⟩ := of_argument hplain ha
        obtain ⟨-, -, -, hstops⟩ := ih hes h
        exact hstops.behind (htaken.balanced hplain)

/-! ## The delimiters at the beginning -/

theorem run_leading_ok {es es' : List Element}
    (h : Consumer.run (leading es) ts = (.ok es', rest)) :
    es' = (delimiters es).2 ∧
      ∃ us, ts = us ++ rest ∧ us.map (·.token) = (delimiters es).1.map (·.token) := by
  induction es generalizing ts with
  | nil =>
    cases h
    exact ⟨rfl, [], rfl, rfl⟩
  | cons e es ih =>
    cases e with
    | parameter n =>
      cases h
      exact ⟨rfl, [], rfl, rfl⟩
    | delimiter expected =>
      rw [leading] at h
      obtain ⟨t, more, ht, hk⟩ := Consumer.run_bind_except_ok h
      have hts := of_token ht
      split at hk
      · rename_i heq
        obtain ⟨hes, us, rfl, hu⟩ := ih hk
        exact ⟨hes, t :: us, hts, by simp [delimiters, heq, hu]⟩
      · simp at hk

theorem run_leading_error {es : List Element} {f : CaptureFault}
    (h : Consumer.run (leading es) ts = (.error f, rest)) :
    ∃ (ds us more : List Lexeme) (es' : List Element) (expected : Lexeme),
      es = ds.map .delimiter ++ .delimiter expected :: es' ∧ ts = us ++ more ∧
        us.map (·.token) = ds.map (·.token) ∧
        ((f = .mismatch ∧ ∃ t, more = t :: rest ∧ t.token ≠ expected.token) ∨
          (f = .runaway ∧ more = [] ∧ rest = [])) := by
  induction es generalizing ts with
  | nil => cases h
  | cons e es ih =>
    cases e with
    | parameter n => cases h
    | delimiter expected =>
      rw [leading, Consumer.run_bind_except] at h
      cases ts with
      | nil =>
        cases h
        exact ⟨[], [], [], es, expected, rfl, rfl, rfl, Or.inr ⟨rfl, rfl, rfl⟩⟩
      | cons t ts =>
        rw [token, run_ofScan_cons] at h
        dsimp only at h
        split at h
        · rename_i heq
          obtain ⟨ds, us, more, es', expected', rfl, rfl, hu, hf⟩ := ih h
          exact ⟨expected :: ds, t :: us, more, es', expected', rfl, rfl, by simp [heq, hu], hf⟩
        · rename_i hne
          cases h
          exact ⟨[], [], _, es, expected, rfl, rfl, rfl, Or.inl ⟨rfl, t, rfl, hne⟩⟩

end Capture

/-! ## Calls -/

theorem isSome_numberFrom (first : Nat) (acc : Arguments) (as : List (List Lexeme)) (n : Int) :
    ((numberFrom first acc as).get? n).isSome ↔
      (acc.get? n).isSome ∨ (first < n ∧ n ≤ first + as.length) := by
  induction as generalizing first acc with
  | nil =>
    simp only [numberFrom, List.length_nil]
    constructor
    · exact Or.inl
    · rintro (h | h)
      · exact h
      · omega
  | cons a as ih =>
    rw [numberFrom, ih, Table.get?_set]
    simp only [List.length_cons]
    by_cases hn : n = first + 1
    · rw [if_pos hn, Option.isSome_some]
      exact ⟨fun _ => Or.inr (by omega), fun _ => Or.inl rfl⟩
    · rw [if_neg hn]
      constructor
      · rintro (h | h)
        · exact Or.inl h
        · exact Or.inr (by omega)
      · rintro (h | h)
        · exact Or.inl h
        · exact Or.inr (by omega)

theorem parameterCount_delimiters (ds : List Lexeme) (es : List Element) (parts : List Part) :
    (mk (ds.map .delimiter ++ es) parts).parameterCount = (mk es parts).parameterCount := by
  induction ds with
  | nil => rfl
  | cons t ds ih => simp [parameterCount]

theorem ArgumentsOf.length_eq {es : List Element} {args : List (List Lexeme)}
    {ts rest : List Lexeme} (h : ArgumentsOf es args ts rest) (parts : List Part) :
    args.length = (mk es parts).parameterCount := by
  induction h with
  | nil => rfl
  | @cons n ds a ts more rest es args ha hm ih =>
    have hmore := parameterCount_delimiters ds es parts
    simp only [parameterCount, List.countP_cons_of_pos, List.length_cons] at ih hmore ⊢
    rw [hmore, ih]

theorem Splits.length_eq {d : Definition} {args : List (List Lexeme)} {ts rest : List Lexeme}
    (h : d.Splits args ts rest) : args.length = d.parameterCount := by
  obtain ⟨ds, us, more, es, hd, -, -, ha⟩ := h
  obtain ⟨parameters, parts⟩ := d
  dsimp only at hd
  rw [ha.length_eq parts, hd, parameterCount_delimiters]

theorem splits_iff {d : Definition} {args : List (List Lexeme)} {ts rest : List Lexeme} :
    d.Splits args ts rest ↔
      ∃ us more, ts = us ++ more ∧
        us.map (·.token) = (delimiters d.parameters).1.map (·.token) ∧
        ArgumentsOf (delimiters d.parameters).2 args more rest := by
  constructor
  · rintro ⟨ds, us, more, es, hd, hts, hu, ha⟩
    rw [hd, Capture.delimiters_of_argumentsOf ha]
    exact ⟨us, more, hts, hu, ha⟩
  · rintro ⟨us, more, hts, hu, ha⟩
    exact ⟨_, us, more, _, (Capture.delimiters_append d.parameters).symm, hts, hu, ha⟩

theorem run_capture_splits {d : Definition} (hv : d.Valid)
    (hd : ∀ e ∈ d.parameters, PlainElement e) {ts rest : List Lexeme} {args : Arguments} :
    Consumer.run d.capture ts = (.ok args, rest) ↔
      ∃ as, d.Splits as ts rest ∧ args = numbered as := by
  obtain ⟨count, hc, -⟩ := hv
  constructor
  · intro h
    obtain ⟨es, more, hl, hp⟩ := Consumer.run_bind_except_ok h
    obtain ⟨rfl, us, hts, hu⟩ := Capture.run_leading_ok hl
    rw [Capture.parameters_delimiters] at hp
    obtain ⟨as, ha, hargs⟩ := (Capture.run_parameters_iff hc hd).mp hp
    exact ⟨as, splits_iff.mpr ⟨us, more, hts, hu, ha⟩, hargs⟩
  · rintro ⟨as, hs, hargs⟩
    obtain ⟨us, more, rfl, hu, ha⟩ := splits_iff.mp hs
    rw [capture, Consumer.run_bind_except, Capture.run_leading hu]
    dsimp only
    rw [Capture.parameters_delimiters]
    exact (Capture.run_parameters_iff hc hd).mpr ⟨as, ha, hargs⟩

theorem explains_of_capture {d : Definition} (hd : ∀ e ∈ d.parameters, PlainElement e)
    {ts rest : List Lexeme} {f : CaptureFault}
    (h : Consumer.run d.capture ts = (.error f, rest)) : f.Explains d ts rest := by
  rw [capture, Consumer.run_bind_except] at h
  rcases hl : Consumer.run (Capture.leading d.parameters) ts with ⟨g | es, more⟩
  · rw [hl] at h
    cases h
    obtain ⟨ds, us, more, es', expected, hes, hts, hu, hf⟩ := Capture.run_leading_error hl
    exact ⟨ds, us, more, es', hts, hu, Or.inl ⟨expected, hes, hf⟩⟩
  · obtain ⟨rfl, us, hts, hu⟩ := Capture.run_leading_ok hl
    rw [hl] at h
    dsimp only at h
    rw [Capture.parameters_delimiters] at h
    obtain ⟨n, es', hes, hf⟩ := Capture.run_parameters_error hd h
    refine ⟨_, us, more, es', hts, hu, Or.inr ⟨n, ?_, hf⟩⟩
    rw [← hes, Capture.delimiters_append]

/-- Arguments are captured just where the tokens split, and are those of the split; they are then
numbered from one without gaps up to the number of parameters, so that the call has a replacement.
Everywhere else capture fails, and the fault tells what is there instead. -/
theorem run_capture_iff {d : Definition} (hv : d.Valid) (hd : ∀ e ∈ d.parameters, PlainElement e)
    (ts : List Lexeme) :
    (∀ args rest, Consumer.run d.capture ts = (.ok args, rest) ↔
        ∃ as, d.Splits as ts rest ∧ args = numbered as) ∧
      (∀ args rest, Consumer.run d.capture ts = (.ok args, rest) →
        (∀ n, args.contains n = true ↔ 1 ≤ n ∧ n ≤ d.parameterCount) ∧
          (d.substitute args).isSome) ∧
      ((∀ as rest, ¬d.Splits as ts rest) →
        ∃ f rest, Consumer.run d.capture ts = (.error f, rest) ∧ f.Explains d ts rest) := by
  refine ⟨fun args rest => run_capture_splits hv hd, ?_, ?_⟩
  · intro args rest h
    obtain ⟨as, hs, rfl⟩ := (run_capture_splits hv hd).mp h
    refine ⟨fun n => ?_, substitute_isSome hv h⟩
    rw [Table.contains, numbered, isSome_numberFrom, hs.length_eq]
    simp only [Table.get?_empty, Option.isSome_none, Bool.false_eq_true, false_or]
    omega
  · intro hn
    rcases hr : Consumer.run d.capture ts with ⟨f | args, rest⟩
    · exact ⟨f, rest, rfl, explains_of_capture hd hr⟩
    · obtain ⟨as, hs, -⟩ := (run_capture_splits hv hd).mp hr
      exact absurd hs (hn as rest)

/-- A parameter up to `ab`, and one without delimiters. -/
def stuttering : Definition :=
  ⟨[.parameter 1, .delimiter ⟨.ch 'a' .letter, none⟩, .delimiter ⟨.ch 'b' .letter, none⟩,
    .parameter 2], [.reference 2, .reference 1]⟩

/-- The delimiters begin twice before they are there in full. -/
def stuttered : List Lexeme :=
  [⟨.ch 'a' .letter, none⟩, ⟨.ch 'a' .letter, none⟩, ⟨.ch 'b' .letter, none⟩,
    ⟨.ch ' ' .space, none⟩, ⟨.ch '{' .beginGroup, none⟩, ⟨.cs "x", none⟩,
    ⟨.ch '}' .endGroup, none⟩, ⟨.ch 'b' .letter, none⟩]

theorem run_capture_iff_stuttering :
    (∃ as, stuttering.Splits as stuttered [⟨.ch 'b' .letter, none⟩] ∧
        Table.mk [(1, [⟨.ch 'a' .letter, none⟩]), (2, [⟨.cs "x", none⟩])] = numbered as) ∧
      (∀ as rest, ¬stuttering.Splits as stuttered.tail.tail rest) ∧
      CaptureFault.runaway.Explains stuttering stuttered.tail.tail [] := by
  have hv : stuttering.Valid := ⟨2, rfl, rfl⟩
  have hd : ∀ e ∈ stuttering.parameters, PlainElement e := by decide
  obtain ⟨hsplits, -, -⟩ := run_capture_iff hv hd stuttered
  obtain ⟨htail, -, hfails⟩ := run_capture_iff hv hd stuttered.tail.tail
  have hnone : ∀ as rest, ¬stuttering.Splits as stuttered.tail.tail rest := by
    intro as rest hs
    have hrun := (htail _ rest).mpr ⟨as, hs, rfl⟩
    have hfault : Consumer.run stuttering.capture stuttered.tail.tail = (.error .runaway, []) := rfl
    rw [hfault] at hrun
    cases hrun
  refine ⟨(hsplits _ _).mp rfl, hnone, ?_⟩
  obtain ⟨f, rest, hrun, hf⟩ := hfails hnone
  have hfault : Consumer.run stuttering.capture stuttered.tail.tail = (.error .runaway, []) := rfl
  rw [hfault] at hrun
  cases hrun
  exact hf

end Galley.Definition
