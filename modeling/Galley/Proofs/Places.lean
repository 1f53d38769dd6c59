import Galley.Proofs.Answers

/-!
Tokens compared without their places. The capture of arguments and the replacement of a call go by
tokens alone, so expansion does the same on two inputs as long as raw reading does, whatever the
places of the tokens: `Input.Mirrors` says what a relation of inputs must keep for that, and
`Mirrors.nextExpanded` is what follows from it.
-/

namespace Galley

/-- One token at two places. -/
def SameToken (t u : Lexeme) : Prop := t.token = u.token

theorem map_token_eq {x y : Option Lexeme} (h : Option.Rel SameToken x y) :
    x.map (·.token) = y.map (·.token) := by
  cases h with
  | none => rfl
  | some ht => exact congrArg some ht

/-- The same tokens in the same order, at places of their own. -/
def SameTokens (ts us : List Lexeme) : Prop := ts.map (·.token) = us.map (·.token)

namespace SameTokens

variable {t u : Lexeme} {ts us vs ws : List Lexeme}

theorem nil : SameTokens [] [] := rfl

theorem cons (hs : SameTokens ts us) (h : t.token = u.token) : SameTokens (t :: ts) (u :: us) := by
  simp only [SameTokens, List.map_cons, h]
  rw [hs]

theorem of_cons (h : SameTokens (t :: ts) (u :: us)) : t.token = u.token ∧ SameTokens ts us := by
  simpa [SameTokens] using h

theorem append (h : SameTokens ts us) (h' : SameTokens vs ws) :
    SameTokens (ts ++ vs) (us ++ ws) := by
  rw [SameTokens, List.map_append, List.map_append, h, h']

theorem reverse (h : SameTokens ts us) : SameTokens ts.reverse us.reverse := by
  rw [SameTokens, List.map_reverse, List.map_reverse, h]

theorem isEmpty (h : SameTokens ts us) : ts.isEmpty = us.isEmpty := by
  have hl := congrArg List.length h
  cases ts <;> cases us <;> simp_all

theorem tail (h : SameTokens ts us) : SameTokens ts.tail us.tail := by
  rw [SameTokens, List.map_tail, List.map_tail, h]

theorem dropLast (h : SameTokens ts us) : SameTokens ts.dropLast us.dropLast := by
  rw [SameTokens, List.map_dropLast, List.map_dropLast, h]

theorem head? (h : SameTokens ts us) : Option.Rel SameToken ts.head? us.head? := by
  cases ts with
  | nil =>
    cases us with
    | nil => exact .none
    | cons u us => cases h
  | cons t ts =>
    cases us with
    | nil => cases h
    | cons u us => exact .some h.of_cons.1

theorem getLast (h : SameTokens ts us) (ht : ts ≠ []) (hu : us ≠ []) :
    (ts.getLast ht).token = (us.getLast hu).token := by
  have hl := congrArg List.getLast? h
  simpa [List.getLast?_eq_some_getLast ht, List.getLast?_eq_some_getLast hu] using hl

end SameTokens

/-! ## Outcomes -/

/-- Two rounds go on in related states or finish with related results. -/
inductive Turn.Matches {σ τ α β : Type} (states : σ → τ → Prop) (values : α → β → Prop) :
    Turn σ α → Turn τ β → Prop
  | again {s : σ} {t : τ} (h : states s t) : Matches states values (.again s) (.again t)
  | finish {a : α} {b : β} (h : values a b) : Matches states values (.finish a) (.finish b)

theorem Turn.Matches.mono {σ τ α β : Type} {states states' : σ → τ → Prop}
    {values : α → β → Prop} {x : Turn σ α} {y : Turn τ β} (h : x.Matches states values y)
    (hs : ∀ s t, states s t → states' s t) : x.Matches states' values y := by
  cases h with
  | again h => exact .again (hs _ _ h)
  | finish h => exact .finish h

/-- Two results are related, or they are one fault. -/
inductive ExceptMatches {ε α β : Type} (values : α → β → Prop) : Except ε α → Except ε β → Prop
  | ok {a : α} {b : β} (h : values a b) : ExceptMatches values (.ok a) (.ok b)
  | error (e : ε) : ExceptMatches values (.error e) (.error e)

/-- Two readings end with related values or for one cause, in related states, unless one is lost to
a fault that the other need not have. -/
inductive Outcome.Matches {σ τ α β : Type} (lost : Fault → Prop) (values : α → β → Prop)
    (states : σ → τ → Prop) : Outcome σ α → Outcome τ β → Prop
  | lostLeft {o : Outcome σ α} {p : Outcome τ β} (h : o.FailedBy lost) :
    Matches lost values states o p
  | lostRight {o : Outcome σ α} {p : Outcome τ β} (h : p.FailedBy lost) :
    Matches lost values states o p
  | done {a : α} {b : β} {s : σ} {t : τ} (hv : values a b) (hs : states s t) :
    Matches lost values states (.done a s) (.done b t)
  | failed {f g : Fault} {s : σ} {t : τ} (hf : f.SameCause g) (hs : states s t) :
    Matches lost values states (.failed f s) (.failed g t)
  | unfinished : Matches lost values states .unfinished .unfinished

/-- Nothing is lost to a fault that does not exist. -/
theorem Outcome.not_failedBy {σ α : Type} (o : Outcome σ α) : ¬o.FailedBy fun _ => False := by
  cases o with
  | done a s => exact id
  | failed f s => exact id
  | unfinished => exact id

/-- Readings that end alike are matched with equal values. -/
theorem Outcome.alike_iff_matches {σ τ α : Type} {lost : Fault → Prop} {states : σ → τ → Prop}
    {o : Outcome σ α} {p : Outcome τ α} :
    o.Alike lost states Fault.SameCause p ↔ o.Matches lost Eq states p := by
  constructor
  · rintro (h | h | h)
    · exact .lostLeft h
    · exact .lostRight h
    · cases o <;> cases p <;>
        first | exact h.elim | exact .done h.1 h.2 | exact .failed h.1 h.2 | exact .unfinished
  · intro h
    cases h with
    | lostLeft h => exact Or.inl h
    | lostRight h => exact Or.inr (Or.inl h)
    | done hv hs =>
      subst hv
      exact .done hs
    | failed hf hs => exact .failed hf hs
    | unfinished => exact Or.inr (Or.inr trivial)

theorem Outcome.Matches.mono {σ τ α β : Type} {lost : Fault → Prop} {values : α → β → Prop}
    {states states' : σ → τ → Prop} {o : Outcome σ α} {p : Outcome τ β}
    (h : o.Matches lost values states p) (hs : ∀ s t, states s t → states' s t) :
    o.Matches lost values states' p := by
  cases h with
  | lostLeft h => exact .lostLeft h
  | lostRight h => exact .lostRight h
  | done hv h => exact .done hv (hs _ _ h)
  | failed hf h => exact .failed hf (hs _ _ h)
  | unfinished => exact .unfinished

theorem Outcome.Matches.andThen {σ τ α β α' β' : Type} {lost : Fault → Prop}
    {values : α → β → Prop} {values' : α' → β' → Prop} {states : σ → τ → Prop} {o : Outcome σ α}
    {p : Outcome τ β} (h : o.Matches lost values states p) {k : α → σ → Outcome σ α'}
    {l : β → τ → Outcome τ β'}
    (hk : ∀ a b s t, values a b → states s t → (k a s).Matches lost values' states (l b t)) :
    (o.andThen k).Matches lost values' states (p.andThen l) := by
  cases h with
  | lostLeft h => exact .lostLeft (h.andThen k)
  | lostRight h => exact .lostRight (h.andThen l)
  | done hv hs => exact hk _ _ _ _ hv hs
  | failed hf hs => exact .failed hf hs
  | unfinished => exact .unfinished

theorem iterate_matches {σ σ' τ τ' α β : Type} {lost : Fault → Prop} {values : α → β → Prop}
    {states : σ → σ' → Prop} {turns : τ → τ' → Prop} {f : τ → σ → Outcome σ (Turn τ α)}
    {g : τ' → σ' → Outcome σ' (Turn τ' β)}
    (h : ∀ t t' s s', turns t t' → states s s' →
      (f t s).Matches lost (Turn.Matches turns values) states (g t' s'))
    (rounds : Nat) {t : τ} {t' : τ'} {s : σ} {s' : σ'} (ht : turns t t') (hs : states s s') :
    (iterate f rounds t s).Matches lost values states (iterate g rounds t' s') := by
  induction rounds generalizing t t' s s' with
  | zero => exact .unfinished
  | succ rounds ih =>
    rw [iterate_succ, iterate_succ]
    refine (h t t' s s' ht hs).andThen fun turn turn' u u' hturn hu => ?_
    cases hturn with
    | again ht => exact ih ht hu
    | finish hv => exact .done hv hu

/-! ## Consumers -/

namespace Consumer

variable {α α' β β' σ τ ε : Type}

/-- Related states stay so on the same tokens, up to related results. -/
structure Simulates (values : β → β' → Prop) (c : Consumer β) (d : Consumer β')
    (states : c.State → d.State → Prop) : Prop where
  step : ∀ s s' t t', states s s' → t.token = t'.token →
    Turn.Matches states values (c.step s t) (d.step s' t')
  atEnd : ∀ s s', states s s' → values (c.atEnd s) (d.atEnd s')

/-- From these states on, two consumers come to related results on the same tokens. -/
def AlikeFrom (values : β → β' → Prop) (c : Consumer β) (d : Consumer β') (s : c.State)
    (s' : d.State) : Prop :=
  ∃ states, Simulates values c d states ∧ states s s'

/-- On the same tokens two consumers come to related results. -/
def Alike (values : β → β' → Prop) (c : Consumer β) (d : Consumer β') : Prop :=
  Turn.Matches (AlikeFrom values c d) values c.start d.start

/-- To be alike is itself a relation of states that stays on the same tokens. -/
theorem simulates_alikeFrom (values : β → β' → Prop) (c : Consumer β) (d : Consumer β') :
    Simulates values c d (AlikeFrom values c d) := by
  constructor
  · rintro s s' t t' ⟨states, hsim, hs⟩ ht
    exact (hsim.step s s' t t' hs ht).mono fun _ _ h => ⟨states, hsim, h⟩
  · rintro s s' ⟨states, hsim, hs⟩
    exact hsim.atEnd s s' hs

theorem Alike.scan {values : β → β' → Prop} {step : σ → Lexeme → Turn σ β} {atEnd : σ → β}
    {step' : τ → Lexeme → Turn τ β'} {atEnd' : τ → β'} (states : σ → τ → Prop)
    (hstep : ∀ s s' t t', states s s' → t.token = t'.token →
      Turn.Matches states values (step s t) (step' s' t'))
    (hend : ∀ s s', states s s' → values (atEnd s) (atEnd' s')) {s : σ} {s' : τ}
    (hs : states s s') : (scan step atEnd s).Alike values (scan step' atEnd' s') :=
  .again ⟨states, ⟨hstep, hend⟩, hs⟩

section bind

variable {within : α → α' → Prop} {values : β → β' → Prop} {c : Consumer α} {d : Consumer α'}
  {k : α → Consumer β} {l : α' → Consumer β'}

/-- Two sequences are both in their first parts, or both in their second ones. -/
inductive BindStates (within : α → α' → Prop) (values : β → β' → Prop) (c : Consumer α)
    (d : Consumer α') (k : α → Consumer β) (l : α' → Consumer β') :
    BindState c k → BindState d l → Prop
  | first {s : c.State} {s' : d.State} (h : AlikeFrom within c d s s') :
    BindStates within values c d k l (.inl s) (.inl s')
  | second {a : α} {a' : α'} {s : (k a).State} {s' : (l a').State}
    (h : AlikeFrom values (k a) (l a') s s') :
    BindStates within values c d k l (.inr ⟨a, s⟩) (.inr ⟨a', s'⟩)

theorem enter_matches {a : α} {a' : α'} (h : (k a).Alike values (l a')) :
    Turn.Matches (BindStates within values c d k l) values (enter c k a) (enter d l a') := by
  unfold Alike at h
  unfold enter
  generalize (k a).start = x at h ⊢
  generalize (l a').start = y at h ⊢
  cases h with
  | again h => exact .again (.second h)
  | finish h => exact .finish h

theorem endAfter_matches {a : α} {a' : α'} (h : (k a).Alike values (l a')) :
    values (endAfter k a) (endAfter l a') := by
  unfold Alike at h
  unfold endAfter
  generalize (k a).start = x at h ⊢
  generalize (l a').start = y at h ⊢
  cases h with
  | again h => exact (simulates_alikeFrom values (k a) (l a')).atEnd _ _ h
  | finish h => exact h

theorem simulates_bind (hk : ∀ a a', within a a' → (k a).Alike values (l a')) :
    Simulates values (Consumer.bind c k) (Consumer.bind d l)
      (BindStates within values c d k l) := by
  constructor
  · intro s s' t t' hs ht
    simp only [Consumer.bind]
    cases hs with
    | @first s s' hs =>
      have hstep := (simulates_alikeFrom within c d).step s s' t t' hs ht
      simp only [bindStep]
      generalize c.step s t = x at hstep ⊢
      generalize d.step s' t' = y at hstep ⊢
      cases hstep with
      | again h => exact .again (.first h)
      | finish h => exact enter_matches (hk _ _ h)
    | @second a a' s s' hs =>
      have hstep := (simulates_alikeFrom values (k a) (l a')).step s s' t t' hs ht
      simp only [bindStep]
      generalize (k a).step s t = x at hstep ⊢
      generalize (l a').step s' t' = y at hstep ⊢
      cases hstep with
      | again h => exact .again (.second h)
      | finish h => exact .finish h
  · intro s s' hs
    cases hs with
    | @first s s' hs =>
      exact endAfter_matches (hk _ _ ((simulates_alikeFrom within c d).atEnd s s' hs))
    | @second a a' s s' hs => exact (simulates_alikeFrom values (k a) (l a')).atEnd s s' hs

/-- Alike consumers followed by alike ones. -/
theorem Alike.bind (h : c.Alike within d)
    (hk : ∀ a a', within a a' → (k a).Alike values (l a')) :
    (Consumer.bind c k).Alike values (Consumer.bind d l) := by
  have hsim : Simulates values (Consumer.bind c k) (Consumer.bind d l)
      (BindStates within values c d k l) := simulates_bind hk
  have hstart : Turn.Matches (BindStates within values c d k l) values
      (Consumer.bind c k).start (Consumer.bind d l).start := by
    unfold Alike at h
    simp only [Consumer.bind]
    generalize c.start = x at h ⊢
    generalize d.start = y at h ⊢
    cases h with
    | again h => exact .again (.first h)
    | finish h => exact enter_matches (hk _ _ h)
  exact hstart.mono fun _ _ h => ⟨_, hsim, h⟩

end bind

theorem Alike.bind_except {within : α → α' → Prop} {values : β → β' → Prop}
    {x : ExceptT ε Consumer α} {y : ExceptT ε Consumer α'} {f : α → ExceptT ε Consumer β}
    {g : α' → ExceptT ε Consumer β'} (h : Alike (ExceptMatches within) x y)
    (hf : ∀ a a', within a a' → Alike (ExceptMatches values) (f a) (g a')) :
    Alike (ExceptMatches values) (x >>= f : ExceptT ε Consumer β)
      (y >>= g : ExceptT ε Consumer β') := by
  refine Alike.bind (k := ExceptT.bindCont f) (l := ExceptT.bindCont g) h fun a a' ha => ?_
  cases ha with
  | ok ha => exact hf _ _ ha
  | error e => exact .finish (.error e)

end Consumer

/-! ## Capture -/

/-- The same arguments for each parameter, up to places. -/
def SameArguments (args args' : Arguments) : Prop :=
  ∀ n, Option.Rel SameTokens (args.get? n) (args'.get? n)

theorem SameArguments.set {args args' : Arguments} (h : SameArguments args args') (n : Int)
    {a a' : List Lexeme} (ha : SameTokens a a') :
    SameArguments (args.set n a) (args'.set n a') := by
  intro m
  rw [Table.get?_set, Table.get?_set]
  split
  · exact .some ha
  · exact h m

namespace Definition

open Consumer (Alike)

namespace Capture

theorem ofScan_alike {σ τ α β : Type} {values : α → β → Prop}
    {step : σ → Lexeme → Turn σ (Except CaptureFault α)}
    {step' : τ → Lexeme → Turn τ (Except CaptureFault β)} (states : σ → τ → Prop)
    (hstep : ∀ s s' t t', states s s' → t.token = t'.token →
      Turn.Matches states (ExceptMatches values) (step s t) (step' s' t'))
    {s : σ} {s' : τ} (hs : states s s') :
    Alike (ExceptMatches values) (ofScan step s) (ofScan step' s') :=
  .scan states hstep (fun _ _ _ => .error _) hs

theorem token_alike : Alike (ExceptMatches SameToken) token token := by
  refine ofScan_alike (fun _ _ => True) (fun _ _ _ _ _ ht => ?_) trivial
  exact .finish (.ok ht)

theorem nonBlank_alike : Alike (ExceptMatches SameToken) nonBlank nonBlank := by
  refine ofScan_alike (fun _ _ => True) (fun _ _ t t' _ ht => ?_) trivial
  rw [ht]
  split
  · exact .again trivial
  · exact .finish (.ok ht)

/-- As many groups are open, and the same has been read. -/
def SameBody (b c : Body) : Prop := b.depth = c.depth ∧ SameTokens b.tokens c.tokens

theorem bodyStep_matches {b c : Body} {t u : Lexeme} (h : SameBody b c) (ht : t.token = u.token) :
    Turn.Matches SameBody (ExceptMatches SameTokens) (bodyStep b t) (bodyStep c u) := by
  obtain ⟨depth, tokens⟩ := b
  obtain ⟨depth', tokens'⟩ := c
  obtain ⟨rfl, hs⟩ : depth = depth' ∧ SameTokens tokens tokens' := h
  unfold bodyStep
  rw [ht]
  split
  · exact .again ⟨rfl, hs.cons ht⟩
  · split
    · cases depth with
      | zero => exact .finish (.ok hs.reverse)
      | succ depth => exact .again ⟨rfl, hs.cons ht⟩
    · exact .again ⟨rfl, hs.cons ht⟩

theorem groupBody_alike : Alike (ExceptMatches SameTokens) groupBody groupBody :=
  ofScan_alike SameBody (fun _ _ _ _ hs ht => bodyStep_matches hs ht) ⟨rfl, rfl⟩

theorem undelimited_alike : Alike (ExceptMatches SameTokens) undelimited undelimited := by
  refine nonBlank_alike.bind_except fun t t' ht => ?_
  rw [show t.token = t'.token from ht]
  split
  · exact .finish (.error _)
  · split
    · exact groupBody_alike
    · exact .finish (.ok (SameTokens.nil.cons ht))

theorem withoutDelimiters_same (ds : List Lexeme) {ts us : List Lexeme} (h : SameTokens ts us) :
    Option.Rel SameTokens (withoutDelimiters ds ts) (withoutDelimiters ds us) := by
  have htake := congrArg (List.take ds.length) h
  have hdrop := congrArg (List.drop ds.length) h
  rw [← List.map_take, ← List.map_take] at htake
  rw [← List.map_drop, ← List.map_drop] at hdrop
  unfold withoutDelimiters
  rw [htake]
  split
  · exact .some hdrop
  · exact .none

theorem delimitedStep_matches (ds : List Lexeme) {b c : Body} {t u : Lexeme} (h : SameBody b c)
    (ht : t.token = u.token) :
    Turn.Matches SameBody (ExceptMatches SameTokens) (delimitedStep ds b t)
      (delimitedStep ds c u) := by
  have hs := h.2.cons ht
  unfold delimitedStep
  rw [ht, h.1]
  cases depthAfter c.depth u.token with
  | none => exact .finish (.error _)
  | some depth =>
    have hw := withoutDelimiters_same ds hs
    dsimp only
    by_cases hd : depth = 0
    · rw [if_pos hd, if_pos hd]
      generalize withoutDelimiters ds (t :: b.tokens) = x at hw ⊢
      generalize withoutDelimiters ds (u :: c.tokens) = y at hw ⊢
      -- the delimiters end both arguments or neither
      cases hw with
      | none => exact .again ⟨rfl, hs⟩
      | some h => exact .finish (.ok h.reverse)
    · rw [if_neg hd, if_neg hd]
      exact .again ⟨rfl, hs⟩

theorem closesLast_same {ts us : List Lexeme} (h : SameTokens ts us) (depth : Int) :
    closesLast depth ts = closesLast depth us := by
  induction ts generalizing us depth with
  | nil =>
    cases us with
    | nil => rfl
    | cons u us => cases h
  | cons t ts ih =>
    cases us with
    | nil => cases h
    | cons u us =>
      obtain ⟨ht, hs⟩ := h.of_cons
      simp only [closesLast, ht, ih hs, hs.isEmpty]

theorem isSingleGroup_same {ts us : List Lexeme} (h : SameTokens ts us) :
    isSingleGroup ts = isSingleGroup us := by
  have hcloses := closesLast_same h 0
  have hlength := congrArg List.length h
  match ts, us with
  | [], [] => rfl
  | [_], [_] => rfl
  | [], _ :: _ | _ :: _, [] | [_], _ :: _ :: _ | _ :: _ :: _, [_] => simp at hlength
  | t :: t' :: ts, u :: u' :: us =>
    obtain ⟨ht, hs⟩ := h.of_cons
    simp only [isSingleGroup, hcloses, ht, hs.getLast (by simp) (by simp)]

theorem stripGroup_same {ts us : List Lexeme} (h : SameTokens ts us) :
    SameTokens (stripGroup ts) (stripGroup us) := by
  unfold stripGroup
  rw [isSingleGroup_same h]
  split
  · exact h.tail.dropLast
  · exact h

theorem delimited_alike (ds : List Lexeme) :
    Alike (ExceptMatches SameTokens) (delimited ds) (delimited ds) := by
  have hscan : Alike (ExceptMatches SameTokens) (ofScan (delimitedStep ds.reverse) {})
      (ofScan (delimitedStep ds.reverse) {}) :=
    ofScan_alike SameBody (fun _ _ _ _ hs ht => delimitedStep_matches _ hs ht) ⟨rfl, rfl⟩
  exact hscan.bind_except fun ts us h => .finish (.ok (stripGroup_same h))

theorem argument_alike (ds : List Lexeme) :
    Alike (ExceptMatches SameTokens) (argument ds) (argument ds) := by
  unfold argument
  split
  · exact undelimited_alike
  · exact delimited_alike ds

theorem leading_alike (es : List Element) : Alike (ExceptMatches Eq) (leading es) (leading es) := by
  induction es with
  | nil => exact .finish (.ok rfl)
  | cons e es ih =>
    cases e with
    | parameter n => exact .finish (.ok rfl)
    | delimiter expected =>
      refine token_alike.bind_except fun t t' ht => ?_
      rw [show t.token = t'.token from ht]
      split
      · exact ih
      · exact .finish (.error _)

theorem parameters_alike (es : List Element) {args args' : Arguments}
    (h : SameArguments args args') :
    Alike (ExceptMatches SameArguments) (parameters args es) (parameters args' es) := by
  induction es generalizing args args' with
  | nil => exact .finish (.ok h)
  | cons e es ih =>
    cases e with
    | delimiter t => exact ih h
    | parameter n => exact (argument_alike _).bind_except fun a a' ha => ih (h.set n ha)

end Capture

theorem capture_alike (d : Definition) :
    Alike (ExceptMatches SameArguments) d.capture d.capture := by
  refine (Capture.leading_alike d.parameters).bind_except fun es es' hes => ?_
  subst hes
  exact Capture.parameters_alike es fun _ => .none

theorem fill_same {args args' : Arguments} (h : SameArguments args args') (parts : List Part) :
    Option.Rel SameTokens (fill args parts) (fill args' parts) := by
  induction parts with
  | nil => exact .some SameTokens.nil
  | cons p parts ih =>
    rw [fill.eq_def, fill.eq_def]
    cases p with
    | literal t =>
      dsimp only
      generalize fill args parts = x at ih ⊢
      generalize fill args' parts = y at ih ⊢
      cases ih with
      | none => exact .none
      | some h => exact .some (h.cons rfl)
    | reference n =>
      have hn := h n
      dsimp only [bind, Option.bind, pure]
      generalize fill args parts = x at ih ⊢
      generalize fill args' parts = y at ih ⊢
      generalize args.get? n = a at hn ⊢
      generalize args'.get? n = b at hn ⊢
      cases hn with
      | none => exact .none
      | some ha =>
        cases ih with
        | none => exact .none
        | some h => exact .some (ha.append h)

end Definition

/-! ## Inputs -/

namespace Expansion

theorem skipStep_matches (nested toElse : Bool) (level : Nat) {t u : Lexeme}
    (ht : t.token = u.token) :
    Turn.Matches Eq Eq (skipStep nested toElse level t) (skipStep nested toElse level u) := by
  have hs : skipStep nested toElse level t = skipStep nested toElse level u := by
    simp only [skipStep, ht]
  rw [hs]
  cases skipStep nested toElse level u with
  | again level => exact .again rfl
  | finish landed => exact .finish rfl

theorem skipper_alike (nested toElse : Bool) :
    (skipper nested toElse).Alike Eq (skipper nested toElse) := by
  refine Consumer.Alike.scan Eq (fun s s' t t' hs ht => ?_) (fun _ _ _ => rfl) rfl
  subst hs
  exact skipStep_matches nested toElse s ht

end Expansion

namespace Input

/-- Raw reading goes the same way on related inputs, and leaves related ones. -/
structure Mirrors (a : Alphabet) (lost : Fault → Prop) (rel : Input → Input → Prop) : Prop where
  next : ∀ i j, rel i j → (i.next a).Matches lost (Option.Rel SameToken) rel (j.next a)
  push : ∀ i j ts us origin, rel i j → SameTokens ts us →
    (i.push ⟨ts, origin⟩).Matches lost Eq rel (j.push ⟨us, origin⟩)
  nested : ∀ i j, rel i j → i.nested = j.nested
  openBranches : ∀ i j, rel i j → i.openBranches = j.openBranches
  opened : ∀ i j n, rel i j → rel { i with openBranches := n } { j with openBranches := n }

namespace Mirrors

variable {a : Alphabet} {tables : Tables} {lost : Fault → Prop} {rel : Input → Input → Prop}
  {i j : Input}

theorem consume (h : Mirrors a lost rel) (rounds : Nat) {α β : Type} {values : α → β → Prop}
    {c : Consumer α} {d : Consumer β} (hc : c.Alike values d) (hij : rel i j) :
    (i.consume a rounds c).Matches lost values rel (j.consume a rounds d) := by
  have hsim := Consumer.simulates_alikeFrom values c d
  unfold Consumer.Alike at hc
  unfold Input.consume
  generalize c.start = x at hc ⊢
  generalize d.start = y at hc ⊢
  cases hc with
  | finish hv => exact .done hv hij
  | again hs =>
    refine iterate_matches (fun s s' i j hs hij => ?_) rounds hs hij
    rw [Outcome.map_eq_andThen, Outcome.map_eq_andThen]
    refine (h.next i j hij).andThen fun x y i j hx hij => ?_
    cases hx with
    | none => exact .done (.finish (hsim.atEnd s s' hs)) hij
    | some ht => exact .done (hsim.step s s' _ _ hs ht) hij

theorem skip (h : Mirrors a lost rel) (rounds : Nat) (toElse : Bool) (hij : rel i j) :
    (i.skip a rounds toElse).Matches lost Eq rel (j.skip a rounds toElse) := by
  unfold Input.skip
  rw [h.nested i j hij]
  refine (h.consume rounds (Expansion.skipper_alike j.nested toElse) hij).andThen
    fun x y _ _ hx hij => ?_
  subst hx
  cases x with
  | some landed => exact .done rfl hij
  | none => exact .failed rfl hij

theorem closeBranch (h : Mirrors a lost rel) (hij : rel i j) :
    i.closeBranch.Matches lost Eq rel j.closeBranch := by
  unfold Input.closeBranch
  rw [h.openBranches i j hij]
  cases j.openBranches with
  | zero => exact .done rfl hij
  | succ n => exact .done rfl (h.opened i j n hij)

theorem call (h : Mirrors tables.alphabet lost rel) (t : Token) (d : Definition) (rounds : Nat)
    (hij : rel i j) :
    ((Expansion.call t d).run (rawHandler tables rounds) rounds i).Matches lost Eq rel
      ((Expansion.call t d).run (rawHandler tables rounds) rounds j) := by
  rw [run_call, run_call]
  refine (h.consume rounds d.capture_alike hij).andThen fun x y i j hx hij => ?_
  cases hx with
  | error fault => exact .failed rfl hij
  | @ok args args' hargs =>
    have hfill := Definition.fill_same hargs d.replacement
    simp only [Definition.substitute]
    generalize Definition.fill args d.replacement = o at hfill ⊢
    generalize Definition.fill args' d.replacement = p at hfill ⊢
    cases hfill with
    | none => exact .failed rfl hij
    | some hs => exact h.push i j _ _ _ hij hs

theorem resolve (h : Mirrors tables.alphabet lost rel) (b : Branch) (rounds : Nat)
    (hij : rel i j) :
    ((Expansion.resolve b).run (rawHandler tables rounds) rounds i).Matches lost Eq rel
      ((Expansion.resolve b).run (rawHandler tables rounds) rounds j) := by
  rw [run_resolve, run_resolve]
  have hclose := h.closeBranch hij
  cases b with
  | opening taken =>
    cases taken with
    | true =>
      rw [h.openBranches i j hij]
      exact .done rfl (h.opened i j _ hij)
    | false =>
      refine (h.skip rounds true hij).andThen fun x y i j hx hij => ?_
      subst hx
      rw [h.openBranches i j hij]
      exact .done rfl (h.opened i j _ hij)
  | alternative =>
    refine hclose.andThen fun x y i j hx hij => ?_
    subst hx
    cases x with
    | true => exact (h.skip rounds false hij).andThen fun _ _ _ _ _ hij => .done rfl hij
    | false => exact .failed rfl hij
  | closing =>
    refine hclose.andThen fun x y i j hx hij => ?_
    subst hx
    cases x with
    | true => exact .done rfl hij
    | false => exact .failed rfl hij

theorem step (h : Mirrors tables.alphabet lost rel) (rounds : Nat) (hij : rel i j) :
    (Expansion.step.run (rawHandler tables rounds) rounds i).Matches lost
      (Turn.Matches Eq (Option.Rel SameToken)) rel
      (Expansion.step.run (rawHandler tables rounds) rounds j) := by
  rw [run_step_next, run_step_next]
  refine (h.next i j hij).andThen fun x y i j hx hij => ?_
  cases hx with
  | none => exact .done (.finish .none) hij
  | @some t u ht =>
    simp only [show t.token = u.token from ht]
    cases u.token.branch? with
    | some b =>
      exact (h.resolve b rounds hij).andThen fun _ _ _ _ _ hij => .done (.again rfl) hij
    | none =>
      cases tables.meaning? u.token with
      | some d =>
        exact (h.call u.token d rounds hij).andThen fun _ _ _ _ _ hij => .done (.again rfl) hij
      | none => exact .done (.finish (.some ht)) hij

/-- Expansion delivers the same tokens from related inputs, and leaves related ones. -/
theorem nextExpanded (h : Mirrors tables.alphabet lost rel) (rounds : Nat) (hij : rel i j) :
    (i.nextExpanded tables rounds).Matches lost (Option.Rel SameToken) rel
      (j.nextExpanded tables rounds) :=
  iterate_matches (fun _ _ _ _ _ hij => h.step rounds hij) rounds rfl hij

end Mirrors

end Input

end Galley
