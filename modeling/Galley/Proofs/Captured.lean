import Galley.Proofs.Writing

/-!
What a capture that succeeds has taken. Each argument splits off the front of the list: blanks and a
token, a group, or what comes before the delimiters; and each is balanced, as are the tokens that
the whole call took. A replacement whose own braces are balanced stays so with these arguments in
it, so a definition that was read opens and closes the same groups as its calls.
-/

namespace Galley.Definition

open Consumer (feed exists_feed_of_run)
open Capture (depthAfter)

namespace Capture

variable {ts rest a : List Lexeme}

theorem exists_feed_of_ofScan {σ α : Type} {step : σ → Lexeme → Turn σ (Except CaptureFault α)}
    {s : σ} {x : α} (h : Consumer.run (ofScan step s) ts = (.ok x, rest)) :
    ∃ us t s', ts = us ++ t :: rest ∧ feed step s us = some s' ∧ step s' t = .finish (.ok x) :=
  exists_feed_of_run h fun _ => nofun

/-! ## Bodies -/

/-- Goes on with every token that it has read, at the depth behind it. -/
def Collects (step : Body → Lexeme → Turn Body (Except CaptureFault (List Lexeme))) : Prop :=
  ∀ b t b', step b t = .again b' →
    depthAfter b.depth t.token = some b'.depth ∧ b'.tokens = t :: b.tokens

theorem Collects.feed {step : Body → Lexeme → Turn Body (Except CaptureFault (List Lexeme))}
    (hs : Collects step) {b b' : Body} {us : List Lexeme} (h : feed step b us = some b') :
    depthThrough b.depth us = some b'.depth ∧ b'.tokens = us.reverse ++ b.tokens := by
  induction us generalizing b with
  | nil =>
    injection h with h
    subst h
    exact ⟨rfl, rfl⟩
  | cons t us ih =>
    rw [Consumer.feed] at h
    cases hc : step b t with
    | finish x => simp [hc] at h
    | again c =>
      simp only [hc] at h
      obtain ⟨hd, ht⟩ := hs b t c hc
      obtain ⟨hdepth, htokens⟩ := ih h
      exact ⟨by rw [depthThrough_cons hd, hdepth], by simp [htokens, ht]⟩

theorem bodyStep_eq (b : Body) (t : Lexeme) :
    bodyStep b t = match depthAfter b.depth t.token with
      | some d => .again ⟨d, t :: b.tokens⟩
      | none => .finish (.ok b.tokens.reverse) := by
  unfold bodyStep depthAfter
  split
  · rfl
  · split
    · cases b.depth <;> rfl
    · rfl

theorem collects_bodyStep : Collects bodyStep := by
  intro b t b' h
  rw [bodyStep_eq] at h
  cases hd : depthAfter b.depth t.token with
  | none => simp [hd] at h
  | some d =>
    simp only [hd, Turn.again.injEq] at h
    subst h
    exact ⟨rfl, rfl⟩

/-- The body of a group ends with the brace that belongs to it. -/
theorem of_groupBody (h : Consumer.run groupBody ts = (.ok a, rest)) :
    ∃ c, ts = a ++ c :: rest ∧ c.token.isEnd = true ∧ Balanced a := by
  obtain ⟨us, c, b, hts, hf, hs⟩ := exists_feed_of_ofScan h
  obtain ⟨hdepth, htokens⟩ := collects_bodyStep.feed hf
  rw [bodyStep_eq] at hs
  cases hc : depthAfter b.depth c.token with
  | some d => simp [hc] at hs
  | none =>
    simp only [hc, Turn.finish.injEq, Except.ok.injEq] at hs
    obtain ⟨hzero, hend⟩ := Token.eq_zero_of_depthAfter hc
    have ha : a = us := by rw [← hs, htokens]; simp
    subst ha
    rw [hzero] at hdepth
    exact ⟨c, hts, hend, hdepth⟩

theorem delimitedStep_again {ds : List Lexeme} : Collects (delimitedStep ds) := by
  intro b t b' h
  unfold delimitedStep at h
  cases hd : depthAfter b.depth t.token with
  | none => simp [hd] at h
  | some d =>
    simp only [hd] at h
    split at h
    · cases h
    · injection h with h
      subst h
      exact ⟨rfl, rfl⟩

/-- Delimiters end an argument where no group is open. -/
theorem delimitedStep_finish {ds : List Lexeme} {b : Body} {t : Lexeme}
    (h : delimitedStep ds b t = .finish (.ok a)) :
    depthAfter b.depth t.token = some 0 ∧
      withoutDelimiters ds (t :: b.tokens) = some a.reverse := by
  unfold delimitedStep at h
  cases hd : depthAfter b.depth t.token with
  | none => simp [hd] at h
  | some d =>
    simp only [hd] at h
    split at h
    · rename_i captured hw
      simp only [Turn.finish.injEq, Except.ok.injEq] at h
      subst h
      split at hw
      · rename_i hzero
        subst hzero
        exact ⟨rfl, by simpa using hw⟩
      · cases hw
    · cases h

theorem of_withoutDelimiters {ds us captured : List Lexeme}
    (h : withoutDelimiters ds us = some captured) :
    ∃ vs, us = vs ++ captured ∧ vs.map (·.token) = ds.map (·.token) := by
  unfold withoutDelimiters at h
  split at h
  · rename_i htake
    injection h with h
    subst h
    exact ⟨us.take ds.length, (List.take_append_drop ds.length us).symm, htake⟩
  · cases h

/-! ## Arguments -/

/-- What the argument of a parameter with these delimiters is taken from. -/
inductive Taken : List Lexeme → List Lexeme → List Lexeme → Prop
  | token {blanks : List Lexeme} {t : Lexeme} (hb : ∀ b ∈ blanks, b.token.isSpace = true)
    (ht : t.token.Plain) : Taken [] [t] (blanks ++ [t])
  | group {blanks a : List Lexeme} {o c : Lexeme} (hb : ∀ b ∈ blanks, b.token.isSpace = true)
    (ho : o.token.isBegin = true) (hc : c.token.isEnd = true) (ha : Balanced a) :
    Taken [] a (blanks ++ o :: (a ++ [c]))
  | delimited {ds us vs : List Lexeme} (hu : Balanced us)
    (hv : vs.map (·.token) = ds.map (·.token)) : Taken ds (stripGroup us) (us ++ vs)

theorem of_nonBlank {t : Lexeme} (h : Consumer.run nonBlank ts = (.ok t, rest)) :
    ∃ blanks, ts = blanks ++ t :: rest ∧ (∀ b ∈ blanks, b.token.isSpace = true) ∧
      t.token.isSpace = false := by
  induction ts with
  | nil => simp [nonBlank, ofScan] at h
  | cons u us ih =>
    rw [nonBlank, run_ofScan_cons] at h
    cases hu : u.token.isSpace with
    | true =>
      simp only [hu, if_true] at h
      obtain ⟨blanks, rfl, hb, ht⟩ := ih h
      exact ⟨u :: blanks, rfl, List.forall_mem_cons.mpr ⟨hu, hb⟩, ht⟩
    | false =>
      simp only [hu, Bool.false_eq_true, if_false, Prod.mk.injEq, Except.ok.injEq] at h
      obtain ⟨rfl, rfl⟩ := h
      exact ⟨[], rfl, List.forall_mem_nil _, hu⟩

theorem of_undelimited (h : Consumer.run undelimited ts = (.ok a, rest)) :
    ∃ us, ts = us ++ rest ∧ Taken [] a us := by
  obtain ⟨t, more, ht, hk⟩ := Consumer.run_bind_except_ok h
  obtain ⟨blanks, hts, hb, -⟩ := of_nonBlank ht
  cases he : t.token.isEnd with
  | true => simp [he] at hk
  | false =>
    cases ho : t.token.isBegin with
    | true =>
      simp only [he, ho, Bool.false_eq_true, if_false, if_true] at hk
      obtain ⟨c, rfl, hc, ha⟩ := of_groupBody hk
      exact ⟨blanks ++ t :: (a ++ [c]), by simp [hts], .group hb ho hc ha⟩
    | false =>
      simp only [he, ho, Bool.false_eq_true, if_false, Consumer.run_pure_except, Prod.mk.injEq,
        Except.ok.injEq] at hk
      obtain ⟨rfl, rfl⟩ := hk
      exact ⟨blanks ++ [t], by simp [hts], .token hb ⟨ho, he⟩⟩

theorem plain_of_tokens {ds vs : List Lexeme} (hd : ∀ t ∈ ds, t.token.Plain)
    (hv : vs.map (·.token) = ds.map (·.token)) : ∀ t ∈ vs, t.token.Plain := by
  intro t ht
  have hmem : t.token ∈ ds.map (·.token) := by
    rw [← hv]
    exact List.mem_map_of_mem ht
  obtain ⟨d, hd', he⟩ := List.mem_map.mp hmem
  exact he ▸ hd d hd'

/-- What comes before the delimiters is balanced. -/
theorem of_delimitedScan {ds captured : List Lexeme} (hd : ∀ t ∈ ds, t.token.Plain)
    (h : Consumer.run (ofScan (delimitedStep ds.reverse) {}) ts = (.ok captured, rest)) :
    Balanced captured ∧
      ∃ vs, ts = captured ++ (vs ++ rest) ∧ vs.map (·.token) = ds.map (·.token) := by
  obtain ⟨us, t, b, hts, hf, hs⟩ := exists_feed_of_ofScan h
  obtain ⟨hdepth, htokens⟩ := delimitedStep_again.feed hf
  obtain ⟨hzero, hw⟩ := delimitedStep_finish hs
  obtain ⟨vs, hvs, hv⟩ := of_withoutDelimiters hw
  have hsplit : us ++ [t] = captured ++ vs.reverse := by
    have hr := congrArg List.reverse hvs
    simpa [htokens] using hr
  have hv' : vs.reverse.map (·.token) = ds.map (·.token) := by
    rw [List.map_reverse, hv, ← List.map_reverse, List.reverse_reverse]
  have hwhole : depthThrough 0 (captured ++ vs.reverse) = some 0 := by
    rw [← hsplit]
    exact depthThrough_trans hdepth (depthThrough_cons hzero [])
  -- the delimiters leave the depth as it is, so it is zero before them
  have hbal : Balanced captured := by
    rw [depthThrough_append] at hwhole
    obtain ⟨e, he, hrest⟩ := Option.bind_eq_some_iff.mp hwhole
    rw [depthThrough_plain e (plain_of_tokens hd hv')] at hrest
    injection hrest with hrest
    rw [Balanced, he, hrest]
  refine ⟨hbal, vs.reverse, ?_, hv'⟩
  rw [← List.append_assoc, ← hsplit, hts]
  simp

theorem of_delimited {ds : List Lexeme} (hd : ∀ t ∈ ds, t.token.Plain)
    (h : Consumer.run (delimited ds) ts = (.ok a, rest)) :
    ∃ us, ts = us ++ rest ∧ Taken ds a us := by
  obtain ⟨captured, more, hscan, hk⟩ := Consumer.run_bind_except_ok h
  simp only [Consumer.run_pure_except, Prod.mk.injEq, Except.ok.injEq] at hk
  obtain ⟨rfl, rfl⟩ := hk
  obtain ⟨hu, vs, hts, hv⟩ := of_delimitedScan hd hscan
  exact ⟨captured ++ vs, by rw [hts, List.append_assoc], .delimited hu hv⟩

/-! ## The braces around an argument -/

/-- Between the braces of a single group no group is ended that was begun before. -/
theorem depthThrough_of_closesLast {d e : Nat} {c : Lexeme} {m : List Lexeme}
    (h : closesLast (d + 1) (m ++ [c]) = true) (hm : depthThrough (d + 1) m = some (e + 1)) :
    depthThrough d m = some e := by
  induction m generalizing d with
  | nil => simpa [depthThrough] using hm
  | cons t m ih =>
    obtain ⟨k, hk, hrest⟩ := exists_of_depthThrough_cons hm
    rw [List.cons_append, closesLast] at h
    rcases Token.depthAfter_cases hk with ⟨hb, rfl⟩ | ⟨he, hd⟩ | ⟨hp, rfl⟩
    · rw [if_pos hb] at h
      rw [depthThrough_cons (Token.depthAfter_begin d hb)]
      exact ih h hrest
    · have hb := Token.isBegin_false_of_isEnd he
      have hk : k = d := by omega
      subst hk
      simp only [hb, he, Bool.false_eq_true, if_false, if_true, Bool.and_eq_true, Bool.or_eq_true,
        decide_eq_true_eq] at h
      cases k with
      | zero => simp at h
      | succ k =>
        rw [depthThrough_cons (Token.depthAfter_end k he)]
        have hlevel : ((k + 1 : Nat) : Int) + 1 - 1 = (k : Int) + 1 := by omega
        rw [hlevel] at h
        exact ih h.2 hrest
    · simp only [hp.1, hp.2, Bool.false_eq_true, if_false] at h
      rw [depthThrough_cons (Token.depthAfter_plain d hp)]
      exact ih h hrest

theorem exists_of_isSingleGroup {us : List Lexeme} (hu : Balanced us)
    (h : isSingleGroup us = true) :
    ∃ o b c, us = o :: (b ++ [c]) ∧ o.token.isBegin = true ∧ c.token.isEnd = true ∧
      Balanced b := by
  match us, h with
  | o :: u :: more, h =>
    simp only [isSingleGroup, Bool.and_eq_true] at h
    obtain ⟨⟨ho, hc⟩, hcloses⟩ := h
    obtain ⟨b, c, hbc⟩ : ∃ b c, u :: more = b ++ [c] :=
      ⟨_, _, (List.dropLast_concat_getLast (by simp)).symm⟩
    have hend : c.token.isEnd = true := by
      simp only [hbc] at hc
      simpa using hc
    rw [hbc] at hu hcloses ⊢
    rw [closesLast, if_pos ho] at hcloses
    have hthrough : depthThrough 1 (b ++ [c]) = some 0 := by
      rw [← hu, depthThrough_cons (Token.depthAfter_begin 0 ho)]
    rw [depthThrough_append] at hthrough
    obtain ⟨e, he, hlast⟩ := Option.bind_eq_some_iff.mp hthrough
    obtain ⟨m, hm, hnil⟩ := exists_of_depthThrough_cons hlast
    injection hnil with hnil
    subst hnil
    have hone : e = 1 := by
      rcases Token.depthAfter_cases hm with ⟨hb, -⟩ | ⟨-, he⟩ | ⟨hp, -⟩
      · rw [Token.isBegin_false_of_isEnd hend] at hb
        cases hb
      · exact he
      · rw [hp.2] at hend
        cases hend
    subst hone
    exact ⟨o, b, c, rfl, ho, hend, depthThrough_of_closesLast hcloses he⟩

theorem balanced_stripGroup {us : List Lexeme} (hu : Balanced us) : Balanced (stripGroup us) := by
  cases h : isSingleGroup us with
  | false => simpa [stripGroup, h] using hu
  | true =>
    obtain ⟨o, b, c, rfl, ho, hc, hb⟩ := exists_of_isSingleGroup hu h
    rw [stripGroup_group ho hc hb]
    exact hb

/-! ## Balance of a call -/

theorem Taken.balanced_argument {ds us : List Lexeme} (h : Taken ds a us) : Balanced a := by
  cases h with
  | token hb ht => exact .of_plain (by simpa using ht)
  | group hb ho hc ha => exact ha
  | delimited hu hv => exact balanced_stripGroup hu

theorem Taken.balanced {ds us : List Lexeme} (hd : ∀ t ∈ ds, t.token.Plain) (h : Taken ds a us) :
    Balanced us := by
  have blanks : ∀ {bs : List Lexeme}, (∀ b ∈ bs, b.token.isSpace = true) → Balanced bs :=
    fun hb => .of_plain fun b hm => Token.plain_of_hasCategory (hb b hm) nofun nofun
  cases h with
  | token hb ht => exact (blanks hb).append (.of_plain (by simpa using ht))
  | group hb ho hc ha => exact (blanks hb).append (.group ho hc ha)
  | delimited hu hv => exact hu.append (.of_plain (plain_of_tokens hd hv))

theorem of_token {t : Lexeme} (h : Consumer.run token ts = (.ok t, rest)) : ts = t :: rest := by
  cases ts with
  | nil => simp [token, ofScan] at h
  | cons u us =>
    rw [token, run_ofScan_cons] at h
    simp only [Prod.mk.injEq, Except.ok.injEq] at h
    rw [h.1, h.2]

theorem of_argument {ds : List Lexeme} (hd : ∀ t ∈ ds, t.token.Plain)
    (h : Consumer.run (argument ds) ts = (.ok a, rest)) :
    ∃ us, ts = us ++ rest ∧ Taken ds a us := by
  unfold argument at h
  split at h
  · rename_i hn
    rw [List.isEmpty_iff.mp hn]
    exact of_undelimited h
  · exact of_delimited hd h

theorem of_leading {es es' : List Element} (hd : ∀ e ∈ es, PlainElement e)
    (h : Consumer.run (leading es) ts = (.ok es', rest)) :
    ∃ us, ts = us ++ rest ∧ Balanced us ∧ ∀ e ∈ es', PlainElement e := by
  induction es generalizing ts with
  | nil =>
    simp only [leading, Consumer.run_pure_except, Prod.mk.injEq, Except.ok.injEq] at h
    obtain ⟨rfl, rfl⟩ := h
    exact ⟨[], rfl, rfl, hd⟩
  | cons e es ih =>
    cases e with
    | parameter n =>
      simp only [leading, Consumer.run_pure_except, Prod.mk.injEq, Except.ok.injEq] at h
      obtain ⟨rfl, rfl⟩ := h
      exact ⟨[], rfl, rfl, hd⟩
    | delimiter expected =>
      rw [leading] at h
      obtain ⟨t, more, ht, hk⟩ := Consumer.run_bind_except_ok h
      have hts := of_token ht
      split at hk
      · rename_i heq
        obtain ⟨us, hmore, hu, hes⟩ := ih (fun e he => hd e (by simp [he])) hk
        have hplain : t.token.Plain := by
          rw [heq]
          exact hd (.delimiter expected) (by simp)
        have hsingle : Balanced [t] := .of_plain (by simpa using hplain)
        exact ⟨t :: us, by simp [hts, hmore], hsingle.append hu, hes⟩
      · simp at hk

/-- Arguments on top of balanced ones. -/
theorem of_parameters {es : List Element} {acc args : Arguments} (hd : ∀ e ∈ es, PlainElement e)
    (hacc : ∀ n a, acc.get? n = some a → Balanced a)
    (h : Consumer.run (parameters acc es) ts = (.ok args, rest)) :
    ∃ us, ts = us ++ rest ∧ Balanced us ∧ ∀ n a, args.get? n = some a → Balanced a := by
  induction es generalizing acc ts with
  | nil =>
    simp only [parameters, Consumer.run_pure_except, Prod.mk.injEq, Except.ok.injEq] at h
    obtain ⟨rfl, rfl⟩ := h
    exact ⟨[], rfl, rfl, hacc⟩
  | cons e es ih =>
    have hes : ∀ e ∈ es, PlainElement e := fun e he => hd e (by simp [he])
    cases e with
    | delimiter t => exact ih hes hacc h
    | parameter n =>
      rw [parameters] at h
      obtain ⟨a, more, ha, hk⟩ := Consumer.run_bind_except_ok h
      have hplain : ∀ t ∈ (delimiters es).1, t.token.Plain :=
        fun t ht => plain_of_mem_delimiters hes ht
      obtain ⟨us, hts, htaken⟩ := of_argument hplain ha
      have hset : ∀ m b, (acc.set n a).get? m = some b → Balanced b := by
        intro m b hb
        rw [Table.get?_set] at hb
        split at hb
        · injection hb with hb
          exact hb ▸ htaken.balanced_argument
        · exact hacc m b hb
      obtain ⟨vs, hmore, hv, hargs⟩ := ih hes hset hk
      exact ⟨us ++ vs, by simp [hts, hmore], (htaken.balanced hplain).append hv, hargs⟩

end Capture

theorem balanced_of_capture {d : Definition} {args : Arguments} {ts rest : List Lexeme}
    (hd : ∀ e ∈ d.parameters, PlainElement e) (h : Consumer.run d.capture ts = (.ok args, rest)) :
    ∃ call, ts = call ++ rest ∧ Balanced call ∧ ∀ n a, args.get? n = some a → Balanced a := by
  obtain ⟨es, more, hl, hp⟩ := Consumer.run_bind_except_ok h
  obtain ⟨us, hts, hu, hes⟩ := Capture.of_leading hd hl
  obtain ⟨vs, hmore, hv, hargs⟩ := Capture.of_parameters hes (by simp) hp
  exact ⟨us ++ vs, by simp [hts, hmore], hu.append hv, hargs⟩

/-! ## Balance of a replacement -/

/-- Balanced arguments change no depth in a replacement. -/
theorem depthThrough_fill {args : Arguments} (ha : ∀ n a, args.get? n = some a → Balanced a)
    {parts : List Part} {out : List Lexeme} {d e : Nat} (hf : fill args parts = some out)
    (hl : depthThrough d (literals parts) = some e) : depthThrough d out = some e := by
  induction parts generalizing d out with
  | nil =>
    injection hf with hf
    subst hf
    exact hl
  | cons p parts ih =>
    cases p with
    | literal t =>
      obtain ⟨more, hm, rfl⟩ := Option.map_eq_some_iff.mp hf
      obtain ⟨m, ht, hl⟩ := exists_of_depthThrough_cons hl
      rw [depthThrough_cons ht]
      exact ih hm hl
    | reference n =>
      obtain ⟨a, hn, hf⟩ := Option.bind_eq_some_iff.mp hf
      obtain ⟨more, hm, hout⟩ := Option.bind_eq_some_iff.mp hf
      injection hout with hout
      subst hout
      exact depthThrough_trans ((ha n a hn).through d) (ih hm hl)

theorem balanced_of_substitute {d : Definition} {args : Arguments} {out : List Lexeme}
    (hd : Balanced (literals d.replacement)) (ha : ∀ n a, args.get? n = some a → Balanced a)
    (h : d.substitute args = some out) : Balanced out :=
  depthThrough_fill ha h hd

/-- Of a definition that was read, a call that is captured has taken balanced tokens, its arguments
are balanced, and it has a replacement, which is balanced as well. -/
theorem capture_is_neutral {d : Definition} {source more ts rest : List Lexeme} {args : Arguments}
    (hr : Consumer.run read source = (.ok d, more))
    (hc : Consumer.run d.capture ts = (.ok args, rest)) :
    ∃ call out, ts = call ++ rest ∧ Balanced call ∧ (∀ n a, args.get? n = some a → Balanced a) ∧
      d.substitute args = some out ∧ Balanced out := by
  have hw := writable_of_read hr
  obtain ⟨call, hts, hcall, hargs⟩ := balanced_of_capture hw.plain hc
  obtain ⟨out, hout⟩ := Option.isSome_iff_exists.mp (substitute_isSome hw.valid hc)
  exact ⟨call, out, hts, hcall, hargs, hout, balanced_of_substitute hw.balanced hargs hout⟩

/-- A parameter up to a full stop, and one without delimiters that is put into a group. -/
def stopped : Definition :=
  ⟨[.parameter 1, .delimiter ⟨.ch '.' .other, none⟩, .parameter 2],
    [.reference 1, .literal ⟨.ch '{' .beginGroup, none⟩, .reference 2, .reference 1,
      .literal ⟨.ch '}' .endGroup, none⟩]⟩

/-- A group that holds a full stop. -/
def stopInGroup : List Lexeme :=
  [⟨.ch '{' .beginGroup, none⟩, ⟨.ch '.' .other, none⟩, ⟨.ch '}' .endGroup, none⟩]

/-- Two groups are taken with their braces, a single one without. -/
def stoppedArguments : Arguments :=
  ⟨[(1, stopInGroup ++ stopInGroup), (2, [⟨.ch '.' .other, none⟩])]⟩

theorem capture_is_neutral_stopped :
    ∃ call out,
      stopInGroup ++ stopInGroup ++ [⟨.ch '.' .other, none⟩, ⟨.ch ' ' .space, none⟩] ++
        stopInGroup ++ [⟨.ch 'z' .letter, none⟩] = call ++ [⟨.ch 'z' .letter, none⟩] ∧
      Balanced call ∧ (∀ n a, stoppedArguments.get? n = some a → Balanced a) ∧
      stopped.substitute stoppedArguments = some out ∧ Balanced out :=
  @capture_is_neutral stopped (stopped.write {}) [] _ _ _ rfl rfl

end Galley.Definition
