import Galley.Proofs.Captured

/-!
Where tokens come from. The arguments of a call hold tokens that the call was given, a definition
that is read has no others in its replacement, and what a call stands for is made of both.
-/

namespace Galley.Definition

namespace Capture

variable {ts rest a : List Lexeme}

theorem stripGroup_subset (ts : List Lexeme) : stripGroup ts ⊆ ts := by
  unfold stripGroup
  split
  · exact List.Subset.trans (List.dropLast_subset _) (List.tail_suffix ts).subset
  · exact List.Subset.refl ts

theorem Taken.subset {ds us : List Lexeme} (h : Taken ds a us) : a ⊆ us := by
  cases h with
  | token hb ht => exact List.subset_append_right _ _
  | @group blanks a o c hb ho hc ha =>
    have hgroup : a ⊆ o :: (a ++ [c]) :=
      List.subset_cons_of_subset o (List.subset_append_left a [c])
    exact List.Subset.trans hgroup (List.subset_append_right blanks _)
  | @delimited ds us vs hu hv =>
    exact List.Subset.trans (stripGroup_subset us) (List.subset_append_left us vs)

theorem subset_of_undelimited (h : Consumer.run undelimited ts = (.ok a, rest)) : a ⊆ ts := by
  obtain ⟨us, rfl, htaken⟩ := of_undelimited h
  exact List.Subset.trans htaken.subset (List.subset_append_left us rest)

theorem subset_of_delimited {ds : List Lexeme}
    (h : Consumer.run (delimited ds) ts = (.ok a, rest)) : a ⊆ ts := by
  obtain ⟨captured, more, hscan, hk⟩ := Consumer.run_bind_except_ok h
  obtain ⟨us, t, b, rfl, hfeed, hstep⟩ := exists_feed_of_ofScan hscan
  obtain ⟨-, htokens⟩ := delimitedStep_again.feed hfeed
  obtain ⟨-, hwithout⟩ := delimitedStep_finish hstep
  obtain ⟨vs, hvs, -⟩ := of_withoutDelimiters hwithout
  injection hk with ha
  injection ha with ha
  subst ha
  -- the tokens without the delimiters are some of those that were collected
  have hcaptured : captured ⊆ us ++ t :: more := by
    intro x hx
    have hx : x ∈ t :: b.tokens := by
      rw [hvs]
      exact List.mem_append_right vs (List.mem_reverse.mpr hx)
    simp only [htokens, List.append_nil, List.mem_cons, List.mem_reverse] at hx
    rcases hx with rfl | hx
    · exact List.mem_append_right us List.mem_cons_self
    · exact List.mem_append_left _ hx
  exact List.Subset.trans (stripGroup_subset captured) hcaptured

theorem subset_of_argument {ds : List Lexeme}
    (h : Consumer.run (argument ds) ts = (.ok a, rest)) : a ⊆ ts := by
  unfold argument at h
  split at h
  · exact subset_of_undelimited h
  · exact subset_of_delimited h

theorem subset_of_parameters {es : List Element} {acc args : Arguments} {source : List Lexeme}
    (hts : ts ⊆ source) (hacc : ∀ n a, acc.get? n = some a → a ⊆ source)
    (h : Consumer.run (parameters acc es) ts = (.ok args, rest)) :
    ∀ n a, args.get? n = some a → a ⊆ source := by
  induction es generalizing acc ts with
  | nil =>
    injection h with h
    injection h with h
    exact h ▸ hacc
  | cons e es ih =>
    cases e with
    | delimiter t => exact ih hts hacc h
    | parameter n =>
      obtain ⟨arg, more, harg, hk⟩ := Consumer.run_bind_except_ok h
      refine ih (List.Subset.trans (Consumer.rest_subset harg) hts) (fun m b hb => ?_) hk
      rw [Table.get?_set] at hb
      split at hb
      · injection hb with hb
        exact hb ▸ List.Subset.trans (subset_of_argument harg) hts
      · exact hacc m b hb

end Capture

theorem subset_of_capture {d : Definition} {args : Arguments} {ts rest : List Lexeme}
    (h : Consumer.run d.capture ts = (.ok args, rest)) :
    ∀ n a, args.get? n = some a → a ⊆ ts := by
  obtain ⟨es, more, hleading, hparameters⟩ := Consumer.run_bind_except_ok h
  exact Capture.subset_of_parameters (Consumer.rest_subset hleading)
    (fun n a ha => by rw [Table.get?_empty] at ha; cases ha) hparameters

theorem mem_of_fill {args : Arguments} {parts : List Part} {out : List Lexeme}
    (h : fill args parts = some out) {t : Lexeme} (ht : t ∈ out) :
    t ∈ literals parts ∨ ∃ n a, args.get? n = some a ∧ t ∈ a := by
  induction parts generalizing out with
  | nil =>
    injection h with h
    subst h
    cases ht
  | cons p parts ih =>
    cases p with
    | literal u =>
      obtain ⟨more, hmore, rfl⟩ := Option.map_eq_some_iff.mp h
      rcases List.mem_cons.mp ht with rfl | ht
      · exact Or.inl List.mem_cons_self
      · exact (ih hmore ht).imp_left (List.mem_cons_of_mem u)
    | reference n =>
      simp only [fill, Option.bind_eq_bind, Option.bind_eq_some_iff] at h
      obtain ⟨arg, harg, more, hmore, hout⟩ := h
      injection hout with hout
      subst hout
      rcases List.mem_append.mp ht with ht | ht
      · exact Or.inr ⟨n, arg, harg, ht⟩
      · exact ih hmore ht

/-- The replacement of a call is made of tokens of the definition and of the call. -/
theorem mem_of_substitute {d : Definition} {args : Arguments} {ts rest out : List Lexeme}
    (hc : Consumer.run d.capture ts = (.ok args, rest)) (hs : d.substitute args = some out)
    {t : Lexeme} (ht : t ∈ out) : t ∈ literals d.replacement ∨ t ∈ ts :=
  (mem_of_fill hs ht).imp_right fun ⟨n, a, ha, hmem⟩ => subset_of_capture hc n a ha hmem

/-! ## Definitions that are read -/

namespace Reading

/-- A definition under way has tokens of a list alone in its replacement. -/
def Replacement.Of (ts : List Lexeme) (s : Replacement) : Prop := literals s.parts ⊆ ts

variable {ts : List Lexeme} {s : Replacement} {t : Lexeme}

theorem Replacement.Of.literal (hs : s.Of ts) (ht : t ∈ ts) (depth : Nat) (marked : Bool) :
    (Replacement.mk (.literal t :: s.parts) depth marked).Of ts := List.cons_subset.mpr ⟨ht, hs⟩

theorem literals_reverse (parts : List Part) :
    literals parts.reverse = (literals parts).reverse := by
  induction parts with
  | nil => rfl
  | cons p parts ih => cases p <;> simp [literals_append, literals, ih]

/-- The parts that were read have tokens of a list alone. -/
def PartsOf (ts : List Lexeme) : Except ReadingFault (List Part) → Prop
  | .ok parts => literals parts ⊆ ts
  | .error _ => True

theorem Replacement.afterMark_of {count : Nat} (hs : s.Of ts) (ht : t ∈ ts) :
    (s.afterMark count t).Holds (Of ts) (PartsOf ts) := by
  unfold afterMark
  split
  · exact hs.literal ht s.depth false
  · split
    · split
      · exact hs
      · trivial
    · trivial

theorem Replacement.step_of {count : Nat} (hs : s.Of ts) (ht : t ∈ ts) :
    (s.step count t).Holds (Of ts) (PartsOf ts) := by
  unfold step
  split
  · exact afterMark_of hs ht
  · split
    · exact hs.literal ht _ _
    · split
      · split
        · rw [Turn.Holds, PartsOf, literals_reverse]
          exact List.reverse_subset.mpr hs
        · exact hs.literal ht _ _
      · split
        · exact hs
        · exact hs.literal ht _ _

end Reading

theorem subset_of_read {d : Definition} {ts rest : List Lexeme}
    (h : Consumer.run read ts = (.ok d, rest)) : literals d.replacement ⊆ ts := by
  obtain ⟨text, parts, more, htext, hparts, rfl⟩ := exists_of_read h
  have start : Reading.Replacement.Of ts {} := List.nil_subset ts
  have hresult : Reading.PartsOf ts (Consumer.run (Reading.replacement text.count) more).1 := by
    refine Consumer.scan_result_of (· ∈ ts) _ _
      (fun s t ht hs => Reading.Replacement.step_of hs ht) ?_ start
      fun t ht => Consumer.rest_subset htext ht
    exact fun s _ => trivial
  rw [hparts] at hresult
  exact hresult

end Galley.Definition
