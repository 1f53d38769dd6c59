import Galley.Proofs.Balance
import Galley.Proofs.Validity

/-!
Capture of arguments in braces. A call that is spelled as the parameter text asks, with a balanced
group for each parameter, is captured whole, with the bodies of the groups for arguments.
-/

namespace Galley

namespace Definition

namespace Capture

theorem run_ofScan_cons {σ α : Type} (step : σ → Lexeme → Turn σ (Except CaptureFault α)) (s : σ)
    (t : Lexeme) (ts : List Lexeme) :
    Consumer.run (ofScan step s) (t :: ts) =
      match step s t with
      | .again s => Consumer.run (ofScan step s) ts
      | .finish b => (b, ts) := by
  change Consumer.run (Consumer.scan step (fun _ => .error .runaway) s) (t :: ts) = _
  rw [Consumer.run_scan_cons]
  cases step s t <;> rfl

/-! ## The body of a group -/

theorem bodyStep_again {b : Body} {t : Lexeme} {d : Nat} (h : depthAfter b.depth t.token = some d) :
    bodyStep b t = .again ⟨d, t :: b.tokens⟩ := by
  rcases Token.depthAfter_cases h with ⟨hb, rfl⟩ | ⟨he, hd⟩ | ⟨hp, rfl⟩
  · simp [bodyStep, hb]
  · simp [bodyStep, he, Token.isBegin_false_of_isEnd he, hd]
  · simp [bodyStep, hp.1, hp.2]

theorem run_body {a : List Lexeme} {d e : Nat} (h : depthThrough d a = some e)
    (acc rest : List Lexeme) :
    Consumer.run (ofScan bodyStep ⟨d, acc⟩) (a ++ rest) =
      Consumer.run (ofScan bodyStep ⟨e, a.reverse ++ acc⟩) rest := by
  induction a generalizing d acc with
  | nil =>
    injection h with h
    rw [h]
    rfl
  | cons t a ih =>
    obtain ⟨m, hm, h⟩ := exists_of_depthThrough_cons h
    rw [List.cons_append, run_ofScan_cons, bodyStep_again hm]
    simp only [List.reverse_cons, List.append_assoc, List.singleton_append]
    exact ih h (t :: acc)

section group

variable {o c : Lexeme} {a : List Lexeme}

theorem run_undelimited (ho : o.token.isBegin = true) (hc : c.token.isEnd = true)
    (ha : Balanced a) (rest : List Lexeme) :
    Consumer.run undelimited (o :: a ++ c :: rest) = (.ok a, rest) := by
  have hblank : Consumer.run nonBlank (o :: (a ++ c :: rest)) = (.ok o, a ++ c :: rest) := by
    rw [nonBlank, run_ofScan_cons]
    simp [Token.isSpace_false_of_isBegin ho]
  rw [undelimited, List.cons_append, Consumer.run_bind_except, hblank]
  simp only [Token.isEnd_false_of_isBegin ho, ho, Bool.false_eq_true, if_false, if_true]
  rw [groupBody, run_body ha, run_ofScan_cons]
  simp [bodyStep, hc, Token.isBegin_false_of_isEnd hc]

/-! ## Delimiters -/

/-- Inside a group no delimiters are looked for. -/
theorem run_inside {ds : List Lexeme} {d e : Nat} (h : depthThrough d a = some e)
    (acc rest : List Lexeme) :
    Consumer.run (ofScan (delimitedStep ds) ⟨d + 1, acc⟩) (a ++ rest) =
      Consumer.run (ofScan (delimitedStep ds) ⟨e + 1, a.reverse ++ acc⟩) rest := by
  induction a generalizing d acc with
  | nil =>
    injection h with h
    rw [h]
    rfl
  | cons t a ih =>
    obtain ⟨m, hm, h⟩ := exists_of_depthThrough_cons h
    rw [List.cons_append, run_ofScan_cons]
    simp only [delimitedStep, Token.depthAfter_succ hm, Nat.succ_ne_zero, if_false,
      List.reverse_cons, List.append_assoc, List.singleton_append]
    exact ih h (t :: acc)

/-- Delimiters do not match where a token that ends a group would have to be among them. -/
theorem withoutDelimiters_eq_none {ds us ts : List Lexeme} (hd : ∀ t ∈ ds, t.token.Plain)
    (hc : c.token.isEnd = true) (hu : us.length < ds.length) :
    withoutDelimiters ds (us ++ c :: ts) = none := by
  rw [withoutDelimiters, if_neg]
  intro h
  have hmem : c.token ∈ ds.map (·.token) := by
    rw [← h]
    refine List.mem_map_of_mem ?_
    rw [List.take_append]
    obtain ⟨n, hn⟩ : ∃ n, ds.length - us.length = n + 1 := ⟨ds.length - us.length - 1, by omega⟩
    simp [hn]
  obtain ⟨t, ht, he⟩ := List.mem_map.mp hmem
  have hp := (hd t ht).2
  rw [he, hc] at hp
  cases hp

theorem withoutDelimiters_append {ds us ts : List Lexeme}
    (hu : us.map (·.token) = ds.map (·.token)) : withoutDelimiters ds (us ++ ts) = some ts := by
  have hl : us.length = ds.length := by simpa using congrArg List.length hu
  rw [withoutDelimiters, if_pos]
  · rw [← hl, List.drop_left]
  · rw [← hl, List.take_left, hu]

/-- Behind the group, the delimiters are read to their end. -/
theorem run_delimiters {ds read us body : List Lexeme} (hd : ∀ t ∈ ds, t.token.Plain)
    (hc : c.token.isEnd = true) (hu : us ≠ [])
    (hs : (read ++ us).reverse.map (·.token) = ds.map (·.token)) (rest : List Lexeme) :
    Consumer.run (ofScan (delimitedStep ds) ⟨0, read.reverse ++ c :: body⟩) (us ++ rest) =
      (.ok (c :: body).reverse, rest) := by
  induction us generalizing read with
  | nil => exact absurd rfl hu
  | cons u us ih =>
    have hplain : u.token.Plain := by
      have hmem : u.token ∈ ds.map (·.token) := by
        rw [← hs]
        simp
      obtain ⟨t, ht, he⟩ := List.mem_map.mp hmem
      exact he ▸ hd t ht
    have hlen : read.length + us.length + 1 = ds.length := by
      have hl := congrArg List.length hs
      simp only [List.length_map, List.length_reverse, List.length_append, List.length_cons] at hl
      omega
    have hread : u :: (read.reverse ++ c :: body) = (read ++ [u]).reverse ++ c :: body := by simp
    rw [List.cons_append, run_ofScan_cons]
    simp only [delimitedStep, Token.depthAfter_plain _ hplain, if_true, hread]
    cases us with
    | nil =>
      rw [withoutDelimiters_append hs]
      rfl
    | cons u' us' =>
      -- too few tokens lie behind the group, so a match would reach into its last brace
      have hshort : ((read ++ [u]).reverse).length < ds.length := by
        simp only [List.length_cons] at hlen
        simp
        omega
      rw [withoutDelimiters_eq_none hd hc hshort]
      exact ih (by simp) (by simpa using hs)

/-! ## The braces around an argument -/

theorem closesLast_through {d e : Nat} (h : depthThrough d a = some e) (ts : List Lexeme) :
    closesLast (d + 1) (a ++ ts) = closesLast (e + 1) ts := by
  induction a generalizing d with
  | nil =>
    injection h with h
    rw [h]
    rfl
  | cons t a ih =>
    obtain ⟨m, hm, h⟩ := exists_of_depthThrough_cons h
    rw [← ih h, List.cons_append, closesLast]
    rcases Token.depthAfter_cases hm with ⟨hb, rfl⟩ | ⟨he, rfl⟩ | ⟨hp, rfl⟩
    · simp [hb]
    · -- the group that ends here is within the one that began before the list
      have hdepth : (m : Int) + 1 + 1 ≠ 1 := by omega
      simp [he, Token.isBegin_false_of_isEnd he, hdepth]
    · simp [hp.1, hp.2]

theorem isSingleGroup_group (ho : o.token.isBegin = true) (hc : c.token.isEnd = true)
    (ha : Balanced a) : isSingleGroup (o :: (a ++ [c])) = true := by
  have hcloses : closesLast 0 (o :: (a ++ [c])) = true := by
    have hthrough := closesLast_through ha [c]
    simp only [closesLast, ho, if_true]
    exact hthrough.trans (by simp [closesLast, hc, Token.isBegin_false_of_isEnd hc])
  cases a with
  | nil => simpa [isSingleGroup, ho, hc] using hcloses
  | cons t a =>
    have hlast : ∀ h, (t :: (a ++ [c])).getLast h = c :=
      fun h => (List.getLast_cons (by simp)).trans (by simp)
    simp only [List.cons_append] at hcloses ⊢
    simp [isSingleGroup, ho, hc, hcloses, hlast]

theorem stripGroup_group (ho : o.token.isBegin = true) (hc : c.token.isEnd = true)
    (ha : Balanced a) : stripGroup (o :: (a ++ [c])) = a := by
  simp [stripGroup, isSingleGroup_group ho hc ha]

theorem run_delimited {ds us : List Lexeme} (hn : ds ≠ []) (hd : ∀ t ∈ ds, t.token.Plain)
    (ho : o.token.isBegin = true) (hc : c.token.isEnd = true) (ha : Balanced a)
    (hu : us.map (·.token) = ds.map (·.token)) (rest : List Lexeme) :
    Consumer.run (delimited ds) (o :: a ++ c :: (us ++ rest)) = (.ok a, rest) := by
  have hscan : Consumer.run (ofScan (delimitedStep ds.reverse) {}) (o :: a ++ c :: (us ++ rest)) =
      (.ok (o :: (a ++ [c])), rest) := by
    have hd' : ∀ t ∈ ds.reverse, t.token.Plain := fun t ht => hd t (by simpa using ht)
    have hshort : ([] : List Lexeme).length < ds.reverse.length := by
      simpa using List.length_pos_iff.mpr hn
    have hu' : us ≠ [] := by
      rintro rfl
      exact hn (by simpa using hu.symm)
    have hs : ([] ++ us : List Lexeme).reverse.map (·.token) = ds.reverse.map (·.token) := by
      simpa [List.map_reverse] using hu
    rw [List.cons_append, run_ofScan_cons]
    simp only [delimitedStep, Token.depthAfter_begin _ ho, Nat.succ_ne_zero, if_false]
    rw [run_inside ha, run_ofScan_cons]
    simp only [delimitedStep, Token.depthAfter_end _ hc, if_true]
    -- the brace that ends the group brings the depth to zero, but it is no delimiter itself
    have hnone := @withoutDelimiters_eq_none c ds.reverse [] (a.reverse ++ [o]) hd' hc hshort
    rw [List.nil_append] at hnone
    rw [hnone]
    have hrun := @run_delimiters c ds.reverse [] us (a.reverse ++ [o]) hd' hc hu' hs rest
    simpa using hrun
  rw [delimited, Consumer.run_bind_except, hscan]
  simp [stripGroup_group ho hc ha]

theorem run_argument {ds us : List Lexeme} (hd : ∀ t ∈ ds, t.token.Plain)
    (ho : o.token.isBegin = true) (hc : c.token.isEnd = true) (ha : Balanced a)
    (hu : us.map (·.token) = ds.map (·.token)) (rest : List Lexeme) :
    Consumer.run (argument ds) (o :: a ++ c :: (us ++ rest)) = (.ok a, rest) := by
  cases ds with
  | nil =>
    have hus : us = [] := by simpa using hu
    subst hus
    exact run_undelimited ho hc ha rest
  | cons t ds => exact run_delimited (by simp) hd ho hc ha hu rest

end group

/-! ## All arguments -/

theorem delimiters_append (es : List Element) :
    (delimiters es).1.map .delimiter ++ (delimiters es).2 = es := by
  induction es with
  | nil => rfl
  | cons e es ih =>
    cases e with
    | delimiter t => simpa [delimiters] using ih
    | parameter n => rfl

theorem delimiters_rest (es : List Element) :
    (delimiters (delimiters es).2).1 = [] := by
  induction es with
  | nil => rfl
  | cons e es ih =>
    cases e with
    | delimiter t => exact ih
    | parameter n => rfl

theorem countFrom_delimiters (count : Nat) (es : List Element) :
    countFrom count (delimiters es).2 = countFrom count es := by
  induction es with
  | nil => rfl
  | cons e es ih =>
    cases e with
    | delimiter t => exact ih
    | parameter n => rfl

theorem parameters_delimiters (args : Arguments) (es : List Element) :
    parameters args (delimiters es).2 = parameters args es := by
  induction es with
  | nil => rfl
  | cons e es ih =>
    cases e with
    | delimiter t => exact ih
    | parameter n => rfl

theorem run_leading {es : List Element} {us : List Lexeme}
    (hu : us.map (·.token) = (delimiters es).1.map (·.token)) (rest : List Lexeme) :
    Consumer.run (leading es) (us ++ rest) = (.ok (delimiters es).2, rest) := by
  induction es generalizing us with
  | nil =>
    have hus : us = [] := by simpa [delimiters] using hu
    subst hus
    rfl
  | cons e es ih =>
    cases e with
    | parameter n =>
      have hus : us = [] := by simpa [delimiters] using hu
      subst hus
      rfl
    | delimiter t =>
      cases us with
      | nil => simp [delimiters] at hu
      | cons u us =>
        simp only [delimiters, List.map_cons, List.cons.injEq] at hu
        rw [leading, Consumer.run_bind_except, token, List.cons_append, run_ofScan_cons]
        simp only [hu.1, if_true]
        exact ih hu.2

end Capture

/-! ## Plain delimiters -/

/-- Is no delimiter that begins or ends a group. -/
def PlainElement : Element → Prop
  | .delimiter t => t.token.Plain
  | .parameter _ => True

instance : (e : Element) → Decidable (PlainElement e)
  | .delimiter t => inferInstanceAs (Decidable t.token.Plain)
  | .parameter _ => inferInstanceAs (Decidable True)

theorem plain_of_mem_delimiters {es : List Element} (h : ∀ e ∈ es, PlainElement e) {t : Lexeme}
    (ht : t ∈ (Capture.delimiters es).1) : t.token.Plain := by
  refine h (.delimiter t) ?_
  rw [← Capture.delimiters_append es]
  simp [ht]

theorem plain_behind_delimiters {es : List Element} (h : ∀ e ∈ es, PlainElement e) :
    ∀ e ∈ (Capture.delimiters es).2, PlainElement e := by
  intro e he
  refine h e ?_
  rw [← Capture.delimiters_append es]
  exact List.mem_append_right _ he

/-! ## Spelled calls -/

/-- The tokens of a call behind its name: the delimiters as they are asked for, and for each
parameter a group with its argument. -/
inductive Spells : List Element → List (List Lexeme) → List Lexeme → Prop
  | nil : Spells [] [] []
  | delimiter {t u : Lexeme} {es : List Element} {args : List (List Lexeme)} {ts : List Lexeme}
    (h : u.token = t.token) (more : Spells es args ts) : Spells (.delimiter t :: es) args (u :: ts)
  | parameter {n : Int} {o c : Lexeme} {a : List Lexeme} {es : List Element}
    {args : List (List Lexeme)} {ts : List Lexeme} (ho : o.token.isBegin = true)
    (hc : c.token.isEnd = true) (more : Spells es args ts) :
    Spells (.parameter n :: es) (a :: args) (o :: a ++ c :: ts)

/-- Arguments for the parameters from the given count on, on top of others. -/
def numberFrom (count : Nat) (args : Arguments) : List (List Lexeme) → Arguments
  | [] => args
  | a :: more => numberFrom (count + 1) (args.set (count + 1) a) more

/-- Arguments for the parameters from the first one on. -/
def numbered (args : List (List Lexeme)) : Arguments := numberFrom 0 .empty args

theorem Spells.delimiters {es : List Element} {args : List (List Lexeme)} {ts : List Lexeme}
    (h : Spells es args ts) :
    ∃ us rest, ts = us ++ rest ∧
      us.map (·.token) = (Capture.delimiters es).1.map (·.token) ∧
      Spells (Capture.delimiters es).2 args rest := by
  induction h with
  | nil => exact ⟨[], [], rfl, rfl, .nil⟩
  | @delimiter t u es args ts h more ih =>
    obtain ⟨us, rest, rfl, hu, hs⟩ := ih
    exact ⟨u :: us, rest, rfl, by simp [Capture.delimiters, h, hu], hs⟩
  | @parameter n o c a es args ts ho hc more ih =>
    exact ⟨[], o :: a ++ c :: ts, rfl, rfl, .parameter ho hc more⟩

/-- Behind the delimiters at the beginning, each argument is read with the delimiters after it. -/
theorem run_parameters {es : List Element} {args : List (List Lexeme)} {ts : List Lexeme}
    {first count : Nat} (hs : Spells es args ts) (hn : (Capture.delimiters es).1 = [])
    (hc : countFrom first es = .ok count) (hd : ∀ e ∈ es, PlainElement e)
    (ha : ∀ a ∈ args, Balanced a) (acc : Arguments) (rest : List Lexeme) :
    Consumer.run (Capture.parameters acc es) (ts ++ rest) =
      (.ok (numberFrom first acc args), rest) := by
  induction args generalizing es ts first acc with
  | nil =>
    cases hs with
    | nil => rfl
    | delimiter h more => simp [Capture.delimiters] at hn
  | cons a args ih =>
    cases hs with
    | delimiter h more => simp [Capture.delimiters] at hn
    | @parameter n o c _ es _ ts ho hcl more =>
      obtain ⟨us, ts', rfl, hu, hs⟩ := more.delimiters
      have hd' : ∀ e ∈ es, PlainElement e := fun e he => hd e (List.mem_cons_of_mem _ he)
      simp only [countFrom] at hc
      split at hc
      · rename_i hfirst
        have hsplit : o :: a ++ c :: (us ++ ts') ++ rest =
            o :: a ++ c :: (us ++ (ts' ++ rest)) := by simp
        have harg := Capture.run_argument (fun _ ht => plain_of_mem_delimiters hd' ht) ho hcl
          (ha a (by simp)) hu (ts' ++ rest)
        have hcount := (Capture.countFrom_delimiters (first + 1) es).trans hc
        have hmore := ih hs (Capture.delimiters_rest es) hcount (plain_behind_delimiters hd')
          (fun b hb => ha b (List.mem_cons_of_mem _ hb)) (acc.set n a)
        rw [hsplit, Capture.parameters, Consumer.run_bind_except, harg]
        rw [Capture.parameters_delimiters] at hmore
        simp only [numberFrom, ← hfirst]
        exact hmore
      · cases hc

/-- A call that is spelled as it should be is captured whole. -/
theorem run_capture {d : Definition} (hv : d.Valid) (hd : ∀ e ∈ d.parameters, PlainElement e)
    {args : List (List Lexeme)} {ts : List Lexeme} (hs : Spells d.parameters args ts)
    (ha : ∀ a ∈ args, Balanced a) (rest : List Lexeme) :
    Consumer.run d.capture (ts ++ rest) = (.ok (numbered args), rest) := by
  obtain ⟨count, hc, -⟩ := hv
  obtain ⟨us, ts', rfl, hu, hs'⟩ := hs.delimiters
  have hcount := (Capture.countFrom_delimiters 0 d.parameters).trans hc
  rw [capture, Consumer.run_bind_except, List.append_assoc, Capture.run_leading hu]
  exact run_parameters hs' (Capture.delimiters_rest d.parameters) hcount
    (plain_behind_delimiters hd) ha .empty rest

end Definition

end Galley
