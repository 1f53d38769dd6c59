import Galley.Metrics
import Mathlib

/-!
Sums of glue. Terms can be added in any order and in any grouping, and a sum may be refused on the
way in one of them and not in another. Where it is not, it is the same: the natural sizes add up,
and so do the parts of the highest order of stretch and of shrink, while those of lower orders
vanish (`Glue.IsSum`). The induction is over the grouping, of which a sum from left to right is one.
-/

namespace Galley

/-- The amounts of the highest order add up, and the others vanish. -/
structure Flex.IsSum (fs : List Flex) (f : Flex) : Prop where
  attained : ∃ x ∈ fs, x.order = f.order
  highest : ∀ x ∈ fs, x.order.rank ≤ f.order.rank
  amount : f.amount.sp = ((fs.filter (·.order = f.order)).map (·.amount.sp)).sum

structure Glue.IsSum (gs : List Glue) (g : Glue) : Prop where
  natural : g.natural.sp = (gs.map (·.natural.sp)).sum
  stretch : g.stretch.IsSum (gs.map (·.stretch))
  shrink : g.shrink.IsSum (gs.map (·.shrink))

/-! ## Two terms -/

namespace Dimension

variable {a b c : Dimension}

theorem add?_eq_some_iff : a.add? b = some c ↔ c.sp = a.sp + b.sp := ofSp?_eq_some_iff

theorem add?_comm (a b : Dimension) : a.add? b = b.add? a := by
  rw [add?, add?, Int.add_comm]

theorem zero_add? (a : Dimension) : zero.add? a = some a :=
  add?_eq_some_iff.mpr (Int.zero_add a.sp).symm

end Dimension

namespace Flex

variable {a b f g : Flex} {fs gs : List Flex}

theorem add?_comm (a b : Flex) : a.add? b = b.add? a := by
  unfold add?
  by_cases h : a.order = b.order
  · simp only [h, if_true, Dimension.add?_comm a.amount]
  · have hrank : a.order.rank ≠ b.order.rank := fun hr => h (GlueOrder.rank_inj hr)
    rw [if_neg h, if_neg (Ne.symm h)]
    by_cases hlt : b.order.rank < a.order.rank
    · rw [if_pos hlt, if_neg (Nat.not_lt_of_gt hlt)]
    · rw [if_neg hlt, if_pos (by omega)]

theorem zero_add? (a : Flex) : add? {} a = some a := by
  unfold add?
  by_cases h : GlueOrder.normal = a.order
  · obtain ⟨amount, order⟩ := a
    cases h
    simp [Dimension.zero_add?]
  · have hrank : GlueOrder.normal.rank ≠ a.order.rank := fun hr => h (GlueOrder.rank_inj hr)
    rw [if_neg h, if_neg (by rw [GlueOrder.rank]; omega)]

/-- What a sum of two terms is, by their orders. -/
theorem add?_cases {c : Flex} (h : a.add? b = some c) :
    a.order = b.order ∧ c.order = a.order ∧ c.amount.sp = a.amount.sp + b.amount.sp ∨
      b.order.rank < a.order.rank ∧ c = a ∨ a.order.rank < b.order.rank ∧ c = b := by
  unfold add? at h
  split at h
  · rename_i ho
    obtain ⟨d, hd, rfl⟩ := Option.map_eq_some_iff.mp h
    exact Or.inl ⟨ho, rfl, Dimension.add?_eq_some_iff.mp hd⟩
  · rename_i ho
    have hrank : a.order.rank ≠ b.order.rank := fun hr => ho (GlueOrder.rank_inj hr)
    split at h
    · rename_i hlt
      exact Or.inr (Or.inl ⟨hlt, (Option.some.inj h).symm⟩)
    · exact Or.inr (Or.inr ⟨by omega, (Option.some.inj h).symm⟩)

namespace IsSum

theorem singleton (f : Flex) : f.IsSum [f] where
  attained := ⟨f, List.mem_singleton_self f, rfl⟩
  highest := by simp
  amount := by simp

/-- Terms of lower orders vanish against a sum. -/
theorem append_lower (h : f.IsSum fs) (hl : ∀ x ∈ gs, x.order.rank < f.order.rank) :
    f.IsSum (fs ++ gs) where
  attained := by
    obtain ⟨x, hx, ho⟩ := h.attained
    exact ⟨x, List.mem_append_left gs hx, ho⟩
  highest := by
    intro x hx
    rcases List.mem_append.mp hx with hx | hx
    · exact h.highest x hx
    · exact Nat.le_of_lt (hl x hx)
  amount := by
    have hnone : gs.filter (·.order = f.order) = [] := by
      refine List.filter_eq_nil_iff.mpr fun x hx ho => ?_
      have hlt := hl x hx
      rw [of_decide_eq_true ho] at hlt
      exact Nat.lt_irrefl _ hlt
    rw [List.filter_append, hnone, List.append_nil]
    exact h.amount

theorem perm (h : f.IsSum fs) (hp : fs.Perm gs) : f.IsSum gs where
  attained := by
    obtain ⟨x, hx, ho⟩ := h.attained
    exact ⟨x, hp.mem_iff.mp hx, ho⟩
  highest x hx := h.highest x (hp.mem_iff.mpr hx)
  amount := h.amount.trans (((hp.filter _).map _).sum_eq)

theorem unique (h : f.IsSum fs) (h' : g.IsSum fs) : f = g := by
  have ho : f.order = g.order := by
    obtain ⟨x, hx, hxf⟩ := h.attained
    obtain ⟨y, hy, hyg⟩ := h'.attained
    have hfg := h'.highest x hx
    have hgf := h.highest y hy
    rw [hxf] at hfg
    rw [hyg] at hgf
    exact GlueOrder.rank_inj (Nat.le_antisymm hfg hgf)
  have ha : f.amount = g.amount := by
    apply Dimension.ext
    rw [h.amount, h'.amount, ho]
  obtain ⟨amount, order⟩ := f
  obtain ⟨amount', order'⟩ := g
  cases ho
  cases ha
  rfl

/-- Sums of two lists add up to the sum of both. -/
theorem add {c : Flex} (ha : a.IsSum fs) (hb : b.IsSum gs) (h : a.add? b = some c) :
    c.IsSum (fs ++ gs) := by
  rcases add?_cases h with ⟨ho, hc, hamount⟩ | ⟨hlt, rfl⟩ | ⟨hlt, rfl⟩
  · refine ⟨?_, ?_, ?_⟩
    · obtain ⟨x, hx, hxa⟩ := ha.attained
      exact ⟨x, List.mem_append_left gs hx, hxa.trans hc.symm⟩
    · intro x hx
      rcases List.mem_append.mp hx with hx | hx
      · exact hc ▸ ha.highest x hx
      · exact hc ▸ ho ▸ hb.highest x hx
    · rw [hamount, ha.amount, hb.amount, ← ho, hc, List.filter_append, List.map_append,
        List.sum_append]
  · exact ha.append_lower fun x hx => Nat.lt_of_le_of_lt (hb.highest x hx) hlt
  · have hsum : c.IsSum (gs ++ fs) :=
      hb.append_lower fun x hx => Nat.lt_of_le_of_lt (ha.highest x hx) hlt
    exact hsum.perm List.perm_append_comm

end IsSum

end Flex

/-! ## Glue -/

namespace Glue

variable {a b c g h : Glue} {gs hs : List Glue}

theorem add?_comm (a b : Glue) : a.add? b = b.add? a := by
  simp only [add?, Flex.add?_comm a.stretch, Flex.add?_comm a.shrink,
    Dimension.add?_comm a.natural]

/-- No glue at all. -/
def zero : Glue := { natural := .zero }

theorem zero_add? (g : Glue) : zero.add? g = some g := by
  simp [add?, zero, Flex.zero_add?, Dimension.zero_add?]

theorem exists_of_add? (h : a.add? b = some c) :
    a.natural.add? b.natural = some c.natural ∧ a.stretch.add? b.stretch = some c.stretch ∧
      a.shrink.add? b.shrink = some c.shrink := by
  simp only [add?, Option.bind_eq_bind, Option.bind_eq_some_iff] at h
  obtain ⟨stretch, hstretch, shrink, hshrink, natural, hnatural, hc⟩ := h
  cases hc
  exact ⟨hnatural, hstretch, hshrink⟩

namespace IsSum

theorem singleton (g : Glue) : g.IsSum [g] := ⟨by simp, .singleton _, .singleton _⟩

theorem add (ha : a.IsSum gs) (hb : b.IsSum hs) (h : a.add? b = some c) : c.IsSum (gs ++ hs) := by
  obtain ⟨hnatural, hstretch, hshrink⟩ := exists_of_add? h
  refine ⟨?_, ?_, ?_⟩
  · rw [Dimension.add?_eq_some_iff.mp hnatural, ha.natural, hb.natural, List.map_append,
      List.sum_append]
  · rw [List.map_append]
    exact ha.stretch.add hb.stretch hstretch
  · rw [List.map_append]
    exact ha.shrink.add hb.shrink hshrink

theorem perm (h : g.IsSum gs) (hp : gs.Perm hs) : g.IsSum hs :=
  ⟨h.natural.trans (hp.map _).sum_eq, h.stretch.perm (hp.map _), h.shrink.perm (hp.map _)⟩

theorem unique (hg : g.IsSum gs) (hh : h.IsSum gs) : g = h := by
  obtain ⟨natural, stretch, shrink⟩ := g
  obtain ⟨natural', stretch', shrink'⟩ := h
  cases Dimension.ext (hg.natural.trans hh.natural.symm)
  cases hg.stretch.unique hh.stretch
  cases hg.shrink.unique hh.shrink
  rfl

end IsSum

/-- Terms in the grouping in which they are added. -/
inductive Grouping
  | term (g : Glue)
  | plus (s t : Grouping)
  deriving DecidableEq, Repr

namespace Grouping

/-- From left to right. -/
def terms : Grouping → List Glue
  | term g => [g]
  | plus s t => s.terms ++ t.terms

/-- `none` if a sum on the way is refused. -/
def value? : Grouping → Option Glue
  | term g => some g
  | plus s t => do (← s.value?).add? (← t.value?)

/-- Each term is added to the sum of those before it. -/
def leftToRight (s : Grouping) (more : List Glue) : Grouping :=
  more.foldl (fun s g => .plus s (.term g)) s

theorem terms_leftToRight (s : Grouping) (more : List Glue) :
    (s.leftToRight more).terms = s.terms ++ more := by
  induction more generalizing s with
  | nil => exact (List.append_nil s.terms).symm
  | cons g more ih =>
    refine (ih (.plus s (.term g))).trans ?_
    rw [terms, terms, List.append_assoc, List.singleton_append]

theorem value?_leftToRight (s : Grouping) (more : List Glue) :
    (s.leftToRight more).value? = s.value?.bind (more.foldlM add?) := by
  induction more generalizing s with
  | nil =>
    rw [leftToRight, List.foldl_nil]
    cases s.value? <;> rfl
  | cons g more ih =>
    refine (ih (.plus s (.term g))).trans ?_
    rw [value?]
    cases s.value? with
    | none => rfl
    | some a => rfl

/-- Whatever the grouping, what it comes to is the sum of its terms. -/
theorem isSum_of_value? {s : Grouping} (h : s.value? = some g) : g.IsSum s.terms := by
  induction s generalizing g with
  | term t =>
    cases h
    exact .singleton t
  | plus s t ihs iht =>
    simp only [value?, Option.bind_eq_bind, Option.bind_eq_some_iff] at h
    obtain ⟨a, ha, b, hb, hab⟩ := h
    exact (ihs ha).add (iht hb) hab

end Grouping

/-- Glue is added by orders. A sum from left to right that is not refused has the sum of the natural
sizes and, for stretch and for shrink, the highest order and the sum of the parts of that order. So
addition is commutative, refusals included, glue of no size changes nothing, and any two orders and
groupings of the same terms that both succeed come to the same glue. -/
theorem add_by_orders :
    (∀ (g : Glue) (more : List Glue) (s : Glue), more.foldlM add? g = some s →
      s.IsSum (g :: more)) ∧
    (∀ a b : Glue, a.add? b = b.add? a) ∧
    (∀ g : Glue, zero.add? g = some g ∧ g.add? zero = some g) ∧
    ∀ (s t : Grouping) (a b : Glue), s.terms.Perm t.terms → s.value? = some a →
      t.value? = some b → a = b := by
  refine ⟨fun g more s hs => ?_, add?_comm, fun g => ⟨zero_add? g, ?_⟩, ?_⟩
  · have hvalue : (Grouping.leftToRight (.term g) more).value? = some s :=
      (Grouping.value?_leftToRight (.term g) more).trans hs
    have hsum := Grouping.isSum_of_value? hvalue
    rwa [Grouping.terms_leftToRight] at hsum
  · rw [add?_comm, zero_add?]
  · intro s t a b hp hs ht
    exact ((Grouping.isSum_of_value? hs).perm hp).unique (Grouping.isSum_of_value? ht)

/-- So many points that stretch by some more, of an infinite order. -/
def stretching (points stretch : Int) (order : GlueOrder) : Glue :=
  { natural := .ofPoints points, stretch := ⟨.ofPoints stretch, order⟩ }

def long : Glue := stretching 16000 1 .fil

/-- Takes back what a long term adds. -/
def takesBack : Glue := stretching (-16000) 2 .fill

/-- Long terms taken back where they stand. -/
def longTakenBack : Grouping := .plus (.term long) (.plus (.term long) (.term takesBack))

theorem add_by_orders_longTakenBack :
    ∃ a b, [takesBack, long].foldlM add? long = some a ∧ a.IsSum [long, takesBack, long] ∧
      longTakenBack.value? = some b ∧
      (Grouping.leftToRight (.term long) [takesBack, long]).terms.Perm longTakenBack.terms ∧
      a = b ∧ a.stretch = ⟨.ofPoints 2, .fill⟩ := by
  obtain ⟨a, ha, hstretch⟩ : ∃ a, [takesBack, long].foldlM add? long = some a ∧
      a.stretch = ⟨.ofPoints 2, .fill⟩ := ⟨stretching 16000 2 .fill, by decide +kernel, rfl⟩
  obtain ⟨b, hb⟩ : ∃ b, longTakenBack.value? = some b :=
    Option.isSome_iff_exists.mp (by decide +kernel)
  have hp : (Grouping.leftToRight (.term long) [takesBack, long]).terms.Perm
      longTakenBack.terms := by decide +kernel
  obtain ⟨hleft, -, -, hsame⟩ := add_by_orders
  have hvalue := (Grouping.value?_leftToRight (.term long) [takesBack, long]).trans ha
  exact ⟨a, b, ha, hleft long [takesBack, long] a ha, hb, hp, hsame _ _ a b hp hvalue hb, hstretch⟩

/-- Both long terms at once are refused. -/
example : (Grouping.leftToRight (.term long) [long, takesBack]).value? = none := by
  decide +kernel

end Glue

end Galley
