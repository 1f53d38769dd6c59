import Galley.Engine
import Galley.Proofs.ReaderLogic

/-!
The sizes of boxes against the exact ones. What a box says of its size is exact, but its sums are
checked term by term: a width or a height is refused when a sum on the way to it is out of range,
even if later terms of the other sign bring it back. Where no term is negative, the last sum is the
greatest, and only what is really too large is refused.
-/

namespace Galley

/-! ## Exact sizes -/

/-- The size of an item in whole scaled points, however large. -/
inductive ExactSize
  | glue (natural : Int)
  | solid (width height depth : Int)
  deriving DecidableEq, Repr

/-- A dimension can hold the number. -/
def Dimension.Holds (n : Int) : Prop := -maxDimension ≤ n ∧ n ≤ maxDimension

instance (n : Int) : Decidable (Dimension.Holds n) :=
  inferInstanceAs (Decidable (_ ∧ _))

theorem Dimension.holds_sp (d : Dimension) : Dimension.Holds d.sp := ⟨d.lower, d.upper⟩

namespace ExactSize

def total : List Int → Int
  | [] => 0
  | n :: more => n + total more

/-- Zero for no numbers at all. -/
def greatest : List Int → Int
  | [] => 0
  | [n] => n
  | n :: more => if n < greatest more then greatest more else n

def advance : ExactSize → Int
  | glue natural => natural
  | solid width _ _ => width

def width : ExactSize → Int
  | glue _ => 0
  | solid width _ _ => width

def height : ExactSize → Int
  | glue _ => 0
  | solid _ height _ => height

def depth : ExactSize → Int
  | glue _ => 0
  | solid _ _ depth => depth

/-- The terms of the height of a vertical list. -/
def drops : ExactSize → List Int
  | glue natural => [natural]
  | solid _ height depth => [height, depth]

def lastDepth (sizes : List ExactSize) : Int := (sizes.getLast?.map depth).getD 0

def boxWidth (mode : Mode) (sizes : List ExactSize) : Int :=
  match mode with
  | .horizontal => total (sizes.map advance)
  | .vertical => greatest (sizes.map width)

def boxHeight (mode : Mode) (sizes : List ExactSize) : Int :=
  match mode with
  | .horizontal => greatest (sizes.map height)
  | .vertical => total (sizes.flatMap drops) - lastDepth sizes

def boxDepth (mode : Mode) (sizes : List ExactSize) : Int :=
  match mode with
  | .horizontal => greatest (sizes.map depth)
  | .vertical => lastDepth sizes

end ExactSize

mutual

/-- The exact size of an item, boxes in it included. -/
def Item.exact : Item → ExactSize
  | .char _ _ e => .solid e.width.sp e.height.sp e.depth.sp
  | .rule r => .solid r.extent.width.sp r.extent.height.sp r.extent.depth.sp
  | .glue g => .glue g.natural.sp
  | .box mode items =>
    .solid (ExactSize.boxWidth mode (exactAll items)) (ExactSize.boxHeight mode (exactAll items))
      (ExactSize.boxDepth mode (exactAll items))

def Item.exactAll : List Item → List ExactSize
  | [] => []
  | i :: more => i.exact :: exactAll more

end

/-! ## Sums term by term -/

/-- A sum of the first so many terms is out of range. -/
def Strained (terms : List Int) : Prop :=
  ∃ p, p <+: terms ∧ ¬ Dimension.Holds (ExactSize.total p)

namespace ExactSize

@[simp] theorem total_append (ns ms : List Int) : total (ns ++ ms) = total ns + total ms := by
  induction ns with
  | nil => simp [total]
  | cons n ns ih =>
    simp only [List.cons_append, total, ih]
    omega

theorem total_nonneg {ns : List Int} (h : ∀ n ∈ ns, 0 ≤ n) : 0 ≤ total ns := by
  induction ns with
  | nil => exact Int.le_refl 0
  | cons n ns ih =>
    obtain ⟨hn, hns⟩ := List.forall_mem_cons.mp h
    have := ih hns
    show 0 ≤ n + total ns
    omega

/-- Terms that are not negative have their greatest sum at the end. -/
theorem strained_iff_of_nonneg {ns : List Int} (h : ∀ n ∈ ns, 0 ≤ n) :
    Strained ns ↔ ¬ Dimension.Holds (total ns) := by
  constructor
  · rintro ⟨p, ⟨rest, rfl⟩, hp⟩ hall
    have hfirst := total_nonneg fun n hn => h n (List.mem_append_left rest hn)
    have hrest := total_nonneg fun n hn => h n (List.mem_append_right p hn)
    rw [total_append] at hall
    apply hp
    unfold Dimension.Holds maxDimension at *
    omega
  · intro hall
    exact ⟨ns, List.prefix_refl ns, hall⟩

/-- Where no term is negative, the last depth is a part of the sum. -/
theorem lastDepth_le_total {sizes : List ExactSize} (h : ∀ n ∈ sizes.flatMap drops, 0 ≤ n) :
    0 ≤ lastDepth sizes ∧ lastDepth sizes ≤ total (sizes.flatMap drops) := by
  rcases List.eq_nil_or_concat sizes with rfl | ⟨front, last, rfl⟩
  · exact ⟨Int.le_refl 0, Int.le_refl 0⟩
  · simp only [List.concat_eq_append, List.flatMap_append, List.flatMap_singleton] at h ⊢
    have hfront := total_nonneg fun n hn => h n (List.mem_append_left _ hn)
    have hlast : lastDepth (front ++ [last]) = depth last := by
      simp [lastDepth]
    rw [hlast, total_append]
    cases last with
    | glue natural =>
      have hn : 0 ≤ natural := h natural (by simp [drops])
      simp only [depth, drops, total]
      omega
    | solid width height depth =>
      have hh : 0 ≤ height := h height (by simp [drops])
      have hd : 0 ≤ depth := h depth (by simp [drops])
      simp only [ExactSize.depth, drops, total]
      omega

end ExactSize

namespace Size

open ExactSize

def exact : Size → ExactSize
  | .glue natural => .glue natural.sp
  | .solid e => .solid e.width.sp e.height.sp e.depth.sp

theorem sumFrom_exact {start : Dimension} {ds : List Dimension} {d : Dimension}
    (h : sumFrom start ds = some d) : d.sp = start.sp + total (ds.map (·.sp)) := by
  induction ds generalizing start with
  | nil =>
    rw [sumFrom, Option.some.injEq] at h
    simp [← h, total]
  | cons first ds ih =>
    simp only [sumFrom, Option.bind_eq_bind, Option.bind_eq_some_iff] at h
    obtain ⟨next, hnext, hmore⟩ := h
    have hsum := Dimension.ofSp?_eq_some_iff.mp hnext
    rw [ih hmore, hsum, List.map_cons, total]
    omega

/-- A sum is refused exactly if it leaves the range on the way. -/
theorem sumFrom_eq_none_iff (start : Dimension) (ds : List Dimension) :
    sumFrom start ds = none ↔
      ∃ p, p <+: ds.map (·.sp) ∧ ¬ Dimension.Holds (start.sp + total p) := by
  induction ds generalizing start with
  | nil =>
    constructor
    · intro h
      cases h
    · rintro ⟨p, hp, hout⟩
      rw [List.map_nil, List.prefix_nil] at hp
      subst hp
      exact absurd start.holds_sp (by simpa [total] using hout)
  | cons first ds ih =>
    rw [sumFrom, Option.bind_eq_bind, List.map_cons]
    cases hnext : start.add? first with
    | none =>
      have hout : ¬ Dimension.Holds (start.sp + first.sp) := by
        intro hin
        have := (Dimension.ofSp?_isSome_iff _).mpr hin
        rw [Dimension.add?] at hnext
        simp [hnext] at this
      constructor
      · intro _
        exact ⟨[first.sp], List.cons_prefix_cons.mpr ⟨rfl, List.nil_prefix⟩, by simpa [total]⟩
      · intro _
        rfl
    | some next =>
      have hsum : next.sp = start.sp + first.sp := Dimension.ofSp?_eq_some_iff.mp hnext
      rw [Option.bind_some, ih next]
      constructor
      · rintro ⟨p, hp, hout⟩
        refine ⟨first.sp :: p, List.cons_prefix_cons.mpr ⟨rfl, hp⟩, ?_⟩
        rwa [total, ← Int.add_assoc, ← hsum]
      · rintro ⟨p, hp, hout⟩
        cases p with
        | nil => exact absurd start.holds_sp (by simpa [total] using hout)
        | cons n p =>
          obtain ⟨rfl, hmore⟩ := List.cons_prefix_cons.mp hp
          refine ⟨p, hmore, ?_⟩
          rwa [hsum, Int.add_assoc]

theorem sumFrom_zero_eq_none_iff (ds : List Dimension) :
    sumFrom .zero ds = none ↔ Strained (ds.map (·.sp)) := by
  have h := sumFrom_eq_none_iff .zero ds
  simpa [Dimension.zero, Strained] using h

/-! ## The sizes of a box -/

theorem max_sp (a b : Dimension) : (a.max b).sp = if a.sp < b.sp then b.sp else a.sp := by
  unfold Dimension.max
  split <;> rfl

theorem greatest_merge (n m : Int) (ns : List Int) :
    ExactSize.greatest ((if n < m then m else n) :: ns) = ExactSize.greatest (n :: m :: ns) := by
  cases ns with
  | nil => rfl
  | cons k ns => grind [ExactSize.greatest]

theorem foldl_max_exact (d : Dimension) (ds : List Dimension) :
    (ds.foldl Dimension.max d).sp = ExactSize.greatest (d.sp :: ds.map (·.sp)) := by
  induction ds generalizing d with
  | nil => rfl
  | cons first ds ih =>
    rw [List.foldl_cons, ih, max_sp, greatest_merge, List.map_cons]

theorem greatest_exact (ds : List Dimension) :
    (greatest ds).sp = ExactSize.greatest (ds.map (·.sp)) := by
  cases ds with
  | nil => rfl
  | cons d ds => exact foldl_max_exact d ds

variable (sizes : List Size)

theorem advance_exact (size : Size) : size.advance.sp = size.exact.advance := by
  cases size <;> rfl

theorem width_exact (size : Size) : size.extent.width.sp = size.exact.width := by
  cases size <;> rfl

theorem height_exact (size : Size) : size.extent.height.sp = size.exact.height := by
  cases size <;> rfl

theorem extent_depth_exact (size : Size) : size.extent.depth.sp = size.exact.depth := by
  cases size <;> rfl

/-- What each size says exactly, the sizes say exactly. -/
theorem map_exact {f : Size → Dimension} {g : ExactSize → Int}
    (h : ∀ size, (f size).sp = g size.exact) :
    (sizes.map f).map (·.sp) = (sizes.map exact).map g := by
  rw [List.map_map, List.map_map]
  exact List.map_congr_left fun size _ => h size

theorem flatMap_drops_exact :
    (sizes.flatMap drops).map (·.sp) = (sizes.map exact).flatMap ExactSize.drops := by
  rw [List.map_flatMap, List.flatMap_map]
  congr 1
  funext size
  cases size <;> rfl

theorem lastDepth_exact : (lastDepth sizes).sp = ExactSize.lastDepth (sizes.map exact) := by
  unfold lastDepth ExactSize.lastDepth
  rw [List.getLast?_map, Option.map_map]
  cases sizes.getLast? with
  | none => rfl
  | some size => cases size <;> rfl

theorem depth_exact (mode : Mode) : (depth mode sizes).sp = boxDepth mode (sizes.map exact) := by
  cases mode with
  | horizontal => rw [depth, boxDepth, greatest_exact, map_exact _ extent_depth_exact]
  | vertical => exact lastDepth_exact sizes

variable {sizes}

theorem width?_exact {mode : Mode} {d : Dimension} (h : width? mode sizes = some d) :
    d.sp = boxWidth mode (sizes.map exact) := by
  cases mode with
  | horizontal =>
    rw [boxWidth, ← map_exact _ advance_exact, sumFrom_exact h]
    exact Int.zero_add _
  | vertical =>
    rw [width?, Option.some.injEq] at h
    rw [← h, boxWidth, greatest_exact, map_exact _ width_exact]

theorem height?_exact {mode : Mode} {d : Dimension} (h : height? mode sizes = some d) :
    d.sp = boxHeight mode (sizes.map exact) := by
  cases mode with
  | horizontal =>
    rw [height?, Option.some.injEq] at h
    rw [← h, boxHeight, greatest_exact, map_exact _ height_exact]
  | vertical =>
    simp only [height?, Option.bind_eq_bind, Option.bind_eq_some_iff] at h
    obtain ⟨sum, hsum, hsub⟩ := h
    rw [Dimension.ofSp?_eq_some_iff.mp hsub, boxHeight, sumFrom_exact hsum, flatMap_drops_exact,
      lastDepth_exact]
    simp [Dimension.zero]

variable (sizes)

theorem width?_eq_none_iff (mode : Mode) : width? mode sizes = none ↔
    mode = .horizontal ∧ Strained ((sizes.map exact).map ExactSize.advance) := by
  cases mode with
  | horizontal => simp only [width?, sumFrom_zero_eq_none_iff, map_exact _ advance_exact, true_and]
  | vertical => simp [width?]

theorem height?_eq_none_iff (mode : Mode) : height? mode sizes = none ↔
    mode = .vertical ∧ (Strained ((sizes.map exact).flatMap ExactSize.drops) ∨
      ¬ Dimension.Holds (boxHeight .vertical (sizes.map exact))) := by
  cases mode with
  | horizontal => simp [height?]
  | vertical =>
    rw [height?, Option.bind_eq_bind, ← flatMap_drops_exact, ← sumFrom_zero_eq_none_iff]
    cases hsum : sumFrom .zero (sizes.flatMap drops) with
    | none => simp
    | some sum =>
      have hheight : boxHeight .vertical (sizes.map exact) = sum.sp - (lastDepth sizes).sp := by
        rw [boxHeight, sumFrom_exact hsum, flatMap_drops_exact, lastDepth_exact]
        simp [Dimension.zero]
      have hsome := Dimension.ofSp?_isSome_iff (sum.sp - (lastDepth sizes).sp)
      rw [Option.bind_some, Dimension.sub?, hheight, Dimension.Holds, ← hsome]
      simp

end Size

namespace Item

open ExactSize

mutual

/-- A size that is in range all the way is exact. -/
theorem exact_of_size? : {i : Item} → {size : Size} → i.size? = some size → i.exact = size.exact
  | .char _ _ e, size, h => by
    rw [size?, Option.some.injEq] at h
    subst h
    rfl
  | .rule r, size, h => by
    rw [size?, Option.some.injEq] at h
    subst h
    rfl
  | .glue g, size, h => by
    rw [size?, Option.some.injEq] at h
    subst h
    rfl
  | .box mode items, size, h => by
    simp only [size?, Size.extent?, Option.bind_eq_bind, Option.bind_eq_some_iff,
      Option.pure_def, Option.some.injEq] at h
    obtain ⟨sizes, hsizes, extent, ⟨w, hw, t, ht, rfl⟩, rfl⟩ := h
    rw [exact, exactAll_of_sizes? hsizes, Size.exact, Size.width?_exact hw, Size.height?_exact ht,
      Size.depth_exact]

theorem exactAll_of_sizes? : {items : List Item} → {sizes : List Size} →
    sizes? items = some sizes → exactAll items = sizes.map Size.exact
  | [], sizes, h => by
    rw [sizes?, Option.some.injEq] at h
    subst h
    rfl
  | i :: more, sizes, h => by
    simp only [sizes?, Option.bind_eq_bind, Option.bind_eq_some_iff, Option.pure_def,
      Option.some.injEq] at h
    obtain ⟨size, hsize, rest, hrest, rfl⟩ := h
    rw [exactAll, exact_of_size? hsize, exactAll_of_sizes? hrest, List.map_cons]

end

variable {items : List Item}

theorem width?_exact (h : (sizes? items).isSome) {mode : Mode} {d : Dimension}
    (hd : width? mode items = some d) : d.sp = boxWidth mode (exactAll items) := by
  obtain ⟨sizes, hs⟩ := Option.isSome_iff_exists.mp h
  rw [width?, hs] at hd
  rw [exactAll_of_sizes? hs, Size.width?_exact hd]

theorem height?_exact (h : (sizes? items).isSome) {mode : Mode} {d : Dimension}
    (hd : height? mode items = some d) : d.sp = boxHeight mode (exactAll items) := by
  obtain ⟨sizes, hs⟩ := Option.isSome_iff_exists.mp h
  rw [height?, hs] at hd
  rw [exactAll_of_sizes? hs, Size.height?_exact hd]

theorem sizes?_cons {i : Item} {sizes : List Size} (h : sizes? (i :: items) = some sizes) :
    ∃ size more, i.size? = some size ∧ sizes? items = some more ∧ sizes = size :: more := by
  simp only [sizes?, Option.bind_eq_bind, Option.bind_eq_some_iff, Option.pure_def,
    Option.some.injEq] at h
  obtain ⟨size, hsize, more, hmore, rfl⟩ := h
  exact ⟨size, more, hsize, hmore, rfl⟩

theorem sizes?_concat {i : Item} {sizes : List Size} (h : sizes? (items ++ [i]) = some sizes) :
    ∃ front size, i.size? = some size ∧ sizes = front ++ [size] := by
  induction items generalizing sizes with
  | nil =>
    obtain ⟨size, more, hsize, hmore, rfl⟩ := sizes?_cons h
    rw [sizes?, Option.some.injEq] at hmore
    exact ⟨[], size, hsize, by rw [← hmore, List.nil_append]⟩
  | cons first items ih =>
    obtain ⟨size, more, -, hmore, rfl⟩ := sizes?_cons h
    obtain ⟨front, last, hlast, rfl⟩ := ih hmore
    exact ⟨size :: front, last, hlast, rfl⟩

/-- The depth is never refused. -/
theorem depth?_eq {sizes : List Size} (h : sizes? items = some sizes) (mode : Mode) :
    depth? mode items = some (Size.depth mode sizes) := by
  cases mode with
  | horizontal => simp [depth?, h]
  | vertical =>
    rcases List.eq_nil_or_concat items with rfl | ⟨front, i, rfl⟩
    · rw [sizes?, Option.some.injEq] at h
      subst h
      rfl
    · rw [List.concat_eq_append] at h ⊢
      obtain ⟨before, size, hsize, rfl⟩ := sizes?_concat h
      simp [depth?, hsize, Size.depth, Size.lastDepth]

theorem depth?_exact (h : (sizes? items).isSome) (mode : Mode) :
    ∃ d, depth? mode items = some d ∧ d.sp = boxDepth mode (exactAll items) := by
  obtain ⟨sizes, hs⟩ := Option.isSome_iff_exists.mp h
  exact ⟨Size.depth mode sizes, depth?_eq hs mode, by
    rw [exactAll_of_sizes? hs, Size.depth_exact]⟩

theorem width?_eq_none_iff (h : (sizes? items).isSome) (mode : Mode) :
    width? mode items = none ↔
      mode = .horizontal ∧ Strained ((exactAll items).map advance) := by
  obtain ⟨sizes, hs⟩ := Option.isSome_iff_exists.mp h
  rw [width?, hs, exactAll_of_sizes? hs, Option.bind_eq_bind, Option.bind_some,
    Size.width?_eq_none_iff]

theorem height?_eq_none_iff (h : (sizes? items).isSome) (mode : Mode) :
    height? mode items = none ↔ mode = .vertical ∧ (Strained ((exactAll items).flatMap drops) ∨
      ¬ Dimension.Holds (boxHeight .vertical (exactAll items))) := by
  obtain ⟨sizes, hs⟩ := Option.isSome_iff_exists.mp h
  rw [height?, hs, exactAll_of_sizes? hs, Option.bind_eq_bind, Option.bind_some,
    Size.height?_eq_none_iff]

/-- A width that only grows on the way is refused only if it is too large. -/
theorem width?_eq_none_iff_of_nonneg (h : (sizes? items).isSome)
    (hn : ∀ n ∈ (exactAll items).map advance, 0 ≤ n) :
    width? .horizontal items = none ↔
      ¬ Dimension.Holds (boxWidth .horizontal (exactAll items)) := by
  rw [width?_eq_none_iff h, strained_iff_of_nonneg hn]
  exact and_iff_right rfl

/-- A height that only grows on the way is refused only if it is too large with the depth. -/
theorem height?_eq_none_iff_of_nonneg (h : (sizes? items).isSome)
    (hn : ∀ n ∈ (exactAll items).flatMap drops, 0 ≤ n) :
    height? .vertical items = none ↔ ¬ Dimension.Holds
      (boxHeight .vertical (exactAll items) + boxDepth .vertical (exactAll items)) := by
  have hsum : boxHeight .vertical (exactAll items) + boxDepth .vertical (exactAll items) =
      total ((exactAll items).flatMap drops) := by
    rw [boxHeight, boxDepth]
    omega
  rw [height?_eq_none_iff h, strained_iff_of_nonneg hn, hsum]
  constructor
  · rintro ⟨-, hout | hout⟩
    · exact hout
    · intro hin
      obtain ⟨hdepth, hle⟩ := lastDepth_le_total hn
      apply hout
      unfold boxHeight Dimension.Holds maxDimension at *
      dsimp only
      omega
  · intro hout
    exact ⟨rfl, Or.inl hout⟩

/-- A box is made if it has a width and a height. -/
theorem package_eq (h : (sizes? items).isSome) (mode : Mode) :
    Build.package mode items =
      if width? mode items = none ∨ height? mode items = none then Build.fault .boxTooLarge
      else pure (.box mode items) := by
  obtain ⟨sizes, hs⟩ := Option.isSome_iff_exists.mp h
  unfold Build.package extent? width? height? Size.extent?
  simp only [hs, Option.bind_eq_bind, Option.bind_some]
  cases Size.width? mode sizes with
  | none => rfl
  | some w =>
    cases Size.height? mode sizes with
    | none => rfl
    | some t => rfl

/-- What a box says of its size is exact. Its depth is never refused, its width only in a horizontal
list and its height only in a vertical one: exactly if a sum of the first so many terms is out of
range, or for a height if it is out of range itself. Where no term is negative, that is when the sum
of them all is. A box is refused if one of its sizes is. -/
theorem box_sizes_exact (mode : Mode) (h : (sizes? items).isSome) :
    (∀ d, width? mode items = some d → d.sp = boxWidth mode (exactAll items)) ∧
    (∀ d, height? mode items = some d → d.sp = boxHeight mode (exactAll items)) ∧
    (∃ d, depth? mode items = some d ∧ d.sp = boxDepth mode (exactAll items)) ∧
    (width? mode items = none ↔
      mode = .horizontal ∧ Strained ((exactAll items).map advance)) ∧
    (height? mode items = none ↔ mode = .vertical ∧
      (Strained ((exactAll items).flatMap drops) ∨
        ¬ Dimension.Holds (boxHeight .vertical (exactAll items)))) ∧
    ((∀ n ∈ (exactAll items).map advance, 0 ≤ n) →
      (width? .horizontal items = none ↔
        ¬ Dimension.Holds (boxWidth .horizontal (exactAll items)))) ∧
    ((∀ n ∈ (exactAll items).flatMap drops, 0 ≤ n) →
      (height? .vertical items = none ↔ ¬ Dimension.Holds
        (boxHeight .vertical (exactAll items) + boxDepth .vertical (exactAll items)))) ∧
    Build.package mode items =
      (if width? mode items = none ∨ height? mode items = none then Build.fault .boxTooLarge
        else pure (.box mode items)) := by
  refine ⟨fun d hd => width?_exact h hd, fun d hd => height?_exact h hd, depth?_exact h mode,
    width?_eq_none_iff h mode, height?_eq_none_iff h mode, width?_eq_none_iff_of_nonneg h,
    height?_eq_none_iff_of_nonneg h, ?_⟩
  exact package_eq h mode

/-- Glue of so many points, forth, forth again and back. -/
def skips (points : Rat) : List Item :=
  let forth := Dimension.ofPoints points
  [.glue { natural := forth }, .glue { natural := forth }, .glue { natural := forth.neg }]

theorem box_sizes_exact_skips :
    (sizes? (skips 8000)).isSome ∧
      (∀ d, width? .horizontal (skips 8000) = some d →
        d.sp = boxWidth .horizontal (exactAll (skips 8000))) ∧
      (width? .horizontal (skips 8000) = none ↔
        Strained ((exactAll (skips 8000)).map advance)) := by
  have hsizes : (sizes? (skips 8000)).isSome := by decide +kernel
  obtain ⟨hwidth, -, -, hnone, -⟩ := box_sizes_exact .horizontal hsizes
  exact ⟨hsizes, hwidth, hnone.trans (and_iff_right rfl)⟩

/-- Three skips that come to less than the largest dimension are too large for a box, in this
order; a run over them fails. -/
theorem skips_refused :
    (sizes? (skips 16383)).isSome ∧
      Dimension.Holds (boxWidth .horizontal (exactAll (skips 16383))) ∧
      Dimension.Holds (boxHeight .horizontal (exactAll (skips 16383))) ∧
      Dimension.Holds (boxDepth .horizontal (exactAll (skips 16383))) ∧
      width? .horizontal (skips 16383) = none ∧
      (width? .horizontal (skips 16383).reverse).isSome ∧
      ((Engine.start {} (Engine.usualMetrics {}) {}
        ["\\hbox\x7b\\hskip16383pt\\hskip16383pt\\hskip-16383pt\x7d"]).run 90 .vertical).FailedBy
          (·.cause = .build .boxTooLarge) := by
  decide +kernel

end Item

end Galley
