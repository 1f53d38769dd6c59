import Galley.Quantity

/-!
Decimal numbers as text. A number in plain digits, with a point or a comma among them or none, has
one value, which all three readers of numbers find: that of running text, that of a written
dimension and that of rational numbers.
-/

namespace Galley

namespace Number

/-- The values of digits. -/
def digitsOf (s : List Char) : List Nat := s.filterMap Text.digitValue?

/-- A text that goes on with no digit. -/
def EndsDigits (s : List Char) : Prop := ∀ c ∈ s.head?, Text.digitValue? c = none

theorem takeDigits_digits {w r : List Char} (hw : ∀ c ∈ w, (Text.digitValue? c).isSome)
    (hr : EndsDigits r) : takeDigits (w ++ r) = (digitsOf w, r) := by
  induction w with
  | nil =>
    cases r with
    | nil => rfl
    | cons c r => simp [takeDigits, digitsOf, hr c rfl]
  | cons c w ih =>
    have hrest := ih fun d hd => hw d (List.mem_cons_of_mem c hd)
    obtain ⟨d, hd⟩ := Option.isSome_iff_exists.mp (hw c List.mem_cons_self)
    simp [takeDigits, digitsOf, hd, hrest]

theorem moreDigits_digits {w r : List Char} (hw : ∀ c ∈ w, (Text.digitValue? c).isSome)
    (hr : EndsDigits r) (hu : '_' ∉ r.head?) : moreDigits (w ++ r) = (digitsOf w, r) := by
  induction w with
  | nil =>
    cases r with
    | nil => rfl
    | cons c r =>
      have hc : c ≠ '_' := fun h => hu (by simp [h])
      rw [List.nil_append, moreDigits.eq_3 c r (fun _ _ h _ => hc h)]
      simp [digitsOf, hr c rfl]
  | cons c w ih =>
    have hrest := ih fun d hd => hw d (List.mem_cons_of_mem c hd)
    obtain ⟨d, hd⟩ := Option.isSome_iff_exists.mp (hw c List.mem_cons_self)
    have hc : c ≠ '_' := by
      rintro rfl
      have hnone : Text.digitValue? '_' = none := by decide
      rw [hnone] at hd
      cases hd
    rw [List.cons_append, moreDigits.eq_3 c (w ++ r) (fun _ _ h _ => hc h)]
    simp [digitsOf, hd, hrest]

theorem groupedDigits_digits {w r : List Char} (hw : ∀ c ∈ w, (Text.digitValue? c).isSome)
    (hr : EndsDigits r) (hu : '_' ∉ r.head?) : groupedDigits (w ++ r) = (digitsOf w, r) := by
  cases w with
  | nil =>
    cases r with
    | nil => rfl
    | cons c r => simp [groupedDigits, digitsOf, hr c rfl]
  | cons c w =>
    have hrest := moreDigits_digits (fun d hd => hw d (List.mem_cons_of_mem c hd)) hr hu
    obtain ⟨d, hd⟩ := Option.isSome_iff_exists.mp (hw c List.mem_cons_self)
    simp [groupedDigits, digitsOf, hd, hrest]

theorem digitsOf_length {w : List Char} (hw : ∀ c ∈ w, (Text.digitValue? c).isSome) :
    (digitsOf w).length = w.length := by
  induction w with
  | nil => rfl
  | cons c w ih =>
    have hrest := ih fun d hd => hw d (List.mem_cons_of_mem c hd)
    obtain ⟨d, hd⟩ := Option.isSome_iff_exists.mp (hw c List.mem_cons_self)
    unfold digitsOf at hrest ⊢
    simp [hd, hrest]

theorem endsDigits_nil : EndsDigits [] := nofun

theorem endsDigits_point (s : List Char) : EndsDigits ('.' :: s) := by
  intro c hc
  cases hc
  decide

end Number

namespace Text

theorem digitValue?_plain {c : Char} (h : 48 ≤ c.toNat ∧ c.toNat ≤ 57) :
    digitValue? c = some (c.toNat - 48) := by
  have hc : 48 ≤ c.toNat ∧ c.toNat < 48 + 10 := by omega
  rw [digitValue?, zeros, digitFrom, if_pos hc]

theorem isDigit_plain {c : Char} (h : 48 ≤ c.toNat ∧ c.toNat ≤ 57) : isDigit c = true := by
  simp [isDigit, digitValue?_plain h]

end Text

/-- A decimal number as text: plain digits, with a point or a comma among them or none. -/
structure Numeral where
  whole : List Char
  point : List Char
  fraction : List Char
  digits : ∀ c ∈ whole ++ fraction, 48 ≤ c.toNat ∧ c.toNat ≤ 57
  pointed : point = [] ∧ fraction = [] ∨ point = ['.'] ∨ point = [',']
  nonempty : whole ++ fraction ≠ []

namespace Numeral

variable (n : Numeral)

def text : List Char := n.whole ++ (n.point ++ n.fraction)

/-- The text with a point, whichever character stands for it. -/
def plain : List Char :=
  n.whole ++ (if n.point = [] then [] else '.' :: n.fraction)

def value : Rat := Number.decimal (Number.digitsOf n.whole) (Number.digitsOf n.fraction)

theorem whole_digits : ∀ c ∈ n.whole, (Text.digitValue? c).isSome := fun c hc => by
  simp [Text.digitValue?_plain (n.digits c (List.mem_append_left _ hc))]

theorem fraction_digits : ∀ c ∈ n.fraction, (Text.digitValue? c).isSome := fun c hc => by
  simp [Text.digitValue?_plain (n.digits c (List.mem_append_right _ hc))]

theorem digits_nonempty :
    (Number.digitsOf n.whole).isEmpty = false ∨ (Number.digitsOf n.fraction).isEmpty = false := by
  have hlength := List.length_pos_iff.mpr n.nonempty
  rw [List.length_append, ← Number.digitsOf_length n.whole_digits,
    ← Number.digitsOf_length n.fraction_digits] at hlength
  rcases Nat.eq_zero_or_pos (Number.digitsOf n.whole).length with h | h
  · right
    rw [List.isEmpty_eq_false_iff, ← List.length_pos_iff]
    omega
  · left
    rw [List.isEmpty_eq_false_iff, ← List.length_pos_iff]
    exact h

/-- Without a point there is nothing behind it. -/
theorem fraction_eq_nil (h : n.point = []) : n.fraction = [] := by
  rcases n.pointed with hp | hp | hp
  · exact hp.2
  · rw [h] at hp
    cases hp
  · rw [h] at hp
    cases hp

theorem map_digits {w : List Char} (hw : ∀ c ∈ w, (Text.digitValue? c).isSome) :
    w.map (fun c => if c = ',' then '.' else c) = w := by
  have hid : w.map (fun c => if c = ',' then '.' else c) = w.map id := by
    apply List.map_congr_left
    intro c hc
    apply if_neg
    rintro rfl
    have hnone : Text.digitValue? ',' = none := by decide
    have hsome := hw ',' hc
    rw [hnone] at hsome
    cases hsome
  rw [hid, List.map_id]

/-- A comma counts as a point. -/
theorem map_comma : n.text.map (fun c => if c = ',' then '.' else c) = n.plain := by
  rw [text, plain, List.map_append, List.map_append, map_digits n.whole_digits,
    map_digits n.fraction_digits]
  rcases n.pointed with ⟨hp, hf⟩ | hp | hp
  · simp [hp, hf]
  · simp [hp]
  · simp [hp]

theorem text_ne_nil : n.text ≠ [] := by
  intro h
  rw [text, List.append_eq_nil_iff, List.append_eq_nil_iff] at h
  exact n.nonempty (by rw [h.1, h.2.2]; rfl)

theorem not_mem_digits {w : List Char} (hw : ∀ c ∈ w, c ∈ n.whole ++ n.fraction) : '.' ∉ w := by
  intro h
  exact absurd (n.digits '.' (hw '.' h)) (by decide)

theorem count_plain : n.plain.count '.' ≤ 1 := by
  have hwhole : n.whole.count '.' = 0 :=
    List.count_eq_zero.mpr (n.not_mem_digits fun _ hc => List.mem_append_left _ hc)
  have hfraction : n.fraction.count '.' = 0 :=
    List.count_eq_zero.mpr (n.not_mem_digits fun _ hc => List.mem_append_right _ hc)
  rw [plain, List.count_append, hwhole]
  split
  · simp
  · simp [hfraction]

theorem any_digit : n.text.any Text.isDigit = true := by
  obtain ⟨c, hc⟩ := List.exists_mem_of_ne_nil _ n.nonempty
  refine List.any_eq_true.mpr ⟨c, ?_, Text.isDigit_plain (n.digits c hc)⟩
  rw [text, List.mem_append, List.mem_append]
  rcases List.mem_append.mp hc with hc | hc
  · exact Or.inl hc
  · exact Or.inr (Or.inr hc)

/-- One of the characters is a digit. -/
theorem exists_digit : ∃ c ∈ n.plain, c ≠ '.' := by
  obtain ⟨c, hc⟩ := List.exists_mem_of_ne_nil _ n.nonempty
  refine ⟨c, ?_, fun h => n.not_mem_digits (fun _ h => h) (h ▸ hc)⟩
  rw [plain, List.mem_append]
  rcases List.mem_append.mp hc with hc | hc
  · exact Or.inl hc
  · refine Or.inr ?_
    split
    · rename_i hp
      rw [n.fraction_eq_nil hp] at hc
      cases hc
    · exact List.mem_cons_of_mem _ hc

/-! ## Reading -/

theorem readDecimal?_plain : Number.readDecimal? n.plain = some n.value := by
  have hsome := n.digits_nonempty
  unfold Number.readDecimal? plain
  by_cases hp : n.point = []
  · have hf := n.fraction_eq_nil hp
    have hw := Number.takeDigits_digits n.whole_digits Number.endsDigits_nil
    rw [hf] at hsome
    simp only [Number.digitsOf, List.filterMap_nil, List.isEmpty_nil, Bool.true_eq_false,
      or_false] at hsome
    rw [if_pos hp, hw]
    simp [value, hf, Number.digitsOf, hsome]
  · have hw := Number.takeDigits_digits n.whole_digits (Number.endsDigits_point n.fraction)
    have hf := Number.takeDigits_digits n.fraction_digits Number.endsDigits_nil
    rw [List.append_nil] at hf
    rw [if_neg hp, hw]
    simp only [hf]
    rcases hsome with h | h
    · simp [h, value]
    · simp [h, value]

theorem readScaled_plain {r : List Char} (hr : r = if n.point = [] then [] else '.' :: n.fraction) :
    Number.readScaled (Number.digitsOf n.whole) r = .ok n.value := by
  have hsome := n.digits_nonempty
  have hscale (q : Rat) : Number.scaleBy q 0 = q := by
    change q * mkRat 1 1 = q
    rw [show mkRat 1 1 = 1 by decide, Rat.mul_one]
  unfold Number.readScaled
  by_cases hp : n.point = []
  · have hf := n.fraction_eq_nil hp
    rw [hf] at hsome
    simp only [Number.digitsOf, List.filterMap_nil, List.isEmpty_nil, Bool.true_eq_false,
      or_false] at hsome
    rw [hr, if_pos hp]
    simp [Number.readExponent?, value, hf, Number.digitsOf, hsome, hscale]
  · have hf := Number.groupedDigits_digits n.fraction_digits Number.endsDigits_nil (by simp)
    rw [List.append_nil] at hf
    rw [hr, if_neg hp]
    simp only [hf]
    rcases hsome with h | h
    · simp [h, Number.readExponent?, value, hscale]
    · simp [h, Number.readExponent?, value, hscale]

theorem fractionLetters?_fraction : Number.fractionLetters? n.fraction = none := by
  have hnone : n.fraction.takeWhile Number.isFractionLetter = [] := by
    cases hf : n.fraction with
    | nil => rfl
    | cons c f =>
      have hc := n.digits c (by simp [hf])
      apply List.takeWhile_cons_of_neg
      simp only [Number.isFractionLetter, Bool.or_eq_true, decide_eq_true_eq]
      rintro (rfl | rfl)
      · exact absurd hc (by decide)
      · exact absurd hc (by decide)
  rw [Number.fractionLetters?, hnone]

theorem readUnsigned_plain : Number.readUnsigned n.plain = .ok n.value := by
  unfold Number.readUnsigned plain
  by_cases hp : n.point = []
  · have hw := Number.groupedDigits_digits n.whole_digits Number.endsDigits_nil (by simp)
    rw [if_pos hp, hw]
    have hread := n.readScaled_plain (r := []) (by rw [if_pos hp])
    cases hd : Number.digitsOf n.whole with
    | nil =>
      rw [hd] at hread
      exact hread
    | cons d ds =>
      rw [hd] at hread
      exact hread
  · have hw := Number.groupedDigits_digits n.whole_digits (Number.endsDigits_point n.fraction)
      (by simp)
    have hread := n.readScaled_plain (r := '.' :: n.fraction) (by rw [if_neg hp])
    rw [if_neg hp, hw]
    cases hd : Number.digitsOf n.whole with
    | nil =>
      rw [hd] at hread
      exact hread
    | cons d ds =>
      have hletters := n.fractionLetters?_fraction
      rw [hd] at hread
      simp only [hletters]
      exact hread

theorem mem_text {c : Char} (h : c ∈ n.text) :
    48 ≤ c.toNat ∧ c.toNat ≤ 57 ∨ c = '.' ∨ c = ',' := by
  rw [text, List.mem_append, List.mem_append] at h
  rcases h with h | h | h
  · exact Or.inl (n.digits c (List.mem_append_left _ h))
  · rcases n.pointed with hp | hp | hp
    · rw [hp.1] at h
      cases h
    · rw [hp, List.mem_singleton] at h
      exact Or.inr (Or.inl h)
    · rw [hp, List.mem_singleton] at h
      exact Or.inr (Or.inr h)
  · exact Or.inl (n.digits c (List.mem_append_right _ h))

theorem mem_plain {c : Char} (h : c ∈ n.plain) : 48 ≤ c.toNat ∧ c.toNat ≤ 57 ∨ c = '.' := by
  rw [← n.map_comma] at h
  obtain ⟨d, hd, rfl⟩ := List.mem_map.mp h
  split
  · exact Or.inr rfl
  · rcases n.mem_text hd with hd | hd | hd
    · exact Or.inl hd
    · exact Or.inr hd
    · contradiction

theorem not_isBlank {c : Char} (h : 48 ≤ c.toNat ∧ c.toNat ≤ 57 ∨ c = '.' ∨ c = ',') :
    Text.isBlank c = false := by
  have hdigit : ∀ m, m < 58 → 48 ≤ m → Text.inRanges Text.blanks m = false := by decide
  rcases h with h | rfl | rfl
  · exact hdigit c.toNat (by omega) h.1
  · decide
  · decide

theorem trimBlank_plain : Text.trimBlank n.plain = n.plain := by
  have hdrop {s : List Char} (hs : ∀ c ∈ s, Text.isBlank c = false) :
      s.dropWhile Text.isBlank = s := by
    cases s with
    | nil => rfl
    | cons c s => simp [hs c List.mem_cons_self]
  have hplain : ∀ c ∈ n.plain, Text.isBlank c = false := fun c hc =>
    not_isBlank ((n.mem_plain hc).imp_right Or.inl)
  rw [Text.trimBlank, hdrop hplain, hdrop, List.reverse_reverse]
  exact fun c hc => hplain c (List.mem_reverse.mp hc)

theorem plain_ne_nil : n.plain ≠ [] := by
  intro h
  rw [plain, List.append_eq_nil_iff] at h
  obtain ⟨hw, h⟩ := h
  split at h
  · rename_i hp
    exact n.nonempty (by rw [hw, n.fraction_eq_nil hp]; rfl)
  · cases h

theorem takeSign_plain : Number.takeSign n.plain = (false, n.plain) := by
  cases h : n.plain with
  | nil => rfl
  | cons c s =>
    have hc := n.mem_plain (c := c) (by simp [h])
    unfold Number.takeSign
    split
    · rename_i heq
      cases heq
      exact absurd hc (by decide)
    · rename_i heq
      cases heq
      exact absurd hc (by decide)
    · rfl

theorem readNumber_text : Dimension.readNumber (String.ofList n.text) = .ok n.value := by
  have hne : (String.ofList n.plain).isEmpty = false := by
    rw [String.isEmpty_eq_false_iff]
    exact fun h => n.plain_ne_nil (String.ofList_eq_empty_iff.mp h)
  unfold Dimension.readNumber
  simp only [String.toList_ofList, n.map_comma, hne]
  simp only [Bool.false_eq_true, if_false, Number.readRational, String.toList_ofList,
    n.trimBlank_plain, n.takeSign_plain, n.readUnsigned_plain]
  rfl

/-! ## Taking numbers from a text -/

/-- A text that goes on with neither a digit nor a point. -/
def Ends (r : List Char) : Prop :=
  ∀ c ∈ r.head?, Text.isDigit c = false ∧ Dimension.isPoint c = false

/-- The digits that a text begins with. -/
theorem splitDigits {w r : List Char} (hw : ∀ c ∈ w, (Text.digitValue? c).isSome)
    (hr : ∀ c ∈ r.head?, Text.isDigit c = false) :
    (w ++ r).takeWhile Text.isDigit = w ∧ (w ++ r).dropWhile Text.isDigit = r := by
  have hw' : ∀ c ∈ w, Text.isDigit c = true := hw
  rw [List.takeWhile_append_of_pos hw', List.dropWhile_append_of_pos hw']
  cases r with
  | nil => simp
  | cons c r => simp [hr c rfl]

theorem point_not_digit {c : Char} (h : Dimension.isPoint c = true) : Text.isDigit c = false := by
  simp only [Dimension.isPoint, Bool.or_eq_true, decide_eq_true_eq] at h
  rcases h with rfl | rfl
  · decide
  · decide

theorem isPoint_of_mem {c : Char} (h : c ∈ n.point) : Dimension.isPoint c = true := by
  rcases n.pointed with hp | hp | hp
  · rw [hp.1] at h
    cases h
  · rw [hp, List.mem_singleton] at h
    rw [h]
    rfl
  · rw [hp, List.mem_singleton] at h
    rw [h]
    rfl

theorem takeNumber_text {r : List Char} (hr : Ends r) :
    Dimension.takeNumber (n.text ++ r) = (n.text, r) := by
  have hsplit : n.text ++ r = n.whole ++ (n.point ++ (n.fraction ++ r)) := by simp [text]
  unfold Dimension.takeNumber
  rw [hsplit]
  cases hp : n.point with
  | nil =>
    have hf := n.fraction_eq_nil hp
    have hw := splitDigits n.whole_digits fun c hc => (hr c hc).1
    rw [hf, List.nil_append, List.nil_append, hw.1, hw.2]
    cases r with
    | nil => simp [text, hp, hf]
    | cons c r => simp [(hr c rfl).2, text, hp, hf]
  | cons c point =>
    have hc : Dimension.isPoint c = true := n.isPoint_of_mem (by simp [hp])
    have hpoint : point = [] := by
      rcases n.pointed with h | h | h <;> simp_all
    subst hpoint
    have hw := splitDigits n.whole_digits (r := c :: (n.fraction ++ r))
      fun d hd => by cases hd; exact point_not_digit hc
    have hf := splitDigits n.fraction_digits fun c hc => (hr c hc).1
    rw [List.singleton_append, hw.1, hw.2]
    simp only [hc, if_true, hf.1, hf.2]
    simp [text, hp]

/-- Digits are a numeral without a point. -/
theorem exists_of_digits {w : List Char} (hw : ∀ c ∈ w, 48 ≤ c.toNat ∧ c.toNat ≤ 57)
    (hne : w ≠ []) : ∃ n : Numeral, n.text = w :=
  ⟨⟨w, [], [], by simpa using hw, Or.inl ⟨rfl, rfl⟩, by simpa using hne⟩, by simp [text]⟩

/-- A number that has been taken from a text is a numeral, if its digits are plain ones. -/
theorem exists_of_takeNumber {s : List Char}
    (hplain : ∀ c ∈ (Dimension.takeNumber s).1, Text.isDigit c = true →
      48 ≤ c.toNat ∧ c.toNat ≤ 57)
    (hany : (Dimension.takeNumber s).1.any Text.isDigit = true) :
    ∃ n : Numeral, n.text = (Dimension.takeNumber s).1 := by
  have htake {w : List Char} (c : Char) (hc : c ∈ w.takeWhile Text.isDigit) :
      Text.isDigit c = true := List.all_eq_true.mp List.all_takeWhile c hc
  obtain ⟨d, hd, hdigit⟩ := List.any_eq_true.mp hany
  unfold Dimension.takeNumber at hplain hd ⊢
  dsimp only at hplain hd ⊢
  cases hrest : s.dropWhile Text.isDigit with
  | nil =>
    simp only [hrest] at hplain hd ⊢
    exact exists_of_digits (fun c hc => hplain c hc (htake c hc)) (List.ne_nil_of_mem hd)
  | cons c more =>
    simp only [hrest] at hplain hd ⊢
    split at hd
    · rename_i hc
      simp only [hc, if_true] at hplain ⊢
      refine ⟨⟨s.takeWhile Text.isDigit, [c], more.takeWhile Text.isDigit, fun e he => ?_, ?_, ?_⟩,
        ?_⟩
      · rcases List.mem_append.mp he with he | he
        · exact hplain e (List.mem_append_left _ he) (htake e he)
        · exact hplain e (List.mem_append_right _ (List.mem_cons_of_mem c he)) (htake e he)
      · simp only [Dimension.isPoint, Bool.or_eq_true, decide_eq_true_eq] at hc
        rcases hc with rfl | rfl
        · exact Or.inr (Or.inl rfl)
        · exact Or.inr (Or.inr rfl)
      · -- the digit that is there is not the point itself
        rcases List.mem_append.mp hd with hd | hd
        · exact List.append_ne_nil_of_left_ne_nil (List.ne_nil_of_mem hd) _
        · rcases List.mem_cons.mp hd with rfl | hd
          · rw [point_not_digit hc] at hdigit
            cases hdigit
          · exact List.append_ne_nil_of_right_ne_nil _ (List.ne_nil_of_mem hd)
      · simp [text]
    · rename_i hc
      simp only [hc, Bool.false_eq_true, if_false] at hplain ⊢
      exact exists_of_digits (fun c hc => hplain c hc (htake c hc)) (List.ne_nil_of_mem hd)

end Numeral

theorem Dimension.takeNumber_append (s : List Char) : (takeNumber s).1 ++ (takeNumber s).2 = s := by
  have hs : s.takeWhile Text.isDigit ++ s.dropWhile Text.isDigit = s :=
    List.takeWhile_append_dropWhile
  unfold takeNumber
  dsimp only
  cases hrest : s.dropWhile Text.isDigit with
  | nil =>
    rw [hrest] at hs
    exact hs
  | cons c more =>
    rw [hrest] at hs
    simp only
    split
    · rw [List.append_assoc, List.cons_append, List.takeWhile_append_dropWhile]
      exact hs
    · exact hs

/-- The number of a written dimension, without its sign. -/
def Dimension.Written.value (w : Written) : Rat :=
  Number.decimal (Number.digitsOf (w.number.takeWhile Text.isDigit))
    (Number.digitsOf ((w.number.dropWhile Text.isDigit).drop 1))

theorem Numeral.value_eq {n : Numeral} {w : Dimension.Written} (h : n.text = w.number) :
    w.value = n.value := by
  have hpoint : ∀ c ∈ (n.point ++ n.fraction).head?, Text.isDigit c = false := by
    intro c hc
    cases hp : n.point with
    | nil => simp [hp, n.fraction_eq_nil hp] at hc
    | cons d point =>
      rw [hp] at hc
      cases hc
      exact point_not_digit (n.isPoint_of_mem (by simp [hp]))
  obtain ⟨hw, hr⟩ := splitDigits n.whole_digits hpoint
  have hf : (n.point ++ n.fraction).drop 1 = n.fraction := by
    rcases n.pointed with hp | hp | hp
    · simp [hp.1, hp.2]
    · simp [hp]
    · simp [hp]
  rw [Dimension.Written.value, ← h, text, hw, hr, hf, value]

end Galley
