import Galley.Glue
import Galley.Proofs.Lengths
import Mathlib.Tactic.FieldSimp

/-!
Sizes as text. A dimension is written in points with five places at most, which is near enough to
its scaled points for both readers to find them again; and glue is read off its own text, whatever
its parts are, as long as parts that are left out are finite.
-/

namespace Galley

namespace Number

/-- The value of plain digits. -/
theorem ofDigits_digitsOf {w : List Char} (hw : ∀ c ∈ w, 48 ≤ c.toNat ∧ c.toNat ≤ 57) :
    ofDigits (digitsOf w) = Nat.ofDigitChars 10 w 0 := by
  have hfold (n : ℕ) : (digitsOf w).foldl (fun n d => 10 * n + d) n = Nat.ofDigitChars 10 w n := by
    induction w generalizing n with
    | nil => rfl
    | cons c w ih =>
      have hrest := ih fun d hd => hw d (List.mem_cons_of_mem c hd)
      have hc := Text.digitValue?_plain (hw c List.mem_cons_self)
      unfold digitsOf at hrest ⊢
      rw [List.filterMap_cons_some hc, List.foldl_cons, hrest, Nat.ofDigitChars_cons]
      rfl
  exact hfold 0

theorem lastDigits_plain (places n : ℕ) :
    ∀ c ∈ lastDigits places n, 48 ≤ c.toNat ∧ c.toNat ≤ 57 := by
  induction places generalizing n with
  | zero => exact nofun
  | succ places ih =>
    intro c hc
    rcases List.mem_append.mp hc with hc | hc
    · exact ih (n / 10) c hc
    · have hdigit : ∀ m, m < 10 → 48 ≤ (Char.ofNat (48 + m)).toNat ∧
          (Char.ofNat (48 + m)).toNat ≤ 57 := by decide
      rw [List.mem_singleton.mp hc]
      exact hdigit (n % 10) (Nat.mod_lt n (by decide))

theorem ofDigitChars_lastDigits (places n : ℕ) :
    Nat.ofDigitChars 10 (lastDigits places n) 0 = n % 10 ^ places := by
  induction places generalizing n with
  | zero => simp [lastDigits, Nat.mod_one]
  | succ places ih =>
    have hdigit : ∀ m, m < 10 → (Char.ofNat (48 + m)).toNat - '0'.toNat = m := by decide
    rw [lastDigits, Nat.ofDigitChars_append, ih, Nat.ofDigitChars_cons, Nat.ofDigitChars_nil,
      hdigit (n % 10) (Nat.mod_lt n (by decide)), Nat.pow_succ', Nat.mod_mul]
    exact Nat.add_comm _ _

theorem withoutTrailingZeros_append (s : List Char) :
    ∃ zeros, s = withoutTrailingZeros s ++ List.replicate zeros '0' := by
  have hsplit : s.reverse.takeWhile (· = '0') ++ s.reverse.dropWhile (· = '0') = s.reverse :=
    List.takeWhile_append_dropWhile
  have hzeros : s.reverse.takeWhile (· = '0') =
      List.replicate (s.reverse.takeWhile (· = '0')).length '0' := by
    apply List.eq_replicate_of_mem
    intro c hc
    simpa using List.all_eq_true.mp List.all_takeWhile c hc
  refine ⟨(s.reverse.takeWhile (· = '0')).length, ?_⟩
  rw [← List.reverse_inj, List.reverse_append, List.reverse_replicate, ← hzeros,
    withoutTrailingZeros, List.reverse_reverse]
  exact hsplit.symm

/-- Only zeros are left out behind the point. -/
theorem fractionText_zeros {places : ℕ} (hplaces : 0 < places) (n : ℕ) :
    ∃ zeros, lastDigits places n = fractionText places n ++ List.replicate zeros '0' := by
  obtain ⟨zeros, hzeros⟩ := withoutTrailingZeros_append (lastDigits places n)
  have hlength := lastDigits_length places n
  unfold fractionText
  cases hs : withoutTrailingZeros (lastDigits places n) with
  | nil =>
    rw [hs, List.nil_append] at hzeros
    rw [hzeros, List.length_replicate] at hlength
    refine ⟨zeros - 1, ?_⟩
    rw [hzeros, List.singleton_append, ← List.replicate_succ]
    congr 1
    omega
  | cons c s =>
    rw [hs] at hzeros
    exact ⟨zeros, hzeros⟩

end Number

/-! ## The number of a size -/

/-- A multiple of a place as a numeral, without its sign. -/
def Numeral.ofPlaces (places n : ℕ) (hplaces : 0 < places) : Numeral where
  whole := (toString (n / 10 ^ places)).toList
  point := ['.']
  fraction := Number.fractionText places (n % 10 ^ places)
  digits c hc := by
    rcases List.mem_append.mp hc with hc | hc
    · rw [Nat.toString_eq_ofList_toDigits, String.toList_ofList] at hc
      exact Char.isDigit_iff_toNat.mp
        (Nat.isDigit_of_mem_toDigits (by decide) (by decide) hc)
    · obtain ⟨zeros, hzeros⟩ := Number.fractionText_zeros hplaces (n % 10 ^ places)
      exact Number.lastDigits_plain places (n % 10 ^ places) c (by simp [hzeros, hc])
  pointed := Or.inr (Or.inl rfl)
  nonempty := by
    rw [Nat.toString_eq_ofList_toDigits, String.toList_ofList]
    exact List.append_ne_nil_of_left_ne_nil Nat.toDigits_ne_nil _

theorem Number.placesText_eq {places : ℕ} (hplaces : 0 < places) (k : ℤ) :
    placesText places k =
      (if k < 0 then ['-'] else []) ++ (Numeral.ofPlaces places k.natAbs hplaces).text := by
  simp [placesText, Numeral.text, Numeral.ofPlaces]

/-- Leaving out zeros behind the point does not change the value. -/
theorem Numeral.ofPlaces_value {places n : ℕ} (hplaces : 0 < places) :
    (ofPlaces places n hplaces).value = (n : ℚ) / 10 ^ places := by
  obtain ⟨zeros, hzeros⟩ := Number.fractionText_zeros hplaces (n % 10 ^ places)
  generalize hm : ofPlaces places n hplaces = m
  have hwhole : m.whole = Nat.toDigits 10 (n / 10 ^ places) := by
    rw [← hm]
    exact String.toList_ofList
  have hfraction : Number.lastDigits places (n % 10 ^ places) =
      m.fraction ++ List.replicate zeros '0' := by
    rw [← hm]
    exact hzeros
  have hdigits : 10 ^ zeros * Nat.ofDigitChars 10 (m.whole ++ m.fraction) 0 = n := by
    rw [← Nat.ofDigitChars_replicate_zero, ← Nat.ofDigitChars_append, List.append_assoc,
      ← hfraction, Nat.ofDigitChars_append, hwhole, Nat.ofDigitChars_ten_toDigits,
      Nat.ofDigitChars_eq_ofDigitChars_zero, Number.lastDigits_length,
      Number.ofDigitChars_lastDigits, Nat.mod_mod]
    exact Nat.div_add_mod n (10 ^ places)
  have hlength : m.fraction.length + zeros = places := by
    have h := congrArg List.length hfraction
    rw [Number.lastDigits_length, List.length_append, List.length_replicate] at h
    exact h.symm
  have hvalue : m.value = (Nat.ofDigitChars 10 (m.whole ++ m.fraction) 0 : ℚ) /
      10 ^ m.fraction.length := by
    rw [value, Number.decimal, Number.digitsOf_length m.fraction_digits, Number.digitsOf,
      Number.digitsOf, ← List.filterMap_append, Rat.mkRat_eq_div]
    have hof := Number.ofDigits_digitsOf m.digits
    rw [Number.digitsOf] at hof
    rw [hof, Nat.pow_eq]
    push_cast
    rfl
  rw [hvalue, ← hdigits, ← hlength, pow_add]
  push_cast
  field_simp

namespace Dimension

/-- A size is written as this multiple of a hundred-thousandth of a point. -/
def places (d : Dimension) : ℤ := Number.roundDiv (d.sp * 100000) scale

def numeral (d : Dimension) : Numeral := .ofPlaces 5 d.places.natAbs (by decide)

def signText (d : Dimension) : List Char := if d.places < 0 then ['-'] else []

theorem pointsText_eq (d : Dimension) : d.pointsText = d.signText ++ d.numeral.text :=
  Number.placesText_eq (by decide) d.places

theorem signText_sign (d : Dimension) : Sign d.signText (decide (d.places < 0)) := by
  unfold signText
  split
  · rename_i h
    rw [decide_eq_true h]
    exact .minus
  · rename_i h
    rw [decide_eq_false h]
    exact .none

theorem signed_value (d : Dimension) :
    (if decide (d.places < 0) = true then -d.numeral.value else d.numeral.value) =
      (d.places : ℚ) / 10 ^ 5 := by
  rw [numeral, Numeral.ofPlaces_value]
  by_cases h : d.places < 0
  · have habs : ((d.places.natAbs : ℤ) : ℚ) = -d.places := by
      exact_mod_cast Int.ofNat_natAbs_of_nonpos (Int.le_of_lt h)
    rw [Int.cast_natCast] at habs
    rw [if_pos (decide_eq_true h), habs]
    ring
  · have habs : ((d.places.natAbs : ℤ) : ℚ) = d.places := by
      exact_mod_cast Int.natAbs_of_nonneg (Int.not_lt.mp h)
    rw [Int.cast_natCast] at habs
    rw [if_neg (by simpa using h), habs]

/-- Five places are enough: what is written lies within a third of a scaled point. -/
theorem nearest_places (d : Dimension) :
    Number.Nearest ((d.places : ℚ) / 10 ^ 5 * LengthUnit.pt.points * (scale : ℕ)) d.sp := by
  have hnear := Number.roundDiv_near (d.sp * 100000) (show 0 < scale by decide)
  change 2 * (d.places * 65536 - d.sp * 100000) ≤ 65536 ∧
    2 * (d.sp * 100000 - d.places * 65536) ≤ 65536 at hnear
  have hlow : (2 * (d.places * 65536 - d.sp * 100000) : ℚ) ≤ 65536 := by exact_mod_cast hnear.1
  have hhigh : (2 * (d.sp * 100000 - d.places * 65536) : ℚ) ≤ 65536 := by exact_mod_cast hnear.2
  have hpoints : LengthUnit.pt.points = 1 := rfl
  have hscale : ((scale : ℕ) : ℚ) = 65536 := rfl
  apply Number.nearest_of_lt
  rw [hpoints, hscale, abs_lt]
  constructor <;> linarith

theorem ofUnits?_numeral (d : Dimension) :
    ofUnits? (if decide (d.places < 0) = true then -d.numeral.value else d.numeral.value) .pt =
      some d := by
  rw [d.signed_value, ofUnits?, ofSp?_eq_some_iff, spOf]
  exact d.nearest_places.round_eq.symm

theorem ends_letters {a : Char} (ha : isUnitLetter a = true) (s : List Char) :
    Numeral.Ends (a :: s) := by
  intro c hc
  cases hc
  have hdigit : ∀ m, m < 123 → 97 ≤ m ∨ 65 ≤ m ∧ m ≤ 90 →
      (Text.digitFrom m Text.zeros).isSome = false := by decide
  have hrange := unitLetter_range ha
  refine ⟨hdigit a.toNat (by omega) (by omega), ?_⟩
  simp only [isPoint, Bool.or_eq_false_iff, decide_eq_false_iff_not]
  constructor
  · rintro rfl
    exact absurd ha (by decide)
  · rintro rfl
    exact absurd ha (by decide)

theorem takeSign_append {sign : List Char} {negative : Bool} (hs : Sign sign negative)
    {c : Char} (hc : c ≠ '-' ∧ c ≠ '+') (s : List Char) :
    Number.takeSign (sign ++ c :: s) = (negative, c :: s) := by
  cases hs with
  | minus => rfl
  | plus => rfl
  | none =>
    unfold Number.takeSign
    split
    · rename_i heq
      exact absurd (List.cons.inj heq).1 hc.1
    · rename_i heq
      exact absurd (List.cons.inj heq).1 hc.2
    · rfl

/-- A sign, a numeral and a unit come apart where they were put together. -/
theorem takeApart?_append {sign : List Char} {negative : Bool} (hs : Sign sign negative)
    (n : Numeral) {a b : Char} (ha : isUnitLetter a = true) (hb : isUnitLetter b = true) :
    takeApart? (sign ++ (n.text ++ [a, b])) = some ⟨negative, n.text, [a, b]⟩ := by
  obtain ⟨c, t, hc⟩ := List.exists_cons_of_ne_nil n.text_ne_nil
  have hmem := n.mem_text (by rw [hc]; exact List.mem_cons_self)
  have hblank := Numeral.not_isBlank hmem
  have hsign : c ≠ '-' ∧ c ≠ '+' := by
    constructor
    · rintro rfl
      exact absurd hmem (by decide)
    · rintro rfl
      exact absurd hmem (by decide)
  have hstart : (sign ++ (n.text ++ [a, b])).dropWhile Text.isBlank =
      sign ++ (n.text ++ [a, b]) := by
    rw [hc]
    cases hs with
    | minus => rfl
    | plus => rfl
    | none => simp [hblank]
  have htake : Number.takeSign (sign ++ (n.text ++ [a, b])) = (negative, n.text ++ [a, b]) := by
    rw [hc]
    exact takeSign_append hs hsign _
  have hnumber : (n.text ++ [a, b]).dropWhile Text.isBlank = n.text ++ [a, b] := by
    rw [hc]
    simp [hblank]
  have hletter : Text.isBlank a = false := by
    have hall : ∀ m, m < 123 → 97 ≤ m ∨ 65 ≤ m ∧ m ≤ 90 →
        Text.inRanges Text.blanks m = false := by decide
    have hrange := unitLetter_range ha
    exact hall a.toNat (by omega) (by omega)
  unfold takeApart?
  simp only [hstart, htake, hnumber, n.takeNumber_text (ends_letters ha [b])]
  simp [hletter, ha, hb, n.any_digit]

/-- A size is parsed from its text. -/
theorem parse_text (d : Dimension) : parse d.text = .ok d := by
  have happend : d.pointsText ++ ['p', 't'] = d.signText ++ (d.numeral.text ++ ['p', 't']) := by
    rw [pointsText_eq, List.append_assoc]
  have hw := takeApart?_append d.signText_sign d.numeral (a := 'p') (b := 't') rfl rfl
  have hparse := parse_eq hw d.numeral rfl
  have hunit : LengthUnit.ofName? (String.ofList ['p', 't']) = some .pt := by decide
  rw [text, happend, hparse]
  simp only [hunit, d.ofUnits?_numeral]

end Dimension

/-! ## Lines of words -/

/-- A word of letters and other characters. -/
def Word (w : List Char) : Prop :=
  w ≠ [] ∧ ∀ c ∈ w, CategoryTable.plain.of c = .letter ∨ CategoryTable.plain.of c = .other

theorem word_of_letters {w : List Char} (hne : w ≠ [])
    (h : w.all (fun c => CategoryTable.plain.of c = .letter) = true) : Word w := by
  simp only [List.all_eq_true, decide_eq_true_eq] at h
  exact ⟨hne, fun c hc => Or.inl (h c hc)⟩

/-- The tokens of a word, and a space behind it. -/
def wordTokens (w : List Char) : List Token :=
  (w.map fun c => .ch c (CategoryTable.plain.of c)) ++ [.ch ' ' .space]

theorem tokens_words {w : List Char} {ws : List (List Char)} (hw : Word w)
    (hws : ∀ v ∈ ws, Word v) (p : LineState) :
    (Phase.between p).tokens .plain (w ++ (ws.flatMap (' ' :: ·) ++ ['\r'])) =
      (w :: ws).flatMap wordTokens := by
  induction ws generalizing w p with
  | nil =>
    have hend : (Phase.between .midLine).tokens .plain ([] ++ ['\r']) = [.ch ' ' .space] :=
      Phase.tokens_lineEnd (by simp) (by decide)
    rw [Phase.tokens_append, Phase.run_word hw.1 hw.2, List.flatMap_nil, hend]
    simp [wordTokens]
  | cons v ws ih =>
    have hrest := ih (hws v List.mem_cons_self) (fun u hu => hws u (List.mem_cons_of_mem v hu))
      .skipBlanks
    have hspace : (Phase.between .midLine).react .plain ' ' =
        ([.ch ' ' .space], .between .skipBlanks) := by decide
    rw [Phase.tokens_append, Phase.run_word hw.1 hw.2]
    simp only [List.flatMap_cons, List.cons_append, List.append_assoc, Phase.tokens_cons, hspace]
    rw [hrest]
    simp [wordTokens]

theorem lineTokens_words {w : List Char} {ws : List (List Char)} (hw : Word w)
    (hws : ∀ v ∈ ws, Word v) :
    Alphabet.lineTokens {} (String.ofList (w ++ ws.flatMap (' ' :: ·))) =
      (w :: ws).flatMap wordTokens := by
  have hword {v : List Char} (hv : Word v) : ∃ s c, v = s ++ [c] ∧ c ≠ ' ' := by
    refine ⟨v.dropLast, v.getLast hv.1, (List.dropLast_append_getLast hv.1).symm, fun hc => ?_⟩
    have hcat := hv.2 _ (List.getLast_mem hv.1)
    rw [hc] at hcat
    exact absurd hcat (by decide)
  have hlast : ∃ s c, w ++ ws.flatMap (' ' :: ·) = s ++ [c] ∧ c ≠ ' ' := by
    rcases List.eq_nil_or_concat ws with rfl | ⟨vs, v, rfl⟩
    · obtain ⟨s, c, hs, hc⟩ := hword hw
      exact ⟨s, c, by simp [hs], hc⟩
    · obtain ⟨s, c, hs, hc⟩ := hword (hws v (by simp))
      exact ⟨w ++ (vs.flatMap (' ' :: ·) ++ ' ' :: s), c, by simp [hs], hc⟩
  obtain ⟨s, c, hs, hc⟩ := hlast
  have hline : withoutTrailingSpaces (s ++ [c]) = s ++ [c] :=
    withoutTrailingSpaces_append s hc []
  rw [Alphabet.lineTokens_plain, hs, hline, ← hs, List.append_assoc]
  exact tokens_words hw hws .newLine

/-! ## Amounts -/

def Flex.unitText (f : Flex) : List Char :=
  match f.order with
  | .normal => ['p', 't']
  | o => 'f' :: 'i' :: List.replicate o.rank 'l'

theorem Flex.text_eq (f : Flex) :
    f.text = f.amount.signText ++ (f.amount.numeral.text ++ f.unitText) := by
  rw [text, f.amount.pointsText_eq, List.append_assoc]
  rfl

theorem Flex.unitText_letters (f : Flex) :
    ∀ c ∈ f.unitText, CategoryTable.plain.of c = .letter := by
  have hall : f.unitText.all (fun c => CategoryTable.plain.of c = .letter) = true := by
    unfold unitText
    cases f.order <;> decide
  simpa using hall

theorem Flex.word_text (f : Flex) : Word f.text := by
  constructor
  · rw [f.text_eq]
    simp [f.amount.numeral.text_ne_nil]
  · intro c hc
    rw [f.text_eq, List.mem_append, List.mem_append] at hc
    rcases hc with hc | hc | hc
    · exact Or.inr (f.amount.signText_sign.others c hc)
    · exact Or.inr (f.amount.numeral.plain_text hc)
    · exact Or.inl (f.unitText_letters c hc)

/-- Letters that stand for themselves. -/
def letterTokens (s : List Char) : List Token := s.map fun c => .ch c .letter

theorem Flex.wordTokens_text (f : Flex) :
    wordTokens f.text = others f.amount.signText ++ (others f.amount.numeral.text ++
      (letterTokens f.unitText ++ [.ch ' ' .space])) := by
  have hletters : (f.unitText.map fun c => Token.ch c (CategoryTable.plain.of c)) =
      letterTokens f.unitText := List.map_congr_left fun c hc => by rw [f.unitText_letters c hc]
  rw [wordTokens, f.text_eq, List.map_append, List.map_append,
    others_eq f.amount.signText_sign.others,
    others_eq fun c hc => f.amount.numeral.plain_text hc, hletters]
  simp

namespace Reading

variable {ts us : List Token}

/-- Behind a size stands neither a space nor a letter that could go on with its order. -/
structure Stops (ts : List Token) : Prop where
  spaces : ts.dropWhile Token.isSpace = ts
  order : word ['l'] ts = none

theorem Stops.optionalSpace (h : Stops ts) : optionalSpace ts = .ok ((), ts) := by
  cases ts with
  | nil => rfl
  | cons t ts =>
    have ht : t.isSpace = false := Scan.isSpace_of_dropSpaces h.spaces
    simp [Reading.optionalSpace, ht]

/-- A single `l` raises the order. -/
theorem keyword_l (ts : List Token) : keyword "l" (.ch 'l' .letter :: ts) = .ok (true, ts) := rfl

theorem Stops.keyword_l (h : Stops ts) : keyword "l" (.ch ' ' .space :: ts) = .ok (false, ts) := by
  have hname : "l".toList = ['l'] := by decide
  have hdrop : (Token.ch ' ' .space :: ts).dropWhile Token.isSpace = ts := h.spaces
  simp only [keyword, hdrop, hname, h.order]

/-- The order of a size is read to its last letter. -/
theorem orderFrom_letters {order : GlueOrder} {higher : List GlueOrder} {rank : ℕ}
    (h : GlueOrder.all.drop (order.rank + 1) = higher) {reached : GlueOrder}
    (hr : reached.rank = order.rank + rank) (ht : Stops ts) :
    orderFrom order higher (letterTokens (List.replicate rank 'l') ++ .ch ' ' .space :: ts) =
      .ok (reached, ts) := by
  induction rank generalizing order higher with
  | zero =>
    have hreached : reached = order := GlueOrder.rank_inj hr
    subst hreached
    cases higher with
    | nil =>
      rw [orderFrom]
      exact bind_ok ht.keyword_l
    | cons p more =>
      rw [orderFrom]
      exact bind_ok ht.keyword_l
  | succ rank ih =>
    cases higher with
    | nil =>
      rw [GlueOrder.eq_filll h] at hr
      cases reached <;> simp [GlueOrder.rank] at hr <;> omega
    | cons p more =>
      obtain ⟨-, -, hp, hmore⟩ := GlueOrder.of_drop h
      rw [orderFrom]
      refine (bind_ok (keyword_l _)).trans (ih hmore ?_)
      omega

theorem unit_text (f : Flex) {infinite : Bool} (h : infinite = false → f.order = .normal)
    (ht : Stops ts) :
    unit infinite (letterTokens f.unitText ++ Token.ch ' ' .space :: ts) =
      .ok ((.pt, f.order), if f.order = .normal then .ch ' ' .space :: ts else ts) := by
  obtain ⟨amount, order⟩ := f
  by_cases horder : order = .normal
  · subst horder
    cases infinite with
    | false => rfl
    | true => rfl
  · obtain ⟨rank, hrank⟩ : ∃ rank, order.rank = GlueOrder.fil.rank + rank := by
      cases order with
      | normal => exact absurd rfl horder
      | fil => exact ⟨0, rfl⟩
      | fill => exact ⟨1, rfl⟩
      | filll => exact ⟨2, rfl⟩
    have hletters : letterTokens (Flex.unitText ⟨amount, order⟩) ++ Token.ch ' ' .space :: ts =
        letterTokens ['f', 'i', 'l'] ++
          (letterTokens (List.replicate rank 'l') ++ .ch ' ' .space :: ts) := by
      have hlength : order.rank = rank + 1 := by
        rw [hrank]
        exact Nat.add_comm 1 rank
      have hunit : Flex.unitText ⟨amount, order⟩ = 'f' :: 'i' :: List.replicate order.rank 'l' := by
        cases order with
        | normal => exact absurd rfl horder
        | _ => rfl
      rw [hunit, hlength, List.replicate_succ]
      simp [letterTokens]
    have hfil (us : List Token) :
        keyword "fil" (letterTokens ['f', 'i', 'l'] ++ us) = .ok (true, us) := rfl
    have hinfinite : infinite = true := by
      cases infinite with
      | false => exact absurd (h rfl) horder
      | true => rfl
    subst hinfinite
    have hreached : orderFrom .fil [.fill, .filll]
        (letterTokens (List.replicate rank 'l') ++ Token.ch ' ' .space :: ts) = .ok (order, ts) :=
      orderFrom_letters rfl hrank ht
    rw [hletters, if_neg horder]
    change (keyword "fil" >>= _) _ = _
    rw [bind_ok (hfil _)]
    exact bind_ok hreached

/-- A size is read off its tokens, with the space behind them. -/
theorem flex_text (f : Flex) {infinite : Bool} (h : infinite = false → f.order = .normal)
    (ht : Stops ts) : flex infinite (wordTokens f.text ++ ts) = .ok (f, ts) := by
  have hx : ∃ x us, letterTokens f.unitText ++ Token.ch ' ' .space :: ts = x :: us ∧
      decimalChar? x = none := by
    unfold Flex.unitText
    cases f.order <;> exact ⟨_, _, rfl, rfl⟩
  obtain ⟨x, us, hus, hx⟩ := hx
  have htokens : wordTokens f.text ++ ts = others f.amount.signText ++ (Phase.gap [] ++
      (others f.amount.numeral.text ++ x :: us)) := by
    rw [f.wordTokens_text, ← hus]
    simp [Phase.gap]
  have hunit := unit_text f h ht
  rw [hus] at hunit
  have hspace : optionalSpace (if f.order = .normal then Token.ch ' ' .space :: ts else ts) =
      .ok ((), ts) := by
    split
    · rfl
    · exact ht.optionalSpace
  rw [htokens, flex_numeral f.amount.signText_sign f.amount.numeral hx, bind_ok hunit,
    bind_ok hspace, amount]
  simp only [f.amount.numeral.readDecimal?_plain, f.amount.ofUnits?_numeral]
  rfl

/-! ## Glue -/

theorem flex_space (infinite : Bool) (ts : List Token) :
    flex infinite (Token.ch ' ' .space :: ts) = flex infinite ts := rfl

theorem stops_nil : Stops [] := ⟨rfl, rfl⟩

theorem stops_plus (ts : List Token) : Stops (wordTokens "plus".toList ++ ts) := ⟨rfl, rfl⟩

theorem stops_minus (ts : List Token) : Stops (wordTokens "minus".toList ++ ts) := ⟨rfl, rfl⟩

/-- The words of a stretch or shrink, which are left out when its amount is zero. -/
def flexWords (name : String) (f : Flex) : List (List Char) :=
  if f.amount.sp = 0 then [] else [name.toList, f.text]

/-- A part that is left out stands for no amount at all. -/
theorem eq_default {f : Flex} (hf : f.amount.sp = 0) (ho : f.order = .normal) : f = {} := by
  obtain ⟨amount, order⟩ := f
  have hamount : amount = .zero := Dimension.ext hf
  rw [hamount]
  exact congrArg (Flex.mk .zero) ho

theorem flexAfter_words {name : String} {f : Flex}
    (hname : ∀ us, keyword name (wordTokens name.toList ++ us) = .ok (true, .ch ' ' .space :: us))
    (hf : f.amount.sp = 0 → f.order = .normal) (ht : Stops ts)
    (hts : keyword name ts = .ok (false, ts)) :
    flexAfter name ((flexWords name f).flatMap wordTokens ++ ts) = .ok (f, ts) := by
  unfold flexWords flexAfter
  split
  · rename_i hzero
    rw [eq_default hzero (hf hzero)]
    exact bind_ok hts
  · have hwords : [name.toList, f.text].flatMap wordTokens ++ ts =
        wordTokens name.toList ++ (wordTokens f.text ++ ts) := by simp
    rw [hwords]
    refine (bind_ok (hname _)).trans ?_
    rw [if_pos rfl, flex_space]
    exact flex_text f nofun ht

/-- Glue in which no part of no amount is infinite is read off its own words. -/
theorem glue_words (g : Glue) (hstretch : g.stretch.amount.sp = 0 → g.stretch.order = .normal)
    (hshrink : g.shrink.amount.sp = 0 → g.shrink.order = .normal) :
    glue (wordTokens (Flex.text ⟨g.natural, .normal⟩) ++
      ((flexWords "plus" g.stretch).flatMap wordTokens ++
        ((flexWords "minus" g.shrink).flatMap wordTokens ++ []))) = .ok (g, []) := by
  have hminus : Stops ((flexWords "minus" g.shrink).flatMap wordTokens ++ []) ∧
      keyword "plus" ((flexWords "minus" g.shrink).flatMap wordTokens ++ []) =
        .ok (false, (flexWords "minus" g.shrink).flatMap wordTokens ++ []) := by
    unfold flexWords
    split
    · exact ⟨stops_nil, rfl⟩
    · simp only [List.flatMap_cons, List.append_assoc]
      exact ⟨stops_minus _, rfl⟩
  have hplus : Stops ((flexWords "plus" g.stretch).flatMap wordTokens ++
      ((flexWords "minus" g.shrink).flatMap wordTokens ++ [])) := by
    rw [flexWords]
    split
    · exact hminus.1
    · simp only [List.flatMap_cons, List.append_assoc]
      exact stops_plus _
  have hnatural : dimension (wordTokens (Flex.text ⟨g.natural, .normal⟩) ++
      ((flexWords "plus" g.stretch).flatMap wordTokens ++
        ((flexWords "minus" g.shrink).flatMap wordTokens ++ []))) =
      .ok (g.natural, (flexWords "plus" g.stretch).flatMap wordTokens ++
        ((flexWords "minus" g.shrink).flatMap wordTokens ++ [])) :=
    bind_ok (flex_text ⟨g.natural, .normal⟩ (fun _ => rfl) hplus)
  have hafter : flexAfter "plus" _ = _ :=
    flexAfter_words (fun _ => rfl) hstretch hminus.1 hminus.2
  have hlast : flexAfter "minus" _ = _ := flexAfter_words (fun _ => rfl) hshrink stops_nil rfl
  unfold glue
  rw [bind_ok hnatural, bind_ok hafter, bind_ok hlast]
  rfl

end Reading

/-! ## Sizes read back -/

theorem Glue.text_eq (g : Glue) :
    g.text = String.ofList (Flex.text ⟨g.natural, .normal⟩ ++
      (Reading.flexWords "plus" g.stretch ++ Reading.flexWords "minus" g.shrink).flatMap
        (' ' :: ·)) := by
  have hpart (name : String) (f : Flex) :
      flexText name f = (Reading.flexWords name f).flatMap (' ' :: ·) := by
    unfold flexText Reading.flexWords
    split
    · rfl
    · simp
  rw [text, hpart, hpart, List.flatMap_append, List.append_assoc]
  rfl

theorem Glue.word_of_mem (g : Glue) :
    ∀ w ∈ Reading.flexWords "plus" g.stretch ++ Reading.flexWords "minus" g.shrink, Word w := by
  have hpart {name : String} (hname : Word name.toList) (f : Flex) :
      ∀ w ∈ Reading.flexWords name f, Word w := by
    intro w hw
    unfold Reading.flexWords at hw
    split at hw
    · cases hw
    · simp only [List.mem_cons, List.not_mem_nil, or_false] at hw
      rcases hw with rfl | rfl
      · exact hname
      · exact f.word_text
  intro w hw
  rcases List.mem_append.mp hw with hw | hw
  · exact hpart (word_of_letters (by decide) (by decide)) g.stretch w hw
  · exact hpart (word_of_letters (by decide) (by decide)) g.shrink w hw

theorem inert_wordTokens {w : List Char} (hw : Word w) : ∀ t ∈ wordTokens w, t.Inert {} := by
  intro t ht
  rcases List.mem_append.mp ht with ht | ht
  · obtain ⟨c, hc, rfl⟩ := List.mem_map.mp ht
    apply Token.inert_ch
    rcases hw.2 c hc with h | h
    · rw [h]
      exact nofun
    · rw [h]
      exact nofun
  · rw [List.mem_singleton.mp ht]
    exact Token.inert_ch {} ' ' nofun

/-- Every dimension is parsed from its text; and glue whose parts of amount zero are finite is read
off a line of its text, of which nothing is left. -/
theorem Glue.text_read (nested : Bool) {capacity : Capacity} (hroom : 5 < capacity.chunks) :
    (∀ d : Dimension, Dimension.parse d.text = .ok d) ∧
    ∀ g : Glue, (g.stretch.amount.sp = 0 → g.stretch.order = .normal) →
      (g.shrink.amount.sp = 0 → g.shrink.order = .normal) →
      ∃ j, Reader.Comes (handler {}) Quantity.glue (.ofLines [g.text] false nested capacity)
        (.done g j) ∧ j.stream {} = [] := by
  refine ⟨Dimension.parse_text, fun g hstretch hshrink => ?_⟩
  have hnatural : Word (Flex.text ⟨g.natural, .normal⟩) := Flex.word_text _
  have hline := lineTokens_words hnatural g.word_of_mem
  rw [← g.text_eq] at hline
  have hinert : ∀ t ∈ Alphabet.lineTokens {} g.text, t.Inert {} := by
    rw [hline]
    intro t ht
    obtain ⟨w, hw, ht⟩ := List.mem_flatMap.mp ht
    rcases List.mem_cons.mp hw with rfl | hw
    · exact inert_wordTokens hnatural t ht
    · exact inert_wordTokens (g.word_of_mem w hw) t ht
  have hreads : Scan.Reads {} 5 Quantity.glue Reading.glue := Scan.glue_reads (Nat.le_refl 5)
  refine hreads.line_ok hinert hroom ?_
  have hglue := Reading.glue_words g hstretch hshrink
  rw [List.append_nil, ← List.flatMap_append, ← List.flatMap_cons] at hglue
  rw [hline]
  exact hglue

/-- Glue with a part of each kind: negative, infinite and left out. -/
def springy : Glue :=
  ⟨⟨-98305, by decide, by decide⟩, ⟨⟨1, by decide, by decide⟩, .filll⟩, {}⟩

theorem Glue.text_read_springy :
    springy.text = "-1.50002pt plus 0.00002filll" ∧
      Dimension.parse springy.natural.text = .ok springy.natural ∧
      ∃ j, Reader.Comes (handler {}) Quantity.glue
        (.ofLines [springy.text] false true { chunks := 5000 }) (.done springy j) ∧
        j.stream {} = [] := by
  obtain ⟨hparse, hread⟩ := @Glue.text_read true { chunks := 5000 } (by decide)
  exact ⟨by decide +kernel, hparse springy.natural, hread springy nofun (fun _ => rfl)⟩

end Galley
