import Galley.Proofs.LineTokens
import Galley.Proofs.Numerals
import Galley.Proofs.Quantities
import Galley.Proofs.Rounding

/-!
The two readers of written dimensions. One takes a text apart and applies the sign to the rounded
length; the other reads the tokens of the text as a line and applies the sign to the number. They
come to the same dimension, or both refuse the text for the same reason.
-/

namespace Galley

/-! ## The text of a dimension -/

namespace Dimension

/-- A sign as text, or none, and whether it makes negative. -/
inductive Sign : List Char → Bool → Prop
  | minus : Sign ['-'] true
  | plus : Sign ['+'] false
  | none : Sign [] false

/-- A text of a dimension, with blanks around its parts; without a sign there is only one place for
the blanks before the number. -/
structure Apart (s : List Char) (w : Written) where
  before : List Char
  sign : List Char
  between : List Char
  gap : List Char
  a : Char
  b : Char
  after : List Char
  text : s = before ++ (sign ++ (between ++ (w.number ++ (gap ++ a :: b :: after))))
  blank : ∀ c ∈ before ++ (between ++ (gap ++ after)), Text.isBlank c = true
  signed : Sign sign w.negative
  between_eq : sign = [] → between = []
  unit : w.unit = [a, b]
  letters : isUnitLetter a = true ∧ isUnitLetter b = true
  digit : w.number.any Text.isDigit = true
  taken : ∃ t, (takeNumber t).1 = w.number

theorem takeSign_eq (s : List Char) :
    ∃ sign, s = sign ++ (Number.takeSign s).2 ∧ Sign sign (Number.takeSign s).1 := by
  unfold Number.takeSign
  split
  · exact ⟨['-'], rfl, .minus⟩
  · exact ⟨['+'], rfl, .plus⟩
  · exact ⟨[], rfl, .none⟩

theorem exists_of_takeApart? {s : List Char} {w : Written} (h : takeApart? s = some w) :
    Nonempty (Apart s w) := by
  have split (t : List Char) : t = t.takeWhile Text.isBlank ++ t.dropWhile Text.isBlank :=
    (List.takeWhile_append_dropWhile ..).symm
  have blank {t : List Char} (c : Char) (hc : c ∈ t.takeWhile Text.isBlank) :
      Text.isBlank c = true := List.all_eq_true.mp List.all_takeWhile c hc
  unfold takeApart? at h
  dsimp only at h
  obtain ⟨sign, hsign, hsigned⟩ := takeSign_eq (s.dropWhile Text.isBlank)
  generalize hr : Number.takeSign (s.dropWhile Text.isBlank) = r at h hsign hsigned
  generalize hn : takeNumber (r.2.dropWhile Text.isBlank) = n at h
  have happend := takeNumber_append (r.2.dropWhile Text.isBlank)
  rw [hn] at happend
  split at h
  · rename_i a b rest hrest
    split at h
    · rename_i hall
      simp only [Bool.and_eq_true] at hall
      cases h
      refine ⟨⟨s.takeWhile Text.isBlank, sign, r.2.takeWhile Text.isBlank,
        n.2.takeWhile Text.isBlank, a, b, rest, ?_, ?_, hsigned, ?_, rfl, hall.1.1, hall.2,
        _, congrArg Prod.fst hn⟩⟩
      · simp only
        rw [← hrest, ← split n.2, happend, ← split r.2, ← hsign, ← split s]
      · intro c hc
        simp only [List.mem_append] at hc
        rcases hc with hc | hc | hc | hc
        · exact blank c hc
        · exact blank c hc
        · exact blank c hc
        · exact List.all_eq_true.mp hall.1.2 c hc
      · rintro rfl
        rw [List.nil_append] at hsign
        rw [← hsign]
        cases hd : s.dropWhile Text.isBlank with
        | nil => rfl
        | cons c t =>
          have hc := List.head_dropWhile_not Text.isBlank (l := s) (by simp [hd])
          simp only [hd, List.head_cons] at hc
          simp [hc]
    · cases h
  · cases h

end Dimension

/-! ## Its characters -/

theorem unitLetter_range {c : Char} (h : Dimension.isUnitLetter c = true) :
    97 ≤ c.toNat ∧ c.toNat ≤ 122 ∨ 65 ≤ c.toNat ∧ c.toNat ≤ 90 := by
  simpa [Dimension.isUnitLetter, Char.le_def, UInt32.le_iff_toNat_le] using h

namespace CategoryTable

theorem plain_digit {c : Char} (h : 48 ≤ c.toNat ∧ c.toNat ≤ 57) : plain.of c = .other := by
  have hall : ∀ m, m < 58 → 48 ≤ m → plain.get m = .other := by decide
  exact hall c.toNat (by omega) h.1

theorem plain_letter {c : Char} (h : Dimension.isUnitLetter c = true) : plain.of c = .letter := by
  have hall : ∀ m, m < 123 → 97 ≤ m ∨ 65 ≤ m ∧ m ≤ 90 → plain.get m = .letter := by decide
  have hc := unitLetter_range h
  exact hall c.toNat (by omega) (by omega)

theorem plain_blank {c : Char} (h : c = ' ' ∨ c = '\t') : plain.of c = .space := by
  rcases h with rfl | rfl
  · decide
  · decide

end CategoryTable

/-- A letter of a unit has one lower-case letter. -/
theorem exists_lower {c : Char} (h : Dimension.isUnitLetter c = true) :
    ∃ d, Text.lower c = [d] := by
  have hc := unitLetter_range h
  refine ⟨if 65 ≤ c.toNat ∧ c.toNat ≤ 90 then Char.ofNat (c.toNat + 32) else c, ?_⟩
  rw [Text.lower]
  exact if_pos (by omega)

theorem Numeral.plain_text (n : Numeral) {c : Char} (h : c ∈ n.text) :
    CategoryTable.plain.of c = .other := by
  rcases n.mem_text h with h | rfl | rfl
  · exact CategoryTable.plain_digit h
  · decide
  · decide

/-! ## Its tokens -/

/-- A text whose digits are plain ones and whose blanks are spaces and tabs. -/
structure Text.Plain (s : List Char) : Prop where
  digits : ∀ c ∈ s, isDigit c = true → 48 ≤ c.toNat ∧ c.toNat ≤ 57
  blanks : ∀ c ∈ s, isBlank c = true → c = ' ' ∨ c = '\t'

/-- Whether a text is plain can be seen character by character. -/
theorem Text.Plain.of_all {s : List Char}
    (hd : s.all (fun c => isDigit c → 48 ≤ c.toNat ∧ c.toNat ≤ 57) = true)
    (hb : s.all (fun c => isBlank c → c = ' ' ∨ c = '\t') = true) : Plain s := by
  simp only [List.all_eq_true, decide_eq_true_eq] at hd hb
  exact ⟨hd, hb⟩

/-- Characters that stand for themselves and are no letters. -/
def others (s : List Char) : List Token := s.map fun c => .ch c .other

theorem others_eq {s : List Char} (h : ∀ c ∈ s, CategoryTable.plain.of c = .other) :
    (s.map fun c => Token.ch c (CategoryTable.plain.of c)) = others s :=
  List.map_congr_left fun c hc => by rw [h c hc]

/-- Such characters, wherever they stand in a line. -/
theorem tokens_others {s : List Char} (hs : s ≠ [])
    (h : ∀ c ∈ s, CategoryTable.plain.of c = .other) (p : LineState) (t : List Char) :
    (Phase.between p).tokens .plain (s ++ t) =
      others s ++ (Phase.between .midLine).tokens .plain t := by
  rw [Phase.tokens_append, Phase.run_word hs (fun c hc => Or.inr (h c hc)), others_eq h]

theorem Dimension.Sign.others {s : List Char} {negative : Bool} (h : Sign s negative) :
    ∀ c ∈ s, CategoryTable.plain.of c = .other := by
  cases h with
  | minus => exact List.forall_mem_singleton.mpr rfl
  | plus => exact List.forall_mem_singleton.mpr rfl
  | none => exact nofun

namespace Dimension.Apart

variable {s : List Char} {w : Written} (p : Apart s w)

include p in
theorem exists_numeral (h : Text.Plain s) : ∃ n : Numeral, n.text = w.number := by
  obtain ⟨t, ht⟩ := p.taken
  have hplain : ∀ c ∈ (takeNumber t).1, Text.isDigit c = true → 48 ≤ c.toNat ∧ c.toNat ≤ 57 := by
    intro c hc hd
    refine h.digits c ?_ hd
    rw [p.text]
    simp [← ht, hc]
  have hany : (takeNumber t).1.any Text.isDigit = true := ht ▸ p.digit
  obtain ⟨n, hn⟩ := Numeral.exists_of_takeNumber hplain hany
  exact ⟨n, hn.trans ht⟩

/-- The blanks of the text count as such in a line. -/
theorem spaces (h : Text.Plain s) {c : Char}
    (hc : c ∈ p.before ++ (p.between ++ (p.gap ++ p.after))) :
    CategoryTable.plain.of c = .space := by
  refine CategoryTable.plain_blank (h.blanks c ?_ (p.blank c hc))
  rw [p.text]
  simp only [List.mem_append] at hc
  rcases hc with hc | hc | hc | hc
  · simp [hc]
  · simp [hc]
  · simp [hc]
  · simp [hc]

/-- The text as a line, with the end of it. -/
theorem line : withoutTrailingSpaces s ++ ['\r'] = p.before ++ (p.sign ++ (p.between ++
    (w.number ++ (p.gap ++ ([p.a, p.b] ++ (withoutTrailingSpaces p.after ++ ['\r'])))))) := by
  have hb : p.b ≠ ' ' := by
    intro hb
    have hletter := p.letters.2
    rw [hb] at hletter
    exact absurd hletter (by decide)
  have hline : withoutTrailingSpaces s =
      (p.before ++ (p.sign ++ (p.between ++ (w.number ++ (p.gap ++ [p.a]))))) ++
        p.b :: withoutTrailingSpaces p.after := by
    rw [← withoutTrailingSpaces_append _ hb]
    exact congrArg withoutTrailingSpaces (p.text.trans (by simp))
  rw [hline]
  simp

/-- The tokens of the text as a line: blanks count once behind a sign or a number, and so do those
behind the unit with the end of the line. -/
theorem lineTokens (h : Text.Plain s) : Alphabet.lineTokens {} (String.ofList s) =
    others p.sign ++ (Phase.gap p.between ++ (others w.number ++ (Phase.gap p.gap ++
      [.ch p.a .letter, .ch p.b .letter, .ch ' ' .space]))) := by
  obtain ⟨n, hn⟩ := p.exists_numeral h
  have hnumber : w.number ≠ [] := by
    intro hnil
    have hdigit := p.digit
    rw [hnil] at hdigit
    cases hdigit
  have hothers : ∀ c ∈ w.number, CategoryTable.plain.of c = .other :=
    fun c hc => n.plain_text (hn ▸ hc)
  have hend : ∀ c ∈ withoutTrailingSpaces p.after, CategoryTable.plain.of c = .space :=
    fun c hc => p.spaces h (by simp [mem_of_withoutTrailingSpaces hc])
  -- what is read from the number on does not depend on the blanks before it
  have htail (q : LineState) : (Phase.between q).tokens .plain (w.number ++ (p.gap ++
      ([p.a, p.b] ++ (withoutTrailingSpaces p.after ++ ['\r'])))) =
        others w.number ++ (Phase.gap p.gap ++
          [.ch p.a .letter, .ch p.b .letter, .ch ' ' .space]) := by
    rw [tokens_others hnumber hothers, Phase.tokens_append,
      Phase.run_gap fun c hc => p.spaces h (by simp [hc]), Phase.tokens_append,
      Phase.run_word (List.cons_ne_nil _ _) (by
        intro c hc
        simp only [List.mem_cons, List.not_mem_nil, or_false] at hc
        rcases hc with rfl | rfl
        · exact Or.inl (CategoryTable.plain_letter p.letters.1)
        · exact Or.inl (CategoryTable.plain_letter p.letters.2)),
      Phase.tokens_lineEnd hend (by decide)]
    simp [CategoryTable.plain_letter p.letters.1, CategoryTable.plain_letter p.letters.2]
  have hbefore : ∀ c ∈ p.before, CategoryTable.plain.of c = .space :=
    fun c hc => p.spaces h (by simp [hc])
  rw [Alphabet.lineTokens_plain, p.line, Phase.tokens_append, Phase.run_skipped hbefore (by decide)]
  by_cases hsign : p.sign = []
  · rw [hsign, p.between_eq hsign]
    exact htail .newLine
  · have hbetween : ∀ c ∈ p.between, CategoryTable.plain.of c = .space :=
      fun c hc => p.spaces h (by simp [hc])
    simp only [List.nil_append]
    rw [tokens_others hsign p.signed.others, Phase.tokens_append, Phase.run_gap hbetween, htail]

end Dimension.Apart

/-! ## Readings of the parts -/

namespace Reading

variable {ts us : List Token} {x : Token}

/-- The first token behind a sign. -/
def EndsSigns (x : Token) : Prop :=
  x.isSpace = false ∧ x.isOther ['-'] = false ∧ x.isOther ['+'] = false

theorem signsFrom_end (negative : Bool) (hx : EndsSigns x) :
    signsFrom negative (x :: ts) = (negative, x :: ts) := by
  simp [signsFrom, hx.1, hx.2.1, hx.2.2]

theorem signsFrom_gap (negative : Bool) (g : List Char) :
    signsFrom negative (Phase.gap g ++ ts) = signsFrom negative ts := by
  unfold Phase.gap
  split
  · rfl
  · rfl

theorem signsFrom_sign {s : List Char} {negative : Bool} (h : Dimension.Sign s negative)
    (g : List Char) (hx : EndsSigns x) :
    signsFrom false (others s ++ (Phase.gap g ++ x :: ts)) = (negative, x :: ts) := by
  cases h with
  | minus =>
    change signsFrom true (Phase.gap g ++ x :: ts) = _
    rw [signsFrom_gap, signsFrom_end true hx]
  | plus =>
    change signsFrom false (Phase.gap g ++ x :: ts) = _
    rw [signsFrom_gap, signsFrom_end false hx]
  | none =>
    change signsFrom false (Phase.gap g ++ x :: ts) = _
    rw [signsFrom_gap, signsFrom_end false hx]

theorem decimalChar?_other {c : Char} (h : 48 ≤ c.toNat ∧ c.toNat ≤ 57 ∨ c = '.' ∨ c = ',') :
    decimalChar? (.ch c .other) = some (if c = ',' then '.' else c) := by
  have hall : ∀ m, m < 58 → 48 ≤ m → Quantity.decimalChars.contains (Char.ofNat m) = true := by
    decide
  have hc : Quantity.decimalChars.contains c = true := by
    rcases h with h | rfl | rfl
    · rw [← Char.ofNat_toNat c]
      exact hall c.toNat (by omega) h.1
    · decide
    · decide
  exact if_pos hc

theorem decimalFrom_others {s : List Char}
    (h : ∀ c ∈ s, 48 ≤ c.toNat ∧ c.toNat ≤ 57 ∨ c = '.' ∨ c = ',') (hx : decimalChar? x = none) :
    decimalFrom (others s ++ x :: ts) = (s.map (fun c => if c = ',' then '.' else c), x :: ts) := by
  induction s with
  | nil => simp [others, decimalFrom, hx]
  | cons c s ih =>
    have hrest := ih fun d hd => h d (List.mem_cons_of_mem c hd)
    have hc := decimalChar?_other (h c List.mem_cons_self)
    simp only [others, List.map_cons, List.cons_append, decimalFrom, hc] at hrest ⊢
    rw [hrest]

theorem decimal_numeral (n : Numeral) (hx : decimalChar? x = none) :
    decimal (others n.text ++ x :: ts) = .ok (n.plain, x :: ts) := by
  have hfrom : decimalFrom (others n.text ++ x :: ts) = (n.plain, x :: ts) := by
    rw [decimalFrom_others (fun c hc => n.mem_text hc) hx, n.map_comma]
  have hone : ¬ 1 < n.plain.count '.' := Nat.not_lt.mpr n.count_plain
  have hall : ¬ n.plain.all (· = '.') = true := by
    intro h
    obtain ⟨c, hc, hne⟩ := n.exists_digit
    exact hne (by simpa using List.all_eq_true.mp h c hc)
  unfold decimal
  rw [bind_ok (congrArg Except.ok hfrom), if_neg hone, if_neg hall]
  rfl

/-- Behind the sign and the number only the unit is left. -/
theorem flex_numeral {s g : List Char} {negative : Bool} (h : Dimension.Sign s negative)
    (n : Numeral) (hx : decimalChar? x = none) (infinite : Bool) :
    flex infinite (others s ++ (Phase.gap g ++ (others n.text ++ x :: ts))) =
      (do
        let u ← unit infinite
        optionalSpace
        amount negative n.plain u.1 u.2) (x :: ts) := by
  obtain ⟨c, t, hc⟩ := List.exists_cons_of_ne_nil n.text_ne_nil
  have hends : EndsSigns (.ch c .other) := by
    have hne : c ≠ '-' ∧ c ≠ '+' := by
      constructor
      · rintro rfl
        exact absurd (n.mem_text (by rw [hc]; exact List.mem_cons_self)) (by decide)
      · rintro rfl
        exact absurd (n.mem_text (by rw [hc]; exact List.mem_cons_self)) (by decide)
    exact ⟨rfl, by simp [Token.isOther, hne.1], by simp [Token.isOther, hne.2]⟩
  have hsigns : signs (others s ++ (Phase.gap g ++ (others n.text ++ x :: ts))) =
      .ok (negative, others n.text ++ x :: ts) := by
    rw [hc]
    exact congrArg Except.ok (signsFrom_sign h g hends)
  unfold flex
  rw [bind_ok hsigns, bind_ok (decimal_numeral n hx)]

theorem keyword_gap (name : String) (g : List Char) :
    keyword name (Phase.gap g ++ ts) = keyword name ts := by
  unfold Phase.gap
  split
  · rfl
  · rfl

theorem keyword_found {name : String} (hx : x.isSpace = false)
    (h : word name.toList (x :: ts) = some us) : keyword name (x :: ts) = .ok (true, us) := by
  have hdrop : (x :: ts).dropWhile Token.isSpace = x :: ts := by simp [hx]
  simp only [keyword, hdrop, h]

theorem keyword_missed {name : String} (hx : x.isSpace = false)
    (h : word name.toList (x :: ts) = none) : keyword name (x :: ts) = .ok (false, x :: ts) := by
  have hdrop : (x :: ts).dropWhile Token.isSpace = x :: ts := by simp [hx]
  simp only [keyword, hdrop, h]

theorem matchesLetter_letter (letter c : Char) :
    Quantity.matchesLetter letter (.ch c .letter) = decide (Text.lower c = [letter]) := by
  simp [Quantity.matchesLetter]

/-- A unit is found by its two letters in any case. -/
theorem unitFrom_letters {a b a' b' : Char} (ha : Text.lower a = [a']) (hb : Text.lower b = [b'])
    (units : List LengthUnit) :
    unitFrom units (.ch a .letter :: .ch b .letter :: ts) =
      match units.find? fun u => u.name.toList = [a', b'] with
      | some u => .ok (u, ts)
      | none => .error (.scan .illegalUnit) := by
  induction units with
  | nil => rfl
  | cons u units ih =>
    obtain ⟨x, y, hname⟩ : ∃ x y, u.name.toList = [x, y] := by
      cases u <;> exact ⟨_, _, rfl⟩
    have hword : word u.name.toList (.ch a .letter :: .ch b .letter :: ts) =
        if u.name.toList = [a', b'] then some ts else none := by
      simp only [hname, word, matchesLetter_letter, ha, hb]
      by_cases hx : a' = x
      · by_cases hy : b' = y
        · simp [hx, hy]
        · simp [hx, hy, Ne.symm hy]
      · simp [hx, Ne.symm hx]
    by_cases hu : u.name.toList = [a', b']
    · rw [if_pos hu] at hword
      rw [unitFrom, bind_ok (keyword_found rfl hword), List.find?_cons_of_pos (by simpa using hu)]
      rfl
    · rw [if_neg hu] at hword
      rw [unitFrom, bind_ok (keyword_missed rfl hword), List.find?_cons_of_neg (by simpa using hu)]
      exact ih

/-- Two letters and a space are not the start of `true`. -/
theorem word_true (a b : Char) :
    word "true".toList [.ch a .letter, .ch b .letter, .ch ' ' .space] = none := by
  have hname : "true".toList = ['t', 'r', 'u', 'e'] := by decide
  have hspace : Quantity.matchesLetter 'u' (.ch ' ' .space) = false := rfl
  rw [hname]
  simp only [word, hspace]
  split
  · split
    · rfl
    · rfl
  · rfl

theorem unit_letters {a b : Char} (ha : Dimension.isUnitLetter a = true)
    (hb : Dimension.isUnitLetter b = true) (g : List Char) :
    unit false (Phase.gap g ++ [.ch a .letter, .ch b .letter, .ch ' ' .space]) =
      match LengthUnit.ofName? (String.ofList [a, b]) with
      | some u => .ok ((u, .normal), [.ch ' ' .space])
      | none => .error (.scan .illegalUnit) := by
  obtain ⟨a', ha⟩ := exists_lower ha
  obtain ⟨b', hb⟩ := exists_lower hb
  have hofName : LengthUnit.ofName? (String.ofList [a, b]) =
      LengthUnit.all.find? fun u => u.name.toList = [a', b'] := by
    simp [LengthUnit.ofName?, ha, hb]
  have htrue := keyword_missed rfl (word_true a b)
  rw [← keyword_gap _ g] at htrue
  have hunits : unitFrom LengthUnit.all [.ch a .letter, .ch b .letter, .ch ' ' .space] =
      match LengthUnit.ofName? (String.ofList [a, b]) with
      | some u => .ok (u, [.ch ' ' .space])
      | none => .error (.scan .illegalUnit) := by
    rw [hofName]
    exact unitFrom_letters ha hb LengthUnit.all
  change (keyword "true" >>= fun _ => unitFrom LengthUnit.all >>= fun u =>
    pure (u, GlueOrder.normal)) _ = _
  rw [bind_ok htrue]
  cases hu : LengthUnit.ofName? (String.ofList [a, b]) with
  | some u =>
    rw [hu] at hunits
    rw [bind_ok hunits]
    rfl
  | none =>
    rw [hu] at hunits
    exact bind_error hunits

end Reading

/-! ## The two readers -/

namespace Dimension

theorem ofSp?_neg (n : Int) : ofSp? (-n) = (ofSp? n).map neg := by
  unfold ofSp? maxDimension
  split
  · rename_i h
    rw [dif_pos (by omega)]
    rfl
  · rename_i h
    rw [dif_neg (by omega)]
    rfl

/-- The sign may be applied before the rounding or after it. -/
theorem ofUnits?_neg (q : Rat) (u : LengthUnit) : ofUnits? (-q) u = (ofUnits? q u).map neg := by
  have hsp : spOf (-q) u = -spOf q u := by
    rw [spOf, Rat.neg_mul, Rat.neg_mul, Number.round_neg, spOf]
  rw [ofUnits?, hsp, ofSp?_neg, ofUnits?]

/-- The length that a number of units is, before rounding, in scaled points. -/
def Written.exact (w : Written) (u : LengthUnit) : Rat :=
  (if w.negative then -w.value else w.value) * u.points * 65536

theorem parse_eq {s : List Char} {w : Written} (hw : takeApart? s = some w) (n : Numeral)
    (hn : n.text = w.number) :
    parse (String.ofList s) =
      match LengthUnit.ofName? (String.ofList w.unit) with
      | some u =>
        match ofUnits? (if w.negative then -n.value else n.value) u with
        | some d => .ok d
        | none => .error .tooLarge
      | none => .error (.unknownUnit (String.ofList w.unit)) := by
  have hread : readNumber (String.ofList w.number) = .ok n.value := hn ▸ n.readNumber_text
  unfold parse
  rw [String.toList_ofList, hw]
  simp only [ofText]
  cases LengthUnit.ofName? (String.ofList w.unit) with
  | none => rfl
  | some u =>
    simp only [hread]
    change (checked (ofUnits? n.value u) >>= fun d =>
      pure (if w.negative then d.neg else d) : Except DimensionError Dimension) = _
    cases w.negative with
    | false =>
      simp only [Bool.false_eq_true, if_false]
      cases ofUnits? n.value u <;> rfl
    | true =>
      simp only [if_true, ofUnits?_neg]
      cases ofUnits? n.value u <;> rfl

end Dimension

namespace Reading

/-- What reading a dimension off the tokens of its text comes to. -/
theorem flex_lineTokens {s : List Char} {w : Dimension.Written}
    (hw : Dimension.takeApart? s = some w) (h : Text.Plain s) :
    flex false (Alphabet.lineTokens {} (String.ofList s)) =
      match Dimension.parse (String.ofList s) with
      | .ok d => .ok (⟨d, .normal⟩, [])
      | .error .tooLarge => .error (.scan .tooLarge)
      | .error _ => .error (.scan .illegalUnit) := by
  obtain ⟨p⟩ := Dimension.exists_of_takeApart? hw
  obtain ⟨n, hn⟩ := p.exists_numeral h
  rw [p.lineTokens h, Dimension.parse_eq hw n hn, ← hn, p.unit]
  have hx : ∃ x ts, Phase.gap p.gap ++ [.ch p.a .letter, .ch p.b .letter, .ch ' ' .space] =
      x :: ts ∧ decimalChar? x = none := by
    unfold Phase.gap
    split
    · exact ⟨_, _, rfl, rfl⟩
    · exact ⟨_, _, rfl, rfl⟩
  obtain ⟨x, ts, hts, hx⟩ := hx
  have hunit := unit_letters p.letters.1 p.letters.2 p.gap
  rw [hts] at hunit ⊢
  rw [flex_numeral p.signed n hx]
  cases hu : LengthUnit.ofName? (String.ofList [p.a, p.b]) with
  | none =>
    rw [hu] at hunit
    exact bind_error hunit
  | some u =>
    rw [hu] at hunit
    have hspace : optionalSpace [.ch ' ' .space] = .ok ((), []) := rfl
    rw [bind_ok hunit, bind_ok hspace]
    simp only [amount, n.readDecimal?_plain]
    cases Dimension.ofUnits? (if w.negative then -n.value else n.value) u <;> rfl

end Reading

namespace Quantity

/-- Characters of these categories are inert. -/
theorem inert_parts {s s' : List Char} {g g' : List Char} (a b : Char) :
    ∀ t ∈ others s ++ (Phase.gap g ++ (others s' ++ (Phase.gap g' ++
      [Token.ch a .letter, .ch b .letter, .ch ' ' .space]))), t.Inert {} := by
  have hothers (s : List Char) : ∀ t ∈ others s, t.Inert {} := by
    intro t ht
    obtain ⟨c, -, rfl⟩ := List.mem_map.mp ht
    exact Token.inert_ch {} c nofun
  have hgap (g : List Char) : ∀ t ∈ Phase.gap g, t.Inert {} := by
    intro t ht
    unfold Phase.gap at ht
    split at ht
    · cases ht
    · exact List.mem_singleton.mp ht ▸ Token.inert_ch {} ' ' nofun
  intro t ht
  simp only [List.mem_append, List.mem_cons, List.not_mem_nil, or_false] at ht
  rcases ht with ht | ht | ht | ht | rfl | rfl | rfl
  · exact hothers s t ht
  · exact hgap g t ht
  · exact hothers s' t ht
  · exact hgap g' t ht
  · exact Token.inert_ch {} a nofun
  · exact Token.inert_ch {} b nofun
  · exact Token.inert_ch {} ' ' nofun

/-- A text of a dimension in plain digits, spaces and tabs is read off a new line as it is parsed:
to the same dimension, which is the one nearest to the exact length, with nothing of the line left,
or with a fault that says why. -/
theorem flex_parse {text : String} {w : Dimension.Written}
    (hw : Dimension.takeApart? text.toList = some w) (hplain : Text.Plain text.toList)
    (nested : Bool) {capacity : Capacity} (hroom : 4 < capacity.chunks) :
    match Dimension.parse text with
    | .ok d =>
      (∃ j, Reader.Comes (handler {}) (flex false) (.ofLines [text] false nested capacity)
        (.done ⟨d, .normal⟩ j) ∧ j.stream {} = []) ∧
      ∃ u, LengthUnit.ofName? (String.ofList w.unit) = some u ∧ Number.Nearest (w.exact u) d.sp
    | .error .tooLarge =>
      ∃ f j, Reader.Comes (handler {}) (flex false) (.ofLines [text] false nested capacity)
        (.failed f j) ∧ f.cause.message = "dimension too large"
    | .error (.unknownUnit _) =>
      ∃ f j, Reader.Comes (handler {}) (flex false) (.ofLines [text] false nested capacity)
        (.failed f j) ∧ f.cause.message = "illegal unit of measure"
    | .error _ => False := by
  obtain ⟨p⟩ := Dimension.exists_of_takeApart? hw
  obtain ⟨n, hn⟩ := p.exists_numeral hplain
  have hread := Reading.flex_lineTokens hw hplain
  have hparse := Dimension.parse_eq hw n hn
  have hinert : ∀ t ∈ Alphabet.lineTokens {} text, t.Inert {} := by
    rw [← String.ofList_toList (s := text), p.lineTokens hplain]
    exact inert_parts p.a p.b
  rw [String.ofList_toList] at hread hparse
  have hreads : Scan.Reads {} 4 (flex false) (Reading.flex false) :=
    Scan.flex_reads (Nat.le_refl 4) false
  rw [hparse] at hread ⊢
  cases hu : LengthUnit.ofName? (String.ofList w.unit) with
  | none =>
    simp only [hu] at hread ⊢
    obtain ⟨f, j, hj, hf⟩ := hreads.line_error hinert hroom hread
    exact ⟨f, j, hj, by rw [hf]; rfl⟩
  | some u =>
    simp only [hu] at hread ⊢
    cases hd : Dimension.ofUnits? (if w.negative then -n.value else n.value) u with
    | none =>
      simp only [hd] at hread ⊢
      obtain ⟨f, j, hj, hf⟩ := hreads.line_error hinert hroom hread
      exact ⟨f, j, hj, by rw [hf]; rfl⟩
    | some d =>
      simp only [hd] at hread ⊢
      refine ⟨hreads.line_ok hinert hroom hread, u, rfl, ?_⟩
      rw [Dimension.ofUnits?, Dimension.ofSp?_eq_some_iff] at hd
      rw [hd, Dimension.spOf, Dimension.Written.exact, Numeral.value_eq hn]
      exact Number.round_nearest _

/-- Two and a half picas, negative, with blanks in all places. -/
def spaced : String := " -\t2,5 Pc "

theorem flex_parse_spaced :
    Dimension.takeApart? spaced.toList = some ⟨true, ['2', ',', '5'], ['P', 'c']⟩ ∧
      Text.Plain spaced.toList ∧
      ∃ d, Dimension.parse spaced = .ok d ∧ d.sp = -1966080 ∧
        ∃ j, Reader.Comes (handler {}) (flex false)
          (.ofLines [spaced] false true { chunks := 5000 }) (.done ⟨d, .normal⟩ j) ∧
          j.stream {} = [] := by
  have hw : Dimension.takeApart? spaced.toList = some ⟨true, ['2', ',', '5'], ['P', 'c']⟩ := by
    decide +kernel
  have hplain : Text.Plain spaced.toList := .of_all (by decide +kernel) (by decide +kernel)
  have hparse : Dimension.parse spaced = .ok ⟨-1966080, by decide, by decide⟩ := by
    decide +kernel
  have h := @flex_parse spaced _ hw hplain true { chunks := 5000 } (by decide)
  rw [hparse] at h
  exact ⟨hw, hplain, _, hparse, rfl, h.1⟩

end Quantity

end Galley
