import Mathlib.Data.Nat.Digits.Defs
import Galley.Proofs.Lookahead
import Galley.Proofs.Quantities

/-!
Integers. Signs and spaces, a mark of the radix and digits are read for the integer that they
denote, however they come to be delivered, and what is behind them is left, but for one space; and
where no digit comes, the token that is none is left, too (`Input.int_exact`).
-/

namespace Galley

/-! ## Written integers -/

/-- Only signs and spaces. -/
def Marks (ts : List Lexeme) : Prop :=
  ∀ t ∈ ts, t.token.isSpace = true ∨ t.token = .ch '-' .other ∨ t.token = .ch '+' .other

/-- The number of minus signs. -/
def minuses (ts : List Lexeme) : Nat := ts.countP fun t => t.token = .ch '-' .other

/-- What stands before the digits of that radix. -/
inductive RadixMark : Nat → List Lexeme → Prop
  | decimal : RadixMark 10 []
  | octal {t : Lexeme} (h : t.token = .ch '\'' .other) : RadixMark 8 [t]
  | hexadecimal {t : Lexeme} (h : t.token = .ch '"' .other) : RadixMark 16 [t]

/-- A digit of that radix: up to nine an other character, above it a capital letter of category
letter or other. -/
def DigitOf (radix : Nat) (t : Lexeme) (d : Nat) : Prop :=
  d < radix ∧ ∃ c cat, t.token = .ch c cat ∧
    ((d ≤ 9 ∧ c.toNat = 48 + d ∧ cat = .other) ∨
      (10 ≤ d ∧ d ≤ 15 ∧ c.toNat = 55 + d ∧ (cat = .other ∨ cat = .letter)))

/-- The code point of a character or of a control sequence of one character. -/
def CodePoint (t : Lexeme) (n : Nat) : Prop :=
  (∃ c cat, t.token = .ch c cat ∧ n = c.toNat) ∨
    ∃ c, t.token = .cs (String.singleton c) ∧ n = c.toNat

variable {tables : Tables} {i j k : Input} {b : Option Input} {t : Lexeme}
  {ts us vs blanks marks front : List Lexeme} {x : Option Lexeme} {radix d n : Nat}

theorem isOther_singleton (t : Token) (c : Char) : t.isOther [c] = true ↔ t = .ch c .other := by
  cases t with
  | cs name => simp [Token.isOther]
  | ch d cat =>
    simp only [Token.isOther, Bool.and_eq_true, decide_eq_true_eq, List.contains_iff_mem,
      List.mem_singleton, Token.ch.injEq]
    exact And.comm

theorem Quantity.digit?_iff : digit? radix (some t) = some d ↔ DigitOf radix t d := by
  obtain ⟨token, span⟩ := t
  unfold digit? DigitOf
  cases token with
  | cs name => simp
  | ch c cat =>
    simp only [Token.ch.injEq]
    constructor
    · intro h
      split at h
      · rename_i hc
        obtain ⟨hlow, hhigh, hcat, hlt⟩ := hc
        cases h
        exact ⟨hlt, c, cat, ⟨rfl, rfl⟩, Or.inl ⟨by omega, by omega, hcat⟩⟩
      · split at h
        · rename_i hc
          obtain ⟨hlow, hhigh, hcat, hlt⟩ := hc
          cases h
          exact ⟨hlt, c, cat, ⟨rfl, rfl⟩, Or.inr ⟨by omega, by omega, by omega, hcat⟩⟩
        · cases h
    · rintro ⟨hlt, c, cat, ⟨rfl, rfl⟩, ⟨hd, hc, rfl⟩ | ⟨hd, hd', hc, hcat⟩⟩
      · rw [if_pos ⟨by omega, by omega, rfl, by omega⟩]
        exact congrArg some (by omega)
      · rw [if_neg (by omega), if_pos ⟨by omega, by omega, hcat, by omega⟩]
        exact congrArg some (by omega)

theorem Quantity.constant?_iff : constant? (some t) = some n ↔ CodePoint t n := by
  obtain ⟨token, span⟩ := t
  unfold constant? CodePoint
  cases token with
  | ch c cat => simp [eq_comm]
  | cs name =>
    constructor
    · intro h
      simp only at h
      split at h
      · rename_i c hname
        cases h
        have hname : name = String.singleton c := by
          rw [← String.ofList_toList (s := name), hname]
          rfl
        exact Or.inr ⟨c, by rw [hname], rfl⟩
      · cases h
    · rintro (⟨c, cat, h, rfl⟩ | ⟨c, h, rfl⟩)
      · cases h
      · cases h
        simp

/-! ## Signs -/

namespace Scan

/-- Neither a sign nor a space comes first. -/
def Unsigned (ts : List Lexeme) : Prop := ∀ t ∈ ts.head?, ¬ Marks [t]

theorem Unsigned.not_space (h : Unsigned ts) : Quantity.isSpace ts.head? = false := by
  cases ts with
  | nil => rfl
  | cons t ts =>
    cases hs : t.token.isSpace with
    | false => exact hs
    | true =>
      have hmarks : Marks [t] := List.forall_mem_singleton.mpr (Or.inl hs)
      exact absurd hmarks (h t rfl)

theorem Unsigned.not_sign (h : Unsigned ts) :
    Quantity.isOther ts.head? ['-'] = false ∧ Quantity.isOther ts.head? ['+'] = false := by
  cases ts with
  | nil => exact ⟨rfl, rfl⟩
  | cons t ts =>
    have ht := h t rfl
    simp only [Marks, List.forall_mem_singleton, not_or, ← isOther_singleton] at ht
    exact ⟨Bool.eq_false_iff.mpr ht.2.1, Bool.eq_false_iff.mpr ht.2.2⟩

/-- Whether signs make a number negative, where it was or was not before. -/
def negativeAfter (negative : Bool) (marks : List Lexeme) : Bool :=
  marks.foldl (fun n t => if t.token = .ch '-' .other then !n else n) negative

theorem negate_negativeAfter {R : Type} [Ring R] (negative : Bool) (marks : List Lexeme) (q : R) :
    (if negativeAfter negative marks then -q else q) =
      (-1) ^ minuses marks * if negative then -q else q := by
  induction marks generalizing negative with
  | nil =>
    change (if negative then -q else q) = _
    simp [minuses]
  | cons t marks ih =>
    have hstep := ih (if t.token = .ch '-' .other then !negative else negative)
    unfold negativeAfter at hstep ⊢
    rw [List.foldl_cons, hstep]
    unfold minuses
    by_cases ht : t.token = .ch '-' .other
    · cases negative <;> simp [ht, pow_succ]
    · simp [ht]

/-- Each minus sign negates. -/
theorem negate_marks {R : Type} [Ring R] (marks : List Lexeme) (q : R) :
    (if negativeAfter false marks then -q else q) = (-1) ^ minuses marks * q :=
  negate_negativeAfter false marks q

theorem signed_marks (marks : List Lexeme) (n : Int) :
    Quantity.signed (negativeAfter false marks) n = (-1) ^ minuses marks * n :=
  negate_marks marks n

theorem takes_signStep (hb : AllSpaces blanks) (hin : InSight ts b) (hu : Unsigned ts)
    (negative : Bool) :
    Takes tables (signStep negative) b (blanks ++ ts) (.ok (.finish negative)) ts := by
  refine .of_inert fun hinert => (takes_nonBlank hb hin hu.not_space).bind ?_
  simp only [hu.not_sign.1, hu.not_sign.2]
  exact (takes_unread (List.forall_mem_append.mp hinert).2).bind (takes_pure _ _)

theorem takes_signStep_again (hb : AllSpaces blanks) (negative : Bool)
    (ht : t.token = .ch '-' .other ∨ t.token = .ch '+' .other) :
    Takes tables (signStep negative) b (blanks ++ t :: ts)
      (.ok (.again (negativeAfter negative [t]))) ts := by
  have hspace : Quantity.isSpace (t :: ts).head? = false := by
    rcases ht with ht | ht <;> simp [Quantity.isSpace, ht, Token.isSpace, Token.hasCategory]
  refine (takes_nonBlank hb (inSight_cons t ts b) hspace).bind ?_
  rcases ht with ht | ht
  · have hafter : negativeAfter negative [t] = !negative := by simp [negativeAfter, ht]
    have hminus : Quantity.isOther (some t) ['-'] = true := (isOther_singleton _ _).mpr ht
    simp only [List.head?_cons, hminus, if_true, hafter]
    exact takes_pure _ _
  · have hafter : negativeAfter negative [t] = negative := by simp [negativeAfter, ht]
    have hplus : Quantity.isOther (some t) ['+'] = true := (isOther_singleton _ _).mpr ht
    have hminus : Quantity.isOther (some t) ['-'] = false := by
      simp [Quantity.isOther, ht, Token.isOther]
    simp only [List.head?_cons, hminus, hplus, if_true, hafter]
    exact takes_pure _ _

theorem takes_signs (hm : Marks marks) (hin : InSight ts b) (hu : Unsigned ts) :
    Takes tables Quantity.signs b (marks ++ ts) (.ok (negativeAfter false marks)) ts := by
  suffices hall : ∀ (negative : Bool) (blanks : List Lexeme), AllSpaces blanks →
      Takes tables (.loop signStep negative) b (blanks ++ (marks ++ ts))
        (.ok (negativeAfter negative marks)) ts from hall false [] nofun
  -- the spaces before the next sign are read together with it
  induction marks with
  | nil =>
    intro negative blanks hb
    exact Takes.loop_finish (takes_signStep hb hin hu negative)
  | cons t marks ih =>
    obtain ⟨ht, hm⟩ := List.forall_mem_cons.mp hm
    intro negative blanks hb
    rcases ht with ht | ht
    · have hblanks : AllSpaces (blanks ++ [t]) :=
        List.forall_mem_append.mpr ⟨hb, List.forall_mem_singleton.mpr ht⟩
      have hsame : negativeAfter negative (t :: marks) = negativeAfter negative marks := by
        have hne : t.token ≠ .ch '-' .other := fun he => by
          rw [he] at ht
          cases ht
        rw [negativeAfter, List.foldl_cons, if_neg hne]
        rfl
      have hrest := ih hm negative (blanks ++ [t]) hblanks
      rw [hsame]
      rwa [List.append_assoc] at hrest
    · exact Takes.loop_again (takes_signStep_again hb negative ht)
        (ih hm (negativeAfter negative [t]) [] nofun)

/-! ## Digits -/

/-- No digit of that radix comes first. -/
def Undigited (radix : Nat) (ts : List Lexeme) : Prop := ∀ t ∈ ts.head?, ∀ d, ¬ DigitOf radix t d

theorem Undigited.digit? (h : Undigited radix ts) : Quantity.digit? radix ts.head? = none := by
  cases ts with
  | nil => rfl
  | cons t ts =>
    cases hd : Quantity.digit? radix (some t) with
    | none => exact hd
    | some d => exact absurd (Quantity.digit?_iff.mp hd) (h t rfl d)

/-- One round of reading digits. -/
def digitRound (radix : Nat) (s : Quantity.Digits) :
    Scan (Turn Quantity.Digits Quantity.Digits) := do
  match Quantity.digit? radix s.after with
  | some d => do
    let t ← next
    return .again ⟨s.value * radix + d, s.count + 1, t⟩
  | none => return .finish s

/-- The number that digits make behind others of that value. -/
def valueAfter (radix value : Nat) (ds : List Nat) : Nat :=
  ds.foldl (fun v d => v * radix + d) value

theorem valueAfter_eq (radix value : Nat) (ds : List Nat) :
    valueAfter radix value ds = value * radix ^ ds.length + Nat.ofDigits radix ds.reverse := by
  induction ds generalizing value with
  | nil => simp [valueAfter]
  | cons d ds ih =>
    have hstep := ih (value * radix + d)
    unfold valueAfter at hstep ⊢
    rw [List.foldl_cons, hstep, List.reverse_cons, Nat.ofDigits_append, Nat.ofDigits_singleton,
      List.length_reverse, List.length_cons, pow_succ]
    ring

/-- The first token has been read before. -/
theorem takes_digits {ds : List Nat} (hd : List.Forall₂ (DigitOf radix) us ds)
    (hin : InSight ts b) (hu : Undigited radix ts) (value count : Nat) :
    Takes tables (.loop (digitRound radix) ⟨value, count, (us ++ ts).head?⟩) b (us ++ ts).tail
      (.ok ⟨valueAfter radix value ds, count + us.length, ts.head?⟩) ts.tail := by
  induction hd generalizing value count with
  | nil =>
    apply Takes.loop_finish
    simp only [digitRound, List.nil_append, hu.digit?]
    exact takes_pure _ _
  | @cons t d us ds ht hrest ih =>
    have hsight : InSight (us ++ ts) b := fun h => hin (List.append_eq_nil_iff.mp h).2
    have hround : Takes tables (digitRound radix ⟨value, count, some t⟩) b (us ++ ts)
        (.ok (.again ⟨value * radix + d, count + 1, (us ++ ts).head?⟩)) (us ++ ts).tail := by
      simp only [digitRound, Quantity.digit?_iff.mpr ht]
      exact (takes_next hsight).bind (takes_pure _ _)
    have hdigits := ih (value * radix + d) (count + 1)
    have hcount : count + 1 + us.length = count + (t :: us).length := by
      rw [List.length_cons]
      omega
    rw [hcount] at hdigits
    exact Takes.loop_again hround hdigits

theorem takes_natural {ds : List Nat} (hne : us ≠ []) (hd : List.Forall₂ (DigitOf radix) us ds)
    (hin : InSight ts b) (hu : Undigited radix ts) :
    Takes tables (Quantity.natural radix (us ++ ts).head?) b (us ++ ts).tail
      (.ok (Nat.ofDigits radix ds.reverse)) (withoutSpace ts) := by
  refine .of_inert fun hinert => (takes_digits hd hin hu 0 0).bind ?_
  have hcount : us.length ≠ 0 := fun h => hne (List.length_eq_zero_iff.mp h)
  have hall : ∀ t ∈ ts, Inert tables t := by
    cases us with
    | nil => exact absurd rfl hne
    | cons u us => exact (List.forall_mem_append.mp hinert).2
  simp only [valueAfter_eq, Nat.zero_mul, Nat.zero_add, hcount, if_false]
  unfold withoutSpace
  cases Quantity.isSpace ts.head? with
  | true => exact takes_pure _ _
  | false => exact (takes_unread hall).bind (takes_pure _ _)

/-- Where no digit comes, the token that is none is put back. -/
theorem takes_natural_missing (hin : InSight ts b) (hu : Undigited radix ts)
    (hinert : ∀ t ∈ ts, Inert tables t) :
    Takes tables (Quantity.natural radix ts.head?) b ts.tail
      (.error (.scan .missingNumber)) ts := by
  have hnone : List.Forall₂ (DigitOf radix) [] [] := .nil
  exact (takes_digits hnone hin hu 0 0).bind ((takes_unread hinert).bind (takes_fail _ ts))

/-! ## Integers -/

/-- Neither a mark of the radix nor the quote before a character comes first. -/
def Unmarked (ts : List Lexeme) : Prop :=
  ∀ t ∈ ts.head?, ∀ c ∈ ['`', '\'', '"'], t.token ≠ .ch c .other

theorem Unmarked.not_other (h : Unmarked ts) {c : Char} (hc : c ∈ ['`', '\'', '"']) :
    Quantity.isOther ts.head? [c] = false := by
  cases ts with
  | nil => rfl
  | cons t ts =>
    exact Bool.eq_false_iff.mpr fun ht => h t rfl c hc ((isOther_singleton _ _).mp ht)

theorem Takes.bind_pure {α β : Type} {r : Scan α} {res : Except Cause α}
    (h : Takes tables r b ts res us) (f : α → β) :
    Takes tables (r >>= fun a => pure (f a)) b ts (res.map f) us := by
  cases res with
  | ok a => exact h.bind (takes_pure _ _)
  | error c => exact h.bind_error

theorem RadixMark.unsigned {pre : List Lexeme} (h : RadixMark radix pre)
    (hfirst : pre = [] → Unsigned ts) : Unsigned (pre ++ ts) := by
  have hsingle {t : Lexeme} {c : Char} (hc : c ≠ '-') (hc' : c ≠ '+')
      (ht : t.token = .ch c .other) : Unsigned ([t] ++ ts) := by
    intro u hu
    cases hu
    simp [Marks, ht, hc, hc', Token.isSpace, Token.hasCategory]
  cases h with
  | decimal => exact hfirst rfl
  | octal ht => exact hsingle (by decide) (by decide) ht
  | hexadecimal ht => exact hsingle (by decide) (by decide) ht

/-- What is read of an integer behind its signs and a mark of the radix. -/
theorem takes_int_of_natural {pre : List Lexeme} {res : Except Cause Nat} (hm : Marks marks)
    (hpre : RadixMark radix pre) (hin : InSight ts b)
    (hfirst : pre = [] → Unsigned ts ∧ Unmarked ts)
    (h : Takes tables (Quantity.natural radix ts.head?) b ts.tail res vs) :
    Takes tables Quantity.int b (marks ++ (pre ++ ts))
      (res.map fun n : Nat => Quantity.signed (negativeAfter false marks) n) vs := by
  have hsight : InSight (pre ++ ts) b := fun he => hin (List.append_eq_nil_iff.mp he).2
  have hunsigned : Unsigned (pre ++ ts) := RadixMark.unsigned hpre fun he => (hfirst he).1
  refine (takes_signs hm hsight hunsigned).bind ((takes_next hsight).bind ?_)
  have hnatural := h.bind_pure fun n : Nat => Quantity.signed (negativeAfter false marks) n
  cases hpre with
  | decimal =>
    have hmarked := (hfirst rfl).2
    simp only [List.nil_append, hmarked.not_other (c := '`') (by simp),
      hmarked.not_other (c := '\'') (by simp), hmarked.not_other (c := '"') (by simp),
      Bool.false_eq_true, if_false]
    exact hnatural
  | @octal t ht =>
    have hquote : Quantity.isOther (some t) ['`'] = false := by
      simp [Quantity.isOther, ht, Token.isOther]
    have hmark : Quantity.isOther (some t) ['\''] = true := (isOther_singleton _ _).mpr ht
    simp only [List.cons_append, List.head?_cons, hquote, hmark, Bool.false_eq_true, if_false,
      if_true]
    exact (takes_next hin).bind hnatural
  | @hexadecimal t ht =>
    have hquote : Quantity.isOther (some t) ['`'] = false := by
      simp [Quantity.isOther, ht, Token.isOther]
    have hprime : Quantity.isOther (some t) ['\''] = false := by
      simp [Quantity.isOther, ht, Token.isOther]
    have hmark : Quantity.isOther (some t) ['"'] = true := (isOther_singleton _ _).mpr ht
    simp only [List.cons_append, List.head?_cons, hquote, hprime, hmark, Bool.false_eq_true,
      if_false, if_true]
    exact (takes_next hin).bind hnatural

end Scan

theorem DigitOf.not_sign (h : DigitOf radix t d) : ¬ Marks [t] := by
  obtain ⟨-, c, cat, ht, h⟩ := h
  rw [Marks, List.forall_mem_singleton]
  rintro (hspace | hminus | hplus)
  · rw [ht] at hspace
    rcases h with ⟨-, -, rfl⟩ | ⟨-, -, -, rfl | rfl⟩ <;> cases hspace
  · cases ht.symm.trans hminus
    rcases h with ⟨-, hc, -⟩ | ⟨-, -, hc, -⟩
    · have h45 : '-'.toNat = 45 := rfl
      omega
    · have h45 : '-'.toNat = 45 := rfl
      omega
  · cases ht.symm.trans hplus
    rcases h with ⟨-, hc, -⟩ | ⟨-, -, hc, -⟩
    · have h43 : '+'.toNat = 43 := rfl
      omega
    · have h43 : '+'.toNat = 43 := rfl
      omega

theorem DigitOf.not_mark (h : DigitOf radix t d) :
    ∀ c ∈ ['`', '\'', '"'], t.token ≠ .ch c .other := by
  obtain ⟨-, c, cat, ht, h⟩ := h
  intro e he hte
  have hce : e = c := (Token.ch.inj (hte.symm.trans ht)).1
  have hcode : c.toNat = 96 ∨ c.toNat = 39 ∨ c.toNat = 34 := by
    simp only [hce, List.mem_cons, List.not_mem_nil, or_false] at he
    rcases he with rfl | rfl | rfl
    · exact Or.inl rfl
    · exact Or.inr (Or.inl rfl)
    · exact Or.inr (Or.inr rfl)
  rcases h with ⟨hd, hc, -⟩ | ⟨-, hd, hc, -⟩ <;> omega

namespace Input

variable {pre digits : List Lexeme} {ds : List Nat} {l l' k' : Input} {quote : Lexeme}

/-- What is left where one space may go. -/
theorem exists_leads_withoutSpace (hx : Answers tables k (.done x k')) :
    ∃ b, InSight x.toList b ∧ Leads tables k x.toList b ∧
      ∀ j, Leads tables j (Scan.withoutSpace x.toList) b →
        Precedes tables j [] (if Quantity.isSpace x then k' else k) := by
  cases x with
  | none =>
    have hk : Leads tables k [] none := .ended hx
    exact ⟨none, fun _ => rfl, hk, fun j hj => hj.same hk⟩
  | some t =>
    have hk : Leads tables k [t] (some k') := .next hx (.here (.refl k'))
    refine ⟨some k', Scan.inSight_cons t [] _, hk, fun j hj => ?_⟩
    unfold Scan.withoutSpace at hj
    rw [Option.toList_some, List.head?_cons] at hj
    cases hs : Quantity.isSpace (some t) with
    | true =>
      rw [hs] at hj
      exact hj.same (.here (.refl k'))
    | false =>
      rw [hs] at hj
      exact hj.same hk

theorem int_of_digits (hm : Marks marks) (hpre : RadixMark radix pre) (hne : digits ≠ [])
    (hd : List.Forall₂ (DigitOf radix) digits ds)
    (hi : Delivers tables i (marks ++ (pre ++ digits)) k) (hx : Answers tables k (.done x k'))
    (hu : ∀ t ∈ x, ∀ d, ¬ DigitOf radix t d) :
    Overrun tables Quantity.int i ∨
      ∃ j, Reader.Comes (handler tables) Quantity.int i
          (.done ((-1) ^ minuses marks * ((Nat.ofDigits radix ds.reverse : Nat) : Int)) j) ∧
        Precedes tables j [] (if Quantity.isSpace x then k' else k) := by
  obtain ⟨b, hin, hk, hleft⟩ := exists_leads_withoutSpace hx
  have hhead : x.toList.head? = x := by cases x <;> rfl
  have hundigited : Scan.Undigited radix x.toList := fun t ht => hu t (by rwa [hhead] at ht)
  have hsight : InSight (digits ++ x.toList) b :=
    fun he => absurd (List.append_eq_nil_iff.mp he).1 hne
  have hfirst : pre = [] →
      Scan.Unsigned (digits ++ x.toList) ∧ Scan.Unmarked (digits ++ x.toList) := by
    intro _
    cases hd with
    | nil => exact absurd rfl hne
    | cons ht hrest =>
      exact ⟨fun u hu => by cases hu; exact ht.not_sign,
        fun u hu => by cases hu; exact ht.not_mark⟩
  have htakes : Scan.Takes tables Quantity.int b (marks ++ (pre ++ (digits ++ x.toList)))
      (.ok (Quantity.signed (Scan.negativeAfter false marks) (Nat.ofDigits radix ds.reverse : Nat)))
      (Scan.withoutSpace x.toList) :=
    Scan.takes_int_of_natural hm hpre hsight hfirst (Scan.takes_natural hne hd hin hundigited)
  have hleads : Leads tables i (marks ++ (pre ++ (digits ++ x.toList))) b := by
    have h := Leads.of_delivers hi hk
    simpa only [List.append_assoc] using h
  rcases htakes i hleads with ho | ⟨j, hj, hl⟩
  · exact Or.inl ho
  · refine Or.inr ⟨j, ?_, hleft j hl⟩
    rw [← Scan.signed_marks]
    exact hj

/-- A character behind a quote is read raw, so the readers behind it are followed one by one. -/
theorem constant_of_next (hlike : k.Like i) (ht : k.next tables.alphabet = .done (some t) l)
    (hn : CodePoint t n) (hx : Answers tables l (.done x l')) :
    Overrun tables Quantity.constant i ∨
      ∃ j, Reader.Comes (handler tables) Quantity.constant i (.done n j) ∧
        Precedes tables j [] (if Quantity.isSpace x then l' else l) := by
  have hnext := (hlike.next (a := tables.alphabet)).related
  rw [ht] at hnext
  cases hi : i.next tables.alphabet with
  | failed f i' =>
    rw [hi] at hnext
    exact hnext.elim
  | unfinished =>
    rw [hi] at hnext
    exact hnext.elim
  | done y i' =>
    rw [hi] at hnext
    obtain ⟨rfl, hl⟩ := hnext
    have hraw : Reader.Comes (handler tables) Scan.nextRaw i (.done (some t) i') :=
      ⟨0, fun _ _ => hi⟩
    obtain ⟨b, hin, hlead, hleft⟩ := exists_leads_withoutSpace hx
    have hspace : Scan.Takes tables (Quantity.optionalSpace >>= fun _ => pure n) b x.toList (.ok n)
        (Scan.withoutSpace x.toList) := (Scan.takes_optionalSpace hin).bind_pure fun _ => n
    have hconstant : Quantity.constant? (some t) = some n := Quantity.constant?_iff.mpr hn
    unfold Quantity.constant
    rcases hspace i' (hl.leads hlead) with ho | ⟨j, hj, hjlead⟩
    · refine Or.inl (Overrun.of_bind hraw ?_)
      simp only [hconstant]
      exact ho
    · refine Or.inr ⟨j, Reader.Comes.bind hraw ?_, hleft j hjlead⟩
      simp only [hconstant]
      exact hj

theorem int_of_quote (hm : Marks marks) (hquote : quote.token = .ch '`' .other)
    (hi : Delivers tables i (marks ++ [quote]) k)
    (ht : k.next tables.alphabet = .done (some t) l) (hn : CodePoint t n)
    (hx : Answers tables l (.done x l')) :
    Overrun tables Quantity.int i ∨
      ∃ j, Reader.Comes (handler tables) Quantity.int i (.done ((-1) ^ minuses marks * n) j) ∧
        Precedes tables j [] (if Quantity.isSpace x then l' else l) := by
  have hunsigned : Scan.Unsigned [quote] := by
    intro u hu
    cases hu
    simp [Marks, hquote, Token.isSpace, Token.hasCategory]
  have hsigns : Scan.Takes tables Quantity.signs (some k) (marks ++ [quote])
      (.ok (Scan.negativeAfter false marks)) [quote] :=
    Scan.takes_signs hm (Scan.inSight_cons quote [] (some k)) hunsigned
  unfold Quantity.int
  rcases hsigns i hi.leads with ho | ⟨m, hm, hlead⟩
  · exact Or.inl ho.bind
  obtain ⟨p, hp, hlike⟩ : ∃ p, Answers tables m (.done (some quote) p) ∧ k.Like p := by
    cases hlead with
    | next hp rest =>
      cases rest with
      | here h => exact ⟨_, hp, h.symm⟩
  have hmark : Quantity.isOther (some quote) ['`'] = true := (isOther_singleton _ _).mpr hquote
  have hsign := Scan.signed_marks marks n
  rcases constant_of_next hlike ht hn hx with ho | ⟨j, hj, hleft⟩
  · refine Or.inl (Overrun.of_bind hm (Overrun.of_bind hp ?_))
    simp only [hmark, if_true]
    exact ho.bind
  · refine Or.inr ⟨j, Reader.Comes.bind hm (Reader.Comes.bind hp ?_), hleft⟩
    simp only [hmark, if_true, ← hsign]
    exact Reader.Comes.bind hj (Reader.Comes.pure _)

theorem int_of_nothing (hm : Marks marks) (hpre : RadixMark radix pre)
    (hi : Delivers tables i (marks ++ pre) k) (hx : Answers tables k (.done x k'))
    (hu : ∀ t ∈ x, ∀ d, ¬ DigitOf radix t d)
    (hfirst : pre = [] → ∀ t ∈ x, ¬ Marks [t] ∧ ∀ c ∈ ['`', '\'', '"'], t.token ≠ .ch c .other) :
    Overrun tables Quantity.int i ∨
      ∃ f j, Reader.Comes (handler tables) Quantity.int i (.failed f j) ∧
        f.cause = .scan .missingNumber ∧ Precedes tables j [] k := by
  obtain ⟨b, hin, hk⟩ := exists_leads_of_answers hx
  have hhead : x.toList.head? = x := by cases x <;> rfl
  have hundigited : Scan.Undigited radix x.toList := fun t ht => hu t (by rwa [hhead] at ht)
  have hplain : pre = [] → Scan.Unsigned x.toList ∧ Scan.Unmarked x.toList := fun he =>
    ⟨fun t ht => (hfirst he t (by rwa [hhead] at ht)).1,
      fun t ht => (hfirst he t (by rwa [hhead] at ht)).2⟩
  have htakes : Scan.Takes tables Quantity.int b (marks ++ (pre ++ x.toList))
      (.error (.scan .missingNumber)) x.toList :=
    Scan.takes_int_of_natural hm hpre hin hplain
      (Scan.takes_natural_missing hin hundigited hk.inert)
  have hleads : Leads tables i (marks ++ (pre ++ x.toList)) b := by
    have h := Leads.of_delivers hi hk
    rwa [List.append_assoc] at h
  rcases htakes i hleads with ho | ⟨j, ⟨f, hf, hc⟩, hl⟩
  · exact Or.inl ho
  · exact Or.inr ⟨f, j, hf, hc, hl.same hk⟩

/-- Unless the input stack is full, signs and digits are read for the integer that they denote, of
any length, and what is behind them is left, without its first token if that is a space; so is a
character behind a quote read for its code point; and where no digit comes, the number is missing,
and what comes instead of it is left. -/
theorem int_exact (tables : Tables) {i : Input} {marks : List Lexeme} (hm : Marks marks) :
    (∀ radix pre digits ds k x k', RadixMark radix pre → digits ≠ [] →
      List.Forall₂ (DigitOf radix) digits ds →
      Delivers tables i (marks ++ (pre ++ digits)) k → Answers tables k (.done x k') →
      (∀ t ∈ x, ∀ d, ¬ DigitOf radix t d) →
      Overrun tables Quantity.int i ∨
        ∃ j, Reader.Comes (handler tables) Quantity.int i
            (.done ((-1) ^ minuses marks * ((Nat.ofDigits radix ds.reverse : Nat) : Int)) j) ∧
          Precedes tables j [] (if Quantity.isSpace x then k' else k)) ∧
    (∀ (quote : Lexeme) k t l (n : Nat) x l', quote.token = .ch '`' .other →
      Delivers tables i (marks ++ [quote]) k → k.next tables.alphabet = .done (some t) l →
      CodePoint t n → Answers tables l (.done x l') →
      Overrun tables Quantity.int i ∨
        ∃ j, Reader.Comes (handler tables) Quantity.int i (.done ((-1) ^ minuses marks * n) j) ∧
          Precedes tables j [] (if Quantity.isSpace x then l' else l)) ∧
    (∀ radix pre k x k', RadixMark radix pre → Delivers tables i (marks ++ pre) k →
      Answers tables k (.done x k') → (∀ t ∈ x, ∀ d, ¬ DigitOf radix t d) →
      (pre = [] → ∀ t ∈ x,
        ¬ Marks [t] ∧ ∀ c ∈ ['`', '\'', '"'], t.token ≠ .ch c .other) →
      Overrun tables Quantity.int i ∨
        ∃ f j, Reader.Comes (handler tables) Quantity.int i (.failed f j) ∧
          f.cause = .scan .missingNumber ∧ Precedes tables j [] k) :=
  ⟨fun _ _ _ _ _ _ _ hpre hne hd hi hx hu => int_of_digits hm hpre hne hd hi hx hu,
    fun _ _ _ _ _ _ _ hquote hi ht hn hx => int_of_quote hm hquote hi ht hn hx,
    fun _ _ _ _ _ hpre hi hx hu hfirst => int_of_nothing hm hpre hi hx hu hfirst⟩

/-- Other characters that are pending, and no lines. -/
def pendingOthers (room : Int) (s : List Char) : Input := pendingTokens room (charsOf .other s)

theorem pendingOthers_delivers (room : Int) (s t : List Char) :
    Delivers {} (pendingOthers room (s ++ t)) (charsOf .other s) (pendingOthers room t) := by
  have hdelivers := pendingTokens_delivers room (charsOf .other t) (charsOf_plain .other s)
  rwa [charsOf, charsOf, ← List.map_append] at hdelivers

theorem pendingOthers_answers (room : Int) (c : Char) (t : List Char) :
    Answers {} (pendingOthers room (c :: t))
      (.done (some ⟨.ch c .other, none⟩) (pendingOthers room t)) :=
  pendingTokens_answers room _ ⟨rfl, rfl⟩ rfl

theorem int_exact_pending :
    (∃ j, Reader.Comes (handler {}) Quantity.int
        (pendingOthers 2 ['-', '\'', '1', '7', 'x']) (.done (-15) j) ∧
      Precedes {} j [] (pendingOthers 2 ['x'])) ∧
    (∃ j, Reader.Comes (handler {}) Quantity.int
        (pendingOthers 2 ['-', '`', 'a', 'x']) (.done (-97) j) ∧
      Precedes {} j [] (pendingOthers 2 ['x'])) ∧
    ∃ f j, Reader.Comes (handler {}) Quantity.int (pendingOthers 2 ['-', '\'', 'x'])
        (.failed f j) ∧ f.cause = .scan .missingNumber ∧
      Precedes {} j [] (pendingOthers 2 ['x']) := by
  have himproving := handler_improving {}
  have hmarks : Marks [⟨.ch '-' .other, none⟩] := by simp [Marks]
  have hx := pendingOthers_answers 2 'x' []
  have hnone : ∀ t ∈ (some ⟨.ch 'x' .other, none⟩ : Option Lexeme), ∀ d, ¬ DigitOf 8 t d := by
    intro t ht d hd
    cases ht
    have hdigit := Quantity.digit?_iff.mpr hd
    revert hdigit
    exact nofun
  refine ⟨?_, ?_, ?_⟩
  · have hds : List.Forall₂ (DigitOf 8) [⟨.ch '1' .other, none⟩, ⟨.ch '7' .other, none⟩] [1, 7] :=
      .cons (Quantity.digit?_iff.mp rfl) (.cons (Quantity.digit?_iff.mp rfl) .nil)
    have hexact := (int_exact {} hmarks).1 8 _ _ _ _ _ _ (.octal rfl) (List.cons_ne_nil _ _) hds
      (pendingOthers_delivers 2 ['-', '\'', '1', '7'] ['x']) hx hnone
    obtain ⟨n, j, hrun, -⟩ := Outcome.exists_done_of_yields (p := fun _ => True)
      (o := Quantity.int.run (handler {} 20) 20 (pendingOthers 2 ['-', '\'', '1', '7', 'x']))
      (by decide +kernel)
    exact hexact.resolve_left fun ho => ho.not_done (Reader.Comes.of_run himproving hrun nofun)
  · have hcode : CodePoint ⟨.ch 'a' .other, none⟩ 97 := Or.inl ⟨'a', .other, rfl, rfl⟩
    have hexact := (int_exact {} hmarks).2.1 ⟨.ch '`' .other, none⟩ _ _ _ 97 _ _ rfl
      (pendingOthers_delivers 2 ['-', '`'] ['a', 'x']) rfl hcode hx
    obtain ⟨n, j, hrun, -⟩ := Outcome.exists_done_of_yields (p := fun _ => True)
      (o := Quantity.int.run (handler {} 20) 20 (pendingOthers 2 ['-', '`', 'a', 'x']))
      (by decide +kernel)
    exact hexact.resolve_left fun ho => ho.not_done (Reader.Comes.of_run himproving hrun nofun)
  · have hexact := (int_exact {} hmarks).2.2 8 _ _ _ _ (.octal rfl)
      (pendingOthers_delivers 2 ['-', '\''] ['x']) hx hnone nofun
    obtain ⟨f, j, hrun, hf⟩ := Outcome.exists_failed_of_failedBy
      (p := fun f => f.cause = .scan .missingNumber)
      (o := Quantity.int.run (handler {} 20) 20 (pendingOthers 2 ['-', '\'', 'x']))
      (by decide +kernel)
    refine hexact.resolve_left fun ho => ?_
    obtain ⟨g, k, hg, ⟨limit, hlimit⟩, -⟩ := ho
    cases hg.unique (Reader.Comes.of_run himproving hrun nofun)
    cases hf.symm.trans hlimit

/-- Where the second digit is pending and there is room for one chunk alone, the first digit cannot
be put back behind the signs. -/
theorem int_refused :
    Delivers {} (pendingOthers 1 ['1', '2']) [⟨.ch '1' .other, none⟩, ⟨.ch '2' .other, none⟩]
        (pendingOthers 1 []) ∧
      (∃ k, Answers {} (pendingOthers 1 []) (.done none k)) ∧
      ¬ ∃ j, Reader.Comes (handler {}) Quantity.int (pendingOthers 1 ['1', '2']) (.done 12 j) := by
  refine ⟨pendingOthers_delivers 1 ['1', '2'] [], ?_, ?_⟩
  · obtain ⟨x, k, hrun, rfl⟩ := Outcome.exists_done_of_yields (p := (· = none))
      (o := (pendingOthers 1 []).nextExpanded {} 5) (by decide +kernel)
    exact ⟨k, ((pendingOthers 1 []).nextExpanded_steady {}).settles_of_eq hrun nofun⟩
  · rintro ⟨j, hj⟩
    obtain ⟨f, k, hrun, -⟩ := Outcome.exists_failed_of_failedBy (p := fun _ => True)
      (o := Quantity.int.run (handler {} 20) 20 (pendingOthers 1 ['1', '2'])) (by decide +kernel)
    cases hj.unique (Reader.Comes.of_run (handler_improving {}) hrun nofun)

end Input

end Galley
