import Galley.Proofs.Integers
import Galley.Proofs.Interruption
import Galley.Proofs.Lengths

/-!
Dimensions in running text. Signs, a decimal number and the letters of a unit, with spaces between
them, are read for the dimension that they denote, however they come to be delivered; and what is
behind them is left, but for one space (`Scan.takes_dimension`).
-/

namespace Galley

/-- Signs, a decimal number and a unit, with spaces between them, that denote a dimension. -/
inductive Measured : List Lexeme → Dimension → Prop
  | intro {marks number blanks letters : List Lexeme} {d : Dimension} (n : Numeral) (u : LengthUnit)
    (hm : Marks marks) (hn : number.map (·.token) = others n.text) (hb : AllSpaces blanks)
    (hu : Spelled u.name.toList letters)
    (hd : Dimension.ofUnits? ((-1) ^ minuses marks * n.value) u = some d) :
    Measured (marks ++ (number ++ (blanks ++ letters))) d

variable {tables : Tables} {b : Option Input} {ts us blanks : List Lexeme} {t : Lexeme}

/-! ## Words that are told apart -/

theorem Spelled.ne_nil {letters : List Char} (h : Spelled letters us) (hne : letters ≠ []) :
    us ≠ [] := by
  cases h with
  | nil => exact absurd rfl hne
  | cons hl hrest => exact List.cons_ne_nil _ _

theorem Spelled.isSpace_head {letters : List Char} (h : Spelled letters us) (hne : letters ≠ []) :
    Quantity.isSpace (us ++ ts).head? = false := by
  cases spelled_iff.mp h with
  | nil => exact absurd rfl hne
  | cons hl hrest => exact Scan.isSpace_of_matchesLetter hl

/-- A token matches one letter at most. -/
theorem Quantity.matchesLetter_unique {c d : Char} {t : Token} (hc : matchesLetter c t = true)
    (hd : matchesLetter d t = true) : c = d := by
  obtain ⟨x, cat, ht, -, hx⟩ := (matchesLetter_iff c t).mp hc
  obtain ⟨y, cat', ht', -, hy⟩ := (matchesLetter_iff d t).mp hd
  obtain ⟨rfl, -⟩ := Token.ch.inj (ht.symm.trans ht')
  exact (List.cons.inj (hx.symm.trans hy)).1

/-- Where a word is spelled, no other one is that does not begin like it. -/
theorem Spelled.misses {word other : List Char} (h : Spelled word us) (hw : ¬ word <+: other)
    (ho : ¬ other <+: word) : Misses b other (us ++ ts) := by
  induction spelled_iff.mp h generalizing other with
  | nil => exact absurd List.nil_prefix hw
  | @cons letter t word us hl hrest ih =>
    cases other with
    | nil => exact absurd List.nil_prefix ho
    | cons c other =>
      by_cases hc : c = letter
      · subst hc
        rw [List.cons_prefix_cons, not_and] at hw ho
        exact .later hl (ih (spelled_iff.mpr hrest) (hw rfl) (ho rfl))
      · refine .here (Scan.inSight_cons t _ b) ?_
        intro u hu
        cases hu
        exact Bool.eq_false_iff.mpr fun hmatch => hc (Quantity.matchesLetter_unique hmatch hl)

namespace LengthUnit

theorem name_ne_nil (u : LengthUnit) : u.name.toList ≠ [] := by
  cases u <;> decide

/-- No unit begins like another one. -/
theorem not_prefix {u v : LengthUnit} (h : u ≠ v) : ¬ u.name.toList <+: v.name.toList := by
  revert h
  cases u <;> cases v <;> decide

theorem not_prefix_true (u : LengthUnit) :
    ¬ u.name.toList <+: "true".toList ∧ ¬ "true".toList <+: u.name.toList := by
  cases u <;> decide

theorem mem_all (u : LengthUnit) : u ∈ all := by
  cases u <;> decide

end LengthUnit

/-! ## Numbers -/

namespace Numeral

variable (n : Numeral) {number : List Lexeme}

/-- A number begins with neither a sign nor a space. -/
theorem unsigned (hn : number.map (·.token) = others n.text) : Scan.Unsigned (number ++ ts) := by
  cases number with
  | nil => exact absurd (List.map_eq_nil_iff.mp hn.symm) n.text_ne_nil
  | cons t number =>
    intro u hu
    cases hu
    obtain ⟨c, hc, ht⟩ := List.mem_map.mp (hn ▸ List.mem_cons_self : t.token ∈ others n.text)
    have hminus : c ≠ '-' := by
      rintro rfl
      exact absurd (n.mem_text hc) (by decide)
    have hplus : c ≠ '+' := by
      rintro rfl
      exact absurd (n.mem_text hc) (by decide)
    simp [Marks, ← ht, hminus, hplus, Token.isSpace, Token.hasCategory]

end Numeral

namespace Scan

/-- The first token has been read before. -/
theorem takes_decimalStep {s : List Char}
    (hs : ∀ c ∈ s, 48 ≤ c.toNat ∧ c.toNat ≤ 57 ∨ c = '.' ∨ c = ',')
    (hus : us.map (·.token) = others s) (hin : InSight ts b)
    (hx : Quantity.decimalChar? ts.head? = none) (hinert : ∀ t ∈ ts, Inert tables t)
    (text : List Char) :
    Takes tables (.loop decimalStep (text, (us ++ ts).head?)) b (us ++ ts).tail
      (.ok (text.reverse ++ s.map fun c => if c = ',' then '.' else c)) ts := by
  induction s generalizing us text with
  | nil =>
    obtain rfl : us = [] := List.map_eq_nil_iff.mp hus
    apply Takes.loop_finish
    simp only [List.nil_append, decimalStep, hx, List.map_nil, List.append_nil]
    exact (takes_unread hinert).bind (takes_pure _ _)
  | cons c s ih =>
    cases us with
    | nil => cases hus
    | cons u us =>
      obtain ⟨hu, hus⟩ := List.cons.inj hus
      have hchar : Reading.decimalChar? u.token = some (if c = ',' then '.' else c) := by
        change u.token = .ch c .other at hu
        rw [hu]
        exact Reading.decimalChar?_other (hs c List.mem_cons_self)
      have hsight : InSight (us ++ ts) b := fun h => hin (List.append_eq_nil_iff.mp h).2
      have hrest := ih (fun d hd => hs d (List.mem_cons_of_mem c hd)) hus
        ((if c = ',' then '.' else c) :: text)
      rw [List.reverse_cons, List.append_assoc] at hrest
      refine Takes.loop_again ?_ hrest
      simp only [List.cons_append, List.head?_cons, decimalStep_some hchar]
      exact (takes_next hsight).bind (takes_pure _ _)

theorem takes_decimal (n : Numeral) (hus : us.map (·.token) = others n.text) (hin : InSight ts b)
    (hx : Quantity.decimalChar? ts.head? = none) :
    Takes tables Quantity.decimal b (us ++ ts) (.ok n.plain) ts := by
  refine .of_inert fun hinert => ?_
  have hsight : InSight (us ++ ts) b := fun h => hin (List.append_eq_nil_iff.mp h).2
  have htext : Takes tables Quantity.decimalText b (us ++ ts) (.ok n.plain) ts := by
    rw [← n.map_comma]
    exact (takes_next hsight).bind (takes_decimalStep (fun c hc => n.mem_text hc) hus hin hx
      (List.forall_mem_append.mp hinert).2 [])
  have hone : ¬ 1 < n.plain.count '.' := Nat.not_lt.mpr n.count_plain
  have hall : ¬ n.plain.all (· = '.') = true := by
    intro h
    obtain ⟨c, hc, hne⟩ := n.exists_digit
    exact hne (by simpa using List.all_eq_true.mp h c hc)
  refine htext.bind ?_
  rw [if_neg hone, if_neg hall]
  exact takes_pure _ _

/-! ## Units -/

theorem takes_unitFrom {units : List LengthUnit} {u : LengthUnit} (hu : u ∈ units)
    (hb : AllSpaces blanks) (hs : Spelled u.name.toList us) :
    Takes tables (Quantity.unitFrom units) b (blanks ++ (us ++ ts)) (.ok u) ts := by
  induction units generalizing blanks with
  | nil => cases hu
  | cons v units ih =>
    by_cases hv : v = u
    · subst hv
      exact (takes_keyword v.name_ne_nil hb hs).bind (takes_pure _ _)
    · have hmem : u ∈ units := (List.mem_cons.mp hu).resolve_left (Ne.symm hv)
      have hmissed : Takes tables (Quantity.keyword v.name) b (blanks ++ (us ++ ts)) (.ok false)
          (us ++ ts) :=
        takes_keyword_missed hb
          (hs.misses (LengthUnit.not_prefix (Ne.symm hv)) (LengthUnit.not_prefix hv))
          (hs.isSpace_head u.name_ne_nil)
      have hempty : AllSpaces [] := nofun
      exact hmissed.bind (ih hmem hempty)

theorem takes_unit {u : LengthUnit} (hb : AllSpaces blanks) (hs : Spelled u.name.toList us) :
    Takes tables (Quantity.unit false) b (blanks ++ (us ++ ts)) (.ok (u, .normal)) ts := by
  obtain ⟨hshort, hlong⟩ := u.not_prefix_true
  have htrue : Takes tables (Quantity.keyword "true") b (blanks ++ (us ++ ts)) (.ok false)
      (us ++ ts) :=
    takes_keyword_missed hb (hs.misses hshort hlong) (hs.isSpace_head u.name_ne_nil)
  have hempty : AllSpaces [] := nofun
  have hunit : Takes tables (Quantity.unitFrom LengthUnit.all) b (us ++ ts) (.ok u) ts :=
    takes_unitFrom u.mem_all hempty hs
  exact (takes_pure false _).bind (htrue.bind (hunit.bind (takes_pure _ _)))

/-! ## Dimensions -/

/-- Neither a space nor a letter of a unit belongs to a number. -/
theorem decimalChar?_unit {u : LengthUnit} (hb : AllSpaces blanks)
    (hs : Spelled u.name.toList us) :
    Quantity.decimalChar? (blanks ++ (us ++ ts)).head? = none := by
  cases blanks with
  | cons t blanks =>
    obtain ⟨token, span⟩ := t
    have ht : token.isSpace = true := hb ⟨token, span⟩ List.mem_cons_self
    obtain ⟨c, rfl⟩ := Token.eq_ch_of_hasCategory ht
    rfl
  | nil =>
    obtain ⟨letter, letters, hname⟩ := List.exists_cons_of_ne_nil u.name_ne_nil
    rw [hname] at hs
    cases hs with
    | @cons _ t _ us hl hrest =>
      obtain ⟨c, cat, ht, hcat, hlower⟩ := hl
      obtain ⟨token, span⟩ := t
      subst ht
      have hall : (Quantity.decimalChars.all fun c => LengthUnit.all.all fun u =>
          u.name.toList.head? ≠ (Text.lower c).head?) = true := by decide
      refine Option.eq_none_iff_forall_ne_some.mpr fun d hd => ?_
      unfold Quantity.decimalChar? at hd
      split at hd
      · rename_i he
        cases he
        split at hd
        · rename_i hmem
          have hne := List.all_eq_true.mp hall c (List.contains_iff_mem.mp hmem)
          have hu := List.all_eq_true.mp hne u u.mem_all
          rw [hname, hlower] at hu
          exact absurd rfl (of_decide_eq_true hu)
        · cases hd
      · cases hd

/-- What the readers of its parts take one after the other, and what they make of it. -/
theorem exists_parts_of_measured {d : Dimension} (h : Measured us d) (tables : Tables) :
    ∃ (negative : Bool) (text : List Char) (q : Rat) (u : LengthUnit) (vs ws : List Lexeme),
      (∀ b ts, Takes tables Quantity.signs b (us ++ ts) (.ok negative) (vs ++ ts)) ∧
      (∀ b ts, Takes tables Quantity.decimal b (vs ++ ts) (.ok text) (ws ++ ts)) ∧
      (∀ b ts, Takes tables (Quantity.unit false) b (ws ++ ts) (.ok (u, .normal)) ts) ∧
      Number.readDecimal? text = some q ∧
      Dimension.ofUnits? (if negative then -q else q) u = some d := by
  cases h with
  | @intro marks number blanks letters _ n u hm hn hb hu hd =>
    have hletters (ts : List Lexeme) : blanks ++ (letters ++ ts) ≠ [] := by
      simp [hu.ne_nil u.name_ne_nil]
    have hnumber (ts : List Lexeme) : number ++ (blanks ++ (letters ++ ts)) ≠ [] := by
      simp [hu.ne_nil u.name_ne_nil]
    refine ⟨negativeAfter false marks, n.plain, n.value, u, number ++ (blanks ++ letters),
      blanks ++ letters, fun b ts => ?_, fun b ts => ?_, fun b ts => ?_, n.readDecimal?_plain, ?_⟩
    · simp only [List.append_assoc]
      exact takes_signs hm (fun h => absurd h (hnumber ts)) (n.unsigned hn)
    · simp only [List.append_assoc]
      exact takes_decimal n hn (fun h => absurd h (hletters ts)) (decimalChar?_unit hb hu)
    · rw [List.append_assoc]
      exact takes_unit hb hu
    · rw [negate_marks]
      exact hd

theorem takes_dimension {d : Dimension} (h : Measured us d) (hin : InSight ts b) :
    Takes tables Quantity.dimension b (us ++ ts) (.ok d) (withoutSpace ts) := by
  obtain ⟨negative, text, q, u, vs, ws, hsigns, hdecimal, hunit, hq, hd⟩ :=
    exists_parts_of_measured h tables
  have hflex : Takes tables (Quantity.flex false) b (us ++ ts) (.ok ⟨d, .normal⟩)
      (withoutSpace ts) := by
    refine (hsigns b ts).bind ((hdecimal b ts).bind ((hunit b ts).bind
      ((takes_optionalSpace hin).bind ?_)))
    simp only [hq, hd]
    exact takes_pure _ _
  exact hflex.bind (takes_pure _ _)

/-- A dimension is over only where it is known what comes behind it. -/
theorem breaks_dimension {d : Dimension} {e : Onward} (h : Measured us d) (he : e.Broken) :
    Breaks tables Quantity.dimension us e := by
  obtain ⟨negative, text, q, u, vs, ws, hsigns, hdecimal, hunit, -⟩ :=
    exists_parts_of_measured h tables
  have hus (k : Input) := hsigns (some k) []
  have hvs (k : Input) := hdecimal (some k) []
  have hws (k : Input) := hunit (some k) []
  simp only [List.append_nil] at hus hvs hws
  have hflex : Breaks tables (Quantity.flex false) us e :=
    Takes.breaks hus (Takes.breaks hvs (Takes.breaks hws (breaks_optionalSpace he).bind))
  exact hflex.bind

end Scan

end Galley
