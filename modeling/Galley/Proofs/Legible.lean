import Galley.Proofs.LineTokens
import Galley.Text.Letter
import Galley.Text.Lines

/-!
Tokens that a text can read as under plain categories (`Legible`). Reading a line goes from phase to
phase, and what is read of a text is legible from the beginning of its first line on.
-/

namespace Galley

/-! ## Plain categories -/

namespace CategoryTable

/-- No code point outside the narrow ones is reassigned. -/
theorem plain_wide {n : Nat} (h : 128 ≤ n) : plain.get n = .other := by
  have hkeys : ∀ k ∈ plain.codes.keys, k < 128 := by decide
  have hnone : plain.codes.get? n = none :=
    Table.get?_of_not_mem fun hn => absurd (hkeys n hn) (Nat.not_lt.mpr h)
  have hplain : plainCategory n = .other := if_neg (by omega)
  rw [get, hnone, hplain]
  rfl

theorem narrow_of_plain_letter {c : Char} (h : plain.of c = .letter) :
    Text.isNarrowLetter c.toNat = true := by
  have hnarrow : ∀ n, n < 128 → plain.get n = .letter → Text.isNarrowLetter n = true := by decide
  by_cases hc : c.toNat < 128
  · exact hnarrow c.toNat hc h
  · rw [of, plain_wide (Nat.le_of_not_lt hc)] at h
    cases h

theorem isLetter_of_plain {c : Char} (h : plain.of c = .letter) : Text.isLetter c = true := by
  have hc := narrow_of_plain_letter h
  have hlt : c.toNat < 128 := by
    simp only [Text.isNarrowLetter, Bool.or_eq_true, Bool.and_eq_true, decide_eq_true_eq] at hc
    omega
  rw [Text.isLetter_narrow hlt, hc]

theorem inLine_of_plain_letter {c : Char} (h : plain.of c = .letter) :
    Text.endsLine c = false := by
  have hc := narrow_of_plain_letter h
  simp only [Text.isNarrowLetter, Bool.or_eq_true, Bool.and_eq_true, decide_eq_true_eq] at hc
  simp only [Text.endsLine, Bool.or_eq_false_iff, Bool.and_eq_false_iff, decide_eq_false_iff_not,
    beq_eq_false_iff_ne]
  omega

/-- A letter that has not the category of one has that of no special character. -/
theorem plain_of_isLetter {c : Char} (h : Text.isLetter c = true) (hc : plain.of c ≠ .letter) :
    plain.of c = .other := by
  have hnarrow : ∀ n, n < 128 → Text.isNarrowLetter n = true → plain.get n = .letter := by decide
  by_cases hlt : c.toNat < 128
  · rw [Text.isLetter_narrow hlt] at h
    exact absurd (hnarrow c.toNat hlt h) hc
  · exact plain_wide (Nat.le_of_not_lt hlt)

end CategoryTable

/-! ## Lines -/

namespace Text

/-- Characters that do not end a line belong to it. -/
theorem splitFrom_append {u : List Char} (h : ∀ c ∈ u, endsLine c = false) (line s : List Char) :
    splitFrom line (u ++ s) = splitFrom (u.reverse ++ line) s := by
  induction u generalizing line with
  | nil => rfl
  | cons c u ih =>
    have hc : endsLine c = false := h c List.mem_cons_self
    have hstep : splitFrom line (c :: (u ++ s)) = splitFrom (c :: line) (u ++ s) := by
      have hreturn : c ≠ '\r' := by
        rintro rfl
        exact absurd hc (by decide)
      rw [splitFrom.eq_4 line c (u ++ s) fun t hr _ => hreturn hr, hc]
      rfl
    rw [List.cons_append, hstep, ih fun d hd => h d (List.mem_cons_of_mem c hd)]
    simp

theorem splitFrom_return (line : List Char) {s : List Char} (h : s.head? ≠ some '\n') :
    splitFrom line ('\r' :: s) = line.reverse :: splitFrom [] s := by
  have hs : ∀ t, s ≠ '\n' :: t := by
    rintro t rfl
    exact h rfl
  rw [splitFrom.eq_4 line '\r' s fun t _ ht => hs t ht]
  rfl

/-- The characters of lines are those of the text that end none. -/
theorem splitFrom_holds {P : Char → Prop} {line s : List Char} (hline : ∀ c ∈ line, P c)
    (hs : ∀ c ∈ s, endsLine c = false → P c) : ∀ l ∈ splitFrom line s, ∀ c ∈ l, P c := by
  -- a line that is complete holds what had been read of it
  have hfirst : ∀ {line : List Char} {lines : List (List Char)}, (∀ c ∈ line, P c) →
      (∀ l ∈ lines, ∀ c ∈ l, P c) → ∀ l ∈ line.reverse :: lines, ∀ c ∈ l, P c := by
    intro line lines hline hlines l hl c hc
    rcases List.mem_cons.mp hl with rfl | hl
    · exact hline c (List.mem_reverse.mp hc)
    · exact hlines l hl c hc
  fun_induction splitFrom line s with
  | case1 => exact nofun
  | case2 c line => exact hfirst hline nofun
  | case3 line s ih =>
    exact hfirst hline (ih nofun fun d hd =>
      hs d (List.mem_cons_of_mem _ (List.mem_cons_of_mem _ hd)))
  | case4 line c s hpair hc ih =>
    exact hfirst hline (ih nofun fun d hd => hs d (List.mem_cons_of_mem c hd))
  | case5 line c s hpair hc ih =>
    refine ih (fun d hd => ?_) fun d hd => hs d (List.mem_cons_of_mem c hd)
    rcases List.mem_cons.mp hd with rfl | hd
    · exact hs d List.mem_cons_self (eq_false_of_ne_true hc)
    · exact hline d hd

end Text

/-! ## What lines read as -/

/-- The categories of the characters that stand for themselves. -/
def Category.Stands : Category → Prop
  | .escape | .endOfLine | .space | .comment | .ignored | .invalid => False
  | _ => True

theorem Phase.start_of_stands {cats : CategoryTable} {c : Char} (h : (cats.of c).Stands)
    (q : LineState) : start cats q c = ([.ch c (cats.of c)], .between .midLine) := by
  unfold start
  cases hc : cats.of c <;> simp_all [Category.Stands]

/-- The state that a control symbol leaves. -/
def LineState.afterSymbol (c : Char) : LineState :=
  if CategoryTable.plain.of c = .space then .skipBlanks else .midLine

/-- Tokens that lines of certain characters can read as, from a place of the given state on: a space
comes behind text alone, and an escaped end of line goes on to the next line. -/
inductive Legible (P : Char → Prop) : LineState → List Token → Prop
  | nil (q : LineState) : Legible P q []
  | space {ts : List Token} (h : Legible P .skipBlanks ts) :
    Legible P .midLine (.ch ' ' .space :: ts)
  | char (q : LineState) {c : Char} {ts : List Token} (hc : (CategoryTable.plain.of c).Stands)
    (hP : P c) (h : Legible P .midLine ts) : Legible P q (.ch c (CategoryTable.plain.of c) :: ts)
  | word (q : LineState) {letters : List Char} {ts : List Token} (hne : letters ≠ [])
    (hletters : ∀ c ∈ letters, CategoryTable.plain.of c = .letter) (h : Legible P .skipBlanks ts) :
    Legible P q (.cs (String.ofList letters) :: ts)
  | symbol (q : LineState) {c : Char} {ts : List Token} (hc : CategoryTable.plain.of c ≠ .letter)
    (hP : P c) (h : Legible P (.afterSymbol c) ts) :
    Legible P q (.cs (String.singleton c) :: ts)
  | escapedEnd (q : LineState) {ts : List Token} (h : Legible P .newLine ts) :
    Legible P q (.cs "\r" :: ts)

section

variable {P : Char → Prop}

/-- The tokens of a new line can stand behind everything. -/
theorem Legible.of_newLine {ts : List Token} (h : Legible P .newLine ts) (q : LineState) :
    Legible P q ts := by
  cases h with
  | nil => exact .nil q
  | char _ hc hP h => exact .char q hc hP h
  | word _ hne hletters h => exact .word q hne hletters h
  | symbol _ hc hP h => exact .symbol q hc hP h
  | escapedEnd _ h => exact .escapedEnd q h

namespace Phase

/-- Behind an escape character and in the name of a control word anything can follow. -/
def state : Phase → LineState
  | between q => q
  | escaped | naming _ | spent => .newLine

/-- The name of a control word has letters alone, and at least one. -/
def Named : Phase → Prop
  | naming letters => letters ≠ [] ∧ ∀ c ∈ letters, CategoryTable.plain.of c = .letter
  | between _ | escaped | spent => True

variable {ts : List Token}

/-- An end of line reads as what it stands for, and a new line follows. -/
theorem legible_lineEnd (hts : Legible P .newLine ts) (q : LineState) :
    Legible P q (lineEnd q ++ ts) := by
  cases q with
  | newLine =>
    have hpar : "par" = String.ofList ['p', 'a', 'r'] := by decide
    have hletters : ∀ c ∈ ['p', 'a', 'r'], CategoryTable.plain.of c = .letter := by
      simpa using ⟨by decide, by decide, by decide⟩
    rw [lineEnd, hpar]
    exact .word .newLine (by decide) hletters (hts.of_newLine .skipBlanks)
  | midLine => exact .space (hts.of_newLine .skipBlanks)
  | skipBlanks => exact hts.of_newLine .skipBlanks

section Step

variable {s : List Char} {c : Char} (hts : Legible P .newLine ts) (hc : P c)
  (h : ∀ p : Phase, p.Named → Legible P p.state (p.tokens .plain s ++ ts))
include hts hc h

theorem legible_start (q : LineState) :
    Legible P q ((start .plain q c).1 ++ ((start .plain q c).2.tokens .plain s ++ ts)) := by
  have hstands (hcat : (CategoryTable.plain.of c).Stands) :
      Legible P q ((start .plain q c).1 ++ ((start .plain q c).2.tokens .plain s ++ ts)) := by
    rw [start_of_stands hcat]
    exact .char q hcat hc (h (between .midLine) trivial)
  cases hcat : CategoryTable.plain.of c with
  | escape =>
    simp only [start, hcat, List.nil_append]
    exact (h escaped trivial).of_newLine q
  | endOfLine =>
    simp only [start, hcat, tokens_spent, List.nil_append]
    exact legible_lineEnd hts q
  | space =>
    cases q with
    | midLine =>
      simp only [start, hcat]
      exact .space (h (between .skipBlanks) trivial)
    | newLine =>
      simp only [start, hcat]
      exact h (between .newLine) trivial
    | skipBlanks =>
      simp only [start, hcat]
      exact h (between .skipBlanks) trivial
  | comment =>
    simp only [start, hcat, tokens_spent, List.nil_append]
    exact hts.of_newLine q
  | ignored =>
    simp only [start, hcat, List.nil_append]
    exact h (between q) trivial
  | invalid =>
    simp only [start, hcat, List.nil_append]
    exact h (between q) trivial
  | _ => exact hstands (hcat ▸ trivial)

/-- What a line reads as is legible, if it is so behind its first character. -/
theorem legible_cons {p : Phase} (hp : p.Named) :
    Legible P p.state (p.tokens .plain (c :: s) ++ ts) := by
  rw [tokens_cons, List.append_assoc]
  cases p with
  | between q => exact legible_start hts hc h q
  | escaped =>
    by_cases hletter : CategoryTable.plain.of c = .letter
    · simp only [react, hletter, if_true, List.nil_append]
      exact h (naming [c]) ⟨List.cons_ne_nil c [], by simpa using hletter⟩
    · simp only [react, hletter, if_false]
      exact .symbol _ hletter hc (h (between (.afterSymbol c)) trivial)
  | naming letters =>
    by_cases hletter : CategoryTable.plain.of c = .letter
    · simp only [react, hletter, if_true, List.nil_append]
      refine h (naming (letters ++ [c])) ⟨by simp, fun d hd => ?_⟩
      rcases List.mem_append.mp hd with hd | hd
      · exact hp.2 d hd
      · rwa [List.mem_singleton.mp hd]
    · simp only [react, hletter, if_false, List.cons_append]
      exact .word _ hp.1 hp.2 (legible_start hts hc h .skipBlanks)
  | spent =>
    simp only [react, tokens_spent, List.nil_append]
    exact hts

end Step

theorem legible_return (hts : Legible P .newLine ts) {p : Phase} (hp : p.Named) :
    Legible P p.state (p.tokens .plain ['\r'] ++ ts) := by
  cases p with
  | between q =>
    have hend : (between q).tokens .plain ['\r'] = lineEnd q := by
      rw [tokens_cons]
      exact List.append_nil (lineEnd q)
    exact hend ▸ legible_lineEnd hts q
  | escaped => exact .escapedEnd _ hts
  | naming letters => exact .word _ hp.1 hp.2 (hts.of_newLine .skipBlanks)
  | spent => exact hts

theorem legible_tokens (hts : Legible P .newLine ts) {s : List Char}
    (hs : ∀ c ∈ s, P c) {p : Phase} (hp : p.Named) :
    Legible P p.state (p.tokens .plain (s ++ ['\r']) ++ ts) := by
  induction s generalizing p with
  | nil => exact legible_return hts hp
  | cons c s ih =>
    exact legible_cons hts (hs c List.mem_cons_self)
      (fun p hp => ih (fun d hd => hs d (List.mem_cons_of_mem c hd)) hp) hp

end Phase

theorem legible_lines {lines : List (List Char)}
    (h : ∀ l ∈ lines, ∀ c ∈ l, P c) :
    Legible P .newLine (lines.flatMap fun l => Alphabet.lineTokens {} (String.ofList l)) := by
  induction lines with
  | nil => exact .nil .newLine
  | cons l lines ih =>
    have hts := ih fun m hm => h m (List.mem_cons_of_mem l hm)
    rw [List.flatMap_cons, Alphabet.lineTokens_plain]
    exact Phase.legible_tokens (p := .between .newLine) hts
      (fun c hc => h l List.mem_cons_self c (mem_of_withoutTrailingSpaces hc)) trivial

/-- The lexemes of a text under the plain alphabet. -/
def Text.lexemes (s : String) : List Lexeme := tokenize {} (linesOf s)

/-- What a text reads as is legible, with characters of its own. -/
theorem legible_lexemes {s : String} (h : ∀ c ∈ s.toList, Text.endsLine c = false → P c) :
    Legible P .newLine ((Text.lexemes s).map (·.token)) := by
  rw [Text.lexemes, tokenize_tokens, Text.linesOf, List.flatMap_map]
  exact legible_lines (Text.splitFrom_holds nofun h)

end

end Galley
