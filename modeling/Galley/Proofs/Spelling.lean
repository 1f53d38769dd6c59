import Galley.Proofs.Legible

/-!
The spelling of tokens, read again. Every token of a text is spelled so that the same token is read
from it, and a space behind a control word is skipped. The one exception is a control symbol whose
character is a letter without the category of one: it is spelled like a control word, and the space
behind it counts.
-/

namespace Galley

/-! ## What is spelled -/

namespace Token

/-- A control sequence that is spelled as a word, though its name does not have plain letters
alone. -/
def isWideSymbol : Token → Bool
  | .cs name =>
    Text.isWord name.toList && name.toList.any fun c => CategoryTable.plain.of c ≠ .letter
  | .ch _ _ => false

/-- The tokens with one space behind each such symbol. -/
def spaced : List Token → List Token
  | [] => []
  | t :: ts =>
    if t.isWideSymbol then t :: .ch ' ' .space :: (spaced ts).dropWhile isSpace
    else t :: spaced ts

/-- Tokens behind a place of the given state, where a space that comes first may not be read. -/
def settled (q : LineState) (ts : List Token) : List Token :=
  if q = .midLine then ts else ts.dropWhile isSpace

theorem spaced_cons {t : Token} (h : t.isWideSymbol = false) (ts : List Token) :
    spaced (t :: ts) = t :: spaced ts := by
  rw [spaced, h]
  rfl

theorem spaced_of_wide {t : Token} (h : t.isWideSymbol = true) (ts : List Token) :
    spaced (t :: ts) = t :: .ch ' ' .space :: settled .skipBlanks (spaced ts) := by
  rw [spaced, h]
  rfl

theorem settled_of_ne {q : LineState} (h : q ≠ .midLine) (ts : List Token) :
    settled q ts = ts.dropWhile isSpace := if_neg h

theorem settled_cons (q : LineState) {t : Token} (h : t.isSpace = false) (ts : List Token) :
    settled q (t :: ts) = t :: ts := by
  unfold settled
  split
  · rfl
  · simp [h]

theorem spell_cons (t : Token) (ts : List Token) :
    (spell (t :: ts)).toList = t.spelling.toList ++ (spell ts).toList := by
  rw [spell, List.map_cons, String.join_cons, String.toList_append]
  rfl

section

variable {letters : List Char} {c : Char}

theorem isWord_of_letters (hne : letters ≠ [])
    (h : ∀ c ∈ letters, CategoryTable.plain.of c = .letter) : Text.isWord letters = true := by
  rw [Text.isWord, Bool.and_eq_true, List.all_eq_true]
  exact ⟨by simpa using hne, fun c hc => CategoryTable.isLetter_of_plain (h c hc)⟩

theorem spelling_word (hne : letters ≠ [])
    (h : ∀ c ∈ letters, CategoryTable.plain.of c = .letter) :
    (cs (String.ofList letters)).spelling.toList = '\\' :: (letters ++ [' ']) := by
  have hword : (cs (String.ofList letters)).isControlWord = true := by
    rw [isControlWord, String.toList_ofList, isWord_of_letters hne h]
  rw [spelling, hword]
  simp [text]

theorem word_not_wide (h : ∀ c ∈ letters, CategoryTable.plain.of c = .letter) :
    (cs (String.ofList letters)).isWideSymbol = false := by
  have hnone : (letters.any fun c => CategoryTable.plain.of c ≠ .letter) = false := by
    simpa using h
  rw [isWideSymbol, String.toList_ofList, hnone, Bool.and_false]

theorem isWideSymbol_singleton (hc : CategoryTable.plain.of c ≠ .letter) :
    (cs (String.singleton c)).isWideSymbol = Text.isLetter c := by
  simp [isWideSymbol, Text.isWord, hc]

@[simp] theorem spelling_ch (c : Char) (cat : Category) : (ch c cat).spelling.toList = [c] := by
  simp [spelling, isControlWord, text]

theorem exists_spelling_cs (name : String) : ∃ s, (cs name).spelling.toList = '\\' :: s := by
  unfold spelling
  split
  · exact ⟨name.toList ++ [' '], by simp [text]⟩
  · exact ⟨name.toList, by simp [text]⟩

theorem spelling_symbol (c : Char) : (cs (String.singleton c)).spelling.toList =
    '\\' :: c :: if Text.isLetter c then [' '] else [] := by
  have hword : (cs (String.singleton c)).isControlWord = Text.isLetter c := by
    simp [isControlWord, Text.isWord]
  rw [spelling, hword]
  split
  · simp [text]
  · simp [text]

end

/-- A character that stands for itself is no space. -/
theorem isSpace_ch_of_stands {c : Char} {cat : Category} (h : cat.Stands) :
    (ch c cat).isSpace = false := by
  cases cat <;> first | rfl | exact h.elim

end Token

open Token

/-- From where tokens are legible, all of them are read, with the spaces that are put between. -/
theorem Legible.settled_spaced {P : Char → Prop} {q : LineState} {ts : List Token}
    (h : Legible P q ts) : settled q (spaced ts) = spaced ts := by
  cases h with
  | nil => cases q <;> rfl
  | space h => rfl
  | char _ hc hline h => exact settled_cons q (isSpace_ch_of_stands hc) _
  | word _ hne hletters h =>
    rw [spaced, word_not_wide hletters]
    exact settled_cons q rfl _
  | symbol _ hc hline h =>
    rw [spaced]
    split
    · exact settled_cons q rfl _
    · exact settled_cons q rfl _
  | escapedEnd _ h => exact settled_cons q rfl _

/-! ## Spellings of single tokens -/

namespace Phase

/-- A control word takes the space behind it. -/
theorem run_controlWord {letters : List Char} (hne : letters ≠ [])
    (h : ∀ c ∈ letters, CategoryTable.plain.of c = .letter) (q : LineState) :
    (between q).run .plain ('\\' :: (letters ++ [' '])) =
      ([.cs (String.ofList letters)], between .skipBlanks) := by
  cases letters with
  | nil => exact absurd rfl hne
  | cons c letters =>
    have hescape : (between q).react .plain '\\' = ([], escaped) := rfl
    have hc : escaped.react .plain c = ([], naming [c]) := if_pos (h c List.mem_cons_self)
    rw [run_cons, hescape, List.cons_append, run_cons, hc, run_append,
      run_naming fun d hd => h d (List.mem_cons_of_mem c hd)]
    rfl

theorem run_controlSymbol {c : Char} (hc : CategoryTable.plain.of c ≠ .letter) (q : LineState) :
    (between q).run .plain ['\\', c] =
      ([.cs (String.singleton c)], between (.afterSymbol c)) := by
  have hescape : (between q).react .plain '\\' = ([], escaped) := rfl
  have hsymbol : escaped.react .plain c =
    ([.cs (String.singleton c)], between (.afterSymbol c)) := if_neg hc
  rw [run_cons, hescape, run_cons, hsymbol]
  rfl

/-- The space behind a symbol that is spelled as a word counts. -/
theorem run_wideSymbol {c : Char} (hletter : Text.isLetter c = true)
    (hc : CategoryTable.plain.of c ≠ .letter) (q : LineState) :
    (between q).run .plain ['\\', c, ' '] =
      ([.cs (String.singleton c), .ch ' ' .space], between .skipBlanks) := by
  have hafter : LineState.afterSymbol c = .midLine := by
    rw [LineState.afterSymbol, CategoryTable.plain_of_isLetter hletter hc]
    rfl
  have hsplit : ['\\', c, ' '] = ['\\', c] ++ [' '] := rfl
  rw [hsplit, run_append, run_controlSymbol hc, hafter]
  rfl

end Phase

/-- The spelling of a token stays in its line and is read there as certain tokens. -/
structure Token.ReadsAs (t : Token) (q : LineState) (out : List Token) (r : LineState) : Prop where
  inLine : ∀ c ∈ t.spelling.toList, Text.endsLine c = false
  run : (Phase.between q).run .plain t.spelling.toList = (out, .between r)

namespace Token

variable {c : Char} {letters : List Char} {q : LineState}

theorem readsAs_space : (ch ' ' .space).ReadsAs .midLine [.ch ' ' .space] .skipBlanks := by
  constructor
  · rw [spelling_ch]
    exact List.forall_mem_singleton.mpr rfl
  · rw [spelling_ch]
    rfl

/-- Where blanks are not counted, a space is skipped. -/
theorem readsAs_skipped (hq : q ≠ .midLine) : (ch ' ' .space).ReadsAs q [] q := by
  have hblank : ∀ c ∈ [' '], CategoryTable.plain.of c = .space := List.forall_mem_singleton.mpr rfl
  refine ⟨readsAs_space.inLine, ?_⟩
  rw [spelling_ch]
  exact Phase.run_skipped hblank hq

theorem readsAs_char (hc : (CategoryTable.plain.of c).Stands) (hline : Text.endsLine c = false) :
    (ch c (CategoryTable.plain.of c)).ReadsAs q [.ch c (CategoryTable.plain.of c)] .midLine := by
  constructor
  · rw [spelling_ch]
    exact List.forall_mem_singleton.mpr hline
  · rw [spelling_ch, Phase.run_cons, Phase.react, Phase.start_of_stands hc]
    rfl

theorem readsAs_word (hne : letters ≠ [])
    (h : ∀ c ∈ letters, CategoryTable.plain.of c = .letter) :
    (cs (String.ofList letters)).ReadsAs q [.cs (String.ofList letters)] .skipBlanks := by
  constructor
  · intro c hc
    rw [spelling_word hne h] at hc
    simp only [List.mem_cons, List.mem_append, List.not_mem_nil, or_false] at hc
    rcases hc with rfl | hc | rfl
    · decide
    · exact CategoryTable.inLine_of_plain_letter (h c hc)
    · decide
  · rw [spelling_word hne h]
    exact Phase.run_controlWord hne h q

section Symbol

variable (hc : CategoryTable.plain.of c ≠ .letter) (hline : Text.endsLine c = false)
include hc hline

theorem readsAs_symbol (hletter : Text.isLetter c = false) :
    (cs (String.singleton c)).ReadsAs q [.cs (String.singleton c)] (.afterSymbol c) := by
  have hspelling : (cs (String.singleton c)).spelling.toList = ['\\', c] := by
    rw [spelling_symbol, hletter]
    rfl
  constructor
  · rw [hspelling]
    simpa using ⟨by decide, hline⟩
  · rw [hspelling]
    exact Phase.run_controlSymbol hc q

theorem readsAs_wideSymbol (hletter : Text.isLetter c = true) :
    (cs (String.singleton c)).ReadsAs q [.cs (String.singleton c), .ch ' ' .space]
      .skipBlanks := by
  have hspelling : (cs (String.singleton c)).spelling.toList = ['\\', c, ' '] := by
    rw [spelling_symbol, hletter]
    rfl
  constructor
  · rw [hspelling]
    simpa using ⟨by decide, hline, by decide⟩
  · rw [hspelling]
    exact Phase.run_wideSymbol hletter hc q

end Symbol

end Token

/-! ## Reading what is spelled -/

/-- The tokens of a text, of whose first line some characters have been taken, last one first. -/
def textTokens (line s : List Char) : List Token :=
  (Text.splitFrom line s).flatMap fun l => Alphabet.lineTokens {} (String.ofList l)

/-- What the taken characters of a line read as, and the state that they leave. -/
def ReadSoFar (line : List Char) (done : List Token) (q : LineState) : Prop :=
  (Phase.between .newLine).run .plain line.reverse = (done, .between q)

theorem ReadSoFar.append {line u : List Char} {done ts : List Token} {q r : LineState}
    (h : ReadSoFar line done q) (hu : (Phase.between q).run .plain u = (ts, .between r)) :
    ReadSoFar (u.reverse ++ line) (done ++ ts) r := by
  rw [ReadSoFar, List.reverse_append, List.reverse_reverse, Phase.run_append, h, hu]

/-- A comment ends what is read of a line. -/
theorem textTokens_comment {line : List Char} {done : List Token} {q : LineState}
    (h : ReadSoFar line done q) : textTokens line ['%'] = done := by
  have hsplit : Text.splitFrom line ['%'] = [line.reverse ++ ['%']] := by
    have hinner : ∀ c ∈ ['%'], Text.endsLine c = false := List.forall_mem_singleton.mpr rfl
    have hcomment := Text.splitFrom_append hinner line []
    rw [List.append_nil] at hcomment
    rw [hcomment]
    simp [Text.splitFrom]
  rw [textTokens, hsplit, List.flatMap_singleton, Alphabet.lineTokens_plain,
    withoutTrailingSpaces_append _ (by decide) [], List.append_assoc, Phase.tokens_append, h]
  exact List.append_nil done

/-- An escaped end of line is read as such, and a new line begins behind it. -/
theorem textTokens_escapedEnd {line s : List Char} {done : List Token} {q : LineState}
    (h : ReadSoFar line done q) (hs : s.head? ≠ some '\n') :
    textTokens line ('\\' :: '\r' :: s) = done ++ .cs "\r" :: textTokens [] s := by
  have hsplit : Text.splitFrom line ('\\' :: '\r' :: s) =
      (line.reverse ++ ['\\']) :: Text.splitFrom [] s := by
    have hinner : ∀ c ∈ ['\\'], Text.endsLine c = false := List.forall_mem_singleton.mpr rfl
    have hescape := Text.splitFrom_append hinner line ('\r' :: s)
    rw [List.singleton_append] at hescape
    rw [hescape, Text.splitFrom_return _ hs]
    simp
  rw [textTokens, hsplit, List.flatMap_cons, Alphabet.lineTokens_plain,
    withoutTrailingSpaces_append _ (by decide) [], List.append_assoc, Phase.tokens_append, h,
    List.append_assoc]
  rfl

theorem Legible.inLine {q : LineState} {c : Char} {cat : Category} {ts : List Token}
    (h : Legible (Text.endsLine · = false) q (.ch c cat :: ts)) : Text.endsLine c = false := by
  cases h with
  | space h => decide
  | char _ hc hline h => exact hline

/-- No spelling begins with a line feed, which could belong to an end of line before it. -/
theorem Legible.head_spell {q : LineState} {ts : List Token}
    (h : Legible (Text.endsLine · = false) q ts) :
    ((spell ts).toList ++ ['%']).head? ≠ some '\n' := by
  cases ts with
  | nil => decide
  | cons t ts =>
    rw [spell_cons]
    cases t with
    | ch c cat =>
      rw [spelling_ch]
      intro hc
      have hreturn : c = '\n' := Option.some.inj hc
      have hline := h.inLine
      rw [hreturn] at hline
      exact absurd hline (by decide)
    | cs name =>
      obtain ⟨s, hs⟩ := exists_spelling_cs name
      rw [hs]
      simp

/-- A token that stays in its line is read first, and then what is spelled behind it. -/
theorem textTokens_cons {line : List Char} {done out rest ts : List Token} {t : Token}
    {q r : LineState} (hline : ReadSoFar line done q) (ht : t.ReadsAs q out r)
    (hs : ∀ {line : List Char} {done : List Token} {q : LineState}, ReadSoFar line done q →
      textTokens line ((spell ts).toList ++ ['%']) = done ++ settled q rest) :
    textTokens line ((spell (t :: ts)).toList ++ ['%']) = done ++ (out ++ settled r rest) := by
  rw [spell_cons, List.append_assoc, textTokens, Text.splitFrom_append ht.inLine,
    ← List.append_assoc]
  exact hs (hline.append ht.run)

/-- The tokens that are read of a line and then of spelled ones. -/
theorem textTokens_spell {p : LineState} {ts : List Token}
    (h : Legible (Text.endsLine · = false) p ts) {line : List Char} {done : List Token}
    {q : LineState} (hline : ReadSoFar line done q) :
    textTokens line ((spell ts).toList ++ ['%']) = done ++ settled q (spaced ts) := by
  induction h generalizing line done q with
  | nil =>
    have hnil : settled q (spaced []) = [] := by cases q <;> rfl
    rw [hnil, List.append_nil]
    exact textTokens_comment hline
  | space h ih =>
    rw [spaced_cons rfl]
    -- the space is read behind text alone, and none but it is there to be read
    by_cases hq : q = .midLine
    · subst hq
      rw [textTokens_cons hline readsAs_space ih, h.settled_spaced]
      rfl
    · rw [textTokens_cons hline (readsAs_skipped hq) ih, settled_of_ne hq, settled_of_ne hq,
        List.dropWhile_cons_of_pos rfl]
      rfl
  | char _ hc hinner h ih =>
    rw [textTokens_cons hline (readsAs_char hc hinner) ih, spaced_cons rfl,
      settled_cons q (isSpace_ch_of_stands hc)]
    rfl
  | word _ hne hletters h ih =>
    rw [textTokens_cons hline (readsAs_word hne hletters) ih, h.settled_spaced,
      spaced_cons (word_not_wide hletters), settled_cons q rfl]
    rfl
  | @symbol _ c ts hc hinner h ih =>
    have hwide := isWideSymbol_singleton hc
    cases hletter : Text.isLetter c with
    | false =>
      rw [textTokens_cons hline (readsAs_symbol hc hinner hletter) ih, h.settled_spaced,
        spaced_cons (hwide.trans hletter), settled_cons q rfl]
      rfl
    | true =>
      rw [textTokens_cons hline (readsAs_wideSymbol hc hinner hletter) ih,
        spaced_of_wide (hwide.trans hletter), settled_cons q rfl]
      rfl
  | escapedEnd _ h ih =>
    have hspelling : (cs "\r").spelling.toList = ['\\', '\r'] := by decide
    have hnew : ReadSoFar [] [] .newLine := rfl
    rw [spell_cons, hspelling, List.append_assoc, spaced_cons rfl, settled_cons q rfl]
    refine (textTokens_escapedEnd hline h.head_spell).trans ?_
    rw [ih hnew, h.settled_spaced]
    rfl

theorem lexemes_spell_spaced (s : String) :
    (Text.lexemes (Lexeme.spell (Text.lexemes s) ++ "%")).map (·.token) =
      spaced ((Text.lexemes s).map (·.token)) := by
  have h : Legible (Text.endsLine · = false) .newLine ((Text.lexemes s).map (·.token)) :=
    legible_lexemes fun _ _ hc => hc
  have hnew : ReadSoFar [] [] .newLine := rfl
  rw [Text.lexemes, tokenize_tokens, Text.linesOf, List.flatMap_map, Lexeme.spell,
    String.toList_append]
  refine (textTokens_spell h hnew).trans ?_
  rw [h.settled_spaced]
  rfl

/-! ## Texts that come back -/

/-- Behind each symbol that is spelled as a word stands a space. -/
def Token.WideApart (ts : List Token) : Prop :=
  ∀ before t after, ts = before ++ t :: after → t.isWideSymbol = true →
    after.head? = some (.ch ' ' .space)

theorem Token.wideApart_cons {t : Token} {ts : List Token} : WideApart (t :: ts) ↔
    (t.isWideSymbol = true → ts.head? = some (.ch ' ' .space)) ∧ WideApart ts := by
  constructor
  · intro h
    refine ⟨h [] t ts rfl, fun before u after hts hu => ?_⟩
    exact h (t :: before) u after (congrArg (t :: ·) hts) hu
  · rintro ⟨hfirst, h⟩ before u after hts hu
    cases before with
    | nil =>
      obtain ⟨rfl, rfl⟩ := List.cons.inj hts
      exact hfirst hu
    | cons v before => exact h before u after (List.cons.inj hts).2 hu

/-- A space that stands at the beginning takes the place of one that is put there. -/
theorem Legible.space_settled {P : Char → Prop} {q : LineState} {ts : List Token}
    (h : Legible P q ts) (hhead : ts.head? = some (.ch ' ' .space)) :
    .ch ' ' .space :: settled .skipBlanks (spaced ts) = spaced ts := by
  cases h with
  | space h =>
    rw [spaced_cons rfl]
    exact congrArg (_ :: ·) h.settled_spaced
  | @char _ c _ hc hP h =>
    have hspace : (ch c _).isSpace = false := isSpace_ch_of_stands hc
    rw [Option.some.inj hhead] at hspace
    cases hspace
  | _ => cases hhead

/-- No space is put exactly where each has one. -/
theorem Legible.spaced_eq_iff {P : Char → Prop} {q : LineState} {ts : List Token}
    (h : Legible P q ts) : spaced ts = ts ↔ WideApart ts := by
  have hplain {t : Token} {ts : List Token} (ht : t.isWideSymbol = false)
      (ih : spaced ts = ts ↔ WideApart ts) : spaced (t :: ts) = t :: ts ↔ WideApart (t :: ts) := by
    simp [spaced_cons ht, wideApart_cons, ht, ih]
  induction h with
  | nil => simp [spaced, WideApart]
  | space h ih => exact hplain rfl ih
  | char _ hc hP h ih => exact hplain rfl ih
  | word _ hne hletters h ih => exact hplain (word_not_wide hletters) ih
  | @symbol _ c ts hc hP h ih =>
    cases hwide : (cs (String.singleton c)).isWideSymbol with
    | false => exact hplain hwide ih
    | true =>
      rw [spaced_of_wide hwide, wideApart_cons, List.cons.injEq]
      constructor
      · rintro ⟨-, hts⟩
        have hhead : ts.head? = some (.ch ' ' .space) := by rw [← hts, List.head?_cons]
        exact ⟨fun _ => hhead, ih.mp ((h.space_settled hhead).symm.trans hts)⟩
      · rintro ⟨hhead, hapart⟩
        exact ⟨rfl, (h.space_settled (hhead hwide)).trans (ih.mpr hapart)⟩
  | escapedEnd _ h ih => exact hplain rfl ih

/-- Lexing undoes spelling but for a space behind each symbol that is spelled as a word; so the
tokens of a text come back exactly if a space stands there in the first place. -/
theorem lexemes_spell (s : String) :
    (Text.lexemes (Lexeme.spell (Text.lexemes s) ++ "%")).map (·.token) =
        spaced ((Text.lexemes s).map (·.token)) ∧
      ((Text.lexemes (Lexeme.spell (Text.lexemes s) ++ "%")).map (·.token) =
        (Text.lexemes s).map (·.token) ↔ WideApart ((Text.lexemes s).map (·.token))) := by
  have h : Legible (fun _ => True) .newLine ((Text.lexemes s).map (·.token)) :=
    legible_lexemes fun _ _ _ => trivial
  rw [lexemes_spell_spaced]
  exact ⟨rfl, h.spaced_eq_iff⟩

/-- An accented letter names a control symbol, and behind it the text did not have a space. -/
theorem lexemes_spell_accented :
    (Text.lexemes "\\éa").map (·.token) = [.cs "é", .ch 'a' .letter, .ch ' ' .space] ∧
      (Text.lexemes (Lexeme.spell (Text.lexemes "\\éa") ++ "%")).map (·.token) =
        [.cs "é", .ch ' ' .space, .ch 'a' .letter, .ch ' ' .space] := by
  decide +kernel

theorem Legible.spaced_plain {q : LineState} {ts : List Token}
    (h : Legible (fun c => Text.isLetter c = true → CategoryTable.plain.of c = .letter) q ts) :
    spaced ts = ts := by
  induction h with
  | nil => rfl
  | space h ih => rw [spaced_cons rfl, ih]
  | char _ hc hP h ih => rw [spaced_cons rfl, ih]
  | word _ hne hletters h ih => rw [spaced_cons (word_not_wide hletters), ih]
  | symbol _ hc hP h ih =>
    have hletter : Text.isLetter _ = false := eq_false_of_ne_true fun h => hc (hP h)
    rw [spaced_cons ((isWideSymbol_singleton hc).trans hletter), ih]
  | escapedEnd _ h ih => rw [spaced_cons rfl, ih]

/-- A text whose letters are the plain ones comes back. -/
theorem lexemes_spell_plain {s : String}
    (h : ∀ c ∈ s.toList, Text.isLetter c = true → CategoryTable.plain.of c = .letter) :
    (Text.lexemes (Lexeme.spell (Text.lexemes s) ++ "%")).map (·.token) =
      (Text.lexemes s).map (·.token) := by
  have hlegible : Legible (fun c => Text.isLetter c = true → CategoryTable.plain.of c = .letter)
      .newLine ((Text.lexemes s).map (·.token)) := legible_lexemes fun c hc _ => h c hc
  rw [lexemes_spell_spaced]
  exact hlegible.spaced_plain

end Galley
