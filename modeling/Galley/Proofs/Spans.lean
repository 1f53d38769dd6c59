import Galley.Proofs.LineSpaces

/-!
Spans of tokens. A transcript (`Lexer.transcript`) records the buffers of the lines that are entered
and the tokens that are delivered, under alphabets that may change from one reading to the next. In
every transcript a token's span covers just the text that the token was read from, and spans follow
one another (`Lexer.spans_faithful`); so there are no more tokens than characters, and the rounds of
every reading can be counted beforehand (`Lexer.readWithin_eq`).
-/

namespace Galley

/-- At or before, by lines and then by columns. -/
def Position.Upto (p q : Position) : Prop :=
  p.line < q.line ∨ p.line = q.line ∧ p.column ≤ q.column

theorem Position.Upto.trans {p q r : Position} (h : p.Upto q) (h' : q.Upto r) : p.Upto r := by
  unfold Upto at h h' ⊢
  omega

/-- Text that a token is read from, with what is left of the buffer behind it. An end of line takes
all that is left of its buffer. -/
inductive ReadFrom (cats : CategoryTable) : Token → List Char → List Char → Prop
  | control {c : Char} (name back : List Char) (h : cats.of c = .escape) :
    ReadFrom cats (.cs (String.ofList name)) (c :: name) back
  | lineEnd {c : Char} {t : Token} (dropped : List Char) (h : cats.of c = .endOfLine)
    (ht : t = .ch ' ' .space ∨ t = .cs "par") : ReadFrom cats t (c :: dropped) []
  | space {c : Char} (back : List Char) (h : cats.of c = .space) :
    ReadFrom cats (.ch ' ' .space) [c] back
  | character {c : Char} (back : List Char) (h : cats.of c ≠ .space) :
    ReadFrom cats (.ch c (cats.of c)) [c] back

theorem ReadFrom.length_pos {cats : CategoryTable} {t : Token} {text back : List Char}
    (h : ReadFrom cats t text back) : 0 < text.length := by
  cases h <;> simp

/-! ## One line -/

/-- What a scan comes to in the buffer: a token behind characters that are passed over, an invalid
character, or the end. -/
def Scanned.Covers (cats : CategoryTable) (column : Nat) (s : List Char) : Scanned → Prop
  | .token t start after => ∃ passed text, s = passed ++ text ++ after.rest ∧
      start = column + passed.length ∧ after.column = start + text.length ∧
      ReadFrom cats t text after.rest
  | .invalid c _ after => ∃ passed, s = passed ++ c :: after.rest ∧
      after.column = column + passed.length + 1
  | .finished after => after.rest = [] ∧ after.column = column + s.length

theorem Scanned.Covers.cons {cats : CategoryTable} {column : Nat} {s : List Char} {o : Scanned}
    (h : o.Covers cats (column + 1) s) (c : Char) : o.Covers cats column (c :: s) := by
  cases o with
  | token t start after =>
    obtain ⟨passed, text, rfl, hstart, hafter, hread⟩ := h
    exact ⟨c :: passed, text, rfl, by rw [hstart, List.length_cons]; omega, hafter, hread⟩
  | invalid d start after =>
    obtain ⟨passed, rfl, hafter⟩ := h
    exact ⟨c :: passed, rfl, by rw [hafter, List.length_cons]; omega⟩
  | finished after => exact ⟨h.1, by rw [h.2, List.length_cons]; omega⟩

theorem scanControl_eq (cats : CategoryTable) (c : Cursor) :
    (scanControl cats c).1 = .cs (String.ofList (controlName cats c.rest)) ∧
      (scanControl cats c).2.column = c.column + (controlName cats c.rest).length := by
  obtain ⟨rest, column, state⟩ := c
  cases rest with
  | nil => exact ⟨rfl, rfl⟩
  | cons ch rest =>
    by_cases hc : cats.of ch = .letter
    · simp [controlName, scanControl, hc]
    · simp [controlName, scanControl, hc, Cursor.advance]

theorem scanFrom_covers (cats : CategoryTable) (strict : Bool) (state : LineState) (column : Nat)
    (s : List Char) : (scanFrom cats strict state column s).Covers cats column s := by
  induction s generalizing column with
  | nil => exact ⟨rfl, rfl⟩
  | cons ch rest ih =>
    have later := (ih (column + 1)).cons ch
    unfold scanFrom
    cases hc : cats.of ch with
    | escape =>
      have happend := controlName_append cats ⟨rest, column + 1, state⟩
      obtain ⟨ht, hcolumn⟩ := scanControl_eq cats ⟨rest, column + 1, state⟩
      refine ⟨[], ch :: controlName cats rest, congrArg (ch :: ·) happend.symm, rfl, ?_, ?_⟩
      · exact hcolumn.trans (Nat.add_right_comm column 1 (controlName cats rest).length)
      · change ReadFrom cats (scanControl cats ⟨rest, column + 1, state⟩).1 _ _
        rw [ht]
        exact .control _ _ hc
    | endOfLine =>
      have hall : ch :: rest = [] ++ (ch :: rest) ++ [] := by simp
      cases state with
      | midLine => exact ⟨[], ch :: rest, hall, rfl, rfl, .lineEnd rest hc (Or.inl rfl)⟩
      | newLine => exact ⟨[], ch :: rest, hall, rfl, rfl, .lineEnd rest hc (Or.inr rfl)⟩
      | skipBlanks => exact ⟨rfl, rfl⟩
    | space =>
      simp only
      split
      · exact ⟨[], [ch], rfl, rfl, rfl, .space _ hc⟩
      · exact later
    | comment => exact ⟨rfl, rfl⟩
    | ignored => exact later
    | invalid =>
      simp only
      split
      · exact ⟨[], rfl, rfl⟩
      · exact later
    | _ =>
      refine ⟨[], [ch], rfl, rfl, rfl, ?_⟩
      rw [← hc]
      exact .character _ (by simp [hc])

/-! ## Transcripts -/

/-- The span of a token lies in one line, and covers the text that the token was read from. -/
def FaithfulIn (buffers : List (List Char)) (cats : CategoryTable) (t : Lexeme) : Prop :=
  ∃ span front text back, t.span = some span ∧ 1 ≤ span.start.line ∧
    span.stop.line = span.start.line ∧
    buffers[span.start.line - 1]? = some (front ++ text ++ back) ∧
    span.start.column = front.length + 1 ∧ span.stop.column = span.start.column + text.length ∧
    ReadFrom cats t.token text back

theorem FaithfulIn.append {buffers : List (List Char)} {cats : CategoryTable} {t : Lexeme}
    (h : FaithfulIn buffers cats t) (more : List (List Char)) :
    FaithfulIn (buffers ++ more) cats t := by
  obtain ⟨span, front, text, back, hspan, hpos, hline, hbuffer, hrest⟩ := h
  refine ⟨span, front, text, back, hspan, hpos, hline, ?_, hrest⟩
  rw [List.getElem?_append_left (List.getElem?_eq_some_iff.mp hbuffer).1]
  exact hbuffer

/-- The one token ends where the other one begins, or before. -/
def Lexeme.Before (t u : Lexeme) : Prop :=
  ∃ s r, t.span = some s ∧ u.span = some r ∧ s.stop.Upto r.start

namespace Lexer

variable {a : Alphabet} {l m : Lexer} {buffers : List (List Char)}

/-- The buffers of the lines that a reading enters. -/
def entered (a : Alphabet) (l : Lexer) : List (List Char) :=
  (l.pending.take ((l.next a).after.line - l.line)).map a.buffer

/-- The buffers of lines that have been entered, and the tokens that have been delivered, each with
the categories it was read under. -/
structure Transcript where
  buffers : List (List Char) := []
  tokens : List (CategoryTable × Lexeme) := []
  deriving DecidableEq, Repr

/-- What is recorded of readings under these alphabets. -/
def transcript (l : Lexer) : List Alphabet → Transcript
  | [] => {}
  | a :: more =>
    let rest := (l.next a).after.transcript more
    ⟨l.entered a ++ rest.buffers,
      (l.next a).lexeme?.toList.map (a.categories, ·) ++ rest.tokens⟩

/-- What is left of the current line is the end of the last buffer. -/
structure Stands (buffers : List (List Char)) (l : Lexer) : Prop where
  line : buffers.length = l.line
  cursor : l.cursor.rest ≠ [] → ∃ read, buffers.getLast? = some (read ++ l.cursor.rest) ∧
    read.length = l.cursor.column

/-- The place lies before all that is left. -/
def Beyond (l : Lexer) (p : Position) : Prop := p.Upto ⟨l.line, l.cursor.column + 1⟩

/-- What a reading has done that entered these lines. -/
structure Advances (a : Alphabet) (buffers entered : List (List Char)) (l : Lexer) (o : Lexed) :
    Prop where
  stands : Stands (buffers ++ entered) o.after
  beyond : ∀ p, l.Beyond p → o.after.Beyond p
  taken : o.after.cursor.rest.length + o.lexeme?.toList.length ≤
    l.cursor.rest.length + entered.flatten.length
  faithful : ∀ t ∈ o.lexeme?, FaithfulIn (buffers ++ entered) a.categories t
  ordered : ∀ t ∈ o.lexeme?, ∃ span, t.span = some span ∧ (∀ p, l.Beyond p → p.Upto span.start) ∧
    o.after.Beyond span.stop

/-- A place further on in the current line. -/
theorem Beyond.forward {p : Position} (h : l.Beyond p) {column : Nat}
    (hc : l.cursor.column ≤ column) : p.Upto ⟨l.line, column + 1⟩ :=
  h.trans (Or.inr ⟨rfl, Nat.succ_le_succ hc⟩)

theorem Stands.after_scan (h : Stands buffers l) {after : Cursor} {passed : List Char}
    (hrest : l.cursor.rest = passed ++ after.rest)
    (hcolumn : after.column = l.cursor.column + passed.length) :
    Stands buffers { l with cursor := after } where
  line := h.line
  cursor hne := by
    have hne' : l.cursor.rest ≠ [] := by
      rw [hrest]
      exact List.append_ne_nil_of_right_ne_nil passed hne
    obtain ⟨read, hlast, hlength⟩ := h.cursor hne'
    refine ⟨read ++ passed, ?_, ?_⟩
    · rw [hlast, hrest, List.append_assoc]
    · rw [List.length_append, hlength, hcolumn]

/-- A token that has been scanned of the current line. -/
theorem Stands.token (h : Stands buffers l) {t : Token} {start : Nat} {after : Cursor}
    (hs : (Scanned.token t start after).Covers a.categories l.cursor.column l.cursor.rest) :
    Advances a buffers [] l (.token (l.lexeme t start after) { l with cursor := after }) := by
  obtain ⟨passed, text, hrest, rfl, hcolumn, hread⟩ := hs
  have hpos := hread.length_pos
  have hne : l.cursor.rest ≠ [] := by
    intro hnil
    rw [hnil] at hrest
    have hlength := congrArg List.length hrest
    simp only [List.length_nil, List.length_append] at hlength
    omega
  obtain ⟨read, hlast, hlength⟩ := h.cursor hne
  have hline : 1 ≤ l.line := by
    rw [← h.line]
    exact List.length_pos_iff.mpr fun hnil => by simp [hnil] at hlast
  have hbuffer : buffers[l.line - 1]? = some (read ++ l.cursor.rest) := by
    rw [← h.line, ← List.getLast?_eq_getElem?]
    exact hlast
  have hmax : max l.line 1 = l.line := Nat.max_eq_left hline
  have hforward : l.cursor.column ≤ after.column := by omega
  refine ⟨?_, fun p hp => hp.forward hforward, ?_, ?_, ?_⟩
  · rw [List.append_nil]
    exact h.after_scan hrest (by rw [List.length_append]; omega)
  · simp only [Lexed.after, Lexed.lexeme?, hrest, List.length_append, Option.toList_some,
      List.length_singleton, List.flatten_nil, List.length_nil]
    omega
  · intro u hu
    cases hu
    rw [List.append_nil]
    refine ⟨_, read ++ passed, text, after.rest, rfl, ?_⟩
    simp only [lexeme, place, hmax]
    refine ⟨hline, trivial, ?_, ?_, ?_, hread⟩
    · rw [hbuffer, hrest]
      simp only [List.append_assoc]
    · rw [List.length_append, hlength]
    · omega
  · intro u hu
    cases hu
    refine ⟨_, rfl, fun p hp => ?_, ?_⟩
    · simp only [place, hmax]
      exact hp.forward (Nat.le_add_right _ _)
    · simp only [Lexed.after, place, hmax]
      exact Or.inr ⟨rfl, Nat.le_refl _⟩

/-- No token has been scanned of the current line. -/
theorem Stands.passed (h : Stands buffers l) {o : Lexed} {after : Cursor} (passed : List Char)
    (ho : o.after = { l with cursor := after }) (hnone : o.lexeme? = none)
    (hrest : l.cursor.rest = passed ++ after.rest)
    (hcolumn : after.column = l.cursor.column + passed.length) : Advances a buffers [] l o := by
  refine ⟨?_, fun p hp => ?_, ?_, ?_, ?_⟩
  · rw [List.append_nil, ho]
    exact h.after_scan hrest hcolumn
  · rw [ho]
    exact hp.forward (by simp only; omega)
  · rw [ho, hnone, hrest]
    simp
  · rw [hnone]
    intro t ht
    cases ht
  · rw [hnone]
    intro t ht
    cases ht

/-- The next line is entered at the beginning of its buffer. -/
theorem Stands.enter (h : Stands buffers l) (a : Alphabet) (line : String) (more : List String) :
    Stands (buffers ++ [a.buffer line]) (l.enter a line more) where
  line := by
    rw [List.length_append, h.line]
    rfl
  cursor _ := ⟨[], by rw [List.getLast?_concat]; rfl, rfl⟩

theorem Advances.enter {o : Lexed} {line : String} {more : List String}
    {entered : List (List Char)}
    (h : Advances a (buffers ++ [a.buffer line]) entered (l.enter a line more) o) :
    Advances a buffers (a.buffer line :: entered) l o := by
  have happend : buffers ++ [a.buffer line] ++ entered = buffers ++ a.buffer line :: entered :=
    List.append_assoc _ _ _
  have hforward (p : Position) (hp : l.Beyond p) : (l.enter a line more).Beyond p := by
    refine hp.trans (Or.inl ?_)
    exact Nat.lt_succ_self l.line
  obtain ⟨hstands, hbeyond, htaken, hfaithful, hordered⟩ := h
  rw [happend] at hstands hfaithful
  refine ⟨hstands, fun p hp => hbeyond p (hforward p hp), ?_, hfaithful, fun t ht => ?_⟩
  · simp only [Lexer.enter] at htaken
    rw [List.flatten_cons, List.length_append]
    omega
  · obtain ⟨span, hspan, hstart, hstop⟩ := hordered t ht
    exact ⟨span, hspan, fun p hp => hstart p (hforward p hp), hstop⟩

theorem nextFrom_advances {pending : List String} (hp : l.pending = pending)
    (h : Stands buffers l) :
    l.line ≤ (l.nextFrom a pending).after.line ∧
      Advances a buffers ((pending.take ((l.nextFrom a pending).after.line - l.line)).map a.buffer)
        l (l.nextFrom a pending) := by
  have hscan (l : Lexer) : (l.cursor.scan a.categories l.strict).Covers a.categories
      l.cursor.column l.cursor.rest := scanFrom_covers _ _ _ _ _
  fun_induction nextFrom a l pending generalizing buffers with
  | case1 pending l t start after hs =>
    have hc := hscan l
    rw [hs] at hc
    refine ⟨Nat.le_refl _, ?_⟩
    simp only [Lexed.after, Nat.sub_self, List.take_zero, List.map_nil]
    exact h.token hc
  | case2 pending l c start after hs =>
    have hc := hscan l
    rw [hs] at hc
    obtain ⟨passed, hrest, hcolumn⟩ := hc
    refine ⟨Nat.le_refl _, ?_⟩
    simp only [Lexed.after, Nat.sub_self, List.take_zero, List.map_nil]
    refine h.passed (passed ++ [c]) rfl rfl ?_ ?_
    · rw [hrest, List.append_assoc]
      rfl
    · rw [hcolumn, List.length_append]
      rfl
  | case3 l after hs =>
    have hc := hscan l
    rw [hs] at hc
    refine ⟨Nat.le_refl _, ?_⟩
    simp only [Lexed.after, List.take_nil, List.map_nil]
    exact h.passed l.cursor.rest rfl rfl (by rw [hc.1, List.append_nil]) hc.2
  | case4 l after hs line more ih =>
    obtain ⟨hline, hadvances⟩ := ih rfl (h.enter a line more)
    have hle : l.line + 1 ≤ (nextFrom a (l.enter a line more) more).after.line := hline
    refine ⟨Nat.le_of_succ_le hle, ?_⟩
    obtain ⟨k, hk⟩ := Nat.exists_eq_add_of_le hle
    have hsub : l.line + 1 + k - l.line = k + 1 := by omega
    have hsub' : l.line + 1 + k - (l.line + 1) = k := by omega
    rw [hk, hsub, List.take_succ_cons, List.map_cons]
    have hentered : (l.enter a line more).line = l.line + 1 := rfl
    rw [hk, hentered, hsub'] at hadvances
    exact hadvances.enter

theorem next_advances (a : Alphabet) (h : Stands buffers l) :
    Advances a buffers (l.entered a) l (l.next a) := (nextFrom_advances rfl h).2

/-- What is recorded of readings from here on. -/
structure Recorded (buffers : List (List Char)) (l : Lexer) (seen : Transcript) : Prop where
  faithful : ∀ d ∈ seen.tokens, FaithfulIn (buffers ++ seen.buffers) d.1 d.2
  beyond : ∀ d ∈ seen.tokens, ∃ span, d.2.span = some span ∧ ∀ p, l.Beyond p → p.Upto span.start
  ordered : seen.tokens.Pairwise fun d e => d.2.Before e.2
  taken : seen.tokens.length ≤ l.cursor.rest.length + seen.buffers.flatten.length

/-- One more reading in front. -/
theorem Advances.recorded {o : Lexed} {entered : List (List Char)} {seen : Transcript}
    (h : Advances a buffers entered l o) (hs : Recorded (buffers ++ entered) o.after seen) :
    Recorded buffers l ⟨entered ++ seen.buffers,
      o.lexeme?.toList.map (a.categories, ·) ++ seen.tokens⟩ where
  faithful := by
    rw [← List.append_assoc]
    refine List.forall_mem_append.mpr ⟨fun d hd => ?_, hs.faithful⟩
    obtain ⟨t, ht, rfl⟩ := List.mem_map.mp hd
    exact (h.faithful t (Option.mem_toList.mp ht)).append seen.buffers
  beyond := by
    refine List.forall_mem_append.mpr ⟨fun d hd => ?_, fun d hd => ?_⟩
    · obtain ⟨t, ht, rfl⟩ := List.mem_map.mp hd
      obtain ⟨span, hspan, hstart, -⟩ := h.ordered t (Option.mem_toList.mp ht)
      exact ⟨span, hspan, hstart⟩
    · obtain ⟨span, hspan, hstart⟩ := hs.beyond d hd
      exact ⟨span, hspan, fun p hp => hstart p (h.beyond p hp)⟩
  ordered := by
    refine List.pairwise_append.mpr ⟨?_, hs.ordered, fun d hd e he => ?_⟩
    · cases o.lexeme? with
      | none => exact List.Pairwise.nil
      | some t => exact List.pairwise_singleton _ _
    · obtain ⟨t, ht, rfl⟩ := List.mem_map.mp hd
      obtain ⟨span, hspan, -, hstop⟩ := h.ordered t (Option.mem_toList.mp ht)
      obtain ⟨span', hspan', hstart⟩ := hs.beyond e he
      exact ⟨span, span', hspan, hspan', hstart _ hstop⟩
  taken := by
    have hread := h.taken
    have hrest := hs.taken
    simp only [List.length_append, List.length_map, List.flatten_append]
    omega

theorem transcript_recorded (alphabets : List Alphabet) (h : Stands buffers l) :
    Recorded buffers l (l.transcript alphabets) := by
  induction alphabets generalizing buffers l with
  | nil =>
    refine ⟨fun d hd => ?_, fun d hd => ?_, List.Pairwise.nil, Nat.zero_le _⟩
    · cases hd
    · cases hd
  | cons a more ih =>
    have hnext := next_advances a h
    exact hnext.recorded (ih hnext.stands)

/-! ## Rounds of a reading -/

/-- One round of a reading: the next line is entered, a single character is scanned, with the name
behind it if it is an escape character, or the end has been reached. -/
def round (a : Alphabet) (l : Lexer) : Turn Lexer Lexed :=
  match l.cursor.rest with
  | [] =>
    match l.pending with
    | [] => .finish (.finished l)
    | line :: more => .again (l.enter a line more)
  | ch :: rest =>
    let passed := l.cursor.advance rest l.cursor.state
    let delivered (t : Token) (after : Cursor) : Turn Lexer Lexed :=
      .finish (.token (l.lexeme t l.cursor.column after) { l with cursor := after })
    match a.categories.of ch with
    | .escape =>
      let r := scanControl a.categories passed
      delivered r.1 r.2
    | .endOfLine =>
      let after := l.cursor.toEnd .newLine
      match l.cursor.state with
      | .midLine => delivered (.ch ' ' .space) after
      | .newLine => delivered (.cs "par") after
      | .skipBlanks => .again { l with cursor := after }
    | .space =>
      if l.cursor.state = .midLine then
        delivered (.ch ' ' .space) { passed with state := .skipBlanks }
      else .again { l with cursor := passed }
    | .comment => .again { l with cursor := l.cursor.toEnd l.cursor.state }
    | .ignored => .again { l with cursor := passed }
    | .invalid =>
      if l.strict then .finish (.invalid ch (l.place l.cursor.column) { l with cursor := passed })
      else .again { l with cursor := passed }
    | cat => delivered (.ch ch cat) { passed with state := .midLine }

/-- Reads in so many rounds, if these are enough. -/
def readWithin (a : Alphabet) : Nat → Lexer → Option Lexed
  | 0, _ => none
  | n + 1, l =>
    match l.round a with
    | .again l => readWithin a n l
    | .finish o => some o

/-- A round comes nearer to what the reading comes to. -/
def Nears (a : Alphabet) (l : Lexer) : Turn Lexer Lexed → Prop
  | .again m => l.next a = m.next a ∧ m.size a + m.pending.length < l.size a + l.pending.length
  | .finish o => l.next a = o

theorem nears_cursor {c : Cursor}
    (h : l.cursor.scan a.categories l.strict = c.scan a.categories l.strict)
    (hlt : c.rest.length < l.cursor.rest.length) : Nears a l (.again { l with cursor := c }) := by
  refine ⟨nextFrom_cursor h l.pending, ?_⟩
  simp only [size]
  omega

theorem round_nears (a : Alphabet) (l : Lexer) : Nears a l (l.round a) := by
  unfold round
  cases hr : l.cursor.rest with
  | nil =>
    have hnext := nextFrom_finished (scan_of_rest hr a.categories l.strict)
    cases hp : l.pending with
    | nil => exact (congrArg (l.nextFrom a) hp).trans (hnext [])
    | cons line more =>
      refine ⟨(congrArg (l.nextFrom a) hp).trans (hnext (line :: more)), ?_⟩
      simp only [size, enter, hr, hp, List.flatMap_cons, List.length_append, List.length_cons]
      omega
  | cons ch rest =>
    have hscan : l.cursor.scan a.categories l.strict =
        scanFrom a.categories l.strict l.cursor.state l.cursor.column (ch :: rest) := by
      rw [Cursor.scan, hr]
    have hlt : rest.length < l.cursor.rest.length := by simp [hr]
    have htoEnd : ∀ state, (l.cursor.toEnd state).rest.length < l.cursor.rest.length := by
      simp [Cursor.toEnd, hr]
    dsimp only
    cases hc : a.categories.of ch with
    | escape => exact nextFrom_token (hscan.trans (by simp [scanFrom, hc, Cursor.advance])) _
    | endOfLine =>
      cases hs : l.cursor.state with
      | midLine =>
        exact nextFrom_token (hscan.trans (by simp [scanFrom, hc, hs, hr, Cursor.toEnd])) _
      | newLine =>
        exact nextFrom_token (hscan.trans (by simp [scanFrom, hc, hs, hr, Cursor.toEnd])) _
      | skipBlanks =>
        refine nears_cursor (hscan.trans ?_) (htoEnd .newLine)
        simp [scanFrom, hc, hs, hr, Cursor.toEnd, Cursor.scan]
    | comment =>
      refine nears_cursor (hscan.trans ?_) (htoEnd l.cursor.state)
      simp [scanFrom, hc, hr, Cursor.toEnd, Cursor.scan]
    | space =>
      dsimp only
      by_cases hs : l.cursor.state = .midLine
      · rw [if_pos hs]
        exact nextFrom_token (hscan.trans (by simp [scanFrom, hc, hs, Cursor.advance])) _
      · rw [if_neg hs]
        refine nears_cursor (hscan.trans ?_) hlt
        simp [scanFrom, hc, hs, Cursor.scan, Cursor.advance]
    | ignored =>
      exact nears_cursor (hscan.trans (by simp [scanFrom, hc, Cursor.scan, Cursor.advance])) hlt
    | invalid =>
      dsimp only
      by_cases hs : l.strict = true
      · rw [if_pos hs]
        exact nextFrom_invalid (hscan.trans (by simp [scanFrom, hc, hs, Cursor.advance])) _
      · rw [if_neg hs]
        refine nears_cursor (hscan.trans ?_) hlt
        simp [scanFrom, hc, hs, Cursor.scan, Cursor.advance]
    | _ => exact nextFrom_token (hscan.trans (by simp [scanFrom, hc, Cursor.advance])) _

/-- So many rounds are enough as there are characters and lines left, and one more. -/
theorem readWithin_eq (a : Alphabet) {n : Nat} {l : Lexer} (h : l.size a + l.pending.length < n) :
    l.readWithin a n = some (l.next a) := by
  induction n generalizing l with
  | zero => exact absurd h (Nat.not_lt_zero _)
  | succ n ih =>
    have hround := l.round_nears a
    rw [readWithin]
    cases ho : l.round a with
    | finish o =>
      rw [ho] at hround
      exact congrArg some (Eq.symm hround)
    | again m =>
      rw [ho] at hround
      rw [hround.1]
      exact ih (by have hlt := hround.2; omega)

/-- However the alphabet changes between readings: every token's span lies in one line and within
its buffer, and covers just the text that the token was read from; no token begins before the end of
another one that was delivered before it; there are no more tokens than characters in the buffers of
the lines that have been entered. And every reading ends in a number of rounds that is known
beforehand. -/
theorem spans_faithful (lines : List String) (strict : Bool) (alphabets : List Alphabet) :
    let seen := transcript { lines := lines, strict := strict } alphabets
    (∀ d ∈ seen.tokens, ∃ span front text back, d.2.span = some span ∧ 1 ≤ span.start.line ∧
      span.stop.line = span.start.line ∧
      seen.buffers[span.start.line - 1]? = some (front ++ text ++ back) ∧
      span.start.column = front.length + 1 ∧ span.stop.column = span.start.column + text.length ∧
      span.start.column < span.stop.column ∧
      span.stop.column ≤ (front ++ text ++ back).length + 1 ∧
      ReadFrom d.1 d.2.token text back) ∧
    seen.tokens.Pairwise (fun d e => d.2.Before e.2) ∧
    seen.tokens.length ≤ seen.buffers.flatten.length ∧
    ∀ (a : Alphabet) (l : Lexer), l.readWithin a (l.size a + l.pending.length + 1) =
      some (l.next a) := by
  have hstart : Stands [] { lines := lines, strict := strict } :=
    ⟨rfl, fun hne => absurd rfl hne⟩
  have hseen := transcript_recorded alphabets hstart
  refine ⟨fun d hd => ?_, hseen.ordered, ?_, fun a l => readWithin_eq a (Nat.lt_succ_self _)⟩
  · obtain ⟨span, front, text, back, hspan, hpos, hline, hbuffer, hfront, hstop, hread⟩ :=
      hseen.faithful d hd
    have htext := hread.length_pos
    refine ⟨span, front, text, back, hspan, hpos, hline, hbuffer, hfront, hstop, ?_, ?_, hread⟩
    · omega
    · simp only [List.length_append]
      omega
  · have htaken := hseen.taken
    rwa [List.length_nil, Nat.zero_add] at htaken

/-- A letter that has become an end of line takes the rest of the buffer, its return included. -/
example : (transcript { lines := ["ab c"] }
    [{}, { categories := CategoryTable.plain.set 98 .endOfLine }, {}]).tokens.map (·.2) =
      [⟨.ch 'a' .letter, some ⟨⟨1, 1⟩, ⟨1, 2⟩⟩⟩, ⟨.ch ' ' .space, some ⟨⟨1, 2⟩, ⟨1, 6⟩⟩⟩] := by
  decide +kernel

end Lexer

end Galley
