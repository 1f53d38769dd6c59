import Galley.Engine
import Galley.Proofs.Answers
import Galley.Proofs.Bodies
import Galley.Proofs.WellFormed

/-!
The builder on running text. The commands of the builder change its nest as `Nest.feed` does; some
of them take two turns, since a token that begins or ends a paragraph is put back and read again. So
a run over the tokens of a body builds the items of that body, unless a box is too large or there is
no room for a token that is put back; and braces that do not match are reported where they stand.
-/

namespace Galley

/-! ## Room for one token -/

namespace Input

variable {a : Alphabet} {i j : Input} {t : Lexeme} {x : Option Lexeme}

/-- A further chunk would not be too many. -/
def Spare (i : Input) : Prop := ((dropEmpty i.chunks).length : Int) < i.capacity.chunks

theorem length_dropEmpty_le (chunks : List Chunk) : (dropEmpty chunks).length ≤ chunks.length := by
  induction chunks with
  | nil => exact Nat.le_refl 0
  | cons c more ih =>
    unfold dropEmpty
    split
    · exact Nat.le_succ_of_le ih
    · exact Nat.le_refl _

theorem length_takePending_le {chunks rest : List Chunk} (h : takePending chunks = some (t, rest)) :
    (dropEmpty rest).length ≤ (dropEmpty chunks).length := by
  obtain ⟨ts, origin, more, hd, rfl⟩ := exists_of_takePending h
  rw [hd]
  exact length_dropEmpty_le (⟨ts, origin⟩ :: more)

theorem Spare.next (h : i.Spare) (hn : i.next a = .done x j) : j.Spare := by
  unfold Spare at *
  cases ht : takePending i.chunks with
  | some p =>
    obtain ⟨t, chunks⟩ := p
    rw [next_of_pending ht] at hn
    cases hn
    have hle := length_takePending_le ht
    show ((dropEmpty chunks).length : Int) < i.capacity.chunks
    omega
  | none =>
    rw [next_of_lexer ht] at hn
    cases hl : i.lexer.next a with
    | token t l =>
      rw [hl] at hn
      cases hn
      show ((dropEmpty []).length : Int) < i.capacity.chunks
      simp only [dropEmpty, List.length_nil]
      omega
    | invalid c place l =>
      rw [hl] at hn
      cases hn
    | finished l =>
      rw [hl] at hn
      cases hn
      show ((dropEmpty []).length : Int) < i.capacity.chunks
      simp only [dropEmpty, List.length_nil]
      omega

/-- The place of a token that has been read, if it has one. -/
theorem last_of_next (h : i.next a = .done (some t) j) {s : Span} (hs : t.span = some s) :
    j.last = s.start := by
  cases ht : takePending i.chunks with
  | some p =>
    obtain ⟨u, chunks⟩ := p
    rw [next_of_pending ht] at h
    cases h
    simp [placeAfter, hs]
  | none =>
    rw [next_of_lexer ht] at h
    cases hl : i.lexer.next a with
    | token u l =>
      rw [hl] at h
      cases h
      simp [placeAfter, hs]
    | invalid c place l =>
      rw [hl] at h
      cases h
    | finished l =>
      rw [hl] at h
      cases h

/-- A token that is put back is read again, or there was no room for it. -/
theorem back_next (a : Alphabet) (i : Input) (t : Lexeme) :
    (∃ j k, i.back [t] = .done () j ∧ j.last = i.last ∧ j.next a = .done (some t) k ∧
      k.view a = i.view a ∧ (i.Spare → k.Spare)) ∨
    ∃ f j, i.back [t] = .failed f j ∧ f.OfCapacity ∧ ¬ i.Spare := by
  by_cases hs : i.capacity.chunks ≤ (dropEmpty i.chunks).length
  · right
    refine ⟨_, _, if_pos hs, ⟨_, rfl⟩, ?_⟩
    intro h
    unfold Spare at h
    omega
  · left
    refine ⟨_, _, if_neg hs, rfl, next_of_pending rfl a, ?_, ?_⟩
    · have hp := pending_dropEmpty i.chunks
      unfold pending at hp
      simp [view, pending, hp]
    · intro h
      have hle := length_dropEmpty_le (dropEmpty i.chunks)
      unfold Spare at *
      show ((dropEmpty (⟨[], none⟩ :: dropEmpty i.chunks)).length : Int) < i.capacity.chunks
      simp only [dropEmpty, List.isEmpty_nil, if_pos]
      omega

end Input

/-! ## Turns of a run -/

namespace Machine

variable {face : Typeface} {nest nest' nest'' : Nest} {m m' m'' : Machine}
  {o : Outcome Machine Composed}

/-- From here a run comes to there, in some number of turns. -/
def Goes (face : Typeface) (nest : Nest) (m : Machine) (nest' : Nest) (m' : Machine) : Prop :=
  ∃ turns, ∀ rounds n, 1 ≤ rounds →
    iterate (turn face rounds) (n + turns) nest m = iterate (turn face rounds) n nest' m'

/-- From here a run ends like this. -/
def Ends (face : Typeface) (nest : Nest) (m : Machine) (o : Outcome Machine Composed) : Prop :=
  ∃ turns, ∀ rounds n, 1 ≤ rounds → iterate (turn face rounds) (n + turns) nest m = o

theorem Goes.refl (face : Typeface) (nest : Nest) (m : Machine) : Goes face nest m nest m :=
  ⟨0, fun _ _ _ => rfl⟩

theorem Goes.trans (h : Goes face nest m nest' m') (h' : Goes face nest' m' nest'' m'') :
    Goes face nest m nest'' m'' := by
  obtain ⟨k, hk⟩ := h
  obtain ⟨l, hl⟩ := h'
  refine ⟨l + k, fun rounds n hr => ?_⟩
  rw [← Nat.add_assoc, hk rounds _ hr, hl rounds n hr]

theorem Goes.ends (h : Goes face nest m nest' m') (h' : Ends face nest' m' o) :
    Ends face nest m o := by
  obtain ⟨k, hk⟩ := h
  obtain ⟨l, hl⟩ := h'
  refine ⟨l + k, fun rounds n hr => ?_⟩
  rw [← Nat.add_assoc, hk rounds _ hr, hl rounds n hr]

theorem goes_of_turn
    (h : ∀ rounds, 1 ≤ rounds → m.turn face rounds nest = .done (.again nest') m') :
    Goes face nest m nest' m' := by
  refine ⟨1, fun rounds n hr => ?_⟩
  rw [iterate_succ, h rounds hr]
  rfl

theorem ends_of_failed {f : Fault}
    (h : ∀ rounds, 1 ≤ rounds → m.turn face rounds nest = .failed f m') :
    Ends face nest m (.failed f m') := by
  refine ⟨1, fun rounds n hr => ?_⟩
  rw [iterate_succ, h rounds hr]
  rfl

theorem ends_of_finished {list : Composed}
    (h : ∀ rounds, 1 ≤ rounds → m.turn face rounds nest = .done (.finish list) m') :
    Ends face nest m (.done list m') := by
  refine ⟨1, fun rounds n hr => ?_⟩
  rw [iterate_succ, h rounds hr]
  rfl

end Machine

/-! ## Commands -/

namespace Build

variable {tables : Tables} {face : Typeface} {nest within : Nest} {i : Input}

/-- What a command that assigns nothing comes to. -/
def Comes (tables : Tables) (r : Step) (i : Input) (o : Outcome Input (Turn Nest Composed)) :
    Prop :=
  ∀ rounds, r.run (handler tables rounds) rounds i = o.map fun turn => { turn := turn }

/-- A change of the nest, blamed on the last place if it fails. -/
def outcome (i : Input) : Except BuildFault Nest → Outcome Input (Turn Nest Composed)
  | .ok nest => .done (.again nest) i
  | .error e => .failed (i.fault (.build e)) i

theorem comes_goOn (tables : Tables) (nest : Nest) (i : Input) :
    Comes tables (goOn nest) i (outcome i (.ok nest)) := fun _ => rfl

theorem comes_fault (tables : Tables) (e : BuildFault) (i : Input) :
    Comes tables (fault e) i (outcome i (.error e)) := fun _ => rfl

theorem comes_package (tables : Tables) (mode : Mode) (items : List Item) (within : Nest)
    (i : Input) : Comes tables (package mode items >>= fun b => goOn (within.add b)) i
      (outcome i (Nest.boxed mode items >>= fun b => pure (within.add b))) := by
  intro rounds
  unfold package Nest.boxed
  cases Item.extent? mode items with
  | none => rfl
  | some e => rfl

theorem comes_closeParagraph (tables : Tables) (items : List Item) (within : Nest) (i : Input) :
    Comes tables (closeParagraph items within) i
      (outcome i (Nest.settled (.paragraph items within))) := by
  rw [closeParagraph, Nest.settled]
  cases items.dropWhile Item.isGlue with
  | nil => exact comes_goOn tables within i
  | cons item kept => exact comes_package tables .horizontal _ within i

/-- A closing brace that no paragraph stands in the way of. -/
theorem comes_endGroup (tables : Tables) (t : Lexeme) (h : nest.isParagraph = false) (i : Input) :
    Comes tables (endGroup t nest) i (outcome i nest.ended) := by
  cases nest with
  | paragraph items within => cases h
  | outer mode items => exact comes_fault tables _ i
  | group mode items within => exact comes_package tables mode _ within i

theorem comes_letter (tables : Tables) {c : Char} {e : Extent}
    (h : face.metrics.extentOf face.font (String.singleton c) = .ok e) (nest : Nest) (i : Input) :
    Comes tables (letter face c nest) i (outcome i (.ok (nest.add (face.glyph c)))) := by
  intro rounds
  have hglyph : face.glyph c = .char (String.singleton c) face.font e := by
    rw [Typeface.glyph, h]
    rfl
  rw [letter, h, hglyph]
  rfl

theorem comes_interword (tables : Tables) (h : face.font = face.metrics.name) (nest : Nest)
    (i : Input) : Comes tables (interword face nest) i (outcome i (.ok (nest.add face.blank))) := by
  intro rounds
  have hspace : face.metrics.interword face.font = .ok face.metrics.space := by
    simp [Metrics.interword, Metrics.checkFont, h, Bind.bind, Except.bind, pure, Except.pure]
  rw [interword, hspace]
  rfl

end Build

namespace Machine

variable {face : Typeface} {nest : Nest} {m : Machine} {j : Input}

/-- What comes of the input comes of the run. -/
def onInput (m : Machine) {α : Type} : Outcome Input α → Outcome Machine α
  | .done a i => .done a { m with input := i }
  | .failed f i => .failed f { m with input := i }
  | .unfinished => .unfinished

/-- A turn on what expansion brings. -/
theorem turn_of_expanded {x : Option Lexeme} {o : Outcome Input (Turn Nest Composed)} {rounds : Nat}
    (hx : m.input.nextExpanded m.tables rounds = .done x j)
    (ho : Build.Comes m.tables (Build.onToken face nest x) j o) :
    m.turn face rounds nest = m.onInput o := by
  have hstep : (Build.step face nest).run (handler m.tables rounds) rounds m.input =
      o.map fun turn => { turn := turn } := by
    rw [← ho rounds]
    change ((Scan.next >>= Build.onToken face nest).run _ _ m.input) = _
    rw [Reader.run_bind]
    change ((m.input.nextExpanded m.tables rounds).andThen _) = _
    rw [hx]
    rfl
  rw [turn, hstep]
  cases o <;> rfl

end Machine

namespace Input

variable {tables : Tables} {i j : Input} {rounds : Nat}

theorem nextExpanded_inert {t : Lexeme} (hb : t.token.branch? = none)
    (hm : tables.meaning? t.token = none) (hn : i.next tables.alphabet = .done (some t) j)
    (hr : 1 ≤ rounds) : i.nextExpanded tables rounds = .done (some t) j := by
  obtain ⟨n, rfl⟩ : ∃ n, rounds = n + 1 := ⟨rounds - 1, by omega⟩
  rw [nextExpanded_succ, run_step hn]
  simp only [hb, hm]
  rfl

theorem nextExpanded_end (hn : i.next tables.alphabet = .done none j) (hr : 1 ≤ rounds) :
    i.nextExpanded tables rounds = .done none j := by
  obtain ⟨n, rfl⟩ : ∃ n, rounds = n + 1 := ⟨rounds - 1, by omega⟩
  rw [nextExpanded_succ, run_step_end hn]
  rfl

end Input

/-! ## One token -/

theorem Token.OfBody.branch?_eq {t : Token} (h : t.OfBody) : t.branch? = none := by
  cases t with
  | cs name =>
    obtain rfl : name = "par" := h
    rfl
  | ch c cat => rfl

namespace Machine

variable {face : Typeface} {nest nest' : Nest} {m m' m'' : Machine} {t : Lexeme} {v w : View}

/-- The run has come to where this is ahead. -/
structure Reached (m : Machine) (v : View) (m' : Machine) : Prop where
  tables : m'.tables = m.tables
  view : m'.input.view m.tables.alphabet = v
  spare : m.input.Spare → m'.input.Spare

theorem Reached.trans (h : m.Reached v m') (h' : m'.Reached w m'') : m.Reached w m'' where
  tables := h'.tables.trans h.tables
  view := by rw [← h.tables, h'.view]
  spare := fun hs => h'.spare (h.spare hs)

/-- A token has to be put back and there is no room for it. -/
def Overfull (face : Typeface) (nest : Nest) (m : Machine) : Prop :=
  ∃ f m', Ends face nest m (.failed f m') ∧ f.OfCapacity ∧ ¬ m.input.Spare

theorem Overfull.of_goes (hg : Goes face nest m nest' m') (hr : m.Reached v m')
    (h : Overfull face nest' m') : Overfull face nest m := by
  obtain ⟨f, last, he, hf, hs⟩ := h
  exact ⟨f, last, hg.ends he, hf, fun hspare => hs (hr.spare hspare)⟩

/-- A token changes the nest like this: the run goes on behind it, or it fails where it stands. -/
def Feeds (face : Typeface) (nest : Nest) (m : Machine) (t : Lexeme) (v : View) :
    Except BuildFault Nest → Prop
  | .ok nest' => ∃ m', Goes face nest m nest' m' ∧ m.Reached v m'
  | .error e => ∃ f m', Ends face nest m (.failed f m') ∧ f.cause = .build e ∧
    (∀ s, t.span = some s → f.place = s.start) ∧ m'.tables = m.tables ∧
    (e = .unopenedGroup → m'.input.view m.tables.alphabet = v)

variable {ts : List Lexeme}

/-- The token is read in one turn. -/
theorem feeds_of_comes {res : Except BuildFault Nest}
    (hview : m.input.view m.tables.alphabet = v.push (t :: ts)) (hb : t.token.branch? = none)
    (hm : m.tables.meaning? t.token = none)
    (ho : ∀ j, Build.Comes m.tables (Build.onToken face nest (some t)) j (Build.outcome j res)) :
    Feeds face nest m t (v.push ts) res := by
  obtain ⟨j, hn, hj⟩ := Input.next_of_view hview
  have hturn {rounds : Nat} (hr : 1 ≤ rounds) :=
    turn_of_expanded (Input.nextExpanded_inert hb hm hn hr) (ho j)
  cases res with
  | ok nest' =>
    refine ⟨{ m with input := j }, goes_of_turn fun rounds hr => hturn hr, rfl, hj, ?_⟩
    intro hs
    exact hs.next hn
  | error e =>
    refine ⟨_, { m with input := j }, ends_of_failed fun rounds hr => hturn hr, rfl, ?_, rfl,
      fun _ => hj⟩
    intro s hs
    exact Input.last_of_next hn hs

/-- A turn that puts its token back, which is then ahead again. -/
theorem turn_of_back {first : Except BuildFault Nest} {r : Build.Step}
    (hview : m.input.view m.tables.alphabet = v.push (t :: ts)) (hb : t.token.branch? = none)
    (hm : m.tables.meaning? t.token = none)
    (hback : Build.onToken face nest (some t) = (do Scan.back [t]; r))
    (hr : ∀ j, Build.Comes m.tables r j (Build.outcome j first)) :
    Overfull face nest m ∨ ∃ k l,
      (∀ rounds, 1 ≤ rounds → m.turn face rounds nest = m.onInput (Build.outcome k first)) ∧
      (∀ s, t.span = some s → k.last = s.start) ∧ k.next m.tables.alphabet = .done (some t) l ∧
      m.Reached (v.push ts) { m with input := l } := by
  obtain ⟨j, hn, hj⟩ := Input.next_of_view hview
  have hturn {o : Outcome Input Unit} (ho : j.back [t] = o) {rounds : Nat} (hr' : 1 ≤ rounds) :
      m.turn face rounds nest = m.onInput (o.andThen fun _ k => Build.outcome k first) := by
    refine turn_of_expanded (Input.nextExpanded_inert hb hm hn hr') fun rounds => ?_
    rw [hback, Reader.run_bind]
    change ((j.back [t]).andThen _) = _
    rw [ho]
    cases o with
    | done u k => exact hr k rounds
    | failed f k => rfl
    | unfinished => rfl
  rcases Input.back_next m.tables.alphabet j t with ⟨k, l, hk, hlast, hl, hlv, hspare⟩ |
    ⟨f, k, hk, hf, hs⟩
  · right
    refine ⟨k, l, fun rounds hr' => hturn hk hr', ?_, hl, rfl, hlv.trans hj, ?_⟩
    · intro s hs
      rw [hlast]
      exact Input.last_of_next hn hs
    · intro hs
      exact hspare (hs.next hn)
  · left
    exact ⟨f, { m with input := k }, ends_of_failed fun rounds hr' => hturn hk hr', hf,
      fun hspare => hs (hspare.next hn)⟩

/-- The token is put back by what comes first, and read again. -/
theorem feeds_of_back (first : Except BuildFault Nest) (next : Nest → Except BuildFault Nest)
    {r : Build.Step} (hview : m.input.view m.tables.alphabet = v.push (t :: ts))
    (hb : t.token.branch? = none) (hm : m.tables.meaning? t.token = none)
    (hback : Build.onToken face nest (some t) = (do Scan.back [t]; r))
    (hr : ∀ j, Build.Comes m.tables r j (Build.outcome j first))
    (hfirst : ∀ e, first = .error e → e = .boxTooLarge)
    (hnext : ∀ nest', first = .ok nest' → ∀ j,
      Build.Comes m.tables (Build.onToken face nest' (some t)) j (Build.outcome j (next nest'))) :
    Overfull face nest m ∨ Feeds face nest m t (v.push ts) (first >>= next) := by
  refine (turn_of_back hview hb hm hback hr).imp_right fun hput => ?_
  obtain ⟨k, l, hturn, hplace, hl, hreached⟩ := hput
  cases first with
  | error e =>
    refine ⟨_, { m with input := k }, ends_of_failed hturn, rfl, hplace, rfl, ?_⟩
    intro he
    rw [hfirst e rfl] at he
    cases he
  | ok nest' =>
    have hgo : Goes face nest m nest' { m with input := k } := goes_of_turn hturn
    have hagain {rounds : Nat} (hr' : 1 ≤ rounds) :
        turn face rounds nest' { m with input := k } =
          m.onInput (Build.outcome l (next nest')) :=
      turn_of_expanded (Input.nextExpanded_inert hb hm hl hr') (hnext nest' rfl l)
    change Feeds face nest m t (v.push ts) (next nest')
    cases hres : next nest' with
    | ok nest'' =>
      rw [hres] at hagain
      exact ⟨{ m with input := l }, hgo.trans (goes_of_turn fun _ hr' => hagain hr'), hreached⟩
    | error e =>
      rw [hres] at hagain
      refine ⟨_, { m with input := l }, hgo.ends (ends_of_failed fun _ hr' => hagain hr'), rfl, ?_,
        rfl, fun _ => hreached.view⟩
      intro s hs
      exact Input.last_of_next hl hs

end Machine

/-- The face has the character that a token is to be set as, if it is one. -/
def Typeface.has (face : Typeface) : Token → Bool
  | .ch c .letter => (face.metrics.extentOf face.font (String.singleton c)).isOk
  | .ch c .other => (face.metrics.extentOf face.font (String.singleton c)).isOk
  | _ => true

theorem Typeface.exists_extentOf {face : Typeface} {c : Char} {cat : Category}
    (h : face.has (.ch c cat)) (hc : cat = .letter ∨ cat = .other) :
    ∃ e, face.metrics.extentOf face.font (String.singleton c) = .ok e := by
  have hok : (face.metrics.extentOf face.font (String.singleton c)).isOk := by
    rcases hc with rfl | rfl <;> exact h
  cases he : face.metrics.extentOf face.font (String.singleton c) with
  | ok e => exact ⟨e, rfl⟩
  | error e =>
    rw [he] at hok
    cases hok

theorem Typeface.font_of_extentOf {face : Typeface} {text : String} {e : Extent}
    (h : face.metrics.extentOf face.font text = .ok e) : face.font = face.metrics.name := by
  unfold Metrics.extentOf Metrics.checkFont at h
  split at h
  · assumption
  · cases h

namespace Machine

variable {face : Typeface} {nest nest' : Nest} {m : Machine} {t : Lexeme} {v : View}
  {ts : List Lexeme}

/-- A character, which may have to begin a paragraph first. -/
theorem feeds_glyph {c : Char} {cat : Category} {span : Option Span}
    (hview : m.input.view m.tables.alphabet = v.push (⟨.ch c cat, span⟩ :: ts))
    (hm : m.tables.meaning? (.ch c cat) = none) (hg : face.has (.ch c cat))
    (hc : cat = .letter ∨ cat = .other) : Overfull face nest m ∨
      Feeds face nest m ⟨.ch c cat, span⟩ (v.push ts) (.ok (nest.setGlyph face c)) := by
  obtain ⟨e, he⟩ := Typeface.exists_extentOf hg hc
  have hletter {nest : Nest} (hmode : nest.mode = .horizontal) :
      Build.onToken face nest (some ⟨.ch c cat, span⟩) = Build.letter face c nest := by
    rcases hc with rfl | rfl <;> simp [Build.onToken, Build.character, hmode]
  cases hmode : nest.mode with
  | horizontal =>
    refine Or.inr (feeds_of_comes hview rfl hm fun j => ?_)
    rw [hletter hmode, Nest.setGlyph_horizontal hmode]
    exact Build.comes_letter _ he nest j
  | vertical =>
    have hbegin : Build.onToken face nest (some ⟨.ch c cat, span⟩) =
        Build.openParagraph ⟨.ch c cat, span⟩ nest := by
      rcases hc with rfl | rfl <;> simp [Build.onToken, Build.character, hmode]
    rw [Nest.setGlyph_vertical hmode]
    refine feeds_of_back (.ok (.paragraph [] nest)) (fun nest => .ok (nest.add (face.glyph c)))
      hview rfl hm hbegin (fun j => Build.comes_goOn _ _ j) (fun e he => by cases he) ?_
    intro nest' hn j
    cases hn
    rw [hletter rfl]
    exact Build.comes_letter _ he _ j

/-- The end of a group, which may have to end a paragraph first. -/
theorem feeds_endGroup {c : Char} {span : Option Span}
    (hview : m.input.view m.tables.alphabet = v.push (⟨.ch c .endGroup, span⟩ :: ts))
    (hm : m.tables.meaning? (.ch c .endGroup) = none) (hup : nest.Upright) :
    Overfull face nest m ∨ Feeds face nest m ⟨.ch c .endGroup, span⟩ (v.push ts)
      (nest.feed face (.ch c .endGroup)) := by
  cases hp : nest.isParagraph with
  | false =>
    refine Or.inr (feeds_of_comes hview rfl hm fun j => ?_)
    rw [Nest.feed, Nest.settled_level hp]
    exact Build.comes_endGroup _ _ hp j
  | true =>
    cases nest with
    | outer mode items => cases hp
    | group mode items within => cases hp
    | paragraph items within =>
      exact feeds_of_back _ Nest.ended hview rfl hm rfl
        (fun j => Build.comes_closeParagraph _ items within j)
        (fun e he => Nest.eq_boxTooLarge_of_settled he)
        (fun nest' hn j => Build.comes_endGroup _ _ (hup.settled hn).2 j)

/-- A token of running text changes the nest as it should, unless it must be put back and there is
no room for it. -/
theorem feeds (hview : m.input.view m.tables.alphabet = v.push (t :: ts)) (ht : t.token.OfBody)
    (hm : m.tables.meaning? t.token = none) (hg : face.has t.token)
    (hs : t.token.isSpace → nest.mode = .horizontal → face.font = face.metrics.name)
    (hup : nest.Upright) :
    Overfull face nest m ∨ Feeds face nest m t (v.push ts) (nest.feed face t.token) := by
  obtain ⟨token, span⟩ := t
  have hb := ht.branch?_eq
  cases token with
  | cs name =>
    obtain rfl : name = "par" := ht
    refine Or.inr (feeds_of_comes hview hb hm fun j => ?_)
    have hpar : Build.onToken face nest (some ⟨.cs "par", span⟩) = Build.paragraphEnd nest := by
      show Build.control face _ "par" nest = _
      rw [Build.control, if_pos rfl]
    rw [hpar]
    cases nest with
    | paragraph items within => exact Build.comes_closeParagraph _ items within j
    | outer mode items => exact Build.comes_goOn _ _ j
    | group mode items within => exact Build.comes_goOn _ _ j
  | ch c cat =>
    cases cat with
    | letter => exact feeds_glyph hview hm hg (Or.inl rfl)
    | other => exact feeds_glyph hview hm hg (Or.inr rfl)
    | beginGroup =>
      exact Or.inr (feeds_of_comes hview hb hm fun j => Build.comes_goOn _ _ j)
    | endGroup => exact feeds_endGroup hview hm hup
    | space =>
      refine Or.inr (feeds_of_comes hview hb hm fun j => ?_)
      change Build.Comes m.tables (Build.character face ⟨.ch c .space, span⟩ c .space nest) j _
      rw [Build.character]
      cases hmode : nest.mode with
      | vertical =>
        rw [Nest.feed_space_vertical hmode]
        exact Build.comes_goOn _ _ j
      | horizontal =>
        rw [Nest.feed_space_horizontal hmode]
        exact Build.comes_interword _ (hs rfl hmode) nest j
    | _ => simp [Token.OfBody] at ht

/-! ## Whole runs -/

/-- Tokens that a run can set: they stand for themselves, and the face has their characters. Glue
between words is wanted only in horizontal lists. -/
structure Sets (tables : Tables) (face : Typeface) (mode : Mode) (ts : List Lexeme) : Prop where
  ofBody : ∀ t ∈ ts, t.token.OfBody
  undefined : ∀ t ∈ ts, tables.meaning? t.token = none
  glyphs : ∀ t ∈ ts, face.has t.token
  spaces : mode = .horizontal → (∃ t ∈ ts, t.token.isSpace) → face.font = face.metrics.name

/-- The nest is such as tokens build, and its font is known or no horizontal list needs it. -/
structure Fed (face : Typeface) (ts : List Lexeme) (nest : Nest) : Prop where
  upright : nest.Upright
  spaces : (∃ t ∈ ts, t.token.isSpace) → face.font = face.metrics.name ∨ nest.AllVertical

theorem Fed.step {tables : Tables} {mode : Mode} (h : Fed face (t :: ts) nest)
    (hs : Sets tables face mode (t :: ts)) (hf : nest.feed face t.token = .ok nest') :
    Fed face ts nest' where
  upright := h.upright.feed hf
  spaces := by
    rintro ⟨u, hu, hspace⟩
    rcases h.spaces ⟨u, List.mem_cons_of_mem t hu, hspace⟩ with hfont | hvertical
    · exact Or.inl hfont
    · by_cases hfont : face.font = face.metrics.name
      · exact Or.inl hfont
      · refine Or.inr (hvertical.feed (hs.ofBody t List.mem_cons_self) (fun c => ?_) hf)
        -- a character would make the font known
        have hno {cat : Category} (hc : cat = .letter ∨ cat = .other) : t.token ≠ .ch c cat := by
          intro ht
          have hhas := hs.glyphs t List.mem_cons_self
          rw [ht] at hhas
          obtain ⟨e, he⟩ := Typeface.exists_extentOf hhas hc
          exact hfont (Typeface.font_of_extentOf he)
        exact ⟨hno (Or.inl rfl), hno (Or.inr rfl)⟩

theorem Sets.mono {tables : Tables} {mode : Mode} {us : List Lexeme}
    (h : Sets tables face mode ts) (hu : us ⊆ ts) : Sets tables face mode us where
  ofBody u hm := h.ofBody u (hu hm)
  undefined u hm := h.undefined u (hu hm)
  glyphs u hm := h.glyphs u (hu hm)
  spaces hmode := by
    rintro ⟨u, hm, hspace⟩
    exact h.spaces hmode ⟨u, hu hm, hspace⟩

theorem feeds_next {mode : Mode} (hview : m.input.view m.tables.alphabet = v.push (t :: ts))
    (hs : Sets m.tables face mode (t :: ts)) (hf : Fed face (t :: ts) nest) :
    Overfull face nest m ∨ Feeds face nest m t (v.push ts) (nest.feed face t.token) := by
  refine feeds hview (hs.ofBody t List.mem_cons_self) (hs.undefined t List.mem_cons_self)
    (hs.glyphs t List.mem_cons_self) (fun hspace hm => ?_) hf.upright
  rcases hf.spaces ⟨t, List.mem_cons_self, hspace⟩ with hfont | hvertical
  · exact hfont
  · rw [hvertical.mode] at hm
    cases hm

/-- Tokens change the nest like this: the run goes on behind them, or it fails among them. -/
def FeedsAll (face : Typeface) (nest : Nest) (m : Machine) (v : View) :
    Except BuildFault Nest → Prop
  | .ok nest' => ∃ m', Goes face nest m nest' m' ∧ m.Reached v m' ∧ nest'.Upright
  | .error e => e ≠ .unclosedGroup ∧ ∃ f m', Ends face nest m (.failed f m') ∧
    f.cause = .build e ∧ m'.tables = m.tables

theorem FeedsAll.of_goes {res : Except BuildFault Nest} (hg : Goes face nest m nest' m')
    (hr : m.Reached w m') (h : FeedsAll face nest' m' v res) : FeedsAll face nest m v res := by
  cases res with
  | ok last =>
    obtain ⟨m'', hgo, hreached, hup⟩ := h
    exact ⟨m'', hg.trans hgo, hr.trans hreached, hup⟩
  | error e =>
    obtain ⟨hne, f, m'', he, hcause, ht⟩ := h
    exact ⟨hne, f, m'', hg.ends he, hcause, ht.trans hr.tables⟩

theorem feedsAll {mode : Mode} (hview : m.input.view m.tables.alphabet = v.push ts)
    (hs : Sets m.tables face mode ts) (hf : Fed face ts nest) :
    Overfull face nest m ∨
      FeedsAll face nest m v (nest.feedAll face (ts.map (·.token))) := by
  induction ts generalizing nest m with
  | nil => exact Or.inr ⟨m, .refl face nest m, ⟨rfl, hview, id⟩, hf.upright⟩
  | cons t ts ih =>
    rcases feeds_next hview hs hf with hover | hfeed
    · exact Or.inl hover
    rw [List.map_cons, Nest.feedAll_cons]
    cases hn : nest.feed face t.token with
    | error e =>
      rw [hn] at hfeed
      obtain ⟨f, m', he, hcause, -, ht, -⟩ := hfeed
      exact Or.inr ⟨Nest.ne_unclosedGroup_of_feed hn, f, m', he, hcause, ht⟩
    | ok nest' =>
      rw [hn] at hfeed
      obtain ⟨m', hgo, hreached⟩ := hfeed
      have hview' : m'.input.view m'.tables.alphabet = v.push ts := by
        rw [hreached.tables, hreached.view]
      change _ ∨ FeedsAll face nest m v (nest'.feedAll face (ts.map (·.token)))
      have hs' : Sets m'.tables face mode ts :=
        hreached.tables ▸ hs.mono (List.subset_cons_self t ts)
      exact (ih hview' hs' (hf.step hs hn)).imp (fun hover => hover.of_goes hgo hreached)
        fun hmore => hmore.of_goes hgo hreached

/-- Where nothing is left the run ends like this. -/
def Finishes (face : Typeface) (nest : Nest) (m : Machine) : Except BuildFault Composed → Prop
  | .ok list => ∃ m', Ends face nest m (.done list m') ∧ m'.tables = m.tables ∧
    (m'.input.view m.tables.alphabet).ahead = []
  | .error e => ∃ f m', Ends face nest m (.failed f m') ∧ f.cause = .build e ∧
    m'.tables = m.tables ∧ (e = .unclosedGroup → (m'.input.view m.tables.alphabet).ahead = [])

theorem Finishes.of_goes {res : Except BuildFault Composed} (hg : Goes face nest m nest' m')
    (ht : m'.tables = m.tables) (h : Finishes face nest' m' res) : Finishes face nest m res := by
  unfold Finishes at *
  rw [← ht]
  cases res with
  | ok list =>
    obtain ⟨m'', he, hrest⟩ := h
    exact ⟨m'', hg.ends he, hrest⟩
  | error e =>
    obtain ⟨f, m'', he, hrest⟩ := h
    exact ⟨f, m'', hg.ends he, hrest⟩

theorem next_of_nothing (h : (m.input.view m.tables.alphabet).ahead = []) :
    ∃ j, m.input.next m.tables.alphabet = .done none j ∧ (j.view m.tables.alphabet).ahead = [] := by
  have hn := m.input.next_view m.tables.alphabet
  unfold View.next at hn
  rw [h] at hn
  cases ho : m.input.next m.tables.alphabet with
  | done x j =>
    rw [ho] at hn
    obtain ⟨rfl, hj⟩ := hn
    exact ⟨j, rfl, by rw [hj, h]⟩
  | failed f j =>
    rw [ho] at hn
    exact hn.elim
  | unfinished =>
    rw [ho] at hn
    exact hn.elim

/-- The end of input where no paragraph is open. -/
theorem finishes_level (h : (m.input.view m.tables.alphabet).ahead = [])
    (hp : nest.isParagraph = false) : Finishes face nest m nest.finished := by
  obtain ⟨j, hn, hj⟩ := next_of_nothing h
  cases nest with
  | paragraph items within => cases hp
  | outer mode items =>
    have hcomes : Build.Comes m.tables (Build.onToken face (.outer mode items) none) j
        (.done (.finish ⟨mode, items.reverse⟩) j) := fun _ => rfl
    have hturn (rounds : Nat) (hr : 1 ≤ rounds) :=
      turn_of_expanded (Input.nextExpanded_end hn hr) hcomes
    exact ⟨{ m with input := j }, ends_of_finished hturn, rfl, hj⟩
  | group mode items within =>
    have hcomes : Build.Comes m.tables (Build.onToken face (.group mode items within) none) j
        (Build.outcome j (.error .unclosedGroup)) := fun _ => rfl
    have hturn (rounds : Nat) (hr : 1 ≤ rounds) :=
      turn_of_expanded (Input.nextExpanded_end hn hr) hcomes
    exact ⟨_, { m with input := j }, ends_of_failed hturn, rfl, rfl, fun _ => hj⟩

theorem finishes (h : (m.input.view m.tables.alphabet).ahead = []) (hup : nest.Upright) :
    Finishes face nest m nest.finished := by
  cases hp : nest.isParagraph with
  | false => exact finishes_level h hp
  | true =>
    cases nest with
    | outer mode items => cases hp
    | group mode items within => cases hp
    | paragraph items within =>
      obtain ⟨j, hn, hj⟩ := next_of_nothing h
      have hcomes : Build.Comes m.tables (Build.onToken face (.paragraph items within) none) j
          (Build.outcome j (Nest.settled (.paragraph items within))) :=
        Build.comes_closeParagraph m.tables items within j
      have hturn (rounds : Nat) (hr : 1 ≤ rounds) :=
        turn_of_expanded (Input.nextExpanded_end hn hr) hcomes
      rw [Nest.finished]
      cases hs : (Nest.paragraph items within).settled with
      | error e =>
        rw [hs] at hturn
        exact ⟨_, { m with input := j }, ends_of_failed hturn, rfl, rfl, fun _ => hj⟩
      | ok nest' =>
        rw [hs] at hturn
        have hgo : Goes face (.paragraph items within) m nest' { m with input := j } :=
          goes_of_turn hturn
        have hlevel := (hup.settled hs).2
        have hlast : Finishes face nest' { m with input := j } nest'.finished :=
          finishes_level hj hlevel
        rw [Nest.finished, Nest.settled_level hlevel] at hlast
        exact hlast.of_goes hgo rfl

/-- A run over tokens of running text and the end of input behind them. -/
theorem feeds_finishes {mode : Mode}
    (hview : (m.input.view m.tables.alphabet).ahead = ts.map .token)
    (hs : Sets m.tables face mode ts) (hf : Fed face ts nest) :
    Overfull face nest m ∨
      Finishes face nest m (nest.feedAll face (ts.map (·.token)) >>= Nest.finished) := by
  have hview' : m.input.view m.tables.alphabet =
      (View.mk [] (m.input.view m.tables.alphabet).nested
        (m.input.view m.tables.alphabet).openBranches).push ts := by
    rw [View.push, ← hview, List.append_nil]
  refine (feedsAll hview' hs hf).imp_right fun hall => ?_
  cases hn : nest.feedAll face (ts.map (·.token)) with
  | error e =>
    rw [hn] at hall
    obtain ⟨hne, f, m', he, hcause, ht⟩ := hall
    exact ⟨f, m', he, hcause, ht, fun h => absurd h hne⟩
  | ok nest' =>
    rw [hn] at hall
    obtain ⟨m', hgo, hreached, hup⟩ := hall
    have hnothing : (m'.input.view m'.tables.alphabet).ahead = [] := by
      rw [hreached.tables, hreached.view]
    exact (finishes hnothing hup).of_goes hgo hreached.tables

end Machine

/-! ## Bodies and braces -/

namespace Machine

variable {face : Typeface} {m : Machine} {mode : Mode} {ts : List Lexeme} {b : Body}

theorem fed_outer (hs : Sets m.tables face mode ts) : Fed face ts (.outer mode []) where
  upright := trivial
  spaces := by
    intro hspace
    cases mode with
    | horizontal => exact Or.inl (hs.spaces rfl hspace)
    | vertical => exact Or.inr rfl

theorem ends_body (hahead : (m.input.view m.tables.alphabet).ahead = ts.map .token)
    (hs : Sets m.tables face mode ts) (hb : ts.map (·.token) = b.tokens)
    (hsized : Item.sized (b.items face mode)) :
    Overfull face (.outer mode []) m ∨ ∃ m',
      Ends face (.outer mode []) m (.done ⟨mode, b.items face mode⟩ m') ∧ m'.tables = m.tables ∧
        (m'.input.view m.tables.alphabet).ahead = [] := by
  refine (feeds_finishes hahead hs (fed_outer hs)).imp_right fun hfin => ?_
  rwa [hb, Nest.finished_body hsized] at hfin

theorem ends_unclosed {d : Nat} (hahead : (m.input.view m.tables.alphabet).ahead = ts.map .token)
    (hs : Sets m.tables face mode ts) (hd : depthThrough 0 ts = some (d + 1)) :
    Overfull face (.outer mode []) m ∨ ∃ f m', Ends face (.outer mode []) m (.failed f m') ∧
      m'.tables = m.tables ∧
      (f.cause = .build .unclosedGroup ∧ (m'.input.view m.tables.alphabet).ahead = [] ∨
        f.cause = .build .boxTooLarge ∧ Oversized face (ts.map (·.token))) := by
  refine (feeds_finishes hahead hs (fed_outer hs)).imp_right fun hfin => ?_
  have houter : (Nest.outer mode []).isParagraph = false := rfl
  obtain ⟨e, he, hcause⟩ := Nest.finished_unclosed hs.ofBody hd houter (fun h => by cases h)
  rw [he] at hfin
  obtain ⟨f, m', hends, hf, ht, hnothing⟩ := hfin
  refine ⟨f, m', hends, ht, ?_⟩
  rcases hcause with rfl | ⟨rfl, hover⟩
  · exact Or.inl ⟨hf, hnothing rfl⟩
  · exact Or.inr ⟨hf, hover⟩

theorem ends_unopened {front rest : List Lexeme} {brace : Lexeme}
    (hahead : (m.input.view m.tables.alphabet).ahead = (front ++ brace :: rest).map .token)
    (hs : Sets m.tables face mode (front ++ brace :: rest))
    (hb : front.map (·.token) = b.tokens) (hbrace : brace.token.isEnd = true)
    (hsized : Item.sized (b.items face mode)) :
    Overfull face (.outer mode []) m ∨ ∃ f m', Ends face (.outer mode []) m (.failed f m') ∧
      f.cause = .build .unopenedGroup ∧ (∀ s, brace.span = some s → f.place = s.start) ∧
        m'.tables = m.tables ∧ (m'.input.view m.tables.alphabet).ahead = rest.map .token := by
  obtain ⟨c, hc⟩ := Token.eq_ch_of_hasCategory hbrace
  obtain ⟨nest, hn, hfault⟩ := Nest.feed_unopened hsized c
  let nothing : View := ⟨[], (m.input.view m.tables.alphabet).nested,
    (m.input.view m.tables.alphabet).openBranches⟩
  have hview : m.input.view m.tables.alphabet = (nothing.push (brace :: rest)).push front := by
    rw [← View.push_append, View.push, ← hahead, List.append_nil]
  have hfed := fed_outer (hs.mono (List.subset_append_left front (brace :: rest)))
  have hfront := feedsAll hview (hs.mono (List.subset_append_left front (brace :: rest))) hfed
  rw [hb, hn] at hfront
  rcases hfront with hover | ⟨m', hgo, hreached, hup⟩
  · exact Or.inl hover
  have hmem : brace ∈ front ++ brace :: rest := by simp
  have hview' : m'.input.view m'.tables.alphabet = nothing.push (brace :: rest) := by
    rw [hreached.tables, hreached.view]
  have hspace (h : brace.token.isSpace = true) :
      nest.mode = .horizontal → face.font = face.metrics.name := by
    rw [hc] at h
    cases h
  have hlast := feeds hview' (hs.ofBody _ hmem) (hreached.tables ▸ hs.undefined _ hmem)
    (hs.glyphs _ hmem) hspace hup
  rw [hc, hfault] at hlast
  rcases hlast with hover | ⟨f, last, hends, hcause, hplace, ht, hrest⟩
  · exact Or.inl (hover.of_goes hgo hreached)
  · refine Or.inr ⟨f, last, hgo.ends hends, hcause, hplace, ht.trans hreached.tables, ?_⟩
    rw [← hreached.tables, hrest rfl, View.push]
    exact List.append_nil _

end Machine

namespace Engine

variable {e : Engine} {mode : Mode} {ts : List Lexeme}

/-- What comes of the run in progress comes of the engine. -/
def onMachine (e : Engine) {α : Type} : Outcome Machine α → Outcome Engine α
  | .done a m => .done a { e with machine := m }
  | .failed f m => .failed f { e with machine := m }
  | .unfinished => .unfinished

theorem settles_of_ends {o : Outcome Machine Composed}
    (h : Machine.Ends e.face (.outer mode []) e.machine o) :
    Settles (fun rounds => e.run rounds mode) (e.onMachine o) := by
  obtain ⟨turns, ht⟩ := h
  refine ⟨turns + 1, fun rounds hr => ?_⟩
  have hbuild : e.machine.build e.face rounds mode = o := by
    have hn := ht rounds (rounds - turns) (by omega)
    rwa [Nat.sub_add_cancel (by omega)] at hn
  show e.run rounds mode = _
  rw [run, hbuild]
  cases o <;> rfl

/-- What is still to be read. -/
def ahead (e : Engine) : List Delivery := (e.machine.input.view e.machine.tables.alphabet).ahead

/-- Running text is set as it should be. The run of a body builds the items of that body, and where
a group is ended that has not begun, or begun and never ended, it fails there; all that if the boxes
have sizes, and unless a token has to be put back and there is no room for it. -/
theorem run_composes (hahead : e.ahead = ts.map .token)
    (hs : Machine.Sets e.machine.tables e.face mode ts) :
    (∃ f after, Settles (fun rounds => e.run rounds mode) (.failed f after) ∧ f.OfCapacity ∧
      ¬ e.machine.input.Spare) ∨
    (∀ b : Body, ts.map (·.token) = b.tokens → Item.sized (b.items e.face mode) →
      ∃ after, Settles (fun rounds => e.run rounds mode)
        (.done ⟨mode, b.items e.face mode⟩ after) ∧ after.ahead = []) ∧
    (depthThrough 0 ts = none → ∃ (b : Body) (front rest : List Lexeme) (brace : Lexeme),
      ts = front ++ brace :: rest ∧ front.map (·.token) = b.tokens ∧ brace.token.isEnd ∧
      (Item.sized (b.items e.face mode) →
        ∃ f after, Settles (fun rounds => e.run rounds mode) (.failed f after) ∧
          f.cause = .build .unopenedGroup ∧ (∀ s, brace.span = some s → f.place = s.start) ∧
          after.ahead = rest.map .token)) ∧
    (∀ d, depthThrough 0 ts = some (d + 1) →
      ∃ f after, Settles (fun rounds => e.run rounds mode) (.failed f after) ∧
        (f.cause = .build .unclosedGroup ∧ after.ahead = [] ∨
          f.cause = .build .boxTooLarge ∧ Oversized e.face (ts.map (·.token)))) := by
  by_cases hover : Machine.Overfull e.face (.outer mode []) e.machine
  · obtain ⟨f, m, hends, hf, hspare⟩ := hover
    exact Or.inl ⟨f, _, settles_of_ends hends, hf, hspare⟩
  right
  refine ⟨fun b hb hsized => ?_, fun hd => ?_, fun d hd => ?_⟩
  · obtain ⟨m, hends, ht, hnothing⟩ := (Machine.ends_body hahead hs hb hsized).resolve_left hover
    exact ⟨_, settles_of_ends hends, by rw [ahead, ht, hnothing]⟩
  · obtain ⟨b, front, rest, rfl, hb, hrest⟩ := Body.exists_body hs.ofBody
    cases hrest with
    | nil =>
      rw [List.append_nil, Body.balanced hb] at hd
      cases hd
    | opening hbrace hmore =>
      rw [depthThrough_append, Body.balanced hb, Option.bind_some,
        depthThrough_cons (Token.depthAfter_begin 0 hbrace), depthThrough_succ hmore] at hd
      cases hd
    | @closing brace hbrace more =>
      refine ⟨b, front, more, brace, rfl, hb, hbrace, fun hsized => ?_⟩
      obtain ⟨f, m, hends, hcause, hplace, ht, hmore⟩ :=
        (Machine.ends_unopened hahead hs hb hbrace hsized).resolve_left hover
      exact ⟨f, _, settles_of_ends hends, hcause, hplace, by rw [ahead, ht, hmore]⟩
  · obtain ⟨f, m, hends, ht, hcause⟩ := (Machine.ends_unclosed hahead hs hd).resolve_left hover
    refine ⟨f, _, settles_of_ends hends, hcause.imp_left (And.imp_right fun hnothing => ?_)⟩
    rw [ahead, ht, hnothing]

/-- A paragraph, a group with a paragraph in it, and a paragraph. -/
def boxedText : Engine := start {} (usualMetrics {}) {} ["ab \\par\x7bc d\x7d e"]

def boxedBody : Body :=
  .glyph 'a' true (.glyph 'b' true (.space ' ' (.par (.group '\x7b' '\x7d'
    (.glyph 'c' true (.space ' ' (.glyph 'd' true .nil)))
    (.space ' ' (.glyph 'e' true (.space ' ' .nil)))))))

theorem run_composes_boxedText :
    ∃ ts, boxedText.ahead = ts.map .token ∧
      Machine.Sets boxedText.machine.tables boxedText.face .vertical ts ∧
      ts.map (·.token) = boxedBody.tokens ∧
      Item.sized (boxedBody.items boxedText.face .vertical) ∧
      ∃ after, Settles (fun rounds => boxedText.run rounds .vertical)
        (.done ⟨.vertical, boxedBody.items boxedText.face .vertical⟩ after) := by
  let ts := tokenize {} boxedText.lines
  have hahead : boxedText.ahead = ts.map .token := by decide +kernel
  have hs : Machine.Sets boxedText.machine.tables boxedText.face .vertical ts :=
    { ofBody := by decide +kernel
      undefined := by decide +kernel
      glyphs := by decide +kernel
      spaces := by
        intro h
        cases h }
  have htokens : ts.map (·.token) = boxedBody.tokens := by decide +kernel
  have hsized : Item.sized (boxedBody.items boxedText.face .vertical) := by decide +kernel
  have hspare : boxedText.machine.input.Spare := by
    unfold Input.Spare
    decide +kernel
  refine ⟨ts, hahead, hs, htokens, hsized, ?_⟩
  rcases run_composes hahead hs with ⟨f, after, -, -, hfull⟩ | ⟨hbody, -, -⟩
  · exact absurd hspare hfull
  · obtain ⟨after, hsettles, -⟩ := hbody boxedBody htokens hsized
    exact ⟨after, hsettles⟩

end Engine

end Galley
