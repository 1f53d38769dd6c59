import Galley.Proofs.Capture

/-!
Definitions as they are written. What can be written is what reading delivers: at most nine
parameters, delimiters that are neither braces nor parameter characters, and a replacement that
leaves no group open. Reading what is written gives the definition back and reads nothing behind it.
-/

namespace Galley.Definition

open Capture (depthAfter)
open Consumer (feed feed_cons feed_append run_of_feed)

/-! ## What can be written -/

/-- The tokens that a replacement has of its own. -/
def literals : List Part → List Lexeme
  | [] => []
  | .literal t :: more => t :: literals more
  | .reference _ :: more => literals more

theorem literals_append (ps qs : List Part) : literals (ps ++ qs) = literals ps ++ literals qs := by
  induction ps with
  | nil => rfl
  | cons p ps ih => cases p <;> simp [literals, ih]

/-- Is no delimiter that reading would take for a part of the definition around it. -/
def Delimits : Element → Prop
  | .delimiter t => t.token.Plain ∧ t.token.isParameter = false
  | .parameter _ => True

instance : (e : Element) → Decidable (Delimits e)
  | .delimiter t => inferInstanceAs (Decidable (t.token.Plain ∧ _))
  | .parameter _ => inferInstanceAs (Decidable True)

structure Writable (d : Definition) : Prop where
  valid : d.Valid
  few : d.parameterCount ≤ 9
  delimits : ∀ e ∈ d.parameters, Delimits e
  balanced : Balanced (literals d.replacement)

theorem Writable.plain {d : Definition} (h : d.Writable) : ∀ e ∈ d.parameters, PlainElement e := by
  intro e he
  have hd := h.delimits e he
  cases e with
  | delimiter t => exact hd.1
  | parameter n => trivial

theorem countFrom_eq {es : List Element} {first count : Nat} (h : countFrom first es = .ok count) :
    count = first + parameterCount ⟨es, []⟩ := by
  induction es generalizing first with
  | nil =>
    injection h with h
    exact h.symm
  | cons e es ih =>
    cases e with
    | delimiter t => simpa [parameterCount] using ih h
    | parameter n =>
      simp only [countFrom] at h
      split at h
      · have hcount := ih h
        simp only [parameterCount, List.countP_cons] at hcount ⊢
        simp only [if_true]
        omega
      · cases h

/-! ## What is read can be written -/

namespace Reading

theorem number?_le {t : Token} {n : Nat} (h : number? t = some n) : n ≤ 9 := by
  cases t with
  | cs name => simp [number?] at h
  | ch c cat =>
    simp only [number?] at h
    split at h
    · rename_i hc
      have h9 : c.toNat ≤ '9'.toNat := hc.2
      have h57 : '9'.toNat = 57 := rfl
      injection h with h
      omega
    · cases h

/-- The elements read so far can be written, and no more than nine of them are parameters. -/
def ParameterText.Writable (s : ParameterText) : Prop :=
  (∀ e ∈ s.elements, Delimits e) ∧ s.count ≤ 9

theorem ParameterText.step_writable {s : ParameterText} (hs : s.Writable) (t : Lexeme) :
    (s.step t).Holds Writable (Accepted Writable) := by
  unfold step
  split
  · split
    · rename_i hn
      exact ⟨List.forall_mem_cons.mpr ⟨trivial, hs.1⟩, number?_le hn⟩
    · exact fun e => nofun
  · split
    · exact hs
    · rename_i hb
      split
      · exact fun e => nofun
      · rename_i he
        split
        · exact hs
        · rename_i hp
          have ht : Delimits (.delimiter t) :=
            ⟨⟨by simpa using hb, by simpa using he⟩, by simpa using hp⟩
          exact ⟨List.forall_mem_cons.mpr ⟨ht, hs.1⟩, hs.2⟩

theorem parameterText_writable (ts : List Lexeme) :
    Accepted ParameterText.Writable (Consumer.run parameterText ts).1 := by
  have start : ParameterText.Writable {} := ⟨nofun, by decide⟩
  refine Consumer.scan_result _ _ (fun s t hs => ParameterText.step_writable hs t) ?_ start ts
  intro s _ e
  split <;> exact nofun

/-- The groups that are open among the parts read so far are those that are counted. -/
def Replacement.Counted (s : Replacement) : Prop :=
  depthThrough 0 (literals s.parts.reverse) = some s.depth

theorem Replacement.Counted.literal {s : Replacement} (hs : s.Counted) {t : Lexeme} {d : Nat}
    {marked : Bool} (ht : depthAfter s.depth t.token = some d) :
    (Replacement.mk (.literal t :: s.parts) d marked).Counted := by
  have hone : depthThrough s.depth [t] = some d := depthThrough_cons ht []
  rw [Counted, List.reverse_cons, literals_append]
  exact depthThrough_trans hs hone

theorem Replacement.Counted.reference {s : Replacement} (hs : s.Counted) (n : Int)
    {marked : Bool} : (Replacement.mk (.reference n :: s.parts) s.depth marked).Counted := by
  rw [Counted, List.reverse_cons, literals_append]
  simpa [literals, Counted] using hs

/-- A token outside of a mark that ends no group but one of the replacement's own. -/
theorem Replacement.step_literal (count : Nat) {s : Replacement} {t : Lexeme} {d : Nat}
    (hm : s.marked = false) (hp : t.token.isParameter = false)
    (hd : depthAfter s.depth t.token = some d) :
    s.step count t = .again ⟨.literal t :: s.parts, d, false⟩ := by
  obtain ⟨parts, depth, marked⟩ := s
  subst hm
  rcases Token.depthAfter_cases hd with ⟨hb, rfl⟩ | ⟨he, rfl⟩ | ⟨ht, rfl⟩
  · simp [step, hb]
  · simp [step, he, Token.isBegin_false_of_isEnd he]
  · simp [step, ht.1, ht.2, hp]

theorem Replacement.step_mark (count : Nat) {s : Replacement} {t : Lexeme}
    (hm : s.marked = false) (hp : t.token.isParameter = true) :
    s.step count t = .again { s with marked := true } := by
  have ht := Token.plain_of_hasCategory hp nofun nofun
  simp [step, hm, ht.1, ht.2, hp]

theorem Replacement.step_counted {count : Nat} {s : Replacement} (hs : s.Counted) (t : Lexeme) :
    (s.step count t).Holds Counted (Accepted fun parts => Balanced (literals parts)) := by
  cases hm : s.marked with
  | true =>
    simp only [step, hm, if_true, afterMark]
    split
    · rename_i hp
      exact hs.literal (Token.depthAfter_plain s.depth (Token.plain_of_hasCategory hp nofun nofun))
    · split
      · split
        · exact hs.reference _
        · exact fun e => nofun
      · exact fun e => nofun
  | false =>
    cases hp : t.token.isParameter with
    | true =>
      rw [step_mark count hm hp]
      exact hs
    | false =>
      cases hd : depthAfter s.depth t.token with
      | some d =>
        rw [step_literal count hm hp hd]
        exact hs.literal hd
      | none =>
        obtain ⟨hzero, he⟩ := Token.eq_zero_of_depthAfter hd
        have hs' : depthThrough 0 (literals s.parts.reverse) = some s.depth := hs
        rw [hzero] at hs'
        simp only [step, hm, he, Token.isBegin_false_of_isEnd he, hzero, Bool.false_eq_true,
          if_false, if_true]
        exact hs'

theorem replacement_balanced (count : Nat) (ts : List Lexeme) :
    Accepted (fun parts => Balanced (literals parts)) (Consumer.run (replacement count) ts).1 := by
  have start : Replacement.Counted {} := rfl
  refine Consumer.scan_result _ _ (fun s t hs => Replacement.step_counted hs t) ?_ start ts
  intro s _ e
  split <;> exact nofun

end Reading

theorem read_writable (ts : List Lexeme) :
    Reading.Accepted Writable (Consumer.run read ts).1 := by
  have hvalid := read_valid ts
  rcases hr : Consumer.run read ts with ⟨f | d, rest⟩
  · rw [hr] at hvalid
    exact hvalid
  · rw [hr] at hvalid
    obtain ⟨text, parts, more, ht, hp, rfl⟩ := exists_of_read hr
    have hw := Reading.parameterText_writable ts
    have hn := Reading.parameterText_numbered ts
    have hb := Reading.replacement_balanced text.count more
    rw [ht] at hw hn
    rw [hp] at hb
    have hcount : text.count = 0 + parameterCount ⟨text.elements.reverse, []⟩ := countFrom_eq hn
    refine ⟨hvalid, ?_, ?_, hb⟩
    · have hfew : text.count ≤ 9 := hw.2
      simp only [parameterCount] at hcount ⊢
      omega
    · intro e he
      exact hw.1 e (by simpa using he)

theorem writable_of_read {d : Definition} {ts rest : List Lexeme}
    (h : Consumer.run read ts = (.ok d, rest)) : d.Writable := by
  have hw := read_writable ts
  rw [h] at hw
  exact hw

/-! ## Writing -/

/-- The characters that a definition is written with. Digits may be of any category but that of
the marks before them. -/
structure Pen where
  mark : Char := '#'
  opening : Char := '{'
  closing : Char := '}'
  digits : Category := .other
  digits_ne : digits ≠ .parameter := by decide

namespace Pen

/-- A parameter by its number, which is a digit. -/
def number (pen : Pen) (n : Int) : List Lexeme :=
  [⟨.ch pen.mark .parameter, none⟩, ⟨.ch n.toNat.digitChar pen.digits, none⟩]

def element (pen : Pen) : Element → List Lexeme
  | .delimiter t => [t]
  | .parameter n => pen.number n

def part (pen : Pen) : Part → List Lexeme
  | .literal t => if t.token.isParameter then [t, t] else [t]
  | .reference n => pen.number n

end Pen

/-- The parameter text and then the replacement in braces. -/
def write (pen : Pen) (d : Definition) : List Lexeme :=
  d.parameters.flatMap pen.element ++
    ⟨.ch pen.opening .beginGroup, none⟩ :: d.replacement.flatMap pen.part ++
    [⟨.ch pen.closing .endGroup, none⟩]

namespace Reading

theorem number?_digitChar {n : Nat} (h1 : 1 ≤ n) (h9 : n ≤ 9) (cat : Category) :
    number? (.ch n.digitChar cat) = some n := by
  have hn : n ∈ [1, 2, 3, 4, 5, 6, 7, 8, 9] := by simp; omega
  simp only [List.mem_cons, List.not_mem_nil, or_false] at hn
  rcases hn with rfl | rfl | rfl | rfl | rfl | rfl | rfl | rfl | rfl <;> rfl

theorem le_of_countFrom {es : List Element} {first count : Nat}
    (h : countFrom first es = .ok count) : first ≤ count := by
  rw [countFrom_eq h]
  exact Nat.le_add_right _ _

theorem feed_element (pen : Pen) {s : ParameterText} {e : Element} {count : Nat}
    (hm : s.marked = false) (hd : Delimits e) (hc : countFrom s.count [e] = .ok count)
    (h9 : count ≤ 9) :
    feed ParameterText.step s (pen.element e) = some ⟨e :: s.elements, count, false⟩ := by
  obtain ⟨elements, n, marked⟩ := s
  subst hm
  cases e with
  | delimiter t =>
    obtain ⟨⟨hb, he⟩, hp⟩ := hd
    injection hc with hc
    subst hc
    simp [feed, Pen.element, ParameterText.step, hb, he, hp]
  | parameter k =>
    simp only [countFrom] at hc
    split at hc
    · rename_i hk
      injection hc with hc
      have hnat : k.toNat = n + 1 := by omega
      have hdigit : number? (.ch (n + 1).digitChar pen.digits) = some (n + 1) :=
        number?_digitChar (by omega) (by omega) pen.digits
      subst hc
      simp [feed, Pen.element, Pen.number, ParameterText.step, hdigit, hk, Token.isBegin,
        Token.isEnd, Token.isParameter, Token.hasCategory]
    · cases hc

theorem feed_elements (pen : Pen) {s : ParameterText} {es : List Element} {count : Nat}
    (hm : s.marked = false) (hd : ∀ e ∈ es, Delimits e) (hc : countFrom s.count es = .ok count)
    (h9 : count ≤ 9) :
    feed ParameterText.step s (es.flatMap pen.element) =
      some ⟨es.reverse ++ s.elements, count, false⟩ := by
  induction es generalizing s with
  | nil =>
    obtain ⟨elements, n, marked⟩ := s
    injection hc with hc
    subst hm hc
    rfl
  | cons e es ih =>
    rw [← List.singleton_append, countFrom_append] at hc
    cases hone : countFrom s.count [e] with
    | error f => simp [hone, Except.bind] at hc
    | ok n =>
      simp only [hone, Except.bind] at hc
      have hn : n ≤ 9 := Nat.le_trans (le_of_countFrom hc) h9
      rw [List.flatMap_cons, feed_append, feed_element pen hm (hd e (by simp)) hone hn]
      simpa using @ih ⟨e :: s.elements, n, false⟩ rfl (fun e he => hd e (by simp [he])) hc

theorem feed_part (pen : Pen) {s : Replacement} {p : Part} {count d : Nat}
    (hm : s.marked = false) (hp : checkParts count [p] = .ok ()) (h9 : count ≤ 9)
    (hd : depthThrough s.depth (literals [p]) = some d) :
    feed (Replacement.step count) s (pen.part p) = some ⟨p :: s.parts, d, false⟩ := by
  cases p with
  | literal t =>
    obtain ⟨e, ht, he⟩ := exists_of_depthThrough_cons hd
    injection he with he
    subst he
    cases hmark : t.token.isParameter with
    | false =>
      have hs := Replacement.step_literal count hm hmark ht
      have hpart : pen.part (.literal t) = [t] := if_neg (by simp [hmark])
      rw [hpart, feed_cons hs, feed]
    | true =>
      -- of two parameter characters the first marks the second, which leaves the depth alone
      have hplain := Token.plain_of_hasCategory hmark (by decide) (by decide)
      rw [Token.depthAfter_plain s.depth hplain] at ht
      injection ht with ht
      subst ht
      have hs := Replacement.step_mark count hm hmark
      have hs' : Replacement.step count { s with marked := true } t =
          .again ⟨.literal t :: s.parts, s.depth, false⟩ := by
        simp [Replacement.step, Replacement.afterMark, hmark]
      have hpart : pen.part (.literal t) = [t, t] := if_pos hmark
      rw [hpart, feed_cons hs, feed_cons hs', feed]
  | reference n =>
    injection hd with hd
    subst hd
    simp only [checkParts] at hp
    split at hp
    · rename_i hn
      have hnat : ((n.toNat : Nat) : Int) = n := by omega
      have hle : n.toNat ≤ count := by omega
      have hdigit : number? (.ch n.toNat.digitChar pen.digits) = some n.toNat :=
        number?_digitChar (by omega) (by omega) pen.digits
      have hcat : (Token.ch n.toNat.digitChar pen.digits).isParameter = false := by
        simpa [Token.isParameter, Token.hasCategory] using pen.digits_ne
      have hs : s.step count ⟨.ch pen.mark .parameter, none⟩ = .again { s with marked := true } :=
        Replacement.step_mark count hm rfl
      have hs' : Replacement.step count { s with marked := true }
          ⟨.ch n.toNat.digitChar pen.digits, none⟩ =
            .again ⟨.reference n :: s.parts, s.depth, false⟩ := by
        simp [Replacement.step, Replacement.afterMark, hcat, hdigit, hle, hnat]
      rw [Pen.part, Pen.number, feed_cons hs, feed_cons hs', feed]
    · cases hp

theorem feed_parts (pen : Pen) {s : Replacement} {ps : List Part} {count d : Nat}
    (hm : s.marked = false) (hp : checkParts count ps = .ok ()) (h9 : count ≤ 9)
    (hd : depthThrough s.depth (literals ps) = some d) :
    feed (Replacement.step count) s (ps.flatMap pen.part) =
      some ⟨ps.reverse ++ s.parts, d, false⟩ := by
  induction ps generalizing s with
  | nil =>
    obtain ⟨parts, n, marked⟩ := s
    injection hd with hd
    subst hm hd
    rfl
  | cons p ps ih =>
    rw [← List.singleton_append, checkParts_append] at hp
    rw [← List.singleton_append, literals_append, depthThrough_append] at hd
    obtain ⟨e, he, hmore⟩ := Option.bind_eq_some_iff.mp hd
    cases hone : checkParts count [p] with
    | error f => simp [hone, Except.bind] at hp
    | ok u =>
      simp only [hone, Except.bind] at hp
      rw [List.flatMap_cons, feed_append, feed_part pen hm hone h9 he]
      simpa using @ih ⟨p :: s.parts, e, false⟩ rfl hp hmore

end Reading

theorem read_write (pen : Pen) {d : Definition} (h : d.Writable) (rest : List Lexeme) :
    Consumer.run read (d.write pen ++ rest) = (.ok d, rest) := by
  obtain ⟨count, hc, hp⟩ := h.valid
  have hcount : count = 0 + parameterCount ⟨d.parameters, []⟩ := countFrom_eq hc
  have h9 : count ≤ 9 := by
    have hfew := h.few
    simp only [parameterCount] at hcount hfew
    omega
  have hes := Reading.feed_elements pen (s := {}) rfl h.delimits hc h9
  have hps := Reading.feed_parts pen (s := {}) rfl hp h9 h.balanced
  simp only [List.append_nil] at hes hps
  have htext : ∀ more, Consumer.run Reading.parameterText
      (d.parameters.flatMap pen.element ++ ⟨.ch pen.opening .beginGroup, none⟩ :: more) =
        (.ok ⟨d.parameters.reverse, count, false⟩, more) :=
    fun more => run_of_feed hes Reading.ParameterText.atEnd _
  have hparts : Consumer.run (Reading.replacement count)
      (d.replacement.flatMap pen.part ++ ⟨.ch pen.closing .endGroup, none⟩ :: rest) =
        (.ok d.replacement.reverse.reverse, rest) :=
    run_of_feed hps Reading.Replacement.atEnd _
  have hsplit : d.write pen ++ rest =
      d.parameters.flatMap pen.element ++ ⟨.ch pen.opening .beginGroup, none⟩ ::
        (d.replacement.flatMap pen.part ++ ⟨.ch pen.closing .endGroup, none⟩ :: rest) := by
    simp [write]
  rw [hsplit, read, Consumer.run_bind_except, htext]
  simp only
  rw [Consumer.run_bind_except, hparts]
  simp [make_valid h.valid]

/-- Reading what is written gives the definition back and leaves the rest, and what reading gives
back of any tokens can be written: it ends in a fault of its own if not, and never in one of the
check of numbers that all definitions pass. -/
theorem read_inverts_write :
    (∀ (pen : Pen) (d : Definition), d.Writable → ∀ rest,
      Consumer.run read (d.write pen ++ rest) = (.ok d, rest)) ∧
    ∀ ts, Reading.Accepted Writable (Consumer.run read ts).1 :=
  ⟨fun pen _ h rest => read_write pen h rest, read_writable⟩

/-- A digit behind a doubled mark, references out of order, and a group. -/
def quirky : Definition :=
  ⟨[.delimiter ⟨.ch '[' .other, none⟩, .parameter 1, .parameter 2],
    [.literal ⟨.ch '#' .parameter, none⟩, .literal ⟨.ch '2' .other, none⟩, .reference 2,
      .literal ⟨.ch '{' .beginGroup, none⟩, .reference 1, .literal ⟨.ch '}' .endGroup, none⟩]⟩

theorem read_inverts_write_quirky :
    quirky.Writable ∧ Consumer.run read (quirky.write {} ++ [⟨.cs "par", none⟩]) =
      (.ok quirky, [⟨.cs "par", none⟩]) := by
  have hw : quirky.Writable := ⟨⟨2, rfl, rfl⟩, by decide, by decide, by decide⟩
  exact ⟨hw, read_inverts_write.1 {} quirky hw [⟨.cs "par", none⟩]⟩

end Galley.Definition
