import Galley.Proofs.Scanning

/-!
Quantities as functions of the tokens ahead. Each reader of keywords, signs, decimal numbers, units,
dimensions and glue has its counterpart among the readings, which take a list of tokens to a value
and the tokens left or to a cause; on inert tokens the reader does what its reading says (`Reads`).
-/

namespace Galley

/-- What is read of a list of tokens. -/
abbrev Reading (α : Type) := StateT (List Token) (Except Cause) α

namespace Reading

variable {α β : Type} {ts us : List Token}

theorem bind_ok {p : Reading α} {q : α → Reading β} {a : α} (h : p ts = .ok (a, us)) :
    (p >>= q) ts = q a us := by
  change (p ts >>= fun x => q x.1 x.2) = _
  rw [h]
  rfl

theorem bind_error {p : Reading α} {q : α → Reading β} {c : Cause} (h : p ts = .error c) :
    (p >>= q) ts = .error c := by
  change (p ts >>= fun x => q x.1 x.2) = _
  rw [h]
  rfl

/-- Matches letters, and says what they leave. -/
def word : List Char → List Token → Option (List Token)
  | [], ts => some ts
  | _ :: _, [] => none
  | letter :: letters, t :: ts =>
    if Quantity.matchesLetter letter t then word letters ts else none

/-- A keyword takes the spaces before it; without it they are gone, too. -/
def keyword (name : String) : Reading Bool := fun ts =>
  let ts := ts.dropWhile Token.isSpace
  match word name.toList ts with
  | some us => .ok (true, us)
  | none => .ok (false, ts)

theorem keyword_ok (name : String) (ts : List Token) :
    ∃ found us, keyword name ts = .ok (found, us) := by
  unfold keyword
  dsimp only
  split
  · exact ⟨true, _, rfl⟩
  · exact ⟨false, _, rfl⟩

def optionalSpace : Reading Unit := fun ts =>
  match ts with
  | [] => .ok ((), [])
  | t :: us => .ok ((), if t.isSpace then us else t :: us)

def signsFrom : Bool → List Token → Bool × List Token
  | negative, [] => (negative, [])
  | negative, t :: ts =>
    if t.isSpace then signsFrom negative ts
    else if t.isOther ['-'] then signsFrom (!negative) ts
    else if t.isOther ['+'] then signsFrom negative ts
    else (negative, t :: ts)

def signs : Reading Bool := fun ts => .ok (signsFrom false ts)

/-- The character that a token adds to a decimal number. -/
def decimalChar? (t : Token) : Option Char := Quantity.decimalChar? (some ⟨t, none⟩)

def decimalFrom : List Token → List Char × List Token
  | [] => ([], [])
  | t :: ts =>
    match decimalChar? t with
    | some c => (c :: (decimalFrom ts).1, (decimalFrom ts).2)
    | none => ([], t :: ts)

def fault (f : ScanFault) {α : Type} : Reading α := fun _ => .error (.scan f)

def decimal : Reading (List Char) := do
  let text ← fun ts => .ok (decimalFrom ts)
  if 1 < text.count '.' then fault (.malformedNumber (String.ofList text))
  else if text.all (· = '.') then fault .missingNumber
  else return text

def unitFrom : List LengthUnit → Reading LengthUnit
  | [] => fault .illegalUnit
  | u :: more => do
    if ← keyword u.name then return u else unitFrom more

/-- Raises an order while there is an `l` for it, through the given higher ones. -/
def orderFrom (order : GlueOrder) : List GlueOrder → Reading GlueOrder
  | [] => do
    if ← keyword "l" then fault .beyondFilll else return order
  | higher :: more => do
    if ← keyword "l" then orderFrom higher more else return order

def unit (infinite : Bool) : Reading (LengthUnit × GlueOrder) := do
  let infinite ← if infinite then keyword "fil" else pure false
  if infinite then return (.pt, ← orderFrom .fil [.fill, .filll])
  else do
    let _ ← keyword "true"
    return (← unitFrom LengthUnit.all, .normal)

/-- A decimal number of a unit, as an amount in range. -/
def amount (negative : Bool) (text : List Char) (u : LengthUnit) (order : GlueOrder) :
    Reading Flex :=
  match Number.readDecimal? text with
  | none => fun _ => .error (.defect .unreadNumber)
  | some q =>
    match Dimension.ofUnits? (if negative then -q else q) u with
    | some d => pure ⟨d, order⟩
    | none => fault .tooLarge

def flex (infinite : Bool) : Reading Flex := do
  let negative ← signs
  let text ← decimal
  let (u, order) ← unit infinite
  optionalSpace
  amount negative text u order

def dimension : Reading Dimension := do return (← flex false).amount

def flexAfter (name : String) : Reading Flex := do
  if ← keyword name then flex true else return {}

def glue : Reading Glue := do
  let natural ← dimension
  let stretch ← flexAfter "plus"
  let shrink ← flexAfter "minus"
  return ⟨natural, stretch, shrink⟩

end Reading

/-! ## Readers and their readings -/

/-- With room for as many tokens as it may put back, the reader does what the reading says. -/
def Scan.Reads (tables : Tables) (room : Nat) {α : Type} (r : Scan α) (p : Reading α) : Prop :=
  ∀ ts, Gives tables room r ⟨ts, room⟩ ((p ts).map fun x => (x.1, ⟨x.2, room⟩))

namespace Scan

variable {tables : Tables} {room n : Nat} {α β : Type} {ts us : List Token}

theorem Reads.gives_ok {r : Scan α} {p : Reading α} {a : α} (h : Reads tables room r p)
    (hp : p ts = .ok (a, us)) : Gives tables room r ⟨ts, room⟩ (.ok (a, ⟨us, room⟩)) := by
  have hg := h ts
  rw [hp] at hg
  exact hg

theorem Reads.gives_error {r : Scan α} {p : Reading α} {c : Cause} (h : Reads tables room r p)
    (hp : p ts = .error c) : Gives tables room r ⟨ts, room⟩ (.error c) := by
  have hg := h ts
  rw [hp] at hg
  exact hg

theorem Reads.pure (a : α) : Reads tables room (Pure.pure a) (Pure.pure a) :=
  fun ts => gives_pure a ⟨ts, room⟩

theorem Reads.bind {r : Scan α} {p : Reading α} {k : α → Scan β} {q : α → Reading β}
    (hr : Reads tables room r p) (hk : ∀ a, Reads tables room (k a) (q a)) :
    Reads tables room (r >>= k) (p >>= q) := by
  intro ts
  cases hp : p ts with
  | ok x =>
    obtain ⟨a, us⟩ := x
    rw [Reading.bind_ok hp]
    exact (hr.gives_ok hp).bind (hk a us)
  | error c =>
    rw [Reading.bind_error hp]
    exact (hr.gives_error hp).bind_error

theorem Reads.ite {c : Prop} [Decidable c] {r r' : Scan α} {p p' : Reading α}
    (h : Reads tables room r p) (h' : Reads tables room r' p') :
    Reads tables room (if c then r else r') (if c then p else p') := by
  split
  · exact h
  · exact h'

theorem reads_fault (f : ScanFault) :
    Reads tables room (Quantity.fault f : Scan α) (Reading.fault f) :=
  fun ts => gives_fail (.scan f) ⟨ts, room⟩

/-! ## Spaces -/

/-- Reads over spaces to a token that is none. -/
theorem finds_nonBlank {x : Token} (hx : x.isSpace = false) (blanks : List Token)
    (hb : ∀ t ∈ blanks, t.isSpace = true) :
    Finds tables room Quantity.nonBlank ⟨blanks ++ x :: ts, n⟩ x ⟨ts, n - 1⟩ := by
  induction blanks generalizing n with
  | nil =>
    intro i hi
    obtain ⟨u, j, hj, hu, hin, hs⟩ := finds_next x i hi
    refine ⟨u, j, ?_, hu, hin, hs⟩
    apply Reader.Comes.loop_finish
    refine hj.bind ?_
    simp only [Quantity.isSpace, Option.any_some, hu, hx, Bool.false_eq_true, if_false]
    exact .pure _
  | cons b blanks ih =>
    intro i hi
    obtain ⟨v, j, hj, hv, -, hs⟩ := finds_next b i hi
    obtain ⟨u, k, hk, hu, hin, hk'⟩ := ih (fun t ht => hb t (List.mem_cons_of_mem b ht)) j hs
    refine ⟨u, k, ?_, hu, hin, { hk' with roomy := hk'.roomy.mono (by simp only; omega) }⟩
    refine Reader.Comes.loop_again (handler_improving tables) (hj.bind ?_) hk
    simp only [Quantity.isSpace, Option.any_some, hv, hb b List.mem_cons_self, if_true]
    exact .pure _

theorem gives_nonBlank_end (blanks : List Token) (hb : ∀ t ∈ blanks, t.isSpace = true) :
    Gives tables room Quantity.nonBlank ⟨blanks, n⟩ (.ok (none, ⟨[], n⟩)) := by
  induction blanks generalizing n with
  | nil =>
    apply Gives.loop_finish
    refine gives_next_nil.bind ?_
    exact (gives_pure _ _).weaken (Nat.le_refl _) (Nat.sub_le n 1)
  | cons b blanks ih =>
    have hblanks : Gives tables room Quantity.nonBlank ⟨blanks, n⟩ (.ok (none, ⟨[], n⟩)) :=
      ih fun t ht => hb t (List.mem_cons_of_mem b ht)
    refine Gives.loop_again ((finds_next b).bind fun u hu _ => ?_)
      (hblanks.strengthen (Nat.sub_le n 1))
    simp only [Quantity.isSpace, Option.any_some, hu, hb b List.mem_cons_self, if_true]
    exact gives_pure _ _

/-- The spaces that tokens begin with, and what is behind them. -/
theorem takeSpaces_append (ts : List Token) :
    ts = ts.takeWhile Token.isSpace ++ ts.dropWhile Token.isSpace :=
  (List.takeWhile_append_dropWhile ..).symm

theorem optionalSpace_reads (hroom : 0 < room) :
    Reads tables room Quantity.optionalSpace Reading.optionalSpace := by
  intro ts
  cases ts with
  | nil =>
    refine gives_next_nil.bind ?_
    exact (gives_back_nil _).weaken (Nat.le_refl _) (Nat.sub_le room 1)
  | cons t us =>
    refine (finds_next t).bind fun u hu ht => ?_
    simp only [Quantity.isSpace, Option.any_some, hu, Reading.optionalSpace]
    cases hs : t.isSpace with
    | true => exact (gives_pure () ⟨us, room - 1⟩).weaken (Nat.le_refl _) (Nat.sub_le room 1)
    | false =>
      subst hu
      exact gives_unread ht hroom

/-! ## Keywords -/

theorem gives_matchLetters_found {letters : List Char} (h : Reading.word letters ts = some us)
    (matched : List Lexeme) (hn : n ≤ room) :
    Gives tables room (Quantity.matchLetters matched letters) ⟨ts, n⟩ (.ok (true, ⟨us, room⟩)) := by
  induction letters generalizing ts matched n with
  | nil =>
    cases h
    exact (gives_pure true _).weaken (Nat.le_refl _) hn
  | cons letter letters ih =>
    cases ts with
    | nil => cases h
    | cons t ts =>
      simp only [Reading.word] at h
      split at h
      · rename_i hl
        refine (finds_next t).bind fun u hu _ => ?_
        simp only [Quantity.matchLetter, hu, hl, if_true]
        exact ih h (u :: matched) (by omega)
      · cases h

/-- Letters that were matched in vain are put back. -/
theorem gives_matchLetters_missed {letters : List Char} (h : Reading.word letters ts = none)
    (matched : List Lexeme) (hm : ∀ x ∈ matched, x.token.Inert tables)
    (hroom : matched.length + letters.length ≤ room) (hn : n + matched.length ≤ room) :
    Gives tables room (Quantity.matchLetters matched letters) ⟨ts, n⟩
      (.ok (false, ⟨matched.reverse.map (·.token) ++ ts, room⟩)) := by
  induction letters generalizing ts matched n with
  | nil => cases h
  | cons letter letters ih =>
    rw [List.length_cons] at hroom
    cases ts with
    | nil =>
      refine gives_next_nil.bind ?_
      refine Gives.bind (gives_back (by simpa using hm) (by omega)) ?_
      refine (gives_pure false _).weaken (Nat.le_refl _) ?_
      rw [List.length_reverse]
      omega
    | cons t ts =>
      refine (finds_next t).bind fun u hu ht => ?_
      simp only [Reading.word] at h
      cases hl : Quantity.matchesLetter letter t with
      | true =>
        rw [hl, if_pos rfl] at h
        have hmatched : ∀ x ∈ u :: matched, x.token.Inert tables :=
          List.forall_mem_cons.mpr ⟨hu ▸ ht, hm⟩
        have hrest := ih h (u :: matched) hmatched (n := n - 1)
          (by rw [List.length_cons]; omega) (by rw [List.length_cons]; omega)
        simp only [Quantity.matchLetter, hu, hl, if_true]
        simpa [hu] using hrest
      | false =>
        simp only [Quantity.matchLetter, hu, hl, Bool.false_eq_true, if_false]
        have hmatched : ∀ x ∈ matched.reverse ++ [u], x.token.Inert tables := by
          intro x hx
          rcases List.mem_append.mp hx with hx | hx
          · exact hm x (List.mem_reverse.mp hx)
          · exact (List.mem_singleton.mp hx) ▸ hu ▸ ht
        refine Gives.bind (gives_back hmatched (by omega)) ?_
        have hback : (matched.reverse ++ [u]).map (·.token) ++ ts =
            matched.reverse.map (·.token) ++ t :: ts := by simp [hu]
        rw [hback]
        refine (gives_pure false _).weaken (Nat.le_refl _) ?_
        rw [List.length_append, List.length_reverse, List.length_singleton]
        omega

/-- The tokens behind the spaces begin with none. -/
theorem isSpace_of_dropSpaces {x : Token} (h : ts.dropWhile Token.isSpace = x :: us) :
    x.isSpace = false := by
  have hx := List.head_dropWhile_not Token.isSpace (l := ts) (by simp [h])
  simpa [h] using hx

theorem mem_takeSpaces {t : Token} (h : t ∈ ts.takeWhile Token.isSpace) : t.isSpace = true :=
  List.all_eq_true.mp List.all_takeWhile t h

theorem keyword_reads {name : String} (hne : name.toList ≠ []) (hroom : name.toList.length ≤ room) :
    Reads tables room (Quantity.keyword name) (Reading.keyword name) := by
  intro ts
  unfold Quantity.keyword Reading.keyword
  cases hname : name.toList with
  | nil => exact absurd hname hne
  | cons letter letters =>
    rw [hname, List.length_cons] at hroom
    have hsplit := takeSpaces_append ts
    cases hrest : ts.dropWhile Token.isSpace with
    | nil =>
      rw [hrest, List.append_nil] at hsplit
      rw [hsplit]
      refine (gives_nonBlank_end _ fun t ht => mem_takeSpaces ht).bind ?_
      exact (gives_back_nil _).bind (gives_pure false _)
    | cons x us =>
      rw [hrest] at hsplit
      rw [hsplit]
      refine (finds_nonBlank (isSpace_of_dropSpaces hrest) _ fun t ht => mem_takeSpaces ht).bind
        fun u hu hx => ?_
      simp only [Quantity.matchLetter, hu, Reading.word]
      cases hl : Quantity.matchesLetter letter x with
      | false =>
        subst hu
        exact (gives_unread hx (by omega)).bind (gives_pure false _)
      | true =>
        simp only [if_true]
        cases hw : Reading.word letters us with
        | some rest => exact gives_matchLetters_found hw [u] (Nat.sub_le room 1)
        | none =>
          have hmissed := gives_matchLetters_missed (n := room - 1) hw [u]
            (by simpa [hu] using hx) (by simpa [Nat.add_comm] using hroom)
            (by simp only [List.length_singleton]; omega)
          simpa [hu, Except.map] using hmissed

/-! ## Signs -/

theorem signsFrom_dropSpaces (negative : Bool) (ts : List Token) :
    Reading.signsFrom negative (ts.dropWhile Token.isSpace) = Reading.signsFrom negative ts := by
  induction ts with
  | nil => rfl
  | cons t ts ih =>
    cases hs : t.isSpace with
    | true => simp [hs, Reading.signsFrom, ih]
    | false => simp [hs]

/-- One round of `signs`. -/
def signStep (negative : Bool) : Scan (Turn Bool Bool) := do
  let t ← Quantity.nonBlank
  if Quantity.isOther t ['-'] then return .again (!negative)
  else if Quantity.isOther t ['+'] then return .again negative
  else do
    back t.toList
    return .finish negative

theorem gives_signs (hroom : 0 < room) (negative : Bool) (ts : List Token) :
    Gives tables room (.loop signStep negative) ⟨ts, room⟩
      (.ok ((Reading.signsFrom negative ts).1, ⟨(Reading.signsFrom negative ts).2, room⟩)) := by
  induction hn : ts.length using Nat.strongRecOn generalizing negative ts with
  | ind k ih =>
    have hsplit := takeSpaces_append ts
    rw [← signsFrom_dropSpaces negative ts]
    cases hrest : ts.dropWhile Token.isSpace with
    | nil =>
      rw [hrest, List.append_nil] at hsplit
      rw [hsplit]
      apply Gives.loop_finish
      refine (gives_nonBlank_end _ fun t ht => mem_takeSpaces ht).bind ?_
      exact (gives_back_nil _).bind (gives_pure _ _)
    | cons x us =>
      have hx := isSpace_of_dropSpaces hrest
      have hlength : us.length < k := by
        have hle := (List.dropWhile_suffix Token.isSpace (l := ts)).length_le
        rw [hrest, List.length_cons] at hle
        omega
      have hfind : Finds tables room Quantity.nonBlank ⟨ts, room⟩ x ⟨us, room - 1⟩ := by
        rw [hrest] at hsplit
        rw [hsplit]
        exact finds_nonBlank hx _ fun t ht => mem_takeSpaces ht
      have more (negative : Bool) := (ih us.length hlength negative us rfl).strengthen
        (Nat.sub_le room 1)
      simp only [Reading.signsFrom, hx, Bool.false_eq_true, if_false]
      cases hminus : x.isOther ['-'] with
      | true =>
        refine Gives.loop_again (hfind.bind fun u hu _ => ?_) (more (!negative))
        simp only [Quantity.isOther, Option.any_some, hu, hminus, if_true]
        exact gives_pure _ _
      | false =>
        cases hplus : x.isOther ['+'] with
        | true =>
          refine Gives.loop_again (hfind.bind fun u hu _ => ?_) (more negative)
          simp only [Quantity.isOther, Option.any_some, hu, hminus, hplus, Bool.false_eq_true,
            if_false, if_true]
          exact gives_pure _ _
        | false =>
          refine Gives.loop_finish (hfind.bind fun u hu hin => ?_)
          subst hu
          simp only [Quantity.isOther, Option.any_some, hminus, hplus, Bool.false_eq_true,
            if_false]
          exact (gives_unread hin hroom).bind (gives_pure _ _)

theorem signs_reads (hroom : 0 < room) : Reads tables room Quantity.signs Reading.signs :=
  gives_signs hroom false

/-! ## Decimal numbers -/

theorem decimalChar?_token (u : Lexeme) :
    Quantity.decimalChar? (some u) = Reading.decimalChar? u.token := by
  obtain ⟨t, span⟩ := u
  cases t with
  | cs name => rfl
  | ch c cat => cases cat <;> rfl

/-- One round of `decimalText`. -/
def decimalStep (s : List Char × Option Lexeme) :
    Scan (Turn (List Char × Option Lexeme) (List Char)) :=
  match Quantity.decimalChar? s.2 with
  | some c => do
    let t ← next
    return .again (c :: s.1, t)
  | none => do
    back s.2.toList
    return .finish s.1.reverse

theorem decimalStep_some {u : Lexeme} {c : Char} {text : List Char}
    (hc : Reading.decimalChar? u.token = some c) :
    decimalStep (text, some u) = (next >>= fun t => Pure.pure (.again (c :: text, t))) := by
  simp only [decimalStep, decimalChar?_token, hc]

theorem decimalStep_none {u : Lexeme} {text : List Char}
    (hc : Reading.decimalChar? u.token = none) :
    decimalStep (text, some u) = (back [u] >>= fun _ => Pure.pure (.finish text.reverse)) := by
  simp only [decimalStep, decimalChar?_token, hc]
  rfl

theorem gives_decimalStep_end (text : List Char) :
    Gives tables room (.loop decimalStep (text, none)) ⟨[], room⟩
      (.ok (text.reverse, ⟨[], room⟩)) :=
  Gives.loop_finish ((gives_back_nil _).bind (gives_pure _ _))

/-- The characters of the tokens ahead are read behind those of a token that has been read. -/
theorem gives_decimalStep (hroom : 0 < room) {u : Lexeme} (hu : u.token.Inert tables)
    (text : List Char) (ts : List Token) :
    Gives tables room (.loop decimalStep (text, some u)) ⟨ts, room - 1⟩
      (.ok (text.reverse ++ (Reading.decimalFrom (u.token :: ts)).1,
        ⟨(Reading.decimalFrom (u.token :: ts)).2, room⟩)) := by
  induction ts generalizing u text with
  | nil =>
    cases hc : Reading.decimalChar? u.token with
    | none =>
      simp only [Reading.decimalFrom, hc, List.append_nil]
      apply Gives.loop_finish
      rw [decimalStep_none hc]
      exact (gives_unread hu hroom).bind (gives_pure _ _)
    | some c =>
      simp only [Reading.decimalFrom, hc]
      have hround : Gives tables room (decimalStep (text, some u)) ⟨[], room - 1⟩
          (.ok (.again (c :: text, none), ⟨[], room⟩)) := by
        rw [decimalStep_some hc]
        refine gives_next_nil.bind ((gives_pure _ _).weaken (Nat.le_refl _) ?_)
        omega
      rw [← List.reverse_cons]
      exact hround.loop_again (gives_decimalStep_end (c :: text))
  | cons t ts ih =>
    cases hc : Reading.decimalChar? u.token with
    | none =>
      rw [Reading.decimalFrom, hc]
      simp only [List.append_nil]
      apply Gives.loop_finish
      rw [decimalStep_none hc]
      exact (gives_unread hu hroom).bind (gives_pure _ _)
    | some c =>
      refine (finds_next t).loop_again (decimalStep_some hc) fun w hw ht => ?_
      subst hw
      have hrest := ih ht (c :: text)
      rw [Reading.decimalFrom, hc]
      simp only
      rw [List.reverse_cons, List.append_assoc] at hrest
      exact hrest.strengthen (Nat.sub_le _ 1)

theorem decimalText_reads (hroom : 0 < room) :
    Reads tables room Quantity.decimalText fun ts => .ok (Reading.decimalFrom ts) := by
  intro ts
  change Gives tables room (next >>= fun t => .loop decimalStep ([], t)) ⟨ts, room⟩ _
  cases ts with
  | nil => exact (gives_next_nil.bind ((gives_decimalStep_end []).strengthen (Nat.sub_le room 1)))
  | cons t ts =>
    refine (finds_next t).bind fun u hu ht => ?_
    subst hu
    exact gives_decimalStep hroom ht [] ts

theorem decimal_reads (hroom : 0 < room) :
    Reads tables room Quantity.decimal Reading.decimal :=
  (decimalText_reads hroom).bind fun _ => .ite (reads_fault _) (.ite (reads_fault _) (.pure _))

/-! ## Units and orders -/

theorem unitFrom_reads (hroom : 2 ≤ room) (units : List LengthUnit) :
    Reads tables room (Quantity.unitFrom units) (Reading.unitFrom units) := by
  induction units with
  | nil => exact reads_fault _
  | cons u units ih =>
    have hname : Reads tables room (Quantity.keyword u.name) (Reading.keyword u.name) := by
      apply keyword_reads
      · cases u <;> decide
      · refine Nat.le_trans ?_ hroom
        cases u <;> decide
    exact hname.bind fun _ => .ite (.pure _) ih

/-- One round of `infiniteOrder`. -/
def orderStep (order : GlueOrder) : Scan (Turn GlueOrder GlueOrder) := do
  if ← Quantity.keyword "l" then
    if order = .filll then Quantity.fault .beyondFilll
    else
      match order.next? with
      | some order => return .again order
      | none => .fail (.defect .noNextOrder)
  else return .finish order

end Scan

/-- There is no order above the last one. -/
theorem GlueOrder.eq_filll {order : GlueOrder} (h : all.drop (order.rank + 1) = []) :
    order = .filll := by
  cases order <;> simp [all, rank] at h ⊢

/-- The order above one, with those above both. -/
theorem GlueOrder.of_drop {order p : GlueOrder} {more : List GlueOrder}
    (h : all.drop (order.rank + 1) = p :: more) :
    order ≠ .filll ∧ order.next? = some p ∧ p.rank = order.rank + 1 ∧
      all.drop (p.rank + 1) = more := by
  cases order <;> simp [all, rank] at h <;> obtain ⟨rfl, rfl⟩ := h <;> decide

namespace Scan

theorem gives_orderStep (hroom : 1 ≤ room) {order : GlueOrder} {higher : List GlueOrder}
    (h : GlueOrder.all.drop (order.rank + 1) = higher) :
    Reads tables room (.loop orderStep order) (Reading.orderFrom order higher) := by
  have hl : Reads tables room (Quantity.keyword "l") (Reading.keyword "l") :=
    keyword_reads (by decide) hroom
  induction higher generalizing order with
  | nil =>
    have hlast : order = .filll := GlueOrder.eq_filll h
    subst hlast
    intro ts
    obtain ⟨found, us, hk⟩ := Reading.keyword_ok "l" ts
    rw [Reading.orderFrom, Reading.bind_ok hk]
    cases found with
    | true =>
      refine Gives.loop_error ((hl.gives_ok hk).bind ?_)
      exact gives_fail _ _
    | false =>
      refine Gives.loop_finish ((hl.gives_ok hk).bind ?_)
      exact gives_pure _ _
  | cons p more ih =>
    obtain ⟨hne, hp, -, hmore⟩ := GlueOrder.of_drop h
    intro ts
    obtain ⟨found, us, hk⟩ := Reading.keyword_ok "l" ts
    rw [Reading.orderFrom, Reading.bind_ok hk]
    cases found with
    | false =>
      refine Gives.loop_finish ((hl.gives_ok hk).bind ?_)
      exact gives_pure _ _
    | true =>
      refine Gives.loop_again ((hl.gives_ok hk).bind ?_) (ih hmore us)
      simp only [if_true, if_neg hne, hp]
      exact gives_pure _ _

theorem unit_reads (hroom : 4 ≤ room) (infinite : Bool) :
    Reads tables room (Quantity.unit infinite) (Reading.unit infinite) := by
  have horder : Reads tables room Quantity.infiniteOrder
      (Reading.orderFrom .fil [.fill, .filll]) := gives_orderStep (by omega) rfl
  cases infinite with
  | true =>
    have hfil : Reads tables room (Quantity.keyword "fil") (Reading.keyword "fil") :=
      keyword_reads (by decide) (Nat.le_trans (by decide) hroom)
    refine hfil.bind fun found => Reads.ite (horder.bind fun order => .pure _) ?_
    refine Reads.bind (keyword_reads (by decide) hroom) fun _ => ?_
    exact (unitFrom_reads (by omega) LengthUnit.all).bind fun u => .pure _
  | false =>
    refine Reads.bind (.pure false) fun found => ?_
    refine Reads.ite (horder.bind fun order => .pure _) ?_
    refine Reads.bind (keyword_reads (by decide) hroom) fun _ => ?_
    exact (unitFrom_reads (by omega) LengthUnit.all).bind fun u => .pure _

/-! ## Dimensions and glue -/

theorem amount_reads (negative : Bool) (text : List Char) (u : LengthUnit) (order : GlueOrder) :
    Reads tables room
      (match Number.readDecimal? text with
      | none => .fail (.defect .unreadNumber)
      | some q =>
        match Dimension.ofUnits? (if negative then -q else q) u with
        | some d => Pure.pure ⟨d, order⟩
        | none => Quantity.fault .tooLarge)
      (Reading.amount negative text u order) := by
  unfold Reading.amount
  cases Number.readDecimal? text with
  | none => exact fun ts => gives_fail _ ⟨ts, room⟩
  | some q =>
    dsimp only
    cases Dimension.ofUnits? (if negative then -q else q) u with
    | some d => exact .pure _
    | none => exact reads_fault _

theorem flex_reads (hroom : 4 ≤ room) (infinite : Bool) :
    Reads tables room (Quantity.flex infinite) (Reading.flex infinite) := by
  refine (signs_reads (by omega)).bind fun negative => ?_
  refine (decimal_reads (by omega)).bind fun text => ?_
  refine (unit_reads hroom infinite).bind fun u => ?_
  exact (optionalSpace_reads (by omega)).bind fun _ => amount_reads negative text u.1 u.2

theorem dimension_reads (hroom : 4 ≤ room) :
    Reads tables room Quantity.dimension Reading.dimension :=
  (flex_reads hroom false).bind fun _ => .pure _

theorem flexAfter_reads {name : String} (hne : name.toList ≠ [])
    (hname : name.toList.length ≤ room) (hroom : 4 ≤ room) :
    Reads tables room (Quantity.flexAfter name) (Reading.flexAfter name) :=
  (keyword_reads hne hname).bind fun _ => .ite (flex_reads hroom true) (.pure _)

theorem glue_reads (hroom : 5 ≤ room) : Reads tables room Quantity.glue Reading.glue := by
  refine (dimension_reads (by omega)).bind fun natural => ?_
  refine (flexAfter_reads (by decide) (Nat.le_trans (by decide) hroom) (by omega)).bind
    fun stretch => ?_
  exact (flexAfter_reads (by decide) (Nat.le_trans (by decide) hroom) (by omega)).bind
    fun shrink => .pure _

/-! ## Reading a line -/

section line

variable {line : String} {nested : Bool} {capacity : Capacity} {r : Scan α} {p : Reading α}

/-- A reading that uses up a line leaves nothing of a new input of that line. -/
theorem Reads.line_ok {a : α} (h : Reads tables room r p)
    (hi : ∀ t ∈ tables.alphabet.lineTokens line, t.Inert tables)
    (hroom : (room : Int) < capacity.chunks)
    (hp : p (tables.alphabet.lineTokens line) = .ok (a, [])) :
    ∃ j, Reader.Comes (handler tables) r (.ofLines [line] false nested capacity) (.done a j) ∧
      j.stream tables.alphabet = [] := by
  obtain ⟨j, hj, hs⟩ := h.gives_ok hp _ (of_line hi hroom)
  exact ⟨j, hj, List.map_eq_nil_iff.mp hs.tokens⟩

theorem Reads.line_error {c : Cause} (h : Reads tables room r p)
    (hi : ∀ t ∈ tables.alphabet.lineTokens line, t.Inert tables)
    (hroom : (room : Int) < capacity.chunks)
    (hp : p (tables.alphabet.lineTokens line) = .error c) :
    ∃ f j, Reader.Comes (handler tables) r (.ofLines [line] false nested capacity) (.failed f j) ∧
      f.cause = c :=
  h.gives_error hp _ (of_line hi hroom)

end line

end Scan

end Galley
