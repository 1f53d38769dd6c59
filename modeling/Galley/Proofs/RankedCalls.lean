import Galley.Proofs.Lines
import Galley.Proofs.Rewriting

/-!
Macros without parameters that do not call themselves. A rank that falls from each name to the names
in its replacement bounds the stack, for the names still in it have higher ranks towards its bottom
(`Stacked`), and it bounds the work, for the steps that a name will take can be counted through its
rank (`Tables.load`). So expansion ends within a capacity of the highest rank, and where there are
no conditionals it delivers the raw tokens with every name replaced all the way down (`Inlined`).
-/

namespace Galley

/-! ## Inlining -/

/-- Every name is replaced, and so are the names in its replacement, all the way down. -/
inductive Inlined (tables : Tables) : List Lexeme → List Lexeme → Prop
  | nil : Inlined tables [] []
  | inert {t : Lexeme} {ts us : List Lexeme} (ht : tables.meaning? t.token = none)
    (rest : Inlined tables ts us) : Inlined tables (t :: ts) (t :: us)
  | call {t : Lexeme} {body vs ts us : List Lexeme}
    (ht : tables.meaning? t.token = some (.ofTokens body)) (inner : Inlined tables body vs)
    (rest : Inlined tables ts us) : Inlined tables (t :: ts) (vs ++ us)

namespace Inlined

variable {tables : Tables} {ts us vs : List Lexeme}

theorem unique (h : Inlined tables ts us) (h' : Inlined tables ts vs) : us = vs := by
  induction h generalizing vs with
  | nil =>
    cases h'
    rfl
  | inert ht rest ih =>
    cases h' with
    | inert _ rest' => rw [ih rest']
    | call ht' => simp [ht] at ht'
  | call ht inner rest ihi ihr =>
    cases h' with
    | inert ht' => simp [ht] at ht'
    | call ht' inner' rest' =>
      cases Definition.ofTokens_inj (Option.some.inj (ht.symm.trans ht'))
      rw [ihi inner', ihr rest']

/-- Both parts of a list are inlined one after the other. -/
theorem of_append {front : List Lexeme} (h : Inlined tables (front ++ ts) us) :
    ∃ vs ws, Inlined tables front vs ∧ Inlined tables ts ws ∧ us = vs ++ ws := by
  induction front generalizing us with
  | nil => exact ⟨[], us, .nil, h, rfl⟩
  | cons t front ih =>
    cases h with
    | inert ht rest =>
      obtain ⟨vs, ws, hv, hw, rfl⟩ := ih rest
      exact ⟨t :: vs, ws, .inert ht hv, hw, rfl⟩
    | call ht inner rest =>
      obtain ⟨vs, ws, hv, hw, rfl⟩ := ih rest
      exact ⟨_ ++ vs, ws, .call ht inner hv, hw, (List.append_assoc _ _ _).symm⟩

end Inlined

/-! ## What is ahead, up to an invalid character -/

/-- The tokens before the first invalid character. -/
def front : List Delivery → List Lexeme
  | .token t :: ds => t :: front ds
  | _ => []

/-- The first invalid character, and what is behind it. -/
def behind : List Delivery → List Delivery
  | .token _ :: ds => behind ds
  | ds => ds

@[simp] theorem front_append (ts : List Lexeme) (ds : List Delivery) :
    front (ts.map .token ++ ds) = ts ++ front ds := by
  induction ts with
  | nil => rfl
  | cons t ts ih => simp [front, ih]

@[simp] theorem behind_append (ts : List Lexeme) (ds : List Delivery) :
    behind (ts.map .token ++ ds) = behind ds := by
  induction ts with
  | nil => rfl
  | cons t ts ih => simp [behind, ih]

/-- The invalid character that a list begins with. -/
def firstInvalid : List Delivery → Option (Char × Position)
  | .invalid c place :: _ => some (c, place)
  | _ => none

theorem Lexer.drainWithin_deliveries (a : Alphabet) {n : Nat} {l : Lexer} (hn : l.size a < n) :
    (l.drainWithin a n).tokens = front (l.deliveries a) ∧
      (l.drainWithin a n).invalid = firstInvalid (behind (l.deliveries a)) := by
  induction n generalizing l with
  | zero => omega
  | succ n ih =>
    have hl := l.next_leaves a
    rw [drainWithin, deliveries_next]
    cases ho : l.next a with
    | token t after =>
      rw [ho] at hl
      have hlt := hl.2
      obtain ⟨ht, hi⟩ := ih (l := after) (by omega)
      exact ⟨congrArg (t :: ·) ht, hi⟩
    | invalid c place after => exact ⟨rfl, rfl⟩
    | finished after => exact ⟨rfl, rfl⟩

/-! ## Expansion without conditionals -/

/-- No replacement holds a part of a conditional. -/
def Tables.Unconditional (tables : Tables) : Prop :=
  ∀ name ts, tables.meaning? name = some (.ofTokens ts) → ∀ t ∈ ts, t.token.branch? = none

/-- No part of a conditional comes before the first invalid character. -/
def Unbranched (ds : List Delivery) : Prop := ∀ t ∈ front ds, t.token.branch? = none

section Inlining

variable {tables : Tables} {ds es rest : List Delivery} {us : List Lexeme}

/-- A rewriting is a call, and what it leaves is inlined like what there was. -/
theorem Rewrites.inlined (ht : tables.Unconditional) (hd : Unbranched ds)
    (h : Rewrites tables ds es) :
    Unbranched es ∧ behind es = behind ds ∧
      ∀ us, Inlined tables (front es) us → Inlined tables (front ds) us := by
  cases h with
  | @call t ts hb hm more =>
    refine ⟨?_, behind_append ts more, fun us hu => ?_⟩
    · intro u hu
      rw [front_append, List.mem_append] at hu
      rcases hu with hu | hu
      · exact ht _ _ hm u hu
      · exact hd u (List.mem_cons_of_mem _ hu)
    · rw [front_append] at hu
      obtain ⟨vs, ws, hv, hw, rfl⟩ := hu.of_append
      exact .call hm hv hw
  | @resolve t b hb more rest hr =>
    have hn := hd t List.mem_cons_self
    simp [hn] at hb

/-- A call of expansion delivers the first token of the inlining, if any. -/
theorem Expands.inlined (ht : tables.Unconditional) {x : Option Lexeme}
    (h : Expands tables ds x rest) (hd : Unbranched ds) :
    Unbranched rest ∧ behind rest = behind ds ∧
      ∀ us, Inlined tables (front rest) us → Inlined tables (front ds) (x.toList ++ us) := by
  induction h with
  | finished => exact ⟨hd, rfl, fun us hu => hu⟩
  | delivered hi more =>
    exact ⟨(List.forall_mem_cons.mp hd).2, rfl, fun us hu => .inert hi.2 hu⟩
  | again hr later ih =>
    obtain ⟨he, hbe, hin⟩ := hr.inlined ht hd
    obtain ⟨hrest, hb, hlater⟩ := ih he
    exact ⟨hrest, hb.trans hbe, fun us hu => hin _ (hlater us hu)⟩

theorem Expands.rest_eq_nil (h : Expands tables ds none rest) : rest = [] := by
  generalize hx : none = x at h
  induction h with
  | finished => rfl
  | delivered hi more => cases hx
  | again hr later ih => exact ih hx

/-- Without conditionals a call of expansion breaks off at an invalid character alone, if there is
room enough. -/
theorem Breaks.inlined (ht : tables.Unconditional) {f : Fault} (h : Breaks tables ds f)
    (hd : Unbranched ds) (hf : ¬ f.OfCapacity) :
    Inlined tables (front ds) [] ∧
      ∃ p, firstInvalid (behind ds) = some p ∧ f = Input.lexFault p.1 p.2 := by
  induction h with
  | full hfull ds => exact absurd hfull hf
  | refused c place more => exact ⟨.nil, (c, place), rfl, rfl⟩
  | @unmatched t b hb more f =>
    have hn := hd t List.mem_cons_self
    simp [hn] at hb
  | again hr later ih =>
    obtain ⟨he, hbe, hin⟩ := hr.inlined ht hd
    obtain ⟨hu, hp⟩ := ih he hf
    exact ⟨hin [] hu, hbe ▸ hp⟩

/-- All that is delivered is the inlining of the tokens before the first invalid character. -/
theorem Unfolds.inlined (ht : tables.Unconditional) {e : Option Fault}
    (h : Unfolds tables ds us e) (hd : Unbranched ds) (he : ∀ f, e = some f → ¬ f.OfCapacity) :
    Inlined tables (front ds) us ∧
      e = (firstInvalid (behind ds)).map fun p => Input.lexFault p.1 p.2 := by
  induction h with
  | finished h =>
    obtain ⟨-, hb, hin⟩ := h.inlined ht hd
    cases h.rest_eq_nil
    exact ⟨hin [] .nil, by rw [← hb]; rfl⟩
  | failed h =>
    obtain ⟨hu, p, hp, hf⟩ := h.inlined ht hd (he _ rfl)
    exact ⟨hu, by rw [hp, hf]; rfl⟩
  | delivered h later ih =>
    obtain ⟨hrest, hb, hin⟩ := h.inlined ht hd
    obtain ⟨hu, hf⟩ := ih hrest he
    exact ⟨hin _ hu, hb ▸ hf⟩

end Inlining

/-! ## The work -/

/-- The loads of what is ahead, an invalid character counting one. -/
def loadOf (load : Token → Nat) : List Delivery → Nat
  | [] => 0
  | .token t :: ds => load t.token + loadOf load ds
  | .invalid _ _ :: ds => 1 + loadOf load ds

/-- The steps that a token will take, if names stand for names down to this depth. -/
def Tables.load (tables : Tables) : Nat → Token → Nat
  | 0, _ => 1
  | depth + 1, t =>
    match tables.meaning? t with
    | some d => 1 + loadOf (tables.load depth) (((d.substitute .empty).getD []).map .token)
    | none => 1

/-- Ranks from one to `top`, which fall from each name to the names in its replacement. -/
structure Tables.Ranked (tables : Tables) (rank : Token → Nat) (top : Nat) : Prop where
  range : ∀ name d, tables.meaning? name = some d → 1 ≤ rank name ∧ rank name ≤ top
  falls : ∀ name ts, tables.meaning? name = some (.ofTokens ts) →
    ∀ t ∈ ts, tables.Calls t → rank t.token < rank name

theorem loadOf_append (load : Token → Nat) (ds es : List Delivery) :
    loadOf load (ds ++ es) = loadOf load ds + loadOf load es := by
  induction ds with
  | nil => simp [loadOf]
  | cons d ds ih =>
    cases d with
    | token t => simp [loadOf, ih, Nat.add_assoc]
    | invalid c place => simp [loadOf, ih, Nat.add_assoc]

theorem loadOf_congr {load load' : Token → Nat} {ts : List Lexeme}
    (h : ∀ t ∈ ts, load t.token = load' t.token) :
    loadOf load (ts.map .token) = loadOf load' (ts.map .token) := by
  induction ts with
  | nil => rfl
  | cons t ts ih =>
    obtain ⟨ht, hts⟩ := List.forall_mem_cons.mp h
    simp only [List.map_cons, loadOf, ht, ih hts]

theorem length_le_loadOf {load : Token → Nat} (h : ∀ t, 1 ≤ load t) (ds : List Delivery) :
    ds.length ≤ loadOf load ds := by
  induction ds with
  | nil => exact Nat.le_refl 0
  | cons d ds ih =>
    cases d with
    | token t =>
      have ht := h t.token
      simp only [List.length_cons, loadOf]
      omega
    | invalid c place =>
      simp only [List.length_cons, loadOf]
      omega

namespace Tables

variable {tables : Tables} {rank : Token → Nat} {top : Nat}

theorem one_le_load (tables : Tables) (depth : Nat) (t : Token) : 1 ≤ tables.load depth t := by
  cases depth with
  | zero => exact Nat.le_refl 1
  | succ depth =>
    rw [load]
    split
    · exact Nat.le_add_right 1 _
    · exact Nat.le_refl 1

theorem load_call {t : Token} {ts : List Lexeme} (h : tables.meaning? t = some (.ofTokens ts))
    (depth : Nat) :
    tables.load (depth + 1) t = 1 + loadOf (tables.load depth) (ts.map .token) := by
  simp [load, h]

/-- Below its rank nothing more is found in a token. -/
theorem Ranked.load_succ (h : tables.Ranked rank top) (hp : tables.Parameterless) {depth : Nat}
    {t : Lexeme} (ht : tables.Calls t → rank t.token ≤ depth) :
    tables.load (depth + 1) t.token = tables.load depth t.token := by
  induction depth generalizing t with
  | zero =>
    cases hm : tables.meaning? t.token with
    | none => simp [load, hm]
    | some d =>
      have hrank := ht (by simp [Calls, hm])
      have hrange := (h.range _ d hm).1
      omega
  | succ depth ih =>
    cases hm : tables.meaning? t.token with
    | none => simp [load, hm]
    | some d =>
      obtain ⟨ts, hts⟩ := hp.exists_tokens hm
      have hrank := ht (by simp [Calls, hm])
      rw [load_call hts, load_call hts]
      refine congrArg (1 + ·) (loadOf_congr fun u hu => ih fun hc => ?_)
      have hfalls := h.falls _ ts hts u hu hc
      omega

/-- Each step of expansion takes some of the load off. -/
theorem Ranked.lightens (h : tables.Ranked rank top) (hp : tables.Parameterless) :
    Lightens tables (loadOf (tables.load top)) where
  length := length_le_loadOf (tables.one_le_load top)
  delivered t more := by
    have ht := tables.one_le_load top t.token
    simp only [loadOf]
    omega
  rewritten hr := by
    cases hr with
    | @resolve t b hb more rest hr =>
      obtain ⟨skipped, rfl⟩ := hr
      have ht := tables.one_le_load top t.token
      simp only [loadOf, loadOf_append]
      omega
    | @call t ts hb hm more =>
      obtain ⟨hlow, hhigh⟩ := h.range _ _ hm
      obtain ⟨depth, rfl⟩ : ∃ depth, top = depth + 1 := ⟨top - 1, by omega⟩
      have hsame : loadOf (tables.load (depth + 1)) (ts.map .token) =
          loadOf (tables.load depth) (ts.map .token) := by
        refine loadOf_congr fun u hu => h.load_succ hp fun hc => ?_
        have hfalls := h.falls _ ts hm u hu hc
        omega
      simp only [loadOf, loadOf_append, load_call hm, hsame]
      omega

/-! ## The stack -/

/-- Chunks whose names have ranks below bounds that grow from the given level to the bottom. -/
def Stacked (tables : Tables) (rank : Token → Nat) (top : Nat) : Nat → List Chunk → Prop
  | level, [] => level ≤ top
  | level, c :: more => ∃ bound, level < bound ∧
    (∀ t ∈ c.tokens, tables.Calls t → rank t.token < bound) ∧ Stacked tables rank top bound more

variable {level : Nat} {chunks rest : List Chunk} {t : Lexeme}

theorem Stacked.length_le (h : tables.Stacked rank top level chunks) :
    level + chunks.length ≤ top := by
  induction chunks generalizing level with
  | nil => exact h
  | cons c more ih =>
    obtain ⟨bound, hb, -, hmore⟩ := h
    have hlen := ih hmore
    rw [List.length_cons]
    omega

theorem Stacked.mono {lower : Nat} (h : tables.Stacked rank top level chunks) (hl : lower ≤ level) :
    tables.Stacked rank top lower chunks := by
  cases chunks with
  | nil => exact Nat.le_trans hl h
  | cons c more =>
    obtain ⟨bound, hb, hc, hmore⟩ := h
    exact ⟨bound, Nat.lt_of_le_of_lt hl hb, hc, hmore⟩

theorem Stacked.dropEmpty (h : tables.Stacked rank top level chunks) :
    tables.Stacked rank top level (Input.dropEmpty chunks) := by
  induction chunks generalizing level with
  | nil => exact h
  | cons c more ih =>
    rw [Input.dropEmpty]
    split
    · obtain ⟨bound, hb, -, hmore⟩ := h
      exact ih (hmore.mono (Nat.le_of_lt hb))
    · exact h

/-- What is left behind a token is stacked, and if this is a name even above its rank. -/
theorem Stacked.of_takePending (h : tables.Stacked rank top level chunks)
    (ht : Input.takePending chunks = some (t, rest)) :
    tables.Stacked rank top level rest ∧
      (tables.Calls t → tables.Stacked rank top (rank t.token) rest) := by
  induction chunks generalizing level with
  | nil => cases ht
  | cons c more ih =>
    obtain ⟨bound, hb, hc, hmore⟩ := h
    obtain ⟨ts, origin⟩ := c
    cases ts with
    | nil =>
      obtain ⟨hrest, hcall⟩ := ih hmore ht
      exact ⟨hrest.mono (Nat.le_of_lt hb), hcall⟩
    | cons u us =>
      cases ht
      obtain ⟨hu, hus⟩ := List.forall_mem_cons.mp hc
      exact ⟨⟨bound, hb, hus, hmore⟩, fun hcall => ⟨bound, hu hcall, hus, hmore⟩⟩

theorem Ranked.discipline (h : tables.Ranked rank top) {limit : Int} (hl : (top : Int) ≤ limit) :
    Discipline tables limit (tables.Stacked rank top 0) fun t chunks =>
      1 ≤ rank t.token ∧ tables.Stacked rank top (rank t.token) chunks where
  empty := Nat.zero_le top
  taken ht hc := (hc.of_takePending ht).1
  called ht hc hcall := by
    obtain ⟨d, hd⟩ := Option.isSome_iff_exists.mp hcall
    exact ⟨(h.range _ d hd).1, (hc.of_takePending ht).2 hcall⟩
  scanned hcall := by
    obtain ⟨d, hd⟩ := Option.isSome_iff_exists.mp hcall
    exact h.range _ d hd
  room := by
    rintro t chunks ⟨hone, hs⟩
    have hlen := hs.dropEmpty.length_le
    omega
  pushed := by
    rintro t chunks ts ⟨hone, hs⟩ hm origin
    exact ⟨rank t.token, hone, h.falls _ ts hm, hs.dropEmpty⟩

end Tables

/-! ## Expansion of all lines -/

/-- The raw tokens of lines, up to a character that strict reading refuses. -/
def Engine.raw (config : Config) (tables : Tables) (lines : List String) : Lexer.Drained :=
  Lexer.drain tables.alphabet { lines := lines, strict := config.strict }

/-- What all of the lines unfold to without conditionals. -/
theorem Unfolds.of_lines {config : Config} {tables : Tables} {lines : List String}
    {us : List Lexeme} {e : Option Fault} (ht : tables.Unconditional)
    (hb : ∀ t ∈ (Engine.raw config tables lines).tokens, t.token.branch? = none)
    (h : Unfolds tables ((Input.ofLines lines config.strict config.nested config.capacity).ahead
      tables.alphabet) us e) (he : ∀ f, e = some f → ¬ f.OfCapacity) :
    (∀ vs, Inlined tables (Engine.raw config tables lines).tokens vs ↔ vs = us) ∧
      e = (Engine.raw config tables lines).invalid.map fun p => Input.lexFault p.1 p.2 := by
  obtain ⟨htokens, hinvalid⟩ : (Engine.raw config tables lines).tokens = _ ∧
      (Engine.raw config tables lines).invalid = _ :=
    Lexer.drainWithin_deliveries tables.alphabet (Nat.lt_succ_self _)
  rw [htokens] at hb ⊢
  rw [hinvalid]
  obtain ⟨hus, hfault⟩ := h.inlined ht hb he
  refine ⟨fun vs => ⟨fun hvs => hvs.unique hus, ?_⟩, hfault⟩
  rintro rfl
  exact hus

/-- Macros without parameters that do not call themselves come to an end, within a capacity of the
highest rank: expansion returns, or fails for a character that strict reading refuses or for a part
of a conditional without the others. Where there are no conditionals it returns the raw tokens with
every name replaced all the way down. -/
theorem Engine.expand_ranked {tables : Tables} {rank : Token → Nat} {top : Nat}
    (hp : tables.Parameterless) (hr : tables.Ranked rank top) {config : Config}
    (hc : (top : Int) ≤ config.capacity.chunks) (metrics : Metrics) (lines : List String) :
    ∃ o, Settles (fun rounds => (start config metrics tables lines).expand rounds) o ∧
      o.Ends (fun _ _ => True) (fun f _ => f.cause.OfText config.strict) ∧
      (tables.Unconditional → (∀ t ∈ (raw config tables lines).tokens, t.token.branch? = none) →
        ∃ us, (∀ vs, Inlined tables (raw config tables lines).tokens vs ↔ vs = us) ∧
          ((raw config tables lines).invalid = none → o.Yields (· = us)) ∧
          ∀ p, (raw config tables lines).invalid = some p →
            config.strict = true ∧ o.FailedBy (· = Input.lexFault p.1 p.2)) := by
  have hd := hr.discipline hc
  have hi : (Input.ofLines lines config.strict config.nested config.capacity).Disciplined
      config.strict config.capacity.chunks (tables.Stacked rank top 0) := ⟨hd.empty, rfl, rfl⟩
  obtain ⟨n, hn⟩ : ∃ n, loadOf (tables.load top) ((Input.ofLines lines config.strict config.nested
      config.capacity).ahead tables.alphabet) < n := ⟨_, Nat.lt_succ_self _⟩
  have hends := Input.drain_ends hp (hr.lightens hp) hn hn
  have hsound := hd.drain_sound hp n n hi
  cases hdrain : (Input.ofLines lines config.strict config.nested config.capacity).drain tables n n
    with
  | mk us ending =>
  rw [hdrain] at hends hsound
  cases ending with
  | unfinished => exact hends.elim
  | done u j =>
    obtain ⟨enough, hall⟩ := (Input.drainsIn_of_drain hdrain nofun).drains nofun
    refine ⟨.done us ((start config metrics tables lines).onto j),
      ⟨enough, fun m hm => expand_of_drain (hall m m hm hm)⟩, trivial, fun ht hb => ?_⟩
    obtain ⟨hus, hfault⟩ := hends.of_lines ht hb (by simp)
    refine ⟨us, hus, fun _ => rfl, fun p hp => ?_⟩
    simp [hp] at hfault
  | failed f j =>
    obtain ⟨enough, hall⟩ := (Input.drainsIn_of_drain hdrain nofun).drains nofun
    refine ⟨.failed f ((start config metrics tables lines).onto j),
      ⟨enough, fun m hm => (expand_of_drain_failed (hall m m hm hm)).1⟩, hsound.2,
      fun ht hb => ?_⟩
    obtain ⟨hus, hfault⟩ := hends.of_lines ht hb (by rintro g ⟨⟩; exact hsound.2.ne_capacity)
    refine ⟨us, hus, fun hnone => ?_, fun p hp => ?_⟩
    · simp [hnone] at hfault
    · rw [hp] at hfault
      cases hfault
      exact ⟨hsound.2, rfl⟩

def letterPair : List Lexeme := [⟨.ch 'x' .letter, none⟩, ⟨.ch 'y' .letter, none⟩]

/-- Two calls with a letter between them. -/
def callTwice : List Lexeme := [⟨.cs "a", none⟩, ⟨.ch 'z' .letter, none⟩, ⟨.cs "a", none⟩]

/-- A macro whose replacement calls another one. -/
def nestedTwice : Tables :=
  (Tables.standingFor letterPair).assign (.define (.cs "b") (.ofTokens callTwice))

def rankTwice (t : Token) : Nat := if t = .cs "b" then 2 else 1

/-- As many chunks as the higher of the two ranks. -/
def roomForTwo : Config := { capacity := { chunks := 2 } }

theorem Engine.expand_ranked_twice :
    nestedTwice.Parameterless ∧ nestedTwice.Ranked rankTwice 2 ∧ nestedTwice.Unconditional ∧
      ∃ o us, Settles (fun rounds => (start roomForTwo {} nestedTwice ["\\b!", "\\a"]).expand
          rounds) o ∧
        o.Ends (fun _ _ => True) (fun f _ => f.cause.OfText false) ∧
        (∀ vs, Inlined nestedTwice (raw roomForTwo nestedTwice ["\\b!", "\\a"]).tokens vs ↔
          vs = us) ∧ o.Yields (· = us) := by
  have hm : ∀ name d, nestedTwice.meaning? name = some d →
      name = .cs "b" ∧ d = .ofTokens callTwice ∨ name = .cs "a" ∧ d = .ofTokens letterPair := by
    intro name d hd
    simp only [nestedTwice, Tables.standingFor, Tables.meaning?_define, Tables.meaning?_fresh] at hd
    split at hd
    · rename_i h
      exact Or.inl ⟨h.2, (Option.some.inj hd).symm⟩
    · split at hd
      · rename_i h
        exact Or.inr ⟨h.2, (Option.some.inj hd).symm⟩
      · cases hd
  have hp : nestedTwice.Parameterless := by
    intro name d hd
    rcases hm name d hd with ⟨-, rfl⟩ | ⟨-, rfl⟩
    · exact ⟨⟨0, rfl, rfl⟩, rfl⟩
    · exact ⟨⟨0, rfl, rfl⟩, rfl⟩
  have hr : nestedTwice.Ranked rankTwice 2 := by
    constructor
    · intro name d hd
      rcases hm name d hd with ⟨rfl, -⟩ | ⟨rfl, -⟩
      · decide
      · decide
    · intro name ts hts t ht hc
      rcases hm name _ hts with ⟨rfl, h⟩ | ⟨rfl, h⟩
      · cases Definition.ofTokens_inj h
        have hlow : ∀ t ∈ callTwice, rankTwice t.token < 2 := by decide
        exact hlow t ht
      · cases Definition.ofTokens_inj h
        have hnone : ∀ t ∈ letterPair, nestedTwice.meaning? t.token = none := by decide +kernel
        simp [Tables.Calls, hnone t ht] at hc
  have hu : nestedTwice.Unconditional := by
    intro name ts hts
    rcases hm name _ hts with ⟨-, h⟩ | ⟨-, h⟩
    · cases Definition.ofTokens_inj h
      decide
    · cases Definition.ofTokens_inj h
      decide
  have hinvalid : (raw roomForTwo nestedTwice ["\\b!", "\\a"]).invalid = none := by
    decide +kernel
  have hc : ((2 : Nat) : Int) ≤ roomForTwo.capacity.chunks := by decide
  obtain ⟨o, ho, hends, hinlined⟩ := expand_ranked hp hr hc {} ["\\b!", "\\a"]
  obtain ⟨us, hus, hyields, -⟩ := hinlined hu (by decide +kernel)
  exact ⟨hp, hr, hu, o, us, ho, hends, hus, hyields hinvalid⟩

/-- With one chunk less there is no room for the inner replacement. -/
example : ((Engine.start { capacity := { chunks := 1 } } {} nestedTwice ["\\b!"]).expand 9).FailedBy
    (fun f => f.cause = .capacity { chunks := 1 }) := by
  decide +kernel

end Galley
