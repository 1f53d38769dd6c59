import Galley.Proofs.History
import Galley.Proofs.Origins
import Galley.Proofs.View

/-!
Where the tokens of a run stand. If all that is scanned on the way begins at certain places, the
tokens in the chunks and in the definitions stand at these, as does the token that was read last
(`Machine.Traced`); what is asked of an input keeps this, and a fault is blamed on one of them.
-/

namespace Galley

open Definition (literals)

/-- Lines, how long a text is put at their ends, and the places where something in them is
scanned. -/
structure Source where
  lines : List String
  ending : Nat
  scanned : Position → Prop

/-- The tokens stand at places that are scanned, if they have a place. -/
def StandIn (src : Source) (ts : List Lexeme) : Prop :=
  ∀ t ∈ ts, ∀ span, t.span = some span → src.scanned span.start

namespace StandIn

variable {src : Source} {t : Lexeme} {ts us : List Lexeme}

theorem nil : StandIn src [] := nofun

theorem subset (h : StandIn src ts) (hts : us ⊆ ts) : StandIn src us := fun t ht => h t (hts ht)

theorem append (h : StandIn src ts) (h' : StandIn src us) : StandIn src (ts ++ us) := by
  intro t ht
  rcases List.mem_append.mp ht with ht | ht
  · exact h t ht
  · exact h' t ht

theorem cons (h : StandIn src [t]) (h' : StandIn src ts) : StandIn src (t :: ts) := h.append h'

end StandIn

namespace Machine

/-- What is scanned in the machine is scanned in the source. -/
def ScansIn (src : Source) (m : Machine) : Prop :=
  ∀ p, m.Scans src.lines p → p.LiesIn src.lines src.ending → src.scanned p

/-- A run over a source: its pending tokens and those of its definitions stand in it, as does what
it read last, if it has read anything. -/
structure Traced (src : Source) (m : Machine) : Prop where
  lines_eq : m.input.lexer.lines = src.lines
  ending_eq : (m.tables.alphabet.endLine.getD "").length = src.ending
  fits : m.input.lexer.Fits src.ending
  pending : StandIn src (Input.pending m.input.chunks)
  last : m.input.last = ⟨1, 1⟩ ∨ src.scanned m.input.last
  definitions : ∀ t d, m.tables.meaning? t = some d → StandIn src (literals d.replacement)

/-- A fault is blamed on a place that is scanned, or on the first place of all. -/
structure BlamedIn (src : Source) (f : Fault) (m : Machine) : Prop where
  traced : m.Traced src
  place : f.place = ⟨1, 1⟩ ∨ src.scanned f.place

end Machine

namespace Input

variable {src : Source} {tables : Tables} {i : Input}

/-- Whatever is claimed of such values is sure of what a reading comes to. -/
theorem ensures_of_traced {α : Type} {values : α → Prop} {post : α → Unit → Prop}
    {bad : Fault → Input → Prop} {o : Outcome Input α}
    (h : o.Ensures (fun a j => Machine.Traced src ⟨tables, j⟩ ∧ values a) bad)
    (hpost : ∀ a u, values a → post a u) :
    o.Ensures (fun a j => ∃ u, Machine.Traced src ⟨tables, j⟩ ∧ post a u) bad :=
  h.mono (fun a _ ⟨hj, ha⟩ => ⟨(), hj, hpost a () ha⟩) fun _ _ hf => hf

theorem next_traced (h : Machine.Traced src ⟨tables, i⟩) (hscan : Machine.ScansIn src ⟨tables, i⟩) :
    (i.next tables.alphabet).Ensures
      (fun t j => Machine.Traced src ⟨tables, j⟩ ∧ StandIn src t.toList)
      (fun f j => Machine.BlamedIn src f ⟨tables, j⟩) := by
  cases ht : takePending i.chunks with
  | some p =>
    obtain ⟨t, chunks⟩ := p
    rw [next_of_pending ht]
    have hpending := h.pending
    rw [pending_takePending ht] at hpending
    have hplace : placeAfter i.last t = ⟨1, 1⟩ ∨ src.scanned (placeAfter i.last t) := by
      unfold placeAfter
      split
      · rename_i span hs
        exact Or.inr (hpending t List.mem_cons_self span hs)
      · exact h.last
    have hrest : StandIn src (pending chunks) := hpending.subset (List.subset_cons_self t _)
    have hread : StandIn src [t] := hpending.subset (by simp)
    exact ⟨{ h with pending := hrest, last := hplace }, hread⟩
  | none =>
    rw [next_of_lexer ht]
    have hfits : (i.lexer.next tables.alphabet).Fits src.lines src.ending := by
      rw [← h.lines_eq, ← h.ending_eq]
      exact Lexer.next_fits (h.ending_eq ▸ h.fits)
    have hbegins : ∀ p, (i.lexer.next tables.alphabet).Begins p → src.scanned p := fun p hp =>
      hscan p ⟨h.lines_eq, ht, hp⟩ (hfits.lies hp)
    cases hn : i.lexer.next tables.alphabet with
    | token t l =>
      rw [hn] at hfits hbegins
      obtain ⟨⟨span, hs, -⟩, hl, hlines⟩ := hfits
      have hspan : src.scanned span.start := hbegins span.start (by simp [Lexed.Begins, hs])
      refine ⟨⟨hlines, h.ending_eq, hl, .nil, Or.inr ?_, h.definitions⟩, ?_⟩
      · simpa [placeAfter, hs] using hspan
      · simpa [StandIn, hs] using hspan
    | invalid c place l =>
      rw [hn] at hfits hbegins
      obtain ⟨-, hl, hlines⟩ := hfits
      exact ⟨⟨hlines, h.ending_eq, hl, .nil, h.last, h.definitions⟩, Or.inr (hbegins place rfl)⟩
    | finished l =>
      rw [hn] at hfits
      exact ⟨⟨hfits.2, h.ending_eq, hfits.1, .nil, h.last, h.definitions⟩, .nil⟩

theorem push_traced (h : Machine.Traced src ⟨tables, i⟩) {c : Chunk} (hc : StandIn src c.tokens) :
    (i.push c).Ensures (fun _ j => Machine.Traced src ⟨tables, j⟩)
      (fun f j => Machine.BlamedIn src f ⟨tables, j⟩) := by
  have hpending : StandIn src (pending (dropEmpty i.chunks)) := by
    rw [pending_dropEmpty]
    exact h.pending
  unfold push
  split
  · exact h
  · dsimp only
    split
    · exact ⟨{ h with pending := hpending }, h.last⟩
    · exact { h with pending := hc.append hpending }

/-- What a consumer comes to, it comes to on tokens of the source. -/
theorem consume_traced (h : Machine.Traced src ⟨tables, i⟩) (rounds : Nat) {β : Type}
    (c : Consumer β)
    (hscan : ∀ j ∈ i.consumeReadings tables.alphabet rounds c, Machine.ScansIn src ⟨tables, j⟩) :
    (i.consume tables.alphabet rounds c).Ensures
      (fun b j => Machine.Traced src ⟨tables, j⟩ ∧ ∃ ts, StandIn src ts ∧ (c.run ts).1 = b)
      (fun f j => Machine.BlamedIn src f ⟨tables, j⟩) := by
  unfold consumeReadings at hscan
  unfold consume
  cases hs : c.start with
  | finish b => exact ⟨h, [], .nil, by simp [Consumer.run, hs]⟩
  | again s =>
    rw [hs] at hscan
    -- the tokens read so far lead from the first state to the one that has been reached
    refine iterate_ensures_passing (fun j => Machine.ScansIn src ⟨tables, j⟩) (fun _ j => [j])
      (fun s j => Machine.Traced src ⟨tables, j⟩ ∧
        ∃ ts, StandIn src ts ∧ ∀ more, c.run (ts ++ more) = c.drive s more) ?_ rounds
      ⟨h, [], .nil, fun more => by simp [Consumer.run, hs]⟩ hscan
    rintro s j ⟨hj, ts, hts, hrun⟩ hin
    rw [Outcome.map_eq_andThen]
    refine Outcome.Ensures.andThen
      ((next_traced hj (hin j List.mem_cons_self)).mono ?_ fun _ _ hf => hf)
    rintro t k ⟨hk, ht⟩
    cases t with
    | none =>
      refine ⟨hk, ts, hts, ?_⟩
      have hend := hrun []
      rw [List.append_nil] at hend
      rw [hend, Consumer.drive]
    | some t =>
      have hread : StandIn src (ts ++ [t]) := hts.append ht
      have hstep (more : List Lexeme) : c.run (ts ++ [t] ++ more) = c.drive s (t :: more) := by
        rw [List.append_assoc]
        exact hrun (t :: more)
      simp only [Outcome.Ensures]
      cases hc : c.step s t with
      | again s' =>
        refine ⟨hk, ts ++ [t], hread, fun more => ?_⟩
        rw [hstep, Consumer.drive, hc]
      | finish b =>
        refine ⟨hk, ts ++ [t], hread, ?_⟩
        have hend := hstep []
        rw [List.append_nil] at hend
        rw [hend, Consumer.drive, hc]

/-- A skip without an end is blamed on the place where it began. -/
theorem skip_traced (h : Machine.Traced src ⟨tables, i⟩) (rounds : Nat) (toElse : Bool)
    (hscan : ∀ j ∈ i.consumeReadings tables.alphabet rounds (skipper i.nested toElse),
      Machine.ScansIn src ⟨tables, j⟩) :
    (i.skip tables.alphabet rounds toElse).Ensures
      (fun _ j => Machine.Traced src ⟨tables, j⟩)
      (fun f j => Machine.BlamedIn src f ⟨tables, j⟩) := by
  refine Outcome.Ensures.andThen ((consume_traced h rounds _ hscan).mono ?_ fun _ _ hf => hf)
  rintro landed j ⟨hj, -⟩
  cases landed with
  | some landed => exact hj
  | none => exact ⟨hj, h.last⟩

end Input

/-! ## Readers -/

namespace Reader

variable {Request : Type → Type 1} {α β : Type}

/-- A reader comes to such values. -/
def Brings (promises : Promises Request Unit) (values : α → Prop) (r : Reader Request α) : Prop :=
  ∀ post, (∀ a u, values a → post a u) → r.wp promises (fun _ => True) post ()

variable {promises : Promises Request Unit} {values : α → Prop} {results : β → Prop}

theorem Brings.pure {a : α} (h : values a) :
    (Pure.pure a : Reader Request α).Brings promises values :=
  fun _ hpost => hpost a () h

theorem Brings.fail (c : Cause) : (Reader.fail c : Reader Request α).Brings promises values :=
  fun _ _ => trivial

theorem Brings.bind {r : Reader Request α} {k : α → Reader Request β}
    (hr : r.Brings promises values) (hk : ∀ a, values a → (k a).Brings promises results) :
    (r >>= k).Brings promises results :=
  fun post hpost => hr _ fun a _ ha => hk a ha post hpost

theorem Brings.loop {υ : Type} {body : υ → Reader Request (Turn υ α)} (inv : υ → Prop)
    (h : ∀ u, inv u → (body u).Brings promises fun turn => turn.Holds inv values) {u : υ}
    (hu : inv u) : (Reader.loop body u).Brings promises values := by
  intro post hpost
  refine wp_loop (fun u _ => inv u) ?_ hu
  intro u v hu
  refine h u hu _ fun turn w hturn => ?_
  cases turn with
  | again u' => exact hturn
  | finish a => exact hpost a w hturn

end Reader

/-! ## Expansion -/

/-- The tokens of an answer stand in the source, and so must those that are put on top of the
input. -/
def RawRequest.placed (src : Source) : Promises RawRequest Unit
  | _, .next, post, u => ∀ t, StandIn src t.toList → post t u
  | _, .push ts _, post, u => StandIn src ts ∧ ∀ a, post a u
  | _, .consume c, post, u => ∀ ts, StandIn src ts → post (c.run ts).1 u
  | _, .skip _, post, u => ∀ a, post a u
  | _, .meaning _, post, u => ∀ d? : Option Definition,
      (∀ d, d? = some d → StandIn src (literals d.replacement)) → post d? u
  | _, .openBranch, post, u => ∀ a, post a u
  | _, .closeBranch, post, u => ∀ a, post a u

namespace Expansion

variable {src : Source}

/-- Readers of raw tokens that come to such values. -/
abbrev Brings {α : Type} (src : Source) (values : α → Prop) (r : Reader RawRequest α) : Prop :=
  Reader.Brings (RawRequest.placed src) values r

theorem call_brings (t : Token) {d : Definition} (hd : StandIn src (literals d.replacement)) :
    Brings src (fun _ => True) (call t d) := by
  intro post hpost ts hts
  rcases hr : Consumer.run d.capture ts with ⟨f | args, rest⟩
  · trivial
  · dsimp only
    cases hs : d.substitute args with
    | none => trivial
    | some out =>
      refine ⟨fun u hu => ?_, fun a => hpost a () trivial⟩
      rcases Definition.mem_of_substitute hr hs hu with hu | hu
      · exact hd u hu
      · exact hts u hu

theorem resolve_brings (b : Branch) : Brings src (fun _ => True) (resolve b) := by
  have ask {γ : Type} {q : RawRequest γ}
      (hq : ∀ post, (∀ a, post a ()) → q.placed src post ()) :
      Brings src (fun _ => True) (Reader.ask q) :=
    fun post hpost => hq post fun a => hpost a () trivial
  cases b with
  | opening taken =>
    cases taken with
    | true => exact ask fun _ h => h
    | false =>
      refine .bind (ask fun _ h => h) fun landed _ => ?_
      split
      · exact ask fun _ h => h
      · exact .pure trivial
  | alternative =>
    refine .bind (ask fun _ h => h) fun closed _ => ?_
    split
    · exact .bind (ask fun _ h => h) fun _ _ => .pure trivial
    · exact .fail _
  | closing =>
    refine .bind (ask fun _ h => h) fun closed _ => ?_
    split
    · exact .pure trivial
    · exact .fail _

theorem step_brings :
    Brings src (fun turn => turn.Holds (fun _ => True) fun t => StandIn src t.toList) step := by
  have hnext : Brings src (fun t => StandIn src t.toList) (Reader.ask .next) :=
    fun post hpost t ht => hpost t () ht
  refine .bind hnext fun t ht => ?_
  cases t with
  | none => exact .pure ht
  | some t =>
    dsimp only
    cases t.token.branch? with
    | some b => exact .bind (resolve_brings b) fun _ _ => .pure trivial
    | none =>
      have hmeaning : Brings src (fun d? => ∀ d, d? = some d → StandIn src (literals d.replacement))
          (Reader.ask (.meaning t.token)) :=
        fun post hpost d? hd => hpost d? () hd
      refine .bind hmeaning fun d? hd => ?_
      cases d? with
      | none => exact .pure ht
      | some d => exact .bind (call_brings t.token (hd d rfl)) fun _ _ => .pure trivial

theorem next_brings : Brings src (fun t => StandIn src t.toList) next :=
  .loop (fun _ => True) (fun _ _ => step_brings) trivial

end Expansion

section answers

variable {src : Source} {tables : Tables} {i : Input}

theorem RawRequest.answer_traced (rounds : Nat) {γ : Type} (q : RawRequest γ)
    (post : γ → Unit → Prop) (i : Input) (u : Unit) (h : Machine.Traced src ⟨tables, i⟩)
    (hscan : ∀ j ∈ q.readings tables rounds i, Machine.ScansIn src ⟨tables, j⟩)
    (hq : q.placed src post u) :
    (q.answer tables rounds i).Ensures (fun a j => ∃ u, Machine.Traced src ⟨tables, j⟩ ∧ post a u)
      (fun f j => Machine.BlamedIn src f ⟨tables, j⟩) := by
  cases q with
  | next =>
    exact Input.ensures_of_traced (Input.next_traced h (hscan i List.mem_cons_self))
      fun t _ ht => hq t ht
  | push ts origin =>
    exact (Input.push_traced h hq.1).mono (fun a _ hj => ⟨u, hj, hq.2 a⟩) fun _ _ hf => hf
  | consume c =>
    refine Input.ensures_of_traced (Input.consume_traced h rounds c hscan) ?_
    rintro b _ ⟨ts, hts, rfl⟩
    exact hq ts hts
  | skip toElse =>
    exact (Input.skip_traced h rounds toElse hscan).mono (fun a _ hj => ⟨u, hj, hq a⟩)
      fun _ _ hf => hf
  | meaning t => exact ⟨u, h, hq _ fun d hd => h.definitions t d hd⟩
  | openBranch => exact ⟨u, { h with }, hq ()⟩
  | closeBranch =>
    simp only [answer, Input.closeBranch]
    split
    · exact ⟨u, h, hq false⟩
    · exact ⟨u, { h with }, hq true⟩

theorem Input.nextExpanded_traced (h : Machine.Traced src ⟨tables, i⟩) (rounds : Nat)
    (hscan : ∀ j ∈ Request.expanded.readings tables rounds i, Machine.ScansIn src ⟨tables, j⟩) :
    (i.nextExpanded tables rounds).Ensures
      (fun t j => Machine.Traced src ⟨tables, j⟩ ∧ StandIn src t.toList)
      (fun f j => Machine.BlamedIn src f ⟨tables, j⟩) := by
  refine (Reader.run_wp_passing (h := rawReadings tables rounds)
    (fun j => Machine.ScansIn src ⟨tables, j⟩) (RawRequest.answer_traced rounds)
    (fun c j _ hj _ => ⟨hj, hj.last⟩) rounds Expansion.next h hscan
    (Expansion.next_brings _ fun t _ ht => ht)).mono ?_ fun _ _ hf => hf
  rintro t j ⟨_, hj, ht⟩
  exact ⟨hj, ht⟩

end answers

end Galley
