import Galley.Proofs.Rewriting
import Galley.Proofs.Spans

/-!
What is left of an input. The pending tokens and the characters that have not been scanned are an
allowance (`Input.Bounded`): reading a token takes from it, putting tokens back gives no more than
was taken, and a change of categories leaves it as it is. A reader that takes something in each
round of its repetitions comes to an end in as many rounds (`Reader.Spends`), as long as nothing is
defined; and nothing is, where the lines have no word to define it with.
-/

namespace Galley

/-! ## Words of the lines -/

/-- What is left of the lines has this word nowhere. -/
def Lexer.Lacks (word : List Char) (a : Alphabet) (l : Lexer) : Prop :=
  ¬ word <:+: l.cursor.rest ∧ ∀ line ∈ l.pending, ¬ word <:+: a.buffer line

theorem ReadFrom.eq_par_or_infix {cats : CategoryTable} {name : String} {text back : List Char}
    (h : ReadFrom cats (.cs name) text back) : name = "par" ∨ name.toList <:+: text := by
  generalize ht : Token.cs name = t at h
  cases h with
  | control chars back hc =>
    cases ht
    rw [String.toList_ofList]
    exact Or.inr (List.suffix_cons _ _).isInfix
  | lineEnd dropped hc hpar =>
    rcases hpar with rfl | rfl
    · cases ht
    · cases ht
      exact Or.inl rfl
  | space back hc => cases ht
  | character back hc => cases ht

/-- What a reading of a lexer leaves has the word no more than the lexer, and a control sequence
that is read is not that word. -/
def Lexed.Lacks (word : String) (a : Alphabet) : Lexed → Prop
  | .token t after => t.token ≠ .cs word ∧ after.Lacks word.toList a
  | .invalid _ _ after => after.Lacks word.toList a
  | .finished after => after.Lacks word.toList a

namespace Lexer

variable {word : String} {a : Alphabet} {l : Lexer}

theorem Lacks.of_suffix (h : l.Lacks word.toList a) {after : Cursor}
    (hs : after.rest <:+ l.cursor.rest) :
    Lacks word.toList a { l with cursor := after } :=
  ⟨fun hi => h.1 (hi.trans hs.isInfix), h.2⟩

theorem nextFrom_lacks (hpar : word ≠ "par") {pending : List String} (hp : l.pending = pending)
    (h : l.Lacks word.toList a) : (l.nextFrom a pending).Lacks word a := by
  fun_induction nextFrom a l pending with
  | case1 pending l t start after hs =>
    have hcovers := scanFrom_covers a.categories l.strict l.cursor.state l.cursor.column
      l.cursor.rest
    rw [← Cursor.scan, hs] at hcovers
    obtain ⟨passed, text, hrest, -, -, hread⟩ := hcovers
    refine ⟨?_, h.of_suffix (hrest ▸ List.suffix_append _ _)⟩
    intro ht
    rw [show t = .cs word from ht] at hread
    rcases hread.eq_par_or_infix with hname | hname
    · exact hpar hname
    · exact h.1 (hrest ▸ hname.trans ⟨passed, after.rest, rfl⟩)
  | case2 pending l c start after hs =>
    have hcovers := scanFrom_covers a.categories l.strict l.cursor.state l.cursor.column
      l.cursor.rest
    rw [← Cursor.scan, hs] at hcovers
    obtain ⟨passed, hrest, -⟩ := hcovers
    refine h.of_suffix (hrest ▸ ?_)
    exact (List.suffix_cons c _).trans (List.suffix_append _ _)
  | case3 l after hs =>
    have hleaves := scan_leaves a.categories l
    rw [hs] at hleaves
    refine h.of_suffix ?_
    rw [show after.rest = [] from hleaves]
    exact List.nil_suffix
  | case4 l after hs line more ih =>
    have hall := h.2
    rw [hp] at hall
    obtain ⟨hline, hmore⟩ := List.forall_mem_cons.mp hall
    exact ih rfl ⟨hline, hmore⟩

theorem next_lacks (hpar : word ≠ "par") (h : l.Lacks word.toList a) : (l.next a).Lacks word a :=
  nextFrom_lacks hpar rfl h

end Lexer

/-! ## Repetitions -/

/-- A repetition comes to an end if each round lowers what there is to spend. -/
theorem iterate_ends {σ τ α : Type} {f : τ → σ → Outcome σ (Turn τ α)} {post : α → σ → Prop}
    {bad : Fault → σ → Prop} (fits : Nat → τ → σ → Prop)
    (h : ∀ n t s, fits n t s → (f t s).Ends
      (fun turn s' => turn.Holds (fun t' => ∃ m < n, fits m t' s') (post · s')) bad)
    {rounds n : Nat} (hn : n < rounds) {t : τ} {s : σ} (hs : fits n t s) :
    (iterate f rounds t s).Ends post bad := by
  induction rounds generalizing n t s with
  | zero => omega
  | succ rounds ih =>
    rw [iterate_succ]
    refine .andThen ((h n t s hs).mono (fun turn s' hturn => ?_) fun _ _ hf => hf)
    cases turn with
    | finish a => exact hturn
    | again t' =>
      obtain ⟨m, hm, hs'⟩ := hturn
      exact ih (by omega) hs'

/-! ## The allowance -/

/-- The pending tokens and the characters that can still be scanned. -/
def Input.left (a : Alphabet) (i : Input) : Nat := (Input.pending i.chunks).length + i.lexer.size a

/-- At most so much is left, nothing is defined, and neither the tokens nor the lines have the word
that defines something. -/
structure Input.Bounded (tables : Tables) (n : Nat) (i : Input) : Prop where
  left : i.left tables.alphabet ≤ n
  undefined : ∀ t, tables.meaning? t = none
  pending : ∀ t ∈ Input.pending i.chunks, t.token ≠ .cs "def"
  lines : i.lexer.Lacks "def".toList tables.alphabet

/-- A token that was read has been paid for, and where there was none nothing is left. -/
def Took (n m : Nat) : Option Lexeme → Prop
  | some t => t.token ≠ .cs "def" ∧ m < n
  | none => m = 0

/-- The token in hand can be put back within the allowance. -/
def Held (n m : Nat) (t : Option Lexeme) : Prop :=
  (∀ u ∈ t, u.token ≠ .cs "def") ∧ m + t.toList.length ≤ n

theorem Took.held {n m : Nat} {t : Option Lexeme} (h : Took n m t) : Held n m t := by
  cases t with
  | none =>
    have hm : m = 0 := h
    exact ⟨nofun, by simp [hm]⟩
  | some t =>
    obtain ⟨ht, hm⟩ := h
    exact ⟨by simpa using ht, hm⟩

theorem Held.mono {n m k : Nat} {t : Option Lexeme} (h : Held m k t) (hm : m ≤ n) : Held n k t :=
  ⟨h.1, Nat.le_trans h.2 hm⟩

/-- With nothing in hand there is no more than what is left. -/
theorem Held.le {n m : Nat} {t : Option Lexeme} (h : Held n m t) : m ≤ n :=
  Nat.le_trans (Nat.le_add_right m _) h.2

namespace Input.Bounded

variable {tables : Tables} {n m : Nat} {i : Input}

theorem mono (h : i.Bounded tables n) (hn : n ≤ m) : i.Bounded tables m :=
  ⟨Nat.le_trans h.left hn, h.undefined, h.pending, h.lines⟩

theorem opened (h : i.Bounded tables n) (k : Nat) :
    Input.Bounded tables n { i with openBranches := k } :=
  ⟨h.left, h.undefined, h.pending, h.lines⟩

/-- A change of categories makes no text longer. -/
theorem categorize (h : i.Bounded tables n) (code : Nat) (cat : Category) :
    i.Bounded (tables.assign (.categorize code cat)) n :=
  ⟨h.left, h.undefined, h.pending, h.lines⟩

theorem next (h : i.Bounded tables n) :
    (i.next tables.alphabet).Ends (fun x j => ∃ m, j.Bounded tables m ∧ m ≤ n ∧ Took n m x)
      (fun _ _ => True) := by
  have hleft := h.left
  unfold Input.left at hleft
  cases ht : takePending i.chunks with
  | some p =>
    obtain ⟨t, chunks⟩ := p
    have hpending := h.pending
    rw [pending_takePending ht] at hleft hpending
    obtain ⟨hword, hpending⟩ := List.forall_mem_cons.mp hpending
    rw [next_of_pending ht]
    rw [List.length_cons] at hleft
    refine ⟨n - 1, ⟨?_, h.undefined, hpending, h.lines⟩, Nat.sub_le n 1, hword, ?_⟩
    · change (Input.pending chunks).length + i.lexer.size tables.alphabet ≤ n - 1
      omega
    · omega
  | none =>
    rw [(takePending_eq_none_iff i.chunks).mp ht, List.length_nil, Nat.zero_add] at hleft
    have hleaves := i.lexer.next_leaves tables.alphabet
    have hlacks := Lexer.next_lacks (by decide) h.lines
    rw [next_of_lexer ht]
    cases hn : i.lexer.next tables.alphabet with
    | token t l =>
      rw [hn] at hleaves hlacks
      have hlt := hleaves.2
      refine ⟨n - 1, ⟨?_, h.undefined, List.forall_mem_nil _, hlacks.2⟩, Nat.sub_le n 1,
        hlacks.1, ?_⟩
      · change 0 + l.size tables.alphabet ≤ n - 1
        omega
      · omega
    | invalid c place l => trivial
    | finished l =>
      rw [hn] at hleaves hlacks
      refine ⟨0, ⟨?_, h.undefined, List.forall_mem_nil _, hlacks⟩, Nat.zero_le n, rfl⟩
      have hempty : l.size tables.alphabet = 0 := hleaves.2
      change 0 + l.size tables.alphabet ≤ 0
      omega

theorem consume (h : i.Bounded tables n) {rounds : Nat} (hn : n < rounds) {β : Type}
    (c : Consumer β) :
    (i.consume tables.alphabet rounds c).Ends (fun _ j => j.Bounded tables n)
      (fun _ _ => True) := by
  unfold Input.consume
  cases c.start with
  | finish b => exact h
  | again s =>
    refine iterate_ends (fun m _ j => m ≤ n ∧ j.Bounded tables m) (fun m s j hj => ?_) hn
      ⟨Nat.le_refl n, h⟩
    rw [Outcome.map_eq_andThen]
    refine .andThen (hj.2.next.mono (fun x k hk => ?_) fun _ _ hf => hf)
    obtain ⟨m', hk, hm, hx⟩ := hk
    have hk' := hk.mono (Nat.le_trans hm hj.1)
    cases x with
    | none => exact hk'
    | some t =>
      simp only [Outcome.Ends]
      cases c.step s t with
      | again s' => exact ⟨m', hx.2, Nat.le_trans hm hj.1, hk⟩
      | finish b => exact hk'

theorem skip (h : i.Bounded tables n) {rounds : Nat} (hn : n < rounds) (toElse : Bool) :
    (i.skip tables.alphabet rounds toElse).Ends (fun _ j => j.Bounded tables n)
      (fun _ _ => True) := by
  refine .andThen ((h.consume hn _).mono (fun landed j hj => ?_) fun _ _ hf => hf)
  cases landed with
  | some landed => exact hj
  | none => trivial

/-- Tokens that are put back are pending from then on, the first of them first. -/
theorem back (h : i.Bounded tables n) {ts : List Lexeme} (ht : ∀ t ∈ ts, t.token ≠ .cs "def") :
    (i.back ts).Ends (fun _ j => j.Bounded tables (n + ts.length) ∧
      Input.pending j.chunks = ts ++ Input.pending i.chunks) (fun _ _ => True) := by
  have hleft := h.left
  unfold Input.left at hleft
  unfold Input.back Input.push
  split
  · rename_i hts
    cases (List.isEmpty_iff.mp hts : ts = [])
    exact ⟨h, rfl⟩
  · dsimp only
    split
    · trivial
    · have hpending : Input.pending (⟨ts, none⟩ :: dropEmpty i.chunks) =
          ts ++ Input.pending i.chunks := by
        rw [← Input.pending_dropEmpty i.chunks]
        rfl
      refine ⟨⟨?_, h.undefined, ?_, h.lines⟩, hpending⟩
      · simp only [Input.left, hpending, List.length_append]
        omega
      · simp only [hpending]
        exact List.forall_mem_append.mpr ⟨ht, h.pending⟩

end Input.Bounded

/-! ## Readers -/

namespace Reader

variable {Request : Type → Type 1} {σ α β : Type} {h : Handler Request σ} {rounds : Nat}
  {fits : Nat → σ → Prop} {n : Nat} {values : Nat → α → Prop}

/-- Where there is so much to spend, and more rounds than that, a reader comes to an end: it fails,
or it comes to such a value and leaves so much. -/
def Spends (h : Handler Request σ) (rounds : Nat) (fits : Nat → σ → Prop) (n : Nat)
    (values : Nat → α → Prop) (r : Reader Request α) : Prop :=
  ∀ s, n < rounds → fits n s →
    (r.run h rounds s).Ends (fun a s => ∃ m < rounds, fits m s ∧ values m a) (fun _ _ => True)

namespace Spends

theorem mono {r : Reader Request α} {values' : Nat → α → Prop}
    (hr : r.Spends h rounds fits n values) (hv : ∀ m a, values m a → values' m a) :
    r.Spends h rounds fits n values' :=
  fun s hn hs => (hr s hn hs).mono (fun a _ ⟨m, hm, hs, ha⟩ => ⟨m, hm, hs, hv m a ha⟩)
    fun _ _ hf => hf

/-- That there are rounds enough may be used. -/
theorem of_room {r : Reader Request α} (hr : n < rounds → r.Spends h rounds fits n values) :
    r.Spends h rounds fits n values := fun s hn hs => hr hn s hn hs

theorem pure {a : α} (ha : values n a) :
    (Pure.pure a : Reader Request α).Spends h rounds fits n values :=
  fun _ hn hs => ⟨n, hn, hs, ha⟩

theorem fail (c : Cause) : (Reader.fail c : Reader Request α).Spends h rounds fits n values :=
  fun _ _ _ => trivial

theorem bind {r : Reader Request β} {k : β → Reader Request α} {between : Nat → β → Prop}
    (hr : r.Spends h rounds fits n between)
    (hk : ∀ m b, between m b → (k b).Spends h rounds fits m values) :
    (r >>= k).Spends h rounds fits n values := by
  intro s hn hs
  rw [run_bind]
  exact .andThen ((hr s hn hs).mono (fun b s' ⟨m, hm, hs', hb⟩ => hk m b hb s' hm hs')
    fun _ _ hf => hf)

/-- Each round of a repetition spends something, where what is kept between rounds counts. -/
theorem loop {τ : Type} {body : τ → Reader Request (Turn τ α)} (kept : τ → Nat)
    (inv : Nat → τ → Prop)
    (hbody : ∀ m t, inv m t → (body t).Spends h rounds fits m fun m' turn =>
      turn.Holds (fun t' => inv m' t' ∧ m' + kept t' < m + kept t) (values m'))
    {t : τ} (ht : inv n t) (hroom : n + kept t < rounds) :
    (Reader.loop body t).Spends h rounds fits n values := by
  intro s hn hs
  refine iterate_ends (fun k t s => ∃ m < rounds, fits m s ∧ inv m t ∧ k = m + kept t)
    (fun k t s hk => ?_) hroom ⟨n, hn, hs, ht, rfl⟩
  obtain ⟨m, hm, hs, ht, rfl⟩ := hk
  refine (hbody m t ht s hm hs).mono (fun turn s' hturn => ?_) fun _ _ hf => hf
  obtain ⟨m', hm', hs', hturn⟩ := hturn
  cases turn with
  | again t' => exact ⟨m' + kept t', hturn.2, m', hm', hs', hturn.1, rfl⟩
  | finish a => exact ⟨m', hm', hs', hturn⟩

end Spends

end Reader

/-! ## Expansion -/

namespace Expansion

variable {tables : Tables} {rounds n : Nat}

/-- A reader of raw tokens spends of the allowance. -/
abbrev Spends (tables : Tables) (rounds n : Nat) {α : Type} (values : Nat → α → Prop)
    (r : Reader RawRequest α) : Prop :=
  r.Spends (rawHandler tables rounds) rounds (Input.Bounded tables) n values

theorem resolve_spends (b : Branch) : Spends tables rounds n (fun m _ => m ≤ n) (resolve b) := by
  have hskip (toElse : Bool) : Spends tables rounds n (fun m _ => m ≤ n)
      (.ask (.skip toElse)) :=
    fun i hn hi => (hi.skip hn toElse).mono (fun _ _ hj => ⟨n, hn, hj, Nat.le_refl n⟩)
      fun _ _ hf => hf
  have hopen {m : Nat} (hm : m ≤ n) : Spends tables rounds m (fun m _ => m ≤ n)
      (.ask .openBranch) :=
    fun i hn hi => ⟨m, hn, hi.opened _, hm⟩
  have hclose : Spends tables rounds n (fun m _ => m = n) (.ask .closeBranch) := by
    intro i hn hi
    change i.closeBranch.Ends _ _
    unfold Input.closeBranch
    split
    · exact ⟨n, hn, hi, rfl⟩
    · exact ⟨n, hn, hi.opened _, rfl⟩
  cases b with
  | opening taken =>
    cases taken with
    | true => exact hopen (Nat.le_refl n)
    | false =>
      refine .bind (hskip true) fun m landed hm => ?_
      cases landed with
      | true => exact hopen hm
      | false => exact .pure hm
  | alternative =>
    refine .bind hclose fun m closed hm => ?_
    obtain rfl := hm
    cases closed with
    | true => exact .bind (hskip false) fun _ _ hk => .pure hk
    | false => exact .fail _
  | closing =>
    refine .bind hclose fun m closed hm => ?_
    cases closed with
    | true => exact .pure (Nat.le_of_eq hm)
    | false => exact .fail _

/-- A token that expansion delivers, which is no part of a conditional. -/
def Delivers (n m : Nat) (x : Option Lexeme) : Prop :=
  m ≤ n ∧ Took n m x ∧ ∀ t, x = some t → t.token.branch? = none

theorem step_spends : Spends tables rounds n
    (fun m turn => turn.Holds (fun _ => m < n) (Delivers n m)) step := by
  have hnext : Spends tables rounds n (fun m x => m ≤ n ∧ Took n m x) (.ask .next) :=
    fun i hn hi => hi.next.mono (fun _ _ ⟨m, hj, hm, hx⟩ => ⟨m, by omega, hj, hm, hx⟩)
      fun _ _ hf => hf
  refine .bind hnext fun m x hx => ?_
  cases x with
  | none => exact .pure ⟨hx.1, hx.2, nofun⟩
  | some t =>
    dsimp only
    cases hb : t.token.branch? with
    | some b =>
      exact .bind (resolve_spends b) fun m' _ hm' => .pure (Nat.lt_of_le_of_lt hm' hx.2.2)
    | none =>
      -- a token has no meaning
      have hmeaning : Spends tables rounds m (fun m' d => m' = m ∧ d = none)
          (.ask (.meaning t.token)) :=
        fun i hn hi => ⟨m, hn, hi, rfl, hi.undefined _⟩
      refine .bind hmeaning fun m' d hd => ?_
      obtain ⟨rfl, rfl⟩ := hd
      exact .pure ⟨hx.1, hx.2, fun u hu => Option.some.inj hu ▸ hb⟩

theorem next_spends : Spends tables rounds n (Delivers n) next := by
  refine .of_room fun hn => .loop (fun _ => 0) (fun m _ => m ≤ n) (fun m _ hm => ?_)
    (Nat.le_refl n) hn
  refine step_spends.mono fun m' turn hturn => ?_
  cases turn with
  | again u => exact ⟨Nat.le_trans (Nat.le_of_lt hturn) hm, hturn⟩
  | finish x =>
    obtain ⟨hle, htook, hx⟩ := hturn
    refine ⟨Nat.le_trans hle hm, ?_, hx⟩
    cases x with
    | none => exact htook
    | some t => exact ⟨htook.1, Nat.lt_of_lt_of_le htook.2 hm⟩

end Expansion

end Galley
