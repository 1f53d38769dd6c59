import Galley.Definition.Capture
import Galley.Proofs.Consumption

/-!
Balanced lists of tokens: every group that is begun is ended, and no other. The depth through a list
is the number of groups that are open behind it, as the capture of arguments counts them.
-/

namespace Galley

open Definition.Capture (depthAfter)

namespace Token

theorem eq_ch_of_hasCategory {cat : Category} {t : Token} (h : t.hasCategory cat = true) :
    ∃ c, t = .ch c cat := by
  cases t with
  | cs name => cases h
  | ch c cat' => exact ⟨c, by simpa [hasCategory] using h⟩

theorem isBegin_false_of_isEnd {t : Token} (h : t.isEnd = true) : t.isBegin = false := by
  obtain ⟨c, rfl⟩ := eq_ch_of_hasCategory h
  rfl

theorem isEnd_false_of_isBegin {t : Token} (h : t.isBegin = true) : t.isEnd = false := by
  obtain ⟨c, rfl⟩ := eq_ch_of_hasCategory h
  rfl

theorem isSpace_false_of_isBegin {t : Token} (h : t.isBegin = true) : t.isSpace = false := by
  obtain ⟨c, rfl⟩ := eq_ch_of_hasCategory h
  rfl

/-- Neither begins nor ends a group. -/
def Plain (t : Token) : Prop := t.isBegin = false ∧ t.isEnd = false

instance (t : Token) : Decidable t.Plain := inferInstanceAs (Decidable (_ ∧ _))

variable {t : Token}

theorem plain_of_hasCategory {cat : Category} (h : t.hasCategory cat = true)
    (hb : cat ≠ .beginGroup) (he : cat ≠ .endGroup) : t.Plain := by
  obtain ⟨c, rfl⟩ := eq_ch_of_hasCategory h
  exact ⟨decide_eq_false hb, decide_eq_false he⟩

theorem depthAfter_begin (d : Nat) (h : t.isBegin = true) : depthAfter d t = some (d + 1) := by
  simp [depthAfter, h]

theorem depthAfter_end (d : Nat) (h : t.isEnd = true) : depthAfter (d + 1) t = some d := by
  simp [depthAfter, h, isBegin_false_of_isEnd h]

theorem depthAfter_plain (d : Nat) (h : t.Plain) : depthAfter d t = some d := by
  simp [depthAfter, h.1, h.2]

/-- What a token does to the depth, if it ends no group that is not open. -/
theorem depthAfter_cases {d e : Nat} (h : depthAfter d t = some e) :
    (t.isBegin = true ∧ e = d + 1) ∨ (t.isEnd = true ∧ d = e + 1) ∨ (t.Plain ∧ d = e) := by
  cases hb : t.isBegin with
  | true =>
    rw [depthAfter_begin d hb] at h
    injection h with h
    exact Or.inl ⟨rfl, h.symm⟩
  | false =>
    cases he : t.isEnd with
    | true =>
      cases d with
      | zero => simp [depthAfter, hb, he] at h
      | succ d =>
        rw [depthAfter_end d he] at h
        injection h with h
        exact Or.inr (Or.inl ⟨rfl, by rw [h]⟩)
    | false =>
      rw [depthAfter_plain d ⟨hb, he⟩] at h
      injection h with h
      exact Or.inr (Or.inr ⟨⟨hb, he⟩, h⟩)

/-- A token that ends no open group has been read with none open. -/
theorem eq_zero_of_depthAfter {d : Nat} (h : depthAfter d t = none) : d = 0 ∧ t.isEnd = true := by
  unfold depthAfter at h
  split at h
  · cases h
  · split at h
    · rename_i he
      cases d with
      | zero => exact ⟨rfl, he⟩
      | succ d => cases h
    · cases h

/-- Under one more group a token does the same. -/
theorem depthAfter_succ {d e : Nat} (h : depthAfter d t = some e) :
    depthAfter (d + 1) t = some (e + 1) := by
  rcases depthAfter_cases h with ⟨hb, rfl⟩ | ⟨he, rfl⟩ | ⟨hp, rfl⟩
  · exact depthAfter_begin _ hb
  · exact depthAfter_end _ he
  · exact depthAfter_plain _ hp

end Token

/-- The number of open groups behind a list, if none is ended that is not open. -/
def depthThrough (d : Nat) : List Lexeme → Option Nat
  | [] => some d
  | t :: ts => (depthAfter d t.token).bind fun e => depthThrough e ts

/-- Begins and ends its groups in pairs. -/
def Balanced (ts : List Lexeme) : Prop := depthThrough 0 ts = some 0

instance (ts : List Lexeme) : Decidable (Balanced ts) := inferInstanceAs (Decidable (_ = _))

theorem depthThrough_cons {d e : Nat} {t : Lexeme} (h : depthAfter d t.token = some e)
    (ts : List Lexeme) : depthThrough d (t :: ts) = depthThrough e ts := by
  simp [depthThrough, h]

theorem exists_of_depthThrough_cons {d e : Nat} {t : Lexeme} {ts : List Lexeme}
    (h : depthThrough d (t :: ts) = some e) :
    ∃ m, depthAfter d t.token = some m ∧ depthThrough m ts = some e :=
  Option.bind_eq_some_iff.mp h

theorem depthThrough_append (d : Nat) (ts us : List Lexeme) :
    depthThrough d (ts ++ us) = (depthThrough d ts).bind fun e => depthThrough e us := by
  induction ts generalizing d with
  | nil => rfl
  | cons t ts ih =>
    simp only [List.cons_append, depthThrough]
    cases depthAfter d t.token with
    | none => rfl
    | some e => exact ih e

theorem depthThrough_trans {d e f : Nat} {ts us : List Lexeme} (h : depthThrough d ts = some e)
    (h' : depthThrough e us = some f) : depthThrough d (ts ++ us) = some f := by
  rw [depthThrough_append, h]
  exact h'

theorem depthThrough_plain (d : Nat) {ts : List Lexeme} (h : ∀ t ∈ ts, t.token.Plain) :
    depthThrough d ts = some d := by
  induction ts with
  | nil => rfl
  | cons t ts ih =>
    rw [depthThrough_cons (Token.depthAfter_plain d (h t (by simp)))]
    exact ih fun u hu => h u (by simp [hu])

theorem depthThrough_succ {d e : Nat} {ts : List Lexeme} (h : depthThrough d ts = some e) :
    depthThrough (d + 1) ts = some (e + 1) := by
  induction ts generalizing d with
  | nil =>
    injection h with h
    rw [h]
    rfl
  | cons t ts ih =>
    obtain ⟨m, hm, h⟩ := exists_of_depthThrough_cons h
    rw [depthThrough_cons (Token.depthAfter_succ hm)]
    exact ih h

namespace Balanced

variable {ts us : List Lexeme}

/-- Under any number of groups a balanced list leaves as many open as there were. -/
theorem through (h : Balanced ts) (d : Nat) : depthThrough d ts = some d := by
  induction d with
  | zero => exact h
  | succ d ih => exact depthThrough_succ ih

theorem append (h : Balanced ts) (h' : Balanced us) : Balanced (ts ++ us) := depthThrough_trans h h'

theorem of_plain (h : ∀ t ∈ ts, t.token.Plain) : Balanced ts := depthThrough_plain 0 h

theorem group {o c : Lexeme} (ho : o.token.isBegin = true) (hc : c.token.isEnd = true)
    (h : Balanced ts) : Balanced (o :: (ts ++ [c])) := by
  have hlast : depthThrough 1 [c] = some 0 := depthThrough_cons (Token.depthAfter_end 0 hc) []
  unfold Balanced
  rw [depthThrough_cons (Token.depthAfter_begin 0 ho)]
  exact depthThrough_trans (h.through 1) hlast

end Balanced

end Galley
