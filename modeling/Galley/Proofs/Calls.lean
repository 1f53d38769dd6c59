import Galley.Proofs.Answers
import Galley.Proofs.Capture

/-!
Calls on an input. Expansion answers on a call with its arguments in braces as on the replacement
that has these arguments, whatever follows, and however the call is split over chunks and lines.
-/

namespace Galley

namespace Input

open Definition (Spells PlainElement numbered)

variable {tables : Tables} {i j : Input} {v : View}

/-- A call whose arguments are captured is replaced, if there is room. -/
theorem steps_of_capture {key : Lexeme} {d : Definition} {args : Arguments}
    {ts replacement : List Lexeme} (hb : key.token.branch? = none)
    (hm : tables.meaning? key.token = some d)
    (hc : ∀ rest, Consumer.run d.capture (ts ++ rest) = (.ok args, rest))
    (hr : d.substitute args = some replacement)
    (hi : i.view tables.alphabet = v.push (key :: ts)) :
    (∃ k, Steps tables i (.done (.again ()) k) ∧ k.view tables.alphabet = v.push replacement) ∨
      ∃ f k, Steps tables i (.failed f k) ∧ f.OfCapacity := by
  obtain ⟨j, hn, hj⟩ := next_of_view hi
  obtain ⟨k, hk, hcons⟩ := consume_of_run hc hj
  have hcall : ∀ rounds, ts.length ≤ rounds →
      (Expansion.call key.token d).run (rawHandler tables rounds) rounds j =
        k.push ⟨replacement, some (Expansion.originOf key.token)⟩ := by
    intro rounds hrounds
    rw [run_call, hcons rounds hrounds]
    simp only [Outcome.andThen, hr]
  rcases k.push_view tables.alphabet ⟨replacement, some (Expansion.originOf key.token)⟩ with
    ⟨m, hp, hv⟩ | ⟨f, m, hp, hf⟩
  · refine Or.inl ⟨m, ⟨ts.length, fun rounds hrounds => ?_⟩, by rw [hv, hk]⟩
    simp only [run_step hn, hb, hm, hcall rounds hrounds, hp, Outcome.andThen]
  · refine Or.inr ⟨f, m, ⟨ts.length, fun rounds hrounds => ?_⟩, hf⟩
    simp only [run_step hn, hb, hm, hcall rounds hrounds, hp, Outcome.andThen]

/-- A call of a valid definition, spelled with a balanced group for each parameter, has a
replacement with the bodies of the groups for arguments, and expansion answers on the call as on
the replacement, in front of anything. -/
theorem answersAlike_call {key : Lexeme} {d : Definition} (hb : key.token.branch? = none)
    (hm : tables.meaning? key.token = some d) (hv : d.Valid)
    (hd : ∀ e ∈ d.parameters, PlainElement e) {args : List (List Lexeme)} {call : List Lexeme}
    (hs : Spells d.parameters args call)
    (ha : ∀ a ∈ args, Balanced a) (hi : i.view tables.alphabet = v.push (key :: call)) :
    ∃ replacement, d.substitute (numbered args) = some replacement ∧
      ∀ j, j.view tables.alphabet = v.push replacement → ∀ n, AnswersAlike tables n i j := by
  have hc := Definition.run_capture hv hd hs ha
  have hsome := Definition.substitute_isSome hv (hc [])
  obtain ⟨replacement, hr⟩ := Option.isSome_iff_exists.mp hsome
  refine ⟨replacement, hr, fun j hj n => ?_⟩
  rcases steps_of_capture hb hm hc hr hi with ⟨k, hstep, hk⟩ | ⟨f, k, hstep, hf⟩
  · exact (answersAlike_of_view (hk.trans hj.symm) n).of_settles fun _ ho =>
      hstep.settles_again ho
  · cases n with
    | zero => trivial
    | succ n =>
      obtain ⟨p, hp⟩ := (j.nextExpanded_steady tables).exists_settles
      exact ⟨_, p, hstep.settles_failed, hp, Or.inl hf⟩

/-- A parameter in brackets, which stands for its argument twice. -/
def bracketed : Definition :=
  ⟨[.delimiter ⟨.ch '[' .other, none⟩, .parameter 1, .delimiter ⟨.ch ']' .other, none⟩],
    [.reference 1, .reference 1]⟩

/-- Here the argument is the delimiter behind it, and the call is split over two chunks. -/
theorem answersAlike_call_bracketed :
    ∃ replacement, bracketed.substitute (numbered [[⟨.ch ']' .other, none⟩]]) = some replacement ∧
      ∀ j : Input,
        j.view {} = ((Input.ofLines ["z"] false true { chunks := 9 }).view {}).push replacement →
        ∀ n, AnswersAlike { definitions := Table.empty.set (.cs "m") bracketed } n
          { Input.ofLines ["z"] false true { chunks := 9 } with
            chunks := [⟨[⟨.cs "m", none⟩, ⟨.ch '[' .other, none⟩], none⟩,
              ⟨[⟨.ch '{' .beginGroup, none⟩, ⟨.ch ']' .other, none⟩,
                ⟨.ch '}' .endGroup, none⟩, ⟨.ch ']' .other, none⟩], none⟩] } j := by
  have hs : Spells bracketed.parameters [[⟨.ch ']' .other, none⟩]]
      [⟨.ch '[' .other, none⟩, ⟨.ch '{' .beginGroup, none⟩, ⟨.ch ']' .other, none⟩,
        ⟨.ch '}' .endGroup, none⟩, ⟨.ch ']' .other, none⟩] :=
    .delimiter rfl (@Definition.Spells.parameter _ _ _ [_] _ _ _ rfl rfl (.delimiter rfl .nil))
  refine @answersAlike_call { definitions := Table.empty.set (.cs "m") bracketed } _ _
    ⟨.cs "m", none⟩ bracketed rfl rfl ⟨1, rfl, rfl⟩ (by decide) _ _ hs (by decide) ?_
  decide +kernel

end Input

end Galley
