import Galley.Proofs.Continuing
import Galley.Proofs.Measures

/-!
Rules. The keywords of a rule may come in any order and any number of times, each with a dimension;
the last dimension for each of them counts. The text behind them is looked at, since it might go on
with a keyword, and is then built as if it stood alone (`Machine.rule_built`).
-/

namespace Galley

/-! ## Keywords -/

inductive RuleKey
  | width | height | depth
  deriving DecidableEq, Repr

namespace RuleKey

/-- The keywords, in the order in which they are tried. -/
def all : List RuleKey := [width, height, depth]

def word : RuleKey → String
  | width => "width" | height => "height" | depth => "depth"

def initial : RuleKey → Char
  | width => 'w' | height => 'h' | depth => 'd'

def get : RuleKey → Rule → Option Dimension
  | width, r => r.width
  | height, r => r.height
  | depth, r => r.depth

def set (r : Rule) (d : Dimension) : RuleKey → Rule
  | width => { r with width := some d }
  | height => { r with height := some d }
  | depth => { r with depth := some d }

theorem mem_all (key : RuleKey) : key ∈ all := by
  cases key <;> decide

theorem exists_word (key : RuleKey) : ∃ letters, key.word.toList = key.initial :: letters := by
  cases key <;> exact ⟨_, rfl⟩

theorem word_ne_nil (key : RuleKey) : key.word.toList ≠ [] := by
  cases key <;> decide

theorem initial_injective {key key' : RuleKey} (h : key.initial = key'.initial) : key = key' := by
  revert h
  cases key <;> cases key' <;> decide

theorem get_set (key key' : RuleKey) (r : Rule) (d : Dimension) :
    key.get (key'.set r d) = if key' = key then some d else key.get r := by
  cases key <;> cases key' <;> rfl

theorem ext_get {r s : Rule} (h : ∀ key : RuleKey, key.get r = key.get s) : r = s := by
  obtain ⟨w, h', d⟩ := r
  have hw := h width
  have hh := h height
  have hd := h depth
  simp only [get] at hw hh hd
  subst hw hh hd
  rfl

end RuleKey

/-- The dimensions that are given for a keyword, in their order. -/
def givenFor (key : RuleKey) (pairs : List (RuleKey × Dimension)) : List Dimension :=
  (pairs.filter (·.1 = key)).map (·.2)

/-- The rule of a list with these dimensions: for each keyword the last one counts, or the usual one
if there is none. -/
def Rule.specified (mode : Mode) (pairs : List (RuleKey × Dimension)) : Rule where
  width := (givenFor .width pairs).getLast?.or (usual mode).width
  height := (givenFor .height pairs).getLast?.or (usual mode).height
  depth := (givenFor .depth pairs).getLast?.or (usual mode).depth

/-- Only the order of the dimensions for one keyword matters. -/
theorem Rule.specified_congr {pairs others : List (RuleKey × Dimension)}
    (h : ∀ key, givenFor key others = givenFor key pairs) (mode : Mode) :
    specified mode others = specified mode pairs := by
  simp only [specified, h]

/-- The rule after these dimensions have been read. -/
def Rule.setAll (r : Rule) (pairs : List (RuleKey × Dimension)) : Rule :=
  pairs.foldl (fun r p => p.1.set r p.2) r

theorem RuleKey.get_setAll (key : RuleKey) (r : Rule) (pairs : List (RuleKey × Dimension)) :
    key.get (r.setAll pairs) = (givenFor key pairs).getLast?.or (key.get r) := by
  induction pairs generalizing r with
  | nil => rfl
  | cons p pairs ih =>
    have hrest := ih (p.1.set r p.2)
    unfold Rule.setAll givenFor at hrest ⊢
    rw [List.foldl_cons, hrest, get_set]
    by_cases hp : p.1 = key
    · rw [if_pos hp, List.filter_cons_of_pos (by simpa using hp), List.map_cons,
        List.getLast?_cons]
      cases (List.map (·.2) (pairs.filter (·.1 = key))).getLast? <;> rfl
    · rw [if_neg hp, List.filter_cons_of_neg (by simpa using hp)]

theorem Rule.setAll_usual (mode : Mode) (pairs : List (RuleKey × Dimension)) :
    (usual mode).setAll pairs = specified mode pairs := by
  refine RuleKey.ext_get fun key => ?_
  rw [RuleKey.get_setAll]
  cases key <;> rfl

/-! ## Text -/

/-- Keywords, each with a dimension, in running text; spaces may stand behind them. -/
inductive RuleText : List Lexeme → List (RuleKey × Dimension) → Prop
  | nil : RuleText [] []
  | cons {letters measure blanks more : List Lexeme} {key : RuleKey} {d : Dimension}
    {pairs : List (RuleKey × Dimension)} (hk : Spelled key.word.toList letters)
    (hm : Measured measure d) (hb : AllSpaces blanks) (rest : RuleText more pairs) :
    RuleText (letters ++ (measure ++ (blanks ++ more))) ((key, d) :: pairs)

/-- The first letters of a keyword, but not all of them. -/
def Begun (us : List Lexeme) : Prop :=
  ∃ (key : RuleKey) (front more : List Char),
    key.word.toList = front ++ more ∧ more ≠ [] ∧ Spelled front us

variable {tables : Tables} {b : Option Input} {i j k : Input} {t : Lexeme}
  {ts us blanks letters measure spec : List Lexeme} {e : Onward} {key : RuleKey} {d : Dimension}
  {pairs : List (RuleKey × Dimension)}

theorem RuleText.isSpace_head (h : RuleText spec pairs) (hx : Quantity.isSpace ts.head? = false) :
    Quantity.isSpace (spec ++ ts).head? = false := by
  cases h with
  | nil => exact hx
  | @cons letters measure blanks more key d pairs hk hm hb rest =>
    rw [List.append_assoc]
    exact hk.isSpace_head key.word_ne_nil

/-- No other keyword stands where one begins. -/
theorem misses_of_ne {other : RuleKey} (hne : other ≠ key)
    (h : Quantity.matchesLetter key.initial t.token = true) :
    Misses b other.word.toList (t :: ts) := by
  obtain ⟨letters, hw⟩ := other.exists_word
  rw [hw]
  refine .here (Scan.inSight_cons t ts b) fun u hu => ?_
  cases hu
  exact Bool.eq_false_iff.mpr fun hmatch =>
    hne (RuleKey.initial_injective (Quantity.matchesLetter_unique hmatch h))

theorem Spelled.misses_of_ne {other : RuleKey} (hs : Spelled key.word.toList us)
    (hne : other ≠ key) : Misses b other.word.toList (us ++ ts) := by
  obtain ⟨letters, hw⟩ := key.exists_word
  rw [hw] at hs
  cases spelled_iff.mp hs with
  | cons hl hrest => exact Galley.misses_of_ne hne hl

/-! ## Readers -/

namespace Build

/-- Tries these keywords for one dimension of a rule. -/
def ruleDimension (r : Rule) : List RuleKey → Scan (Turn Rule Rule)
  | [] => return .finish r
  | key :: keys => do
    if ← Quantity.keyword key.word then
      let d ← Quantity.dimension
      return .again (key.set r d)
    else ruleDimension r keys

theorem ruleStep_eq : ruleStep = fun r => ruleDimension r RuleKey.all := rfl

end Build

open Build (ruleDimension ruleStep)

namespace Scan

variable {keys : List RuleKey} {r : Rule}

theorem withoutSpace_append (hb : AllSpaces blanks) (hx : Quantity.isSpace ts.head? = false) :
    withoutSpace (blanks ++ ts) = blanks.tail ++ ts := by
  cases blanks with
  | nil => simp [withoutSpace, hx]
  | cons t blanks =>
    have ht : Quantity.isSpace (some t) = true := hb t List.mem_cons_self
    simp [withoutSpace, ht]

theorem takes_ruleDimension (hkey : key ∈ keys) (hb : AllSpaces blanks)
    (hs : Spelled key.word.toList letters) (hm : Measured measure d) (hin : InSight ts b) :
    Takes tables (ruleDimension r keys) b (blanks ++ (letters ++ (measure ++ ts)))
      (.ok (.again (key.set r d))) (withoutSpace ts) := by
  induction keys generalizing blanks with
  | nil => cases hkey
  | cons other keys ih =>
    by_cases hne : other = key
    · subst hne
      exact (takes_keyword other.word_ne_nil hb hs).bind
        ((takes_dimension hm hin).bind (takes_pure _ _))
    · have hmissed : Takes tables (Quantity.keyword other.word) b
          (blanks ++ (letters ++ (measure ++ ts))) (.ok false) (letters ++ (measure ++ ts)) :=
        takes_keyword_missed hb (hs.misses_of_ne hne) (hs.isSpace_head key.word_ne_nil)
      have hempty : AllSpaces [] := nofun
      exact hmissed.bind (ih ((List.mem_cons.mp hkey).resolve_left (Ne.symm hne)) hempty)

/-- None of the keywords comes. -/
theorem takes_ruleDimension_end {first : RuleKey} (hb : AllSpaces blanks)
    (hmiss : ∀ key : RuleKey, Misses b key.word.toList ts)
    (hx : Quantity.isSpace ts.head? = false) :
    Takes tables (ruleDimension r (first :: keys)) b (blanks ++ ts) (.ok (.finish r)) ts := by
  refine (takes_keyword_missed hb (hmiss first) hx).bind ?_
  induction keys with
  | nil => exact takes_pure _ _
  | cons key keys ih =>
    have hempty : AllSpaces [] := nofun
    exact (takes_keyword_missed hempty (hmiss key) hx).bind ih

/-- A keyword of which only the first letters have come. -/
theorem breaks_ruleDimension (he : e.Broken) (hkey : key ∈ keys) (hb : AllSpaces blanks)
    {front more : List Char} (hw : key.word.toList = front ++ more) (hm : more ≠ [])
    (hs : Spelled front us) : Breaks tables (ruleDimension r keys) (blanks ++ us) e := by
  induction keys generalizing blanks with
  | nil => cases hkey
  | cons other keys ih =>
    by_cases hne : other = key
    · subst hne
      exact (breaks_keyword he hb hw hm hs).bind
    cases spelled_iff.mp hs with
    | nil => exact (breaks_keyword he hb (List.nil_append _).symm other.word_ne_nil .nil).bind
    | @cons letter t front us hl hrest =>
      obtain ⟨letters, hw'⟩ := key.exists_word
      obtain ⟨rfl, -⟩ := List.cons.inj (hw'.symm.trans hw)
      have hmissed (k : Input) : Takes tables (Quantity.keyword other.word) (some k)
          (blanks ++ t :: us) (.ok false) (t :: us) :=
        takes_keyword_missed hb (Galley.misses_of_ne hne hl) (isSpace_of_matchesLetter hl)
      have hempty : AllSpaces [] := nofun
      exact Takes.breaks hmissed
        (ih ((List.mem_cons.mp hkey).resolve_left (Ne.symm hne)) hempty)

/-- A dimension behind which nothing has come. -/
theorem breaks_ruleDimension_measure (he : e.Broken) (hkey : key ∈ keys) (hb : AllSpaces blanks)
    (hs : Spelled key.word.toList letters) (hm : Measured measure d) :
    Breaks tables (ruleDimension r keys) (blanks ++ (letters ++ measure)) e := by
  induction keys generalizing blanks with
  | nil => cases hkey
  | cons other keys ih =>
    by_cases hne : other = key
    · subst hne
      exact Takes.breaks (fun _ => takes_keyword other.word_ne_nil hb hs)
        (breaks_dimension hm he).bind
    · have hmissed (k : Input) : Takes tables (Quantity.keyword other.word) (some k)
          (blanks ++ (letters ++ measure)) (.ok false) (letters ++ measure) :=
        takes_keyword_missed hb (hs.misses_of_ne hne) (hs.isSpace_head key.word_ne_nil)
      have hempty : AllSpaces [] := nofun
      exact Takes.breaks hmissed
        (ih ((List.mem_cons.mp hkey).resolve_left (Ne.symm hne)) hempty)

/-- All dimensions are read, and behind them nothing is taken but spaces. -/
theorem takes_rule (h : RuleText spec pairs) (hb : AllSpaces blanks) (hin : InSight ts b)
    (hmiss : ∀ key : RuleKey, Misses b key.word.toList ts)
    (hx : Quantity.isSpace ts.head? = false) :
    Takes tables (.loop ruleStep r) b (blanks ++ (spec ++ ts)) (.ok (r.setAll pairs)) ts := by
  rw [Build.ruleStep_eq]
  induction h generalizing blanks r with
  | nil => exact Takes.loop_finish (takes_ruleDimension_end hb hmiss hx)
  | @cons letters measure gap more key d pairs hk hm hgap rest ih =>
    have hsight : InSight (gap ++ (more ++ ts)) b := fun he =>
      hin (List.append_eq_nil_iff.mp (List.append_eq_nil_iff.mp he).2).2
    have htail : AllSpaces gap.tail := fun t ht => hgap t (List.mem_of_mem_tail ht)
    simp only [List.append_assoc]
    refine Takes.loop_again (takes_ruleDimension key.mem_all hb hk hm hsight) ?_
    rw [withoutSpace_append hgap (rest.isSpace_head hx)]
    exact ih htail

theorem breaks_rule (he : e.Broken) (h : RuleText spec pairs) (hb : AllSpaces blanks)
    (hus : Begun us) : Breaks tables (.loop ruleStep r) (blanks ++ (spec ++ us)) e := by
  obtain ⟨begun, front, rest', hw, hne, hs⟩ := hus
  have hx : Quantity.isSpace us.head? = false := by
    cases spelled_iff.mp hs with
    | nil => rfl
    | cons hl hrest => exact isSpace_of_matchesLetter hl
  rw [Build.ruleStep_eq]
  induction h generalizing blanks r with
  | nil => exact (breaks_ruleDimension he begun.mem_all hb hw hne hs).loop
  | @cons letters measure gap more key d pairs hk hm hgap rest ih =>
    simp only [List.append_assoc]
    by_cases hend : gap ++ (more ++ us) = []
    · rw [hend, List.append_nil]
      exact (breaks_ruleDimension_measure he key.mem_all hb hk hm).loop
    · have htail : AllSpaces gap.tail := fun t ht => hgap t (List.mem_of_mem_tail ht)
      refine Takes.breaks_loop (fun k => takes_ruleDimension key.mem_all hb hk hm
        fun h => absurd h hend) ?_
      rw [withoutSpace_append hgap (rest.isSpace_head hx)]
      exact ih htail

end Scan

/-! ## What the look-ahead sees -/

namespace Input

/-- A word comes, or what has been seen does not go on with it, or it has begun and expansion comes
to nothing. -/
theorem exists_sight (tables : Tables) (word : List Char) (k : Input) :
    (∃ us, Spelled word us ∧ Upcoming tables k us .more) ∨
      (∃ ts b, Leads tables k ts b ∧ Misses b word ts ∧ Glance ts b) ∨
      ∃ front more us e, word = front ++ more ∧ more ≠ [] ∧ Spelled front us ∧ e.Broken ∧
        Upcoming tables k us e := by
  induction word generalizing k with
  | nil => exact Or.inl ⟨[], .nil, .more k⟩
  | cons letter word ih =>
    obtain ⟨o, ho⟩ := (k.nextExpanded_steady tables).exists_settles
    have hbroken {e : Onward} (he : e.Broken) (hu : Upcoming tables k [] e) :
        ∃ front more us e, letter :: word = front ++ more ∧ more ≠ [] ∧ Spelled front us ∧
          e.Broken ∧ Upcoming tables k us e :=
      ⟨[], letter :: word, [], e, rfl, List.cons_ne_nil _ _, .nil, he, hu⟩
    cases o with
    | failed f l => exact Or.inr (Or.inr (hbroken (e := .failed f.cause) trivial (.failed ho)))
    | unfinished => exact Or.inr (Or.inr (hbroken (e := .endless) trivial (.endless ho)))
    | done x l =>
      cases x with
      | none => exact Or.inr (Or.inl ⟨[], none, .ended ho, .here (fun _ => rfl) nofun, .ended⟩)
      | some t =>
        cases hl : Quantity.matchesLetter letter t.token with
        | false =>
          refine Or.inr (Or.inl ⟨[t], some l, .next ho (.here (.refl l)),
            .here (Scan.inSight_cons t [] _) ?_, .token t l⟩)
          intro u hu
          cases hu
          exact hl
        | true =>
          have hmatch := (Quantity.matchesLetter_iff letter t.token).mp hl
          rcases ih l with ⟨us, hs, hu⟩ | ⟨ts, b, hleads, hmiss, hg⟩ |
            ⟨front, more, us, e, rfl, hm, hs, he, hu⟩
          · exact Or.inl ⟨t :: us, .cons hmatch hs, .next ho hu⟩
          · obtain ⟨c, cat, ht, hcat, -⟩ := hmatch
            exact Or.inr (Or.inl ⟨t :: ts, b, .next ho hleads, .later hl hmiss,
              .letter ht hcat hg⟩)
          · exact Or.inr (Or.inr ⟨letter :: front, more, t :: us, e, rfl, hm, .cons hmatch hs, he,
              .next ho hu⟩)

/-- So it is with all keywords at once, since no two of them begin with one letter. -/
theorem exists_sight_of_keys (tables : Tables) (k : Input)
    (hword : ∀ (key : RuleKey) us, Spelled key.word.toList us → ¬ Upcoming tables k us .more) :
    (∃ ts b, Leads tables k ts b ∧ Glance ts b ∧ ∀ key : RuleKey, Misses b key.word.toList ts) ∨
      ∃ us e, Begun us ∧ e.Broken ∧ Upcoming tables k us e := by
  by_cases hfirst : ∃ (key : RuleKey) (t : Lexeme) (l : Input),
      Quantity.matchesLetter key.initial t.token = true ∧ Answers tables k (.done (some t) l)
  · obtain ⟨key, t, l, hl, ht⟩ := hfirst
    rcases exists_sight tables key.word.toList k with ⟨us, hs, hu⟩ | ⟨ts, b, hleads, hmiss, hg⟩ |
      ⟨front, more, us, e, hw, hm, hs, he, hu⟩
    · exact absurd hu (hword key us hs)
    · refine Or.inl ⟨ts, b, hleads, hg, fun other => ?_⟩
      by_cases hne : other = key
      · rwa [hne]
      · have hhead := hleads.head_of_answers hmiss.inSight ht
        cases ts with
        | nil => cases hhead
        | cons u ts =>
          cases hhead
          exact misses_of_ne hne hl
    · exact Or.inr ⟨us, e, ⟨key, front, more, hw, hm, hs⟩, he, hu⟩
  -- no keyword begins with what comes first, so one of them stands for all
  · rcases exists_sight tables (RuleKey.word .width).toList k with ⟨us, hs, hu⟩ |
      ⟨ts, b, hleads, hmiss, hg⟩ | ⟨front, more, us, e, hw, hm, hs, he, hu⟩
    · exact absurd hu (hword .width us hs)
    · refine Or.inl ⟨ts, b, hleads, hg, fun key => ?_⟩
      obtain ⟨letters, hw⟩ := key.exists_word
      rw [hw]
      obtain ⟨x, l, hx⟩ := hleads.exists_answers hmiss.inSight
      have hhead := hleads.head_of_answers hmiss.inSight hx
      refine .here hmiss.inSight fun t ht => ?_
      rw [hhead] at ht
      cases ht
      exact Bool.eq_false_iff.mpr fun hl => hfirst ⟨key, t, l, hl, hx⟩
    · exact Or.inr ⟨us, e, ⟨.width, front, more, hw, hm, hs⟩, he, hu⟩

end Input

/-! ## Rules in a run -/

/-- The command that makes a rule in such a list. -/
def Mode.ruleCommand : Mode → String
  | .vertical => "hrule"
  | .horizontal => "vrule"

namespace Machine

variable {face : Typeface} {nest : Nest} {m : Machine}

theorem onToken_rule (face : Typeface) (ht : t.token = .cs nest.mode.ruleCommand) :
    Build.onToken face nest (some t) = Build.rule nest := by
  cases hmode : nest.mode with
  | vertical =>
    rw [hmode] at ht
    simp [Build.onToken, ht, Mode.ruleCommand, Build.control, hmode, Build.horizontalCommands,
      Build.primitive]
  | horizontal =>
    rw [hmode] at ht
    simp [Build.onToken, ht, Mode.ruleCommand, Build.control, hmode, Build.verticalCommands,
      Build.primitive]

/-- A rule gets the dimensions that are given, for each keyword the last one, and the usual ones for
the others, so that only the order of those for one keyword matters; and the text behind them, which
does not go on with a keyword, is then built as if it stood alone. But a full input stack stops the
command, and so does expansion, where it fails or goes on for ever while a keyword has begun. -/
theorem rule_built (face : Typeface) (hcommand : t.token = .cs nest.mode.ruleCommand)
    (ht : Input.Answers m.tables m.input (.done (some t) i)) (hb : AllSpaces blanks)
    (hspec : RuleText spec pairs) (hd : Input.Delivers m.tables i (blanks ++ spec) k)
    (hspace : ∀ u us e, Input.Upcoming m.tables k (u :: us) e → u.token.isSpace = false)
    (hword : ∀ (key : RuleKey) us,
      Spelled key.word.toList us → ¬ Input.Upcoming m.tables k us .more) :
    ((∃ f j, Settles (fun rounds => m.turn face rounds nest) (.failed f { m with input := j }) ∧
        f.OfCapacity ∧ ¬ j.Spare) ∨
      (∃ us c f j, Begun us ∧ Input.Upcoming m.tables k us (.failed c) ∧
        Settles (fun rounds => m.turn face rounds nest) (.failed f { m with input := j }) ∧
        f.cause = c) ∨
      (∃ us, Begun us ∧ Input.Upcoming m.tables k us .endless ∧
        Settles (fun rounds => m.turn face rounds nest) .unfinished) ∨
      ∃ j, Settles (fun rounds => m.turn face rounds nest)
          (.done (.again (nest.add (.rule (.specified nest.mode pairs)))) { m with input := j }) ∧
        ∀ after, BuildsAlike face after { m with input := j } { m with input := k }) ∧
    ∀ others, (∀ key, givenFor key others = givenFor key pairs) →
      Rule.specified nest.mode others = Rule.specified nest.mode pairs := by
  refine ⟨?_, fun others h => Rule.specified_congr h nest.mode⟩
  have hturn {o : Outcome Input Build.Effect}
      (ho : Reader.Comes (handler m.tables) (Build.rule nest) i o) :
      Settles (fun rounds => m.turn face rounds nest) (m.carriedOut o) :=
    turn_settles ht ((onToken_rule face hcommand).symm ▸ ho)
  rcases Input.exists_sight_of_keys m.tables k hword with ⟨ts, b, hleads, hg, hmiss⟩ |
    ⟨us, e, hbegun, he, hu⟩
  · have hx : Quantity.isSpace ts.head? = false := by
      cases hleads with
      | here hl => rfl
      | ended hn => rfl
      | next hn rest => exact hspace _ _ _ (.next hn (.more _))
    have hrule : Scan.Takes m.tables (Build.rule nest) b (blanks ++ (spec ++ ts))
        (.ok { turn := .again (nest.add (.rule (.specified nest.mode pairs))) }) ts := by
      rw [← Rule.setAll_usual]
      exact (Scan.takes_rule hspec hb (hmiss .width).inSight hmiss hx).bind (Scan.takes_pure _ _)
    have hi : Input.Leads m.tables i (blanks ++ (spec ++ ts)) b := by
      rw [← List.append_assoc]
      exact .of_delivers hd hleads
    rcases hrule i hi with ⟨f, j, hf, hc, hfull⟩ | ⟨j, hj, hlj⟩
    · exact Or.inl ⟨f, j, hturn hf, hc, hfull⟩
    · exact Or.inr (Or.inr (Or.inr ⟨j, hturn hj, buildsAlike_of_glance hg hlj hleads⟩))
  · have hrule : Scan.Breaks m.tables (Build.rule nest) (blanks ++ (spec ++ us)) e :=
      (Scan.breaks_rule he hspec hb hbegun).bind
    have hi : Input.Upcoming m.tables i (blanks ++ (spec ++ us)) e := by
      rw [← List.append_assoc]
      exact (hd.precedes us e).mpr hu
    rcases hrule i hi with ⟨f, j, hf, hc, hfull⟩ | hhalts
    · exact Or.inl ⟨f, j, hturn hf, hc, hfull⟩
    cases e with
    | more => exact he.elim
    | ended => exact he.elim
    | failed c =>
      obtain ⟨f, j, hf, hc⟩ := hhalts
      exact Or.inr (Or.inl ⟨us, c, f, j, hbegun, hu, hturn hf, hc⟩)
    | endless => exact Or.inr (Or.inr (Or.inl ⟨us, hbegun, hu, hturn hhalts⟩))

/-! ### Half a keyword -/

open Input (charsOf charsOf_plain)

/-- Minus two picas. -/
def picas : Dimension := ⟨-1572864, by decide, by decide⟩

theorem measured_picas : Measured (charsOf .other ['-'] ++ (charsOf .other ['2'] ++
    ([] ++ charsOf .letter ['p', 'c']))) picas := by
  have hd : Dimension.ofUnits? ((-1) ^ minuses (charsOf .other ['-']) *
      (⟨['2'], [], [], by simp, Or.inl ⟨rfl, rfl⟩, by simp⟩ : Numeral).value) .pc =
        some picas := by decide +kernel
  have hu : Spelled (LengthUnit.name .pc).toList (charsOf .letter ['p', 'c']) := by
    rw [spelled_iff]
    decide
  have hm : Marks (charsOf .other ['-']) := by simp [Marks, charsOf]
  exact .intro _ .pc hm rfl (List.forall_mem_nil _) hu hd

/-- One dimension of a rule. -/
def oneWidth : List Lexeme :=
  charsOf .letter ['W', 'i', 'd', 't', 'h'] ++
    ((charsOf .other ['-'] ++ (charsOf .other ['2'] ++ ([] ++ charsOf .letter ['p', 'c']))) ++
      (charsOf .space [' '] ++ []))

theorem ruleText_oneWidth : RuleText oneWidth [(.width, picas)] := by
  have hk : Spelled (RuleKey.word .width).toList (charsOf .letter ['W', 'i', 'd', 't', 'h']) := by
    rw [spelled_iff]
    decide
  have hb : AllSpaces (charsOf .space [' ']) := List.forall_mem_singleton.mpr rfl
  exact .cons hk measured_picas hb .nil

def halfKeyword : List Lexeme := charsOf .letter ['w', 'i', 'd']

theorem leads_halfKeyword (room : Int) :
    Input.Leads {} (Input.pendingTokens room halfKeyword) halfKeyword none := by
  have hdelivers := Input.pendingTokens_delivers room [] (charsOf_plain .letter ['w', 'i', 'd'])
  have hend : Input.Answers {} (Input.pendingTokens room []) (.done none _) :=
    ⟨1, fun rounds hr => Input.nextExpanded_end rfl hr⟩
  have hleads := Input.Leads.of_delivers hdelivers (.ended hend)
  rwa [List.append_nil] at hleads

theorem misses_halfKeyword (key : RuleKey) : Misses none key.word.toList halfKeyword := by
  have hhere {letter : Char} {letters : List Char}
      (h : Quantity.matchesLetter letter (.ch 'w' .letter) = false) :
      Misses none (letter :: letters) halfKeyword := by
    refine .here nofun fun t ht => ?_
    cases ht
    exact h
  cases key with
  | width => exact .later rfl (.later rfl (.later rfl (.here (fun _ => rfl) nofun)))
  | height => exact hhere rfl
  | depth => exact hhere rfl

theorem not_upcoming_halfKeyword (room : Int) (key : RuleKey)
    (hs : Spelled key.word.toList us) :
    ¬ Input.Upcoming {} (Input.pendingTokens room halfKeyword) us .more :=
  Input.not_upcoming_of_misses (misses_halfKeyword key) (leads_halfKeyword room) hs

def hrule : Lexeme := ⟨.cs "hrule", none⟩

/-- A rule and what stands behind it. -/
def atRule (room : Int) (behind : List Lexeme) : Machine :=
  ⟨{}, Input.pendingTokens room (hrule :: behind)⟩

theorem answers_hrule (room : Int) (behind : List Lexeme) :
    Input.Answers {} (atRule room behind).input
      (.done (some hrule) (Input.pendingTokens room behind)) :=
  Input.pendingTokens_answers room behind ⟨rfl, rfl⟩ rfl

/-- The face of a run that names none. -/
def usualFace : Typeface := ⟨Engine.usualMetrics {}, "cmr10"⟩

theorem rule_built_halfKeyword :
    RuleText oneWidth [(.width, picas)] ∧
      ∃ j, Settles (fun rounds =>
            (atRule 5 (oneWidth ++ halfKeyword)).turn usualFace rounds (.outer .vertical []))
          (.done (.again (.outer .vertical [.rule (.specified .vertical [(.width, picas)])]))
            ⟨{}, j⟩) ∧
        ∀ after, BuildsAlike usualFace after ⟨{}, j⟩
          ⟨{}, Input.pendingTokens 5 halfKeyword⟩ := by
  refine ⟨ruleText_oneWidth, ?_⟩
  have hcommand : hrule.token = .cs (Nest.outer .vertical []).mode.ruleCommand := rfl
  have hempty : AllSpaces [] := nofun
  have hplain : ∀ t ∈ oneWidth, Inert {} t ∧ t.span = none := by
    simp only [oneWidth, List.forall_mem_append]
    exact ⟨charsOf_plain _ _, ⟨charsOf_plain _ _, charsOf_plain _ _, nofun, charsOf_plain _ _⟩,
      charsOf_plain _ _, nofun⟩
  have hspace u us e (hu : Input.Upcoming {} (Input.pendingTokens 5 halfKeyword) (u :: us) e) :
      u.token.isSpace = false := by
    cases (leads_halfKeyword 5).head_of_upcoming nofun hu
    rfl
  have hbuilt := rule_built (m := atRule 5 (oneWidth ++ halfKeyword))
    (k := Input.pendingTokens 5 halfKeyword) usualFace hcommand (answers_hrule 5 _) hempty
    ruleText_oneWidth (Input.pendingTokens_delivers 5 halfKeyword hplain) hspace
    fun key us hs => not_upcoming_halfKeyword 5 key hs
  obtain ⟨turn, m, hrun, -⟩ := Outcome.exists_done_of_yields (p := fun _ => True)
    (o := (atRule 5 (oneWidth ++ halfKeyword)).turn usualFace 40 (.outer .vertical []))
    (by decide +kernel)
  have hsettles := (turn_steady usualFace (.outer .vertical [])
    (atRule 5 (oneWidth ++ halfKeyword))).settles_of_eq hrun nofun
  rcases hbuilt.1 with ⟨f, j, hf, -⟩ | ⟨us, c, f, j, -, -, hf, -⟩ | ⟨us, -, -, hf⟩ | hdone
  · cases hsettles.unique hf
  · cases hsettles.unique hf
  · cases hsettles.unique hf
  · exact hdone

def extraFi : Lexeme := ⟨.cs "fi", none⟩

/-- No rule is made by a turn in an empty list that fails. -/
theorem not_rule_of_failedBy {p : Fault → Prop}
    (h : (m.turn usualFace 40 (.outer .vertical [])).FailedBy p) :
    ¬ ∃ r m', Settles (fun rounds => m.turn usualFace rounds (.outer .vertical []))
      (.done (.again (.outer .vertical [.rule r])) m') := by
  rintro ⟨r, m', hm⟩
  obtain ⟨f, k, hrun, -⟩ := Outcome.exists_failed_of_failedBy h
  have hfailed := (turn_steady usualFace (.outer .vertical []) m).settles_of_eq hrun nofun
  cases hm.unique hfailed

/-- Where there is room for one chunk alone, the half keyword is put back once, but cannot be looked
at again: there is no rule. Nor is there one before a text of which expansion comes to nothing. -/
theorem rule_refused :
    (Input.Answers {} (atRule 1 halfKeyword).input
        (.done (some hrule) (Input.pendingTokens 1 halfKeyword)) ∧
      RuleText [] [] ∧
      (∀ (key : RuleKey) us, Spelled key.word.toList us →
        ¬ Input.Upcoming {} (Input.pendingTokens 1 halfKeyword) us .more) ∧
      ¬ ∃ r m, Settles
        (fun rounds => (atRule 1 halfKeyword).turn usualFace rounds (.outer .vertical []))
        (.done (.again (.outer .vertical [.rule r])) m)) ∧
    (∃ f j, Input.Answers {} (Input.pendingTokens 5 [extraFi]) (.failed f j)) ∧
      ¬ ∃ r m, Settles
        (fun rounds => (atRule 5 [extraFi]).turn usualFace rounds (.outer .vertical []))
        (.done (.again (.outer .vertical [.rule r])) m) := by
  refine ⟨⟨answers_hrule 1 halfKeyword, .nil, fun key us hs => not_upcoming_halfKeyword 1 key hs,
    ?_⟩, ?_, ?_⟩
  · exact not_rule_of_failedBy (p := fun _ => True) (by decide +kernel)
  · obtain ⟨f, j, hrun, -⟩ := Outcome.exists_failed_of_failedBy (p := fun _ => True)
      (o := (Input.pendingTokens 5 [extraFi]).nextExpanded {} 5) (by decide +kernel)
    exact ⟨f, j, ((Input.pendingTokens 5 [extraFi]).nextExpanded_steady {}).settles_of_eq hrun
      nofun⟩
  · exact not_rule_of_failedBy (p := fun _ => True) (by decide +kernel)

end Machine

end Galley
