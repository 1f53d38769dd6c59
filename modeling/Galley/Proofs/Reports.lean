import Galley.CommandLine
import Galley.Proofs.Blame.Run
import Galley.Proofs.Legible

/-!
Reports and diagnostics. A command that is given a file and finds no settings runs as an editor does
on the text of the file: the line ends that are unified on the way make no difference
(`linesOf_unifyNewlines`), the code it ends with is that of the diagnostic, and the report shows the
message and the place of that (`run_reports`).
-/

namespace Galley

/-! ## Lines -/

namespace Text

/-- Unified line ends end the same lines. -/
theorem splitFrom_unifyNewlines (line s : List Char) :
    splitFrom line (unifyNewlines s) = splitFrom line s := by
  fun_induction unifyNewlines s generalizing line with
  | case1 => rfl
  | case2 s ih =>
    rw [splitFrom.eq_3, splitFrom.eq_4 _ _ _ (by simp), ih]
    rfl
  | case3 c s hs ih =>
    by_cases hc : c = '\r'
    · subst hc
      have hhead : s.head? ≠ some '\n' := by
        intro h
        obtain ⟨t, rfl⟩ := List.head?_eq_some_iff.mp h
        exact hs t rfl rfl
      rw [splitFrom_return line hhead, if_pos rfl, splitFrom.eq_4 _ _ _ (by simp), ih]
      rfl
    · rw [if_neg hc, splitFrom.eq_4 _ _ _ fun _ h _ => hc h, splitFrom.eq_4 _ _ _ fun _ h _ => hc h,
        ih, ih]

theorem linesOf_unifyNewlines (text : String) :
    linesOf (String.ofList (unifyNewlines text.toList)) = linesOf text := by
  rw [linesOf, linesOf, String.toList_ofList, splitLines, splitLines, splitFrom_unifyNewlines]

end Text

/-! ## Options -/

namespace Options

/-- A word that begins like an option stands for no plain word. -/
theorem eq_switch_of_candidate {w : List Char} {word : Word} (h : word ∈ candidates w) :
    ∃ s value, word = .switch s value := by
  unfold candidates at h
  split at h
  · simp only [List.mem_map] at h
    obtain ⟨n, -, rfl⟩ := h
    exact ⟨_, _, rfl⟩
  · simp only [List.mem_map] at h
    obtain ⟨n, -, rfl⟩ := h
    exact ⟨_, _, rfl⟩
  · cases h

theorem eq_of_classify {w : List Char} {s : String} (h : classify w = .ok (.plain s)) :
    s = String.ofList w := by
  unfold classify at h
  dsimp only at h
  split at h
  · injection h with h
    injection h with h
    exact h.symm
  split at h
  · cases h
  split at h
  · cases h
  split at h
  · rename_i word hw
    have hmem : word ∈ candidates w := by
      rw [hw]
      exact List.mem_cons_self
    obtain ⟨_, _, rfl⟩ := eq_switch_of_candidate hmem
    cases h
  · cases h
  split at h
  · injection h with h
    injection h with h
    exact h.symm
  · cases h

theorem input_turnOn {p q : Progress} {s : Switch} (h : turnOn p s = .ok q) :
    q.input = p.input := by
  cases s <;> cases h <;> rfl

theorem input_setValue {p q : Progress} {value : String} {s : Switch}
    (h : setValue p value s = .ok q) : q.input = p.input := by
  cases s with
  | capacity =>
    simp only [setValue] at h
    split at h
    · cases h
      rfl
    · cases h
  | _ => cases h <;> rfl

theorem input_setAttached {p q : Progress} {value : String} {s : Switch}
    (h : setAttached p value s = .ok q) : q.input = p.input := by
  unfold setAttached setBlank at h
  split at h
  · split at h
    · cases h
      rfl
    · exact input_setValue h
  · exact input_setValue h

/-- One word alone names an input only if it is plain. -/
theorem plain_of_readFrom {w : Word} {p : Progress} {input : String}
    (h : readFrom {} [w] = .ok p) (hp : p.input = some input) :
    w = .plain input ∧ p = { input := some input } := by
  cases w with
  | plain s =>
    cases h
    injection hp with hs
    subst hs
    exact ⟨rfl, rfl⟩
  | dashes => cases h
  | switch s value =>
    suffices hnone : p.input = none by simp [hnone] at hp
    cases value with
    | none =>
      cases ht : turnOn {} s with
      | error e => simp [readFrom, ht, bind, Except.bind] at h
      | ok q =>
        simp only [readFrom, ht, bind, Except.bind, Except.ok.injEq] at h
        exact h ▸ input_turnOn ht
    | some v =>
      by_cases hs : s.takesValue = true
      · cases ht : setAttached {} v s with
        | error e => simp [readFrom, hs, ht, bind, Except.bind] at h
        | ok q =>
          simp only [readFrom, hs, ht, if_true, bind, Except.bind, Except.ok.injEq] at h
          exact h ▸ input_setAttached ht
      · simp [readFrom, hs] at h

/-- A word that can be used alone is the input. -/
theorem eq_of_read {file : String} {o : Options} (h : read [file] = .ok o) :
    o = { input := file } := by
  have hused : ∀ w, classifyAll [file] = .ok [w] → ∃ p input, readFrom {} [w] = .ok p ∧
      p.input = some input ∧ o = { p.options with input := input } := by
    intro w hw
    simp only [read, hw, bind, Except.bind] at h
    cases hr : readFrom {} [w] with
    | error e => simp [hr] at h
    | ok p =>
      cases hp : p.input with
      | none => simp [hr, hp, throw, throwThe, MonadExceptOf.throw] at h
      | some input =>
        simp only [hr, hp, pure, Except.pure, Except.ok.injEq] at h
        exact ⟨p, input, rfl, hp, h.symm⟩
  by_cases hd : file = "--"
  · obtain ⟨p, input, hr, -⟩ := hused .dashes (by rw [classifyAll, if_pos hd]; rfl)
    cases hr
  · cases hc : classify file.toList with
    | error e => simp [read, classifyAll, hd, hc, bind, Except.bind] at h
    | ok w =>
      have hall : classifyAll [file] = .ok [w] := by
        simp [classifyAll, hd, hc, bind, Except.bind, pure, Except.pure]
      obtain ⟨p, input, hr, hp, rfl⟩ := hused w hall
      obtain ⟨rfl, rfl⟩ := plain_of_readFrom hr hp
      rw [eq_of_classify hc, String.ofList_toList]

end Options

/-! ## Commands -/

/-- The code that a command reports, if it ends with a report. -/
def Ending.code? : Ending → Option Nat
  | .report r => some r.code
  | _ => none

/-- The diagnostic tells what the notice shows: its message, with the calls behind it if there are
any, and its place, counted from zero. -/
def Diagnostic.Tells (d : Diagnostic) (n : Notice) : Prop :=
  d.message = n.message ++ (if n.chain.isEmpty then "" else
    " (in expansion: " ++ Notice.chainText n.chain ++ ")") ∧
  d.line = n.line - 1 ∧ d.character = n.column - 1

theorem Diagnostic.tells_ofFault (lines : List String) (f : Fault) :
    (Diagnostic.ofFault f).Tells (.ofFault lines f) := ⟨rfl, rfl, rfl⟩

/-- In the lines of the text the notice of a fault shows the line that the diagnostic tells. -/
theorem Diagnostic.sourceLine_ofFault {lines : List String} {f : Fault}
    (h : f.place.Within lines) :
    (Notice.ofFault lines f).sourceLine = lines.getD (Diagnostic.ofFault f).line.toNat "" := by
  have hpos : 0 < (Notice.ofFault lines f).line := Int.natCast_pos.mpr h.1
  exact if_pos hpos

/-- The report of a fault shows what the diagnostic tells of it: the bare message, and the place
counted from one. -/
theorem Diagnostic.shows_ofFault {lines : List String} {f : Fault} (h : f.place.Within lines)
    (file : String) :
    Notice.Shows f.cause.message file ((Diagnostic.ofFault f).line + 1)
      ((Diagnostic.ofFault f).character + 1)
      (lines.getD (Diagnostic.ofFault f).line.toNat "") ((Notice.ofFault lines f).text file) := by
  have hline : (Diagnostic.ofFault f).line + 1 = (Notice.ofFault lines f).line :=
    Int.sub_add_cancel _ _
  have hcolumn : (Diagnostic.ofFault f).character + 1 = (Notice.ofFault lines f).column :=
    Int.sub_add_cancel _ _
  rw [hline, hcolumn, ← Diagnostic.sourceLine_ofFault h]
  exact Notice.text_shows (.ofFault lines f) file

namespace Severity

@[simp] theorem code_ne_zero (s : Severity) : s.code ≠ 0 := by cases s <;> decide

@[simp] theorem code_eq_one_iff (s : Severity) : s.code = 1 ↔ s = .error := by cases s <;> decide

@[simp] theorem code_eq_two_iff (s : Severity) : s.code = 2 ↔ s = .warning := by cases s <;> decide

end Severity

theorem exitCode_eq_severity (s : Stage) : CommandLine.exitCode s = s.severity.code := by
  cases s <;> rfl

namespace CommandLine

/-- The engine that runs a text when nothing else is said. -/
def usualEngine (text : String) : Engine :=
  .start {} (Engine.usualMetrics {}) {} (Text.linesOf text)

theorem setup_usual {input output : String} {disk : Disk}
    (hbare : disk.text? (settingsPath { input := input }) = none) :
    setup { input := input, output := output } disk = .ok ⟨{}, Engine.usualMetrics {}⟩ := by
  have hsettings : readSettings { input := input, output := output } disk = .ok {} := by
    rw [readSettings, show settingsPath { input := input, output := output } =
      settingsPath { input := input } from rfl, hbare]
  rw [setup, hsettings]
  rfl

/-- Without settings, a file is run as its text is, line ends and all. -/
theorem run_usual {input text : String} {path : Path} {disk : Disk}
    (hpath : inputPath? { input := input } = some path) (hfile : disk.look path = .file text)
    (hbare : disk.text? (settingsPath { input := input }) = none) (output : String) (rounds : Nat)
    (stdin : String) :
    run rounds { input := input, output := output } disk stdin =
      runList rounds { input := input, output := output } disk (usualEngine text) := by
  have htext : inputText { input := input, output := output } disk stdin =
      .ok (String.ofList (Text.unifyNewlines text.toList)) := by
    rw [inputText, show inputPath? { input := input, output := output } =
      inputPath? { input := input } from rfl, hpath]
    simp only [hfile]
  rw [run, setup_usual hbare]
  simp only [htext, Text.linesOf_unifyNewlines]
  rfl

/-- What an editor is told is how the run of the usual engine ends. -/
theorem ofText?_eq (rounds : Nat) (text : String) :
    Diagnostic.ofText? rounds text =
      match (usualEngine text).run rounds .vertical with
      | .done _ _ => some []
      | .failed fault _ => some [.ofFault fault]
      | .unfinished => none := rfl

/-- The command line and the editor agree on every file beside which there are no settings. A
command with nothing but the file ends with code 0 if the editor is told nothing, with 1 if it is
told of an error and with 2 if it is told of a warning. In the latter cases, wherever the result was
to go, nothing is written but the report on standard error: it begins with the message, which is
that of the diagnostic without the calls, and goes on with the file and the place that the editor is
told, counted from one, and with the line of the text that stands there. -/
theorem run_reports {file text : String} {o : Options} {path : Path} {disk : Disk}
    (hread : Options.read [file] = .ok o) (hpath : inputPath? o = some path)
    (hfile : disk.look path = .file text) (hbare : disk.text? (settingsPath o) = none)
    (rounds : Nat) (stdin : String) :
    ((run rounds o disk stdin).code? = some 0 ↔ Diagnostic.ofText? rounds text = some []) ∧
    ((run rounds o disk stdin).code? = some 1 ↔
      ∃ d, Diagnostic.ofText? rounds text = some [d] ∧ d.severity = .error) ∧
    ((run rounds o disk stdin).code? = some 2 ↔
      ∃ d, Diagnostic.ofText? rounds text = some [d] ∧ d.severity = .warning) ∧
    (run rounds o disk stdin = .unfinished ↔ Diagnostic.ofText? rounds text = none) ∧
    ∀ (output : String) (d : Diagnostic), Diagnostic.ofText? rounds text = some [d] →
      ∃ (n : Notice) (r : Report), d.Tells n ∧
        run rounds { o with output := output } disk stdin = .report r ∧
        r.code = d.severity.code ∧ r.stdout = "" ∧ r.written = none ∧
        r.stderr = n.text (inputName o) ++ "\n" ∧
        Notice.Shows n.message (inputName o) (d.line + 1) (d.character + 1)
          ((Text.linesOf text).getD d.line.toNat "") r.stderr := by
  obtain rfl := Options.eq_of_read hread
  have hrun (output : String) := run_usual hpath hfile hbare output rounds stdin
  cases hr : (usualEngine text).run rounds .vertical with
  | done list e =>
    have htold : Diagnostic.ofText? rounds text = some [] := by rw [ofText?_eq, hr]
    obtain ⟨r, hends, hcode⟩ : ∃ r, run rounds { input := file } disk stdin = .report r ∧
        r.code = 0 := by
      rw [hrun "", runList, hr]
      exact ⟨_, rfl, rfl⟩
    simp [htold, hends, Ending.code?, hcode]
  | failed fault e =>
    have htold : Diagnostic.ofText? rounds text = some [.ofFault fault] := by rw [ofText?_eq, hr]
    have hends (output : String) : run rounds { input := file, output := output } disk stdin =
        .report {
          code := fault.cause.stage.severity.code
          stderr :=
            (Notice.ofFault e.lines fault).text (inputName { input := file }) ++ "\n" } := by
      rw [hrun output, runList, hr, ← exitCode_eq_severity]
      rfl
    have hcode : (run rounds { input := file } disk stdin).code? =
        some (Diagnostic.ofFault fault).severity.code := by
      rw [show run rounds { input := file } disk stdin = _ from hends ""]
      rfl
    refine ⟨by simp [hcode, htold], by simp [hcode, htold], by simp [hcode, htold], ?_, ?_⟩
    · rw [htold, show run rounds { input := file } disk stdin = _ from hends ""]
      exact ⟨nofun, nofun⟩
    · intro output d hd
      rw [htold] at hd
      cases hd
      obtain ⟨hlines, hwithin, -⟩ := Engine.place_of_run hr
      refine ⟨_, _, Diagnostic.tells_ofFault e.lines fault, hends output, rfl, rfl, rfl, rfl, ?_⟩
      rw [hlines]
      exact (Diagnostic.shows_ofFault hwithin _).append "\n"
  | unfinished =>
    have htold : Diagnostic.ofText? rounds text = none := by rw [ofText?_eq, hr]
    have hends : run rounds { input := file } disk stdin = .unfinished := by
      rw [hrun "", runList, hr]
    simp [htold, hends, Ending.code?]

/-- Three lines, each with an end of its own kind, and a control sequence that is not defined. -/
def brokenFile : Disk := .ofTexts [("doc/a.tex", "a\r\nb\rc\\d\n")]

theorem run_reports_broken :
    ∃ d, Diagnostic.ofText? 60 "a\r\nb\rc\\d\n" = some [d] ∧ d.severity = .warning ∧
      ∃ (n : Notice) (r : Report), d.Tells n ∧
        run 60 { input := "doc/a.tex" } brokenFile "" = .report r ∧ r.code = 2 ∧
        Notice.Shows n.message "doc/a.tex" 3 2 "c\\d" r.stderr := by
  have hread : Options.read ["doc/a.tex"] = .ok { input := "doc/a.tex" } := rfl
  have hpath : inputPath? { input := "doc/a.tex" } = some ⟨false, ["doc", "a.tex"]⟩ := by
    decide +kernel
  have hfile : brokenFile.look ⟨false, ["doc", "a.tex"]⟩ = .file "a\r\nb\rc\\d\n" := by
    decide +kernel
  have hbare : brokenFile.text? (settingsPath { input := "doc/a.tex" }) = none := by
    decide +kernel
  have hd : Diagnostic.ofText? 60 "a\r\nb\rc\\d\n" =
      some [⟨2, 1, "undefined control sequence \\d", .warning⟩] := by decide +kernel
  have hname : inputName { input := "doc/a.tex" } = "doc/a.tex" := by decide +kernel
  have hsource : (Text.linesOf "a\r\nb\rc\\d\n").getD 2 "" = "c\\d" := by decide +kernel
  obtain ⟨n, r, htells, hrun, hcode, -, -, -, hshows⟩ :=
    (run_reports hread hpath hfile hbare 60 "").2.2.2.2 "" _ hd
  rw [hname] at hshows
  refine ⟨_, hd, rfl, n, r, htells, hrun, hcode, ?_⟩
  exact hsource ▸ hshows

end CommandLine

end Galley
