import ApiReview.Pipeline.Invoke
import ApiReview.Proofs.Pipeline.Baseline
import ApiReview.Proofs.Pipeline.BuildMode
import ApiReview.Proofs.Pipeline.Scripted

/-!
# Reports beside each other

A finding is claimed once in a run, so the findings that belong into reports go into the first of
them, and a report has them or not by its place in the list. With other reports before or beside it,
a report is the same exactly if it is first in both lists or in neither, or there are no findings
for the reports (`Script.stagedText_eq_iff`).
-/

namespace ApiReview

namespace Script

/-- A job with the script. -/
def job (script : Script) (s : Settings) (program : Program) (flags : RunFlags) :
    Job ScriptedCollection :=
  ⟨s, program, script.toolchain, flags⟩

theorem textOf_eq_iff (script : Script) {s s' : Settings}
    (hsame : s' = { s with reports := s'.reports }) (r : ReportSpec) :
    script.textOf s r = script.textOf s' r ↔
      (s.reports.head? = some r ↔ s'.reports.head? = some r) ∨ script.KeepsOut s := by
  have hclaims : script.claims s' = script.claims s := by rw [hsame]; rfl
  have htext := script.reportText_eq_report_iff (script.claims s)
  rw [claims_eq_nil_iff] at htext
  rw [textOf, textOf, hclaims]
  by_cases hfirst : s.reports.head? = some r
  · by_cases hfirst' : s'.reports.head? = some r
    · rw [if_pos hfirst, if_pos hfirst']
      exact iff_of_true rfl (.inl ⟨fun _ => hfirst', fun _ => hfirst⟩)
    · rw [if_pos hfirst, if_neg hfirst', htext]
      exact ⟨.inr, fun h => h.resolve_left fun h => hfirst' (h.mp hfirst)⟩
  · by_cases hfirst' : s'.reports.head? = some r
    · rw [if_neg hfirst, if_pos hfirst', eq_comm, htext]
      exact ⟨.inr, fun h => h.resolve_left fun h => hfirst (h.mpr hfirst')⟩
    · rw [if_neg hfirst, if_neg hfirst']
      exact iff_of_true rfl (.inl ⟨fun h => absurd h hfirst, fun h => absurd h hfirst'⟩)

/-- Two runs on the same files under settings that differ in their reports alone: each stages its
reports if it comes to a result, and a report that both stage is the same exactly if it is first in
both lists or in neither, or no finding belongs into the reports. -/
theorem stagedText_eq_iff {σ : Type} (script : Script) {s s' : Settings}
    (hsame : s' = { s with reports := s'.reports }) (henabled : s.reportEnabled = true)
    {r : ReportSpec} (hr : r ∈ s.reports) (hr' : r ∈ s'.reports) (program : Program)
    (files : FileTree) (options : InvokeOptions) (callback : Callback σ) (state : σ) :
    let job := script.job s program options.flags
    let job' := script.job s' program options.flags
    let start : Session σ ScriptedCollection :=
      .start files (Invocation.router s options callback state)
    ((job.run start).1 = .ok () → ∃ text, job.stagedText? start r = some text) ∧
      ((job'.run start).1 = .ok () → ∃ text, job'.stagedText? start r = some text) ∧
      ∀ text text', job.stagedText? start r = some text → job'.stagedText? start r = some text' →
        text = script.textOf s r ∧ text' = script.textOf s' r ∧
          (text = text' ↔
            (s.reports.head? = some r ↔ s'.reports.head? = some r) ∨ script.KeepsOut s) := by
  intro job job' start
  have henabled' : s'.reportEnabled = true := by rw [hsame]; exact henabled
  have hmessages : s'.messages = s.messages := by rw [hsame]
  refine ⟨Job.exists_stagedText henabled hr, Job.exists_stagedText henabled' hr',
    fun text text' h h' => ?_⟩
  have hstart' : start.router.findings = .ofReporting s'.messages := by rw [hmessages]; rfl
  have htext : text = script.textOf s r :=
    Job.eq_textOf_of_stagedText (show job.toolchain = script.toolchain from rfl) rfl hr h
  have htext' : text' = script.textOf s' r :=
    Job.eq_textOf_of_stagedText (show job'.toolchain = script.toolchain from rfl) hstart' hr' h'
  refine ⟨htext, htext', ?_⟩
  rw [htext, htext']
  exact script.textOf_eq_iff hsame r

/-- A script with one finding. -/
def untagged : Script :=
  { standard with
    issues := [⟨"ae-missing-release-tag", "x has no release tag", ⟨⟨"/p/index.d.ts"⟩, some 1, none⟩,
      none⟩] }

/-- Settings with some variants of the report, in which every finding belongs into the report. -/
def variantsInput (variants : List String) : PrepareInput :=
  { Settings.stagingInput "<projectFolder>/temp" with
    document := .object
      [("projectFolder", .string "/p"),
        ("mainEntryPointFilePath", .string "<projectFolder>/index.d.ts"),
        ("compiler", .object [("overrideTsconfig", .object [])]),
        ("apiReport", .object
          [("enabled", .boolean true),
            ("reportFileName", .string "p"),
            ("reportVariants", .ofStrings variants),
            ("reportFolder", .string "<projectFolder>/etc"),
            ("reportTempFolder", .string "<projectFolder>/temp")]),
        ("messages", .object
          [("extractorMessageReporting", .object
            [("default", .object
              [("logLevel", .string "warning"), ("addToApiReportFile", .boolean true)])])])] }

/-- The complete report of the settings. -/
def completeReport : ReportSpec :=
  ⟨.complete, "p.api.md"⟩

/-- What a run stages as the complete report of a project with an accepted one. -/
def stagedComplete? (s : Settings) : Option String :=
  (untagged.job s ⟨[], []⟩ InvokeOptions.plain.flags).stagedText?
    (.start Settings.acceptedTree (Invocation.router s .plain .none ())) completeReport

/-- A report behind the complete one leaves that as it is. -/
theorem stagedText_eq_iff_behind :
    ∃ s s', Settings.prepare Settings.acceptedTree (variantsInput ["complete"]) = .ok s ∧
      Settings.prepare Settings.acceptedTree (variantsInput ["complete", "public"]) = .ok s' ∧
      s' = { s with reports := s'.reports } ∧ s.reportEnabled = true ∧
      completeReport ∈ s.reports ∧ completeReport ∈ s'.reports ∧
      ∃ text, stagedComplete? s = some text ∧ stagedComplete? s' = some text := by
  obtain ⟨s, hs, hrest⟩ : ∃ s,
      Settings.prepare Settings.acceptedTree (variantsInput ["complete"]) = .ok s ∧
        ((Settings.prepare Settings.acceptedTree
          (variantsInput ["complete", "public"])).toOption.map fun s' =>
            decide (s' = { s with reports := s'.reports }) && s.reportEnabled &&
              decide (s.reports.head? = some completeReport) &&
              decide (s'.reports.head? = some completeReport) &&
              (stagedComplete? s).isSome && (stagedComplete? s').isSome) = some true :=
    exists_ok_of_map (by decide +kernel)
  obtain ⟨s', hs', hparts⟩ := exists_ok_of_map hrest
  simp only [Bool.and_eq_true, decide_eq_true_eq, Option.isSome_iff_exists] at hparts
  obtain ⟨⟨⟨⟨⟨hsame, henabled⟩, hfirst⟩, hfirst'⟩, text, htext⟩, text', htext'⟩ := hparts
  have hr := List.mem_of_head? hfirst
  have hr' := List.mem_of_head? hfirst'
  have hrouter : Invocation.router s' .plain .none () = Invocation.router s .plain .none () := by
    rw [hsame]
    rfl
  have hstaged' := htext'
  rw [stagedComplete?, hrouter] at hstaged'
  obtain ⟨-, -, htexts⟩ := untagged.stagedText_eq_iff hsame henabled hr hr' ⟨[], []⟩
    Settings.acceptedTree .plain Callback.none ()
  obtain ⟨-, -, heq⟩ := htexts text text' htext hstaged'
  have hfirsts : s.reports.head? = some completeReport ↔ s'.reports.head? = some completeReport :=
    iff_of_true hfirst hfirst'
  exact ⟨s, s', hs, hs', hsame, henabled, hr, hr', text, htext,
    htext'.trans (congrArg some (heq.mpr (.inl hfirsts)).symm)⟩

/-- A report before the complete one takes its findings away. -/
theorem not_stagedText_eq_before :
    ∃ s s', Settings.prepare Settings.acceptedTree (variantsInput ["complete"]) = .ok s ∧
      Settings.prepare Settings.acceptedTree (variantsInput ["public", "complete"]) = .ok s' ∧
      s' = { s with reports := s'.reports } ∧ s.reportEnabled = true ∧
      completeReport ∈ s.reports ∧ completeReport ∈ s'.reports ∧
      stagedComplete? s = some ("export declare const x: number;\n" ++
        "// Warning: (ae-missing-release-tag) x has no release tag\n") ∧
      stagedComplete? s' = some "export declare const x: number;\n" := by
  obtain ⟨s, hs, hrest⟩ : ∃ s,
      Settings.prepare Settings.acceptedTree (variantsInput ["complete"]) = .ok s ∧
        ((Settings.prepare Settings.acceptedTree
          (variantsInput ["public", "complete"])).toOption.map fun s' =>
            decide (s' = { s with reports := s'.reports }) && s.reportEnabled &&
              decide (completeReport ∈ s.reports) && decide (completeReport ∈ s'.reports) &&
              decide (stagedComplete? s = some ("export declare const x: number;\n" ++
                "// Warning: (ae-missing-release-tag) x has no release tag\n")) &&
              decide (stagedComplete? s' = some "export declare const x: number;\n")) =
          some true :=
    exists_ok_of_map (by decide +kernel)
  obtain ⟨s', hs', hparts⟩ := exists_ok_of_map hrest
  simp only [Bool.and_eq_true, decide_eq_true_eq] at hparts
  obtain ⟨⟨⟨⟨⟨hsame, henabled⟩, hr⟩, hr'⟩, htext⟩, htext'⟩ := hparts
  exact ⟨s, s', hs, hs', hsame, henabled, hr, hr', htext, htext'⟩

end Script

end ApiReview
