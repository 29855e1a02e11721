import ApiReview.Proofs.Pipeline.Accepted
import ApiReview.Proofs.Pipeline.Recording
import ApiReview.Proofs.Pipeline.Variants
import ApiReview.Proofs.Text.ReportLines
import Mathlib.Data.List.Nodup

/-!
# A local build and the build behind it

A local build accepts the reports that it finds changed. A build behind it that is not local then
comes to a result as well (`Job.run_again`), and compares each report with the text that the local
build left (`Job.accepted_run`). They are equivalent unless a carriage return stands within a line:
writing makes a line end of it, comparing does not. So one local build settles the reports exactly
if they have plain returns alone (`Script.reportChanged_behind_localBuild_iff`).
-/

namespace ApiReview

variable {σ : Type}

namespace Settings.ReportsPlaced

variable {s : Settings} {r r' : ReportSpec}

theorem eq_of_place_eq (hs : s.ReportsPlaced) (hr : r ∈ s.reports) (hr' : r' ∈ s.reports)
    (h : (s.reportPath r).place = (s.stagedReportPath r').place) : r = r' := by
  have hnames : (s.reports.map (·.fileName)).Nodup := List.pairwise_map.mpr hs.distinct
  refine List.inj_on_of_nodup_map hnames hr hr' ?_
  by_contra hne
  exact hs.place_ne_of_fileName_ne hr hr' hne h

end Settings.ReportsPlaced

namespace Job

/-- Comparing a report in a build that is not local writes nothing. -/
theorem compareReport_run {κ : Type} {job : Job κ} (hl : job.flags.localBuild = false)
    (r : ReportSpec) (actual expected : String) (s : Session σ κ) :
    ∃ router outcome, job.compareReport r actual expected s = (.ok outcome, { s with router }) ∧
      outcome.isChange = !job.toolchain.sameReport actual expected := by
  rw [compareReport, hl]
  split
  · rename_i hsame
    exact ⟨_, .unchanged, rfl, by rw [hsame]; rfl⟩
  · rename_i hother
    exact ⟨_, .notUpdated, rfl, by rw [Bool.eq_false_iff.mpr hother]; rfl⟩

section Again

variable {script : Script} {job : Job ScriptedCollection} {content : ReportSpec → String}

/-- What the reports find in a build behind another one: the files of that, and accepted reports
with some texts. -/
structure Found (job : Job ScriptedCollection) (content : ReportSpec → String)
    (s : Session σ ScriptedCollection) : Prop where
  collection : s.collection = some job.collected
  built : job.settings.Built s.files
  accepted : job.settings.reportEnabled = true → ∀ r ∈ job.settings.reports,
    s.files.fileAt? (job.settings.reportPath r) = some (.text (content r))

variable (ht : job.toolchain = script.toolchain) (hs : job.settings.ReportsPlaced)
  (ho : job.settings.OutputsPlaced)

include ht hs ho

/-- A report that can be written again is staged, and its accepted form is as it was. -/
theorem stageReport_again (he : job.settings.reportEnabled = true) {r : ReportSpec}
    (hr : r ∈ job.settings.reports) {s : Session σ ScriptedCollection} (h : job.Found content s)
    {text : String}
    (htext : text = script.reportText (Script.claimAll script.declarations s.router.findings).2)
    (hsame : (job.settings.reportPath r).place = (job.settings.stagedReportPath r).place →
      content r = job.writeOptions.stored text) :
    ∃ s', job.stageReport r s = (.ok text, s') ∧ job.Found content s' ∧
      s'.reportChanged = s.reportChanged := by
  have hp := hs.isAbsolute_stagedReportPath r
  have hrender : job.toolchain.renderReport job.collected r s.router.findings =
      (.ok text, (Script.claimAll script.declarations s.router.findings).1) := by
    rw [ht, htext]
    rfl
  have hwritten := (h.built.staged he r hr).writeText hp text job.writeOptions
  obtain ⟨s', hstage⟩ : ∃ s', job.stageReport r s = (.ok text, s') := by
    obtain ⟨s', hstage⟩ := stageReport_of_rendered h.collection hrender
    rw [hstage]
    rcases hw : s.files.writeText (job.settings.stagedReportPath r) text job.writeOptions with
      ⟨files, e | u⟩
    · rw [hw] at hwritten
      cases hwritten
    · exact ⟨_, rfl⟩
  obtain ⟨_, _, -, -, hwrite, hs'⟩ := stageReport_eq_ok hstage
  have hgrows := s.files.grows_writeText hp text job.writeOptions
  rw [hwrite] at hgrows
  refine ⟨s', hstage, ⟨by rw [hs']; exact h.collection, h.built.grows ho hs hgrows,
    fun _ r' hr' => ?_⟩, by rw [hs']⟩
  by_cases hplace : (job.settings.reportPath r').place = (job.settings.stagedReportPath r).place
  · -- In one folder the report is staged over its accepted form, which had the same text.
    obtain rfl := hs.eq_of_place_eq hr' hr hplace
    have hstored := s.files.fileAt?_writeText_of_ok hp hwritten text
    rw [hwrite] at hstored
    rw [hsame hplace, s'.files.fileAt?_congr hplace, hstored]
  · have hkept := s.files.fileAt?_writeText_of_ne hp hplace text job.writeOptions
    rw [hwrite] at hkept
    exact hkept.trans (h.accepted he r' hr')

/-- A report that can be written again is compared with its accepted form. -/
theorem reconcileNext_again (hl : job.flags.localBuild = false)
    (he : job.settings.reportEnabled = true) {r : ReportSpec} (hr : r ∈ job.settings.reports)
    {s : Session σ ScriptedCollection} (h : job.Found content s) {text : String}
    (htext : text = script.reportText (Script.claimAll script.declarations s.router.findings).2)
    (hsame : (job.settings.reportPath r).place = (job.settings.stagedReportPath r).place →
      content r = job.writeOptions.stored text) :
    ∃ s', job.reconcileNext r s = (.ok (), s') ∧ job.Found content s' ∧
      s'.reportChanged = (s.reportChanged || !reportsEquivalent text (content r)) := by
  obtain ⟨s₁, hstage, hfound, hchanged⟩ := stageReport_again ht hs ho he hr h htext hsame
  obtain ⟨router, outcome, hcompare, houtcome⟩ := compareReport_run hl r text (content r) s₁
  have hfile := hfound.built.accepted he r hr
  have hread : s₁.files.readTextFile (job.settings.reportPath r) = .ok (content r) := by
    have hp := hs.isAbsolute_reportPath r
    rw [FileTree.readTextFile, FileTree.readText_of_isFile hp hfile (hfound.accepted he r hr)]
    rfl
  have hjudge : job.judge r s₁.files text s₁ = (.ok outcome, { s₁ with router }) := by
    rw [judge, if_pos hfile, hread]
    exact hcompare
  have hreconcile : job.reconcile r s = (.ok outcome, { s₁ with router }) := by
    rw [reconcile_eq, Run.bind_run_ok hstage, Run.get_bind, hjudge]
  refine ⟨{ s₁ with router, reportChanged := s₁.reportChanged || outcome.isChange }, ?_,
    ⟨hfound.collection, hfound.built, hfound.accepted⟩, ?_⟩
  · rw [reconcileNext, Run.bind_run_ok hreconcile]
    rfl
  · show (s₁.reportChanged || outcome.isChange) = _
    rw [hchanged, houtcome, ht]
    rfl

/-- Reports that can be written again are compared with their accepted forms, one after another: the
first with the findings that are left, those behind it without any. -/
theorem reports_again (hl : job.flags.localBuild = false)
    (he : job.settings.reportEnabled = true) {texts : ReportSpec → String}
    {reports : List ReportSpec} (hr : ∀ r ∈ reports, r ∈ job.settings.reports)
    (hsame : ∀ r ∈ reports,
      (job.settings.reportPath r).place = (job.settings.stagedReportPath r).place →
        content r = job.writeOptions.stored (texts r))
    {s : Session σ ScriptedCollection} (h : job.Found content s)
    (hfirst : ∀ r ∈ reports.head?, texts r =
      script.reportText (Script.claimAll script.declarations s.router.findings).2)
    (hlater : ∀ r ∈ reports.tail, texts r = script.report) :
    ∃ s', reports.forM job.reconcileNext s = (.ok (), s') ∧ job.Found content s' ∧
      s'.reportChanged =
        (s.reportChanged || reports.any fun r => !reportsEquivalent (texts r) (content r)) := by
  induction reports generalizing s with
  | nil => exact ⟨s, rfl, h, (Bool.or_false _).symm⟩
  | cons r rest ih =>
    have hmem : ∀ r' ∈ rest, r' ∈ r :: rest := fun r' h' => List.mem_cons_of_mem _ h'
    obtain ⟨s₁, hnext, hfound, hchanged⟩ := reconcileNext_again ht hs ho hl he
      (hr r List.mem_cons_self) h (hfirst r rfl) (hsame r List.mem_cons_self)
    have hspent := spent_reconcileNext ht hnext
    obtain ⟨s₂, hrest, hfound', hchanged'⟩ := ih (fun r' h' => hr r' (hmem r' h'))
      (fun r' h' => hsame r' (hmem r' h')) hfound
      (fun r' h' => by
        rw [Script.claimAll_of_spent hspent, Script.reportText_nil]
        exact hlater r' (List.mem_of_mem_head? h'))
      (fun r' h' => hlater r' (List.mem_of_mem_tail h'))
    refine ⟨s₂, by rw [List.forM, Run.bind_run_ok hnext, hrest], hfound', ?_⟩
    rw [hchanged', hchanged, List.any_cons, Bool.or_assoc]

theorem wantedReports_again (hl : job.flags.localBuild = false)
    (hsame : job.settings.reportEnabled = true → ∀ r ∈ job.settings.reports,
      (job.settings.reportPath r).place = (job.settings.stagedReportPath r).place →
        content r = job.writeOptions.stored (script.textOf job.settings r))
    {s : Session σ ScriptedCollection} (h : job.Found content s)
    (hf : s.router.findings = script.findings job.settings) :
    ∃ s', job.wantedReports s = (.ok (), s') ∧ job.Found content s' ∧
      s'.reportChanged = (s.reportChanged || job.settings.reportEnabled &&
        job.settings.reports.any fun r =>
          !reportsEquivalent (script.textOf job.settings r) (content r)) := by
  rw [wantedReports]
  split
  · rename_i he
    rw [he, Bool.true_and]
    refine reports_again ht hs ho hl he (fun _ hr => hr) (hsame he) h (fun r hr => ?_)
      fun r hr => ?_
    · rw [Script.textOf, if_pos (Option.mem_def.mp hr), hf, Script.claims]
    · rw [Script.textOf, if_neg]
      intro hfirst
      have hdistinct := hs.distinct
      rw [← List.cons_head?_tail hfirst, List.pairwise_cons] at hdistinct
      exact hdistinct.1 r hr rfl
  · rename_i he
    rw [Bool.eq_false_iff.mpr he, Bool.false_and]
    exact ⟨s, rfl, h, (Bool.or_false _).symm⟩

theorem beforeReports_again (ha : job.settings.OutputsApart) {s : Session σ ScriptedCollection}
    (hb : job.settings.Built s.files)
    (hcontent : job.settings.reportEnabled = true → ∀ r ∈ job.settings.reports,
      s.files.fileAt? (job.settings.reportPath r) = some (.text (content r))) :
    ∃ s', job.goThrough Stage.beforeReports s = (.ok (), s') ∧ job.Found content s' ∧
      s'.reportChanged = s.reportChanged := by
  obtain ⟨router, calls, hanalysis, -, -⟩ := analysis_run ht s
  have hmodel := goThrough_beforeReports job s
  rw [Run.bind_run_ok hanalysis] at hmodel
  generalize hs₁ : ({ s with
    router, calls
    collection := some job.collected
    model := some (Script.model job.collected) } : Session σ ScriptedCollection) = s₁ at hmodel
  obtain ⟨files, router', calls', hgrows, hwrite⟩ : Run.Succeeds job.wantedModel s₁ :=
    succeeds_wantedModel ho (by rw [← hs₁]) (by rw [← hs₁]; exact hb)
  have hw := (writesOnly_wantedModel ho).of_run hwrite
  rw [hwrite] at hmodel
  refine ⟨_, hmodel, ⟨by rw [← hs₁], ?_, fun he r hr => ?_⟩, by rw [← hs₁]⟩
  · rw [← hs₁] at hgrows
    exact hb.grows ho hs hgrows
  · have hkept := hw.elsewhere (job.settings.reportPath r)
      fun ⟨path, hp, hplace⟩ => ha.reports he r hr path hp hplace
    rw [← hs₁] at hkept
    exact hkept.trans (hcontent he r hr)

/-- A build that is not local, behind one that has built all files, comes to a result. It finds a
report changed exactly if one is not equivalent to its accepted form. -/
theorem run_again (hl : job.flags.localBuild = false) (ha : job.settings.OutputsApart)
    {s : Session σ ScriptedCollection}
    (hf : s.router.findings = .ofReporting job.settings.messages)
    (hb : job.settings.Built s.files)
    (hcontent : job.settings.reportEnabled = true → ∀ r ∈ job.settings.reports,
      s.files.fileAt? (job.settings.reportPath r) = some (.text (content r)))
    (hsame : job.settings.reportEnabled = true → ∀ r ∈ job.settings.reports,
      (job.settings.reportPath r).place = (job.settings.stagedReportPath r).place →
        content r = job.writeOptions.stored (script.textOf job.settings r)) :
    ∃ s', job.run s = (.ok (), s') ∧
      s'.reportChanged = (s.reportChanged || job.settings.reportEnabled &&
        job.settings.reports.any fun r =>
          !reportsEquivalent (script.textOf job.settings r) (content r)) := by
  obtain ⟨s₂, hbefore, hfound, hchanged⟩ := beforeReports_again ht hs ho ha hb hcontent
  obtain ⟨s₃, hreports, hfound', hchanged'⟩ := wantedReports_again ht hs ho hl hsame hfound
    (findings_beforeReports ht hf hbefore)
  have hrollups : ∀ tier, ∃ text,
      job.toolchain.renderRollup job.collected tier = .ok text := fun tier => by
    rw [ht]
    exact ⟨_, rfl⟩
  obtain ⟨files, router, calls, -, hbehind⟩ : Run.Succeeds (job.goThrough Stage.behindReports) s₃ :=
    succeeds_behindReports ho hfound'.collection hrollups hs hfound'.built
  rw [run_eq, Run.bind_run_ok hbefore, Run.bind_run_ok hreports, Run.bind_run_ok hbehind]
  exact ⟨_, rfl, by rw [← hchanged]; exact hchanged'⟩

end Again

end Job

/-! ## The program of a later run -/

section Program

variable {t t' : FileTree} {places : Place → Prop} (hw : FileTree.WritesOnly places t t')
  {s : Settings} (ho : s.OutputsPlaced) (hc : ∀ config ∈ s.configFile?, ¬ places config.place)

include hw ho hc

/-- A compiler configuration that is not written over is read again. -/
theorem Settings.compilerConfig_of_writesOnly {found : Json × Path}
    (h : s.compilerConfig t = .ok found) : s.compilerConfig t' = .ok found := by
  rw [compilerConfig] at h ⊢
  rw [configFile?] at hc
  cases hinline : s.inlineTsconfig with
  | some members =>
    rw [hinline] at h
    exact h
  | none =>
    rw [hinline] at h hc
    cases hpath : s.tsconfigPath with
    | none =>
      rw [hpath] at h
      cases h
    | some path =>
      rw [hpath] at h hc
      obtain ⟨config, hread, h⟩ := bind_eq_ok h
      obtain ⟨text, htext, hparse⟩ := bind_eq_ok hread
      have hagain := hw.readText (ho.tsconfig path hpath) (hc path rfl) (mapError_eq_ok htext)
      show (readTsconfig t' path >>= _) = _
      rw [readTsconfig, hagain]
      show (((Json.parse text).mapError _) >>= _) = _
      rw [hparse]
      exact h

/-- The engine that takes the listed files makes the same program again. -/
theorem Invocation.program_of_writesOnly {version : String} {options options' : InvokeOptions}
    (hsame : options'.program = options.program) {found : Program}
    (h : Invocation.program t (.listing version) s options = .ok found) :
    Invocation.program t' (.listing version) s options' = .ok found := by
  rw [Invocation.program] at h ⊢
  rw [hsame]
  cases hgiven : options.program with
  | some given =>
    rw [hgiven] at h
    exact h
  | none =>
    rw [hgiven] at h
    obtain ⟨plan, hplan, h⟩ := bind_eq_ok h
    obtain ⟨config, hconfig, hrest⟩ := bind_eq_ok hplan
    have hagain : Analysis.plan t' (.listing version) s [] = .ok plan := by
      rw [Analysis.plan, s.compilerConfig_of_writesOnly hw ho hc hconfig]
      exact hrest
    show (Analysis.plan t' (.listing version) s [] >>= _) = _
    rw [hagain]
    exact h

end Program

/-! ## Two runs -/

namespace Job

section First

variable {script : Script} {job : Job ScriptedCollection}
  (ht : job.toolchain = script.toolchain) (hs : job.settings.ReportsPlaced)
  (ho : job.settings.OutputsPlaced) (ha : job.settings.OutputsApart)

include ht hs ho ha

/-- A local build that comes to a result, with a folder for each report, has built all its files.
The accepted form of a report is equivalent to the report exactly if the report has plain returns
alone, or was found up to date. -/
theorem accepted_run (hl : job.flags.localBuild = true) {s s' : Session σ ScriptedCollection}
    (hf : s.router.findings = .ofReporting job.settings.messages)
    (h : job.run s = (.ok (), s'))
    (hne : job.settings.reportEnabled = true → ∀ r ∈ job.settings.reports,
      job.outcome? s r ≠ some .createFailed) :
    job.settings.Built s'.files ∧ ∃ content : ReportSpec → String,
      job.settings.reportEnabled = true → ∀ r ∈ job.settings.reports,
        s'.files.fileAt? (job.settings.reportPath r) = some (.text (content r)) ∧
        ((job.settings.reportPath r).place = (job.settings.stagedReportPath r).place →
          content r = job.writeOptions.stored (script.textOf job.settings r)) ∧
        (reportsEquivalent (script.textOf job.settings r) (content r) = true ↔
          HasPlainReturns (script.textOf job.settings r).toList ∨
            job.outcome? s r = some .unchanged) := by
  have hsettled : ∀ r, job.settings.reportEnabled = true → r ∈ job.settings.reports →
      ∃ outcome, job.outcome? s r = some outcome ∧
        job.Settled r (script.textOf job.settings r) outcome s'.files := fun r he hr => by
    obtain ⟨text, outcome, htext, houtcome, hsettled⟩ :=
      settled_run hs ho ha hl he h hr (hne he r hr)
    rw [eq_textOf_of_stagedText ht hf hr htext] at hsettled
    exact ⟨outcome, houtcome, hsettled⟩
  refine ⟨built_run hs ho h fun he r hr => ?_, ?_⟩
  · obtain ⟨outcome, -, hreport⟩ := hsettled r he hr
    exact ⟨_, outcome, hreport⟩
  · choose! outcome houtcome hreport using hsettled
    have hcontent := fun r he hr => (hreport r he hr).content
    choose! content hfile hplace hequal using hcontent
    refine ⟨content, fun he r hr => ⟨hfile r he hr, hplace r he hr, ?_⟩⟩
    have hkind := hequal r he hr
    rw [houtcome r he hr, Option.some.injEq]
    split at hkind
    · rename_i hunchanged
      rw [ht] at hkind
      exact iff_of_true hkind (.inr hunchanged)
    · rename_i hchanged
      rw [hkind, or_iff_left hchanged]
      exact reportsEquivalent_convert_iff job.settings.lineEnding _

end First

end Job

namespace Invocation

variable {κ : Type}

theorem state_ofJob (job : Job κ) (s : Session σ κ) :
    (ofJob job s).state = (job.run s).2.router.state := (rfl)

theorem ofJob_of_run {job : Job κ} {s s' : Session σ κ} (h : job.run s = (.ok (), s')) :
    (ofJob job s).result = .ok (outcome job s') ∧ (ofJob job s).files = s'.files := by
  rw [ofJob, h]
  exact ⟨rfl, rfl⟩

theorem run_of_ofJob {job : Job κ} {s : Session σ κ} {o : Outcome}
    (h : (ofJob job s).result = .ok o) : ∃ s', job.run s = (.ok (), s') := by
  rw [ofJob] at h
  rcases hr : job.run s with ⟨e | u, s'⟩
  · rw [hr] at h
    cases h
  · exact ⟨s', rfl⟩

/-- A job whose journal tells of no missing folder has a folder for each report. -/
theorem ne_createFailed_of_journal {job : Job κ} {s s' : Session σ κ}
    (h : job.run s = (.ok (), s')) (he : job.settings.reportEnabled = true)
    (hj : ¬ Notice.reportFolderMissing.IsIn (ofJob job (s.recording [])).state.2)
    {r : ReportSpec} (hr : r ∈ job.settings.reports) :
    job.outcome? s r ≠ some .createFailed := by
  intro hfailed
  obtain ⟨before, rest, s₁, outcome, s₂, hsplit, hnew, huntil, hreconcile, -⟩ :=
    Job.exists_turn he hr h
  rw [Job.outcome?, huntil] at hfailed
  simp only [hreconcile, Except.toOption, Option.some.injEq] at hfailed
  rw [hfailed] at hreconcile
  rw [state_ofJob] at hj
  exact hj (Job.isIn_run he hsplit hnew huntil hreconcile [])

end Invocation

namespace Script

/-- Behind a local build, one that is not local comes to a result. It finds no report changed
exactly if each report has plain returns alone, or was found up to date. -/
theorem run_behind (script : Script) {s : Settings} (hs : s.ReportsPlaced) (ho : s.OutputsPlaced)
    (ha : s.OutputsApart) {program : Program} {flags flags' : RunFlags}
    (hl : flags.localBuild = true) (hl' : flags'.localBuild = false)
    {first first' : Session σ ScriptedCollection}
    (hf : first.router.findings = .ofReporting s.messages)
    (hrun : (script.job s program flags).run first = (.ok (), first'))
    (hne : s.reportEnabled = true → ∀ r ∈ s.reports,
      (script.job s program flags).outcome? first r ≠ some .createFailed)
    {second : Session σ ScriptedCollection}
    (hf' : second.router.findings = .ofReporting s.messages)
    (hfiles : second.files = first'.files) (hchanged : second.reportChanged = false) :
    ∃ second', (script.job s program flags').run second = (.ok (), second') ∧
      (second'.reportChanged = false ↔ (s.reportEnabled = true → ∀ r ∈ s.reports,
        HasPlainReturns (script.textOf s r).toList ∨
          (script.job s program flags).outcome? first r = some .unchanged)) := by
  have ht : (script.job s program flags').toolchain = script.toolchain := rfl
  obtain ⟨hbuilt, content, hcontent⟩ := Job.accepted_run rfl hs ho ha hl hf hrun hne
  rw [← hfiles] at hbuilt hcontent
  obtain ⟨second', hagain, hsecond⟩ := Job.run_again ht hs ho hl' ha hf' hbuilt
    (fun he r hr => (hcontent he r hr).1) fun he r hr => (hcontent he r hr).2.1
  refine ⟨second', hagain, ?_⟩
  rw [hsecond, hchanged, Bool.false_or, Bool.and_eq_false_imp, List.any_eq_false]
  refine forall_congr' fun he => forall₂_congr fun r hr => Iff.trans ?_ (hcontent he r hr).2.2
  rw [Bool.not_eq_true', Bool.not_eq_false]
  rfl

/-- What a run with the script makes of a report when that has its turn, if it comes to that. -/
def outcome? (script : Script) (t : FileTree) (s : Settings) (options : InvokeOptions)
    (r : ReportSpec) : Option Reconciled :=
  match Invocation.program t script.toolchain.engine s options with
  | .ok program =>
    (script.job s program options.flags).outcome?
      (.start t (Invocation.router s options .none ())) r
  | .error _ => none

/-- Behind a local build that comes to a result and finds the folder of its reports, a build that is
not local comes to a result too. It finds no report changed exactly if each report has plain returns
alone, or the local build found it up to date. -/
theorem reportChanged_behind_localBuild_iff (script : Script) {t₀ t : FileTree}
    {input : PrepareInput} {s : Settings} (hs : Settings.prepare t₀ input = .ok s)
    (ha : s.OutputsApart) {options options' : InvokeOptions}
    (hl : options.flags.localBuild = true) (hl' : options'.flags.localBuild = false)
    (hsame : options'.program = options.program) {o : Outcome}
    (hfirst : (invoke t script.toolchain s options .none ()).result = .ok o)
    (hfolder : ¬ Notice.reportFolderMissing.IsIn
      (invoke t script.toolchain s options Callback.none.recording ((), [])).state.2) :
    ∃ o', (invoke (invoke t script.toolchain s options .none ()).files script.toolchain s
        options' .none ()).result = .ok o' ∧
      (o'.reportChanged = false ↔ (s.reportEnabled = true → ∀ r ∈ s.reports,
        HasPlainReturns (script.textOf s r).toList ∨
          script.outcome? t s options r = some .unchanged)) := by
  have hplaced := Settings.reportsPlaced_of_prepare hs
  have houtputs := Settings.outputsPlaced_of_prepare hs
  cases hp : Invocation.program t script.toolchain.engine s options with
  | error e =>
    rw [invoke_of_program_error hp] at hfirst
    cases hfirst
  | ok program =>
    rw [invoke_of_program hp] at hfirst hfolder ⊢
    rw [Invocation.start_recording] at hfolder
    obtain ⟨first', hrun⟩ := Invocation.run_of_ofJob hfirst
    have hwrites := Job.writesOnly_run rfl hplaced houtputs hrun
    have hprogram := Invocation.program_of_writesOnly hwrites houtputs
      (fun config hc ⟨path, hpath, hplace⟩ => ha.config config hc path hpath hplace) hsame hp
    obtain ⟨second', hagain, hchanged⟩ := script.run_behind hplaced houtputs ha hl hl' rfl hrun
      (fun he r hr => Invocation.ne_createFailed_of_journal hrun he hfolder hr)
      (show (Session.start first'.files (Invocation.router s options' .none ()) :
        Session Unit ScriptedCollection).router.findings = .ofReporting s.messages from rfl) rfl rfl
    rw [(Invocation.ofJob_of_run hrun).2, invoke_of_program hprogram]
    refine ⟨_, (Invocation.ofJob_of_run hagain).1, ?_⟩
    simp only [outcome?, hp]
    exact hchanged

/-- A local build of a project with an accepted report. -/
def localBuild (report : String) (s : Settings) : Invocation Unit :=
  invoke Settings.acceptedTree (quiet report).toolchain s InvokeOptions.plain.asLocal .none ()

/-- What a callback is shown in the local build. -/
def localJournal (report : String) (s : Settings) : Journal :=
  (invoke Settings.acceptedTree (quiet report).toolchain s InvokeOptions.plain.asLocal
    Callback.none.recording ((), [])).state.2

/-- A build that is not local, behind the local build. -/
def buildBehind (report : String) (s : Settings) : Invocation Unit :=
  invoke (localBuild report s).files (quiet report).toolchain s .plain .none ()

/-- A report with carriage returns before line feeds alone is settled by one local build. -/
theorem reportChanged_behind_localBuild_crlf :
    ∃ s o o', Settings.prepare Settings.acceptedTree
        (Settings.stagingInput "<projectFolder>/temp") = .ok s ∧
      s.OutputsApart ∧ s.reportEnabled = true ∧
      (localBuild "a\r\nb\n" s).result = .ok o ∧ o.reportChanged = true ∧
      ¬ Notice.reportFolderMissing.IsIn (localJournal "a\r\nb\n" s) ∧
      (buildBehind "a\r\nb\n" s).result = .ok o' ∧ o'.reportChanged = false := by
  obtain ⟨s, hs, hrun⟩ : ∃ s, Settings.prepare Settings.acceptedTree
      (Settings.stagingInput "<projectFolder>/temp") = .ok s ∧
        ((localBuild "a\r\nb\n" s).result.toOption.map fun o => o.reportChanged &&
          decide s.OutputsApart && s.reportEnabled &&
            decide (¬ Notice.reportFolderMissing.IsIn (localJournal "a\r\nb\n" s)) &&
            s.reports.all fun r => decide ((quiet "a\r\nb\n").textOf s r = "a\r\nb\n")) =
          some true :=
    exists_ok_of_map (by decide +kernel)
  obtain ⟨o, ho, hparts⟩ := exists_ok_of_map hrun
  simp only [Bool.and_eq_true, decide_eq_true_eq, List.all_eq_true] at hparts
  obtain ⟨⟨⟨⟨hchanged, hapart⟩, henabled⟩, hfolder⟩, htext⟩ := hparts
  have hplain : HasPlainReturns "a\r\nb\n".toList := by
    have hnil : HasPlainReturns [] := hasPlainReturns_of_blank fun _ h => absurd h List.not_mem_nil
    simp [hasPlainReturns_cons, hnil]
  obtain ⟨o', ho', hsettled⟩ := reportChanged_behind_localBuild_iff (quiet "a\r\nb\n") hs hapart
    (show InvokeOptions.plain.asLocal.flags.localBuild = true from rfl)
    (show InvokeOptions.plain.flags.localBuild = false from rfl) rfl ho hfolder
  refine ⟨s, o, o', hs, hapart, henabled, ho, hchanged, hfolder, ho', hsettled.mpr fun _ r hr => ?_⟩
  rw [htext r hr]
  exact .inl hplain

/-- A report with a carriage return within a line is found changed behind the local build. -/
theorem not_settled_return :
    ∃ s o o', Settings.prepare Settings.acceptedTree
        (Settings.stagingInput "<projectFolder>/temp") = .ok s ∧
      s.OutputsApart ∧ (localBuild "a\rb\n" s).result = .ok o ∧
      ¬ Notice.reportFolderMissing.IsIn (localJournal "a\rb\n" s) ∧
      (buildBehind "a\rb\n" s).result = .ok o' ∧ o'.reportChanged = true := by
  obtain ⟨s, hs, hrun⟩ : ∃ s, Settings.prepare Settings.acceptedTree
      (Settings.stagingInput "<projectFolder>/temp") = .ok s ∧
        ((localBuild "a\rb\n" s).result.toOption.map fun _ =>
          (buildBehind "a\rb\n" s).result.toOption.map fun o' => o'.reportChanged &&
            decide s.OutputsApart &&
            decide (¬ Notice.reportFolderMissing.IsIn (localJournal "a\rb\n" s))) =
          some (some true) :=
    exists_ok_of_map (by decide +kernel)
  obtain ⟨o, ho, hrun⟩ := exists_ok_of_map hrun
  obtain ⟨o', ho', hparts⟩ := exists_ok_of_map hrun
  simp only [Bool.and_eq_true, decide_eq_true_eq] at hparts
  obtain ⟨⟨hchanged, hapart⟩, hfolder⟩ := hparts
  exact ⟨s, o, o', hs, hapart, ho, hfolder, ho', hchanged⟩

end Script

end ApiReview
