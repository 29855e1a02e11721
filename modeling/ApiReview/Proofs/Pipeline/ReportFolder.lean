import ApiReview.Proofs.Files.Folders
import ApiReview.Proofs.Pipeline.Baseline
import ApiReview.Proofs.Pipeline.Onward
import ApiReview.Proofs.Pipeline.Reports
import ApiReview.Proofs.Pipeline.Writing

/-!
# The folder of the accepted reports

Judging a report makes no folder: without one for its accepted form a local build counts an error
(`Job.failsForFolder_judge`), with one it counts none (`Job.hasFolder_judge`). But a report is
staged before it is judged, and staging makes the folder for fresh reports with all that it lies in
(`Job.isFolder_stageReport`). So the folder of the accepted reports is left absent exactly if the
other one is not below it (`Job.failsForFolder_reconcile_iff`).
-/

namespace ApiReview

variable {σ κ : Type}

theorem Run.exists_run_eq_ok {α : Type} {x : Run σ κ α} {s : Session σ κ} {a : α}
    (h : (x s).1.toOption = some a) : ∃ s', x s = (.ok a, s') :=
  ⟨(x s).2, Prod.ext (eq_ok_of_toOption h) rfl⟩

theorem Run.log_bind {α : Type} (level : Level) (notice : Notice) (text : String)
    (f : Unit → Run σ κ α) (s : Session σ κ) :
    (Run.log level notice text >>= f) s =
      f () { s with router := s.router.log level notice text } :=
  Run.bind_run_ok rfl f

namespace Job

/-- A report fails for the folder of its accepted form: that is told as one error and no warning,
and there is no folder behind it. -/
structure FailsForFolder (job : Job κ) (outcome : Reconciled) (s s' : Session σ κ) : Prop where
  outcome : outcome = .createFailed
  errors : s'.router.errors = s.router.errors + 1
  warnings : s'.router.warnings = s.router.warnings
  folder : s'.files.isFolder job.settings.reportFolder = false

/-- A report has a folder for its accepted form: it does not fail, no error is counted, and the
folder is there behind it. -/
structure HasFolder (job : Job κ) (outcome : Reconciled) (s s' : Session σ κ) : Prop where
  outcome : outcome ≠ .createFailed
  errors : s'.router.errors = s.router.errors
  folder : s'.files.isFolder job.settings.reportFolder = true

variable {job : Job κ} {r : ReportSpec} {s s' : Session σ κ} {text : String}
  {outcome : Reconciled}

/-! ## Judging -/

theorem not_isFile_reportPath {t : FileTree} (hs : job.settings.ReportsPlaced)
    (hr : r ∈ job.settings.reports) (hf : t.isFolder job.settings.reportFolder = false) :
    ¬ t.isFile (job.settings.reportPath r) = true := fun hfile => by
  rw [FileTree.isFolder_of_isFile_join hs.folder (hs.isName r hr) hfile] at hf
  cases hf

/-- Without a folder for its accepted form, a report fails in a local build. -/
theorem failsForFolder_judge (hs : job.settings.ReportsPlaced) (hr : r ∈ job.settings.reports)
    (hl : job.flags.localBuild = true) (hc : s.router.callback.KeepsLevels)
    (hf : s.files.isFolder job.settings.reportFolder = false)
    (h : job.judge r s.files text s = (.ok outcome, s')) : job.FailsForFolder outcome s s' := by
  rw [judge, if_neg (not_isFile_reportPath hs hr hf), acceptNewReport, hl,
    if_neg (by decide), Run.get_bind, hf, if_pos (by decide), Run.log_bind] at h
  obtain ⟨hok, rfl⟩ := Prod.mk.inj h
  obtain ⟨herrors, hwarnings⟩ := Router.counts_log hc .error .reportFolderMissing
    ("Unable to create the API report file. Please make sure the target folder exists:\n" ++
      job.settings.reportFolder.text)
  exact ⟨(Except.ok.inj hok).symm, herrors, hwarnings, hf⟩

/-- Comparing a report counts no error. -/
theorem errors_compareReport {actual expected : String} (hc : s.router.callback.KeepsLevels)
    (h : job.compareReport r actual expected s = (.ok outcome, s')) :
    outcome ≠ .createFailed ∧ s'.router.errors = s.router.errors := by
  rw [compareReport] at h
  split at h
  · rw [Run.log_bind] at h
    obtain ⟨hok, rfl⟩ := Prod.mk.inj h
    exact ⟨by rw [← Except.ok.inj hok]; decide, (Router.counts_log hc _ _ _).1⟩
  · split at h
    · rw [Run.log_bind] at h
      obtain ⟨_, s₁, hwrite, h⟩ := Run.bind_run_eq_ok h
      obtain ⟨hok, rfl⟩ := Prod.mk.inj h
      rw [(Run.write_eq_ok hwrite).2]
      exact ⟨by rw [← Except.ok.inj hok]; decide, (Router.counts_log hc _ _ _).1⟩
    · rw [Run.log_bind] at h
      obtain ⟨hok, rfl⟩ := Prod.mk.inj h
      exact ⟨by rw [← Except.ok.inj hok]; decide, (Router.counts_log hc _ _ _).1⟩

/-- With a folder for its accepted form, a report that is accepted in a local build is created. -/
theorem errors_acceptNewReport {actual : String} (hl : job.flags.localBuild = true)
    (hc : s.router.callback.KeepsLevels)
    (hf : s.files.isFolder job.settings.reportFolder = true)
    (h : job.acceptNewReport r actual s = (.ok outcome, s')) :
    outcome ≠ .createFailed ∧ s'.router.errors = s.router.errors := by
  rw [acceptNewReport, hl, if_neg (by decide), Run.get_bind, hf, if_neg (by decide)] at h
  obtain ⟨_, s₁, hwrite, h⟩ := Run.bind_run_eq_ok h
  rw [(Run.write_eq_ok hwrite).2, Run.log_bind] at h
  obtain ⟨hok, rfl⟩ := Prod.mk.inj h
  exact ⟨by rw [← Except.ok.inj hok]; decide, (Router.counts_log hc _ _ _).1⟩

/-- With a folder for its accepted form, a report does not fail for it. -/
theorem hasFolder_judge (hs : job.settings.ReportsPlaced) (hl : job.flags.localBuild = true)
    (hc : s.router.callback.KeepsLevels)
    (hf : s.files.isFolder job.settings.reportFolder = true)
    (h : job.judge r s.files text s = (.ok outcome, s')) : job.HasFolder outcome s s' := by
  have hgrows := (along_judge (Run.leads_writesOnly fun _ => True) job r
    ⟨hs.isAbsolute_reportPath r, trivial⟩ s.files text s).toGrows
  rw [h] at hgrows
  have counts : outcome ≠ .createFailed ∧ s'.router.errors = s.router.errors := by
    rw [judge] at h
    split at h
    · cases hread : s.files.readTextFile (job.settings.reportPath r) with
      | error cause =>
        rw [hread] at h
        cases (Prod.mk.inj h).1
      | ok expected =>
        rw [hread] at h
        exact errors_compareReport hc h
    · exact errors_acceptNewReport hl hc hf h
  exact ⟨counts.1, counts.2, hgrows.isFolder hs.folder hf⟩

/-! ## Staging -/

/-- Behind the staging of a report, the folder of the accepted reports is there exactly if it was
there before, or the folder for fresh reports lies in it. -/
theorem isFolder_stageReport (hs : job.settings.ReportsPlaced) (hr : r ∈ job.settings.reports)
    (hn : job.settings.reportFolder.IsNormal) (ht : job.settings.reportTempFolder.IsNormal)
    (hclosed : s.files.Closed) (h : job.stageReport r s = (.ok text, s')) :
    s'.files.isFolder job.settings.reportFolder = true ↔
      s.files.isFolder job.settings.reportFolder = true ∨
        job.settings.reportTempFolder.isUnderOrEqual job.settings.reportFolder = true := by
  obtain ⟨c, findings, -, -, hwrite, -⟩ := stageReport_eq_ok h
  have hp := hs.isAbsolute_stagedReportPath r
  have hfolder : FileTree.folderOf? (job.settings.stagedReportPath r) =
      some job.settings.reportTempFolder := FileTree.folderOf?_join_name ht (hs.isName r hr)
  constructor
  · intro hnew
    rw [Path.isUnderOrEqual_iff hs.tempFolder hs.folder]
    have hwritten : (s.files.writeText (job.settings.stagedReportPath r) text
        job.writeOptions).1.isFolder job.settings.reportFolder = true := by rwa [hwrite]
    exact hclosed.isFolder_writeText hp ht.isPlain hfolder hn.isPlain hwritten
  · rintro (hf | hunder)
    · have hgrows := s.files.grows_writeText hp text job.writeOptions
      rw [hwrite] at hgrows
      exact hgrows.isFolder hs.folder hf
    · have htemp := (FileTree.stands_writeText hp hwrite).2 _ hfolder
      exact FileTree.isFolder_of_isUnderOrEqual hn ht hunder htemp

/-- Staging a report counts no message. -/
theorem router_stageReport (h : job.stageReport r s = (.ok text, s')) :
    s'.router = { s.router with findings := s'.router.findings } := by
  obtain ⟨c, findings, -, -, -, hsession⟩ := stageReport_eq_ok h
  rw [hsession]

/-! ## Both -/

section Placed

variable (hs : job.settings.ReportsPlaced) (hn : job.settings.reportFolder.IsNormal)
  (ht : job.settings.reportTempFolder.IsNormal) (hl : job.flags.localBuild = true)

include hs hn ht hl

/-- Without a folder for its accepted form, and without one made on the way, a report fails. -/
theorem failsForFolder_reconcile (hr : r ∈ job.settings.reports)
    (hc : s.router.callback.KeepsLevels) (hclosed : s.files.Closed)
    (hmissing : s.files.isFolder job.settings.reportFolder = false)
    (hapart : job.settings.reportTempFolder.isUnderOrEqual job.settings.reportFolder = false)
    (h : job.reconcile r s = (.ok outcome, s')) : job.FailsForFolder outcome s s' := by
  rw [reconcile_eq] at h
  obtain ⟨text, s₁, hstage, h⟩ := Run.bind_run_eq_ok h
  rw [Run.get_bind] at h
  have hrouter := router_stageReport hstage
  have hnone : s₁.files.isFolder job.settings.reportFolder = false := by
    rw [← Bool.not_eq_true, isFolder_stageReport hs hr hn ht hclosed hstage, hmissing, hapart,
      or_self]
    exact Bool.false_ne_true
  have hjudged := failsForFolder_judge hs hr hl (by rw [hrouter]; exact hc) hnone h
  exact ⟨hjudged.outcome, by rw [hjudged.errors, hrouter], by rw [hjudged.warnings, hrouter],
    hjudged.folder⟩

/-- With a folder for its accepted form, be it made on the way, a report does not fail for it. -/
theorem hasFolder_reconcile (hr : r ∈ job.settings.reports)
    (hc : s.router.callback.KeepsLevels) (hclosed : s.files.Closed)
    (hthere : s.files.isFolder job.settings.reportFolder = true ∨
      job.settings.reportTempFolder.isUnderOrEqual job.settings.reportFolder = true)
    (h : job.reconcile r s = (.ok outcome, s')) : job.HasFolder outcome s s' := by
  rw [reconcile_eq] at h
  obtain ⟨text, s₁, hstage, h⟩ := Run.bind_run_eq_ok h
  rw [Run.get_bind] at h
  have hrouter := router_stageReport hstage
  have hfolder := (isFolder_stageReport hs hr hn ht hclosed hstage).mpr hthere
  have hjudged := hasFolder_judge hs hl (by rw [hrouter]; exact hc) hfolder h
  exact ⟨hjudged.outcome, by rw [hjudged.errors, hrouter], hjudged.folder⟩

end Placed

/-- Where the accepted reports have no folder, a report of a local build fails for that exactly if
the folder for fresh reports is neither this folder nor below it. Otherwise the folder is made with
the fresh report, and the report does not fail. -/
theorem failsForFolder_reconcile_iff {t : FileTree} {input : PrepareInput}
    (hprepare : Settings.prepare t input = .ok job.settings)
    (hproject : job.settings.projectFolder.normalize = job.settings.projectFolder)
    (hl : job.flags.localBuild = true) (hr : r ∈ job.settings.reports)
    (hc : s.router.callback.KeepsLevels) (hclosed : s.files.Closed)
    (hmissing : s.files.isFolder job.settings.reportFolder = false)
    (h : job.reconcile r s = (.ok outcome, s')) :
    (job.FailsForFolder outcome s s' ↔
      job.settings.reportTempFolder.isUnderOrEqual job.settings.reportFolder = false) ∧
    (job.settings.reportTempFolder.isUnderOrEqual job.settings.reportFolder = true →
      job.HasFolder outcome s s') := by
  have hs := Settings.reportsPlaced_of_prepare hprepare
  obtain ⟨hn, ht⟩ := Settings.isNormal_reportFolders hprepare hproject
  have below : job.settings.reportTempFolder.isUnderOrEqual job.settings.reportFolder = true →
      job.HasFolder outcome s s' := fun hunder =>
    hasFolder_reconcile hs hn ht hl hr hc hclosed (.inr hunder) h
  refine ⟨⟨fun hfails => ?_, fun hapart => ?_⟩, below⟩
  · exact Bool.eq_false_iff.mpr fun hunder => (below hunder).outcome hfails.outcome
  · exact failsForFolder_reconcile hs hn ht hl hr hc hclosed hmissing hapart h

/-- A project with no accepted report, and no folder for one. -/
def unreportedTree : FileTree :=
  FileTree.empty.withFile ["p".toList, "index.d.ts".toList] (.text "")

/-- A local build of a project. -/
def localBuild (settings : Settings) : Job ScriptedCollection :=
  ⟨settings, ⟨[], []⟩, (Script.quiet "new\n").toolchain, ⟨true, false⟩⟩

/-- With another folder for the fresh reports, a report fails for the folder that is missing. -/
theorem failsForFolder_reconcile_iff_apart :
    ∃ settings, Settings.prepare unreportedTree (Settings.stagingInput "<projectFolder>/temp") =
        .ok settings ∧
      ∃ outcome s', (localBuild settings).reconcile ⟨.complete, "p.api.md"⟩
          (Script.collected settings unreportedTree) = (.ok outcome, s') ∧
        (localBuild settings).FailsForFolder outcome (Script.collected settings unreportedTree)
          s' := by
  obtain ⟨settings, hprepare, hparts⟩ : ∃ settings,
      Settings.prepare unreportedTree (Settings.stagingInput "<projectFolder>/temp") =
        .ok settings ∧
      (settings.projectFolder, settings.reportFolder, settings.reportTempFolder, settings.reports,
        ((localBuild settings).reconcile ⟨.complete, "p.api.md"⟩
          (Script.collected settings unreportedTree)).1.toOption) =
      (⟨"/p"⟩, ⟨"/p/etc"⟩, ⟨"/p/temp"⟩, [⟨.complete, "p.api.md"⟩], some .createFailed) :=
    exists_ok_of_map (by decide +kernel)
  simp only [Prod.mk.injEq] at hparts
  obtain ⟨hproject, hfolder, htemp, hreports, houtcome⟩ := hparts
  obtain ⟨s', hrun⟩ := Run.exists_run_eq_ok houtcome
  have hapart : settings.reportTempFolder.isUnderOrEqual settings.reportFolder = false := by
    rw [hfolder, htemp]
    decide +kernel
  have hnormal : settings.projectFolder.normalize = settings.projectFolder := by
    rw [hproject]
    decide +kernel
  have hmissing : unreportedTree.isFolder settings.reportFolder = false := by
    rw [hfolder]
    decide +kernel
  have hmem : ⟨.complete, "p.api.md"⟩ ∈ settings.reports := by
    rw [hreports]
    exact List.mem_singleton_self _
  have hclosed : unreportedTree.Closed := by decide +kernel
  refine ⟨settings, hprepare, .createFailed, s', hrun, ?_⟩
  have hprepare' : Settings.prepare unreportedTree (Settings.stagingInput "<projectFolder>/temp") =
    .ok (localBuild settings).settings := hprepare
  exact (failsForFolder_reconcile_iff hprepare' hnormal rfl hmem Callback.keepsLevels_none hclosed
    hmissing hrun).1.mpr hapart

/-- With the folder for the fresh reports below the missing one, the report is created. -/
theorem not_failsForFolder_below :
    ∃ settings, Settings.prepare unreportedTree
        (Settings.stagingInput "<projectFolder>/etc/temp") = .ok settings ∧
      ⟨.complete, "p.api.md"⟩ ∈ settings.reports ∧
      unreportedTree.isFolder settings.reportFolder = false ∧
      ∃ outcome s', (localBuild settings).reconcile ⟨.complete, "p.api.md"⟩
          (Script.collected settings unreportedTree) = (.ok outcome, s') ∧
        ¬ (localBuild settings).FailsForFolder outcome (Script.collected settings unreportedTree)
          s' := by
  obtain ⟨settings, hprepare, hparts⟩ : ∃ settings,
      Settings.prepare unreportedTree (Settings.stagingInput "<projectFolder>/etc/temp") =
        .ok settings ∧
      (settings.reportFolder, settings.reports,
        ((localBuild settings).reconcile ⟨.complete, "p.api.md"⟩
          (Script.collected settings unreportedTree)).1.toOption) =
      (⟨"/p/etc"⟩, [⟨.complete, "p.api.md"⟩], some .created) :=
    exists_ok_of_map (by decide +kernel)
  simp only [Prod.mk.injEq] at hparts
  obtain ⟨hfolder, hreports, houtcome⟩ := hparts
  obtain ⟨s', hrun⟩ := Run.exists_run_eq_ok houtcome
  refine ⟨settings, hprepare, ?_, ?_, .created, s', hrun, fun hfails => ?_⟩
  · rw [hreports]
    exact List.mem_singleton_self _
  · rw [hfolder]
    decide +kernel
  · cases hfails.outcome

end Job

end ApiReview
