import ApiReview.Files.Snapshot
import ApiReview.Pipeline.Reconcile
import ApiReview.Pipeline.Script
import ApiReview.Proofs.Pipeline.Steps
import ApiReview.Proofs.Settings.Prepare

/-!
# Accepted reports in a build that is not local

A build that is not local writes each fresh report into the folder for fresh reports, and nothing
else (`Job.files_reconcile`). If that is another folder than the one of the accepted reports, none
of them stands at a place that is written (`ReportsPlaced.keepsBaselines_of_folder_ne`). If it is
the same, the first report that is written takes the place of its accepted form before the two are
compared (`ReportsPlaced.not_keepsBaselines`).
-/

namespace ApiReview

open Run (Keeps)

namespace Settings

/-- Whatever comes of the stage of the reports in a build that is not local, each accepted report is
the file that it was, or absent as it was. A folder in the place of a report is no report. -/
def KeepsBaselines (s : Settings) : Prop :=
  ∀ (σ κ : Type) (job : Job κ) (session : Session σ κ), job.settings = s →
    job.flags.localBuild = false → ∀ r ∈ s.reports,
    (job.reconcileReports session).2.files.fileAt? (s.reportPath r) =
      session.files.fileAt? (s.reportPath r)

/-- In some tree the fresh form of a report can be written. -/
def Stageable (s : Settings) (r : ReportSpec) : Prop :=
  ∃ (t : FileTree) (text : String),
    (t.writeText (s.stagedReportPath r) text (.inStyle s.lineEnding)).2 = .ok ()

namespace ReportsPlaced

variable {s : Settings} {r r' : ReportSpec}

theorem place_reportPath (hs : s.ReportsPlaced) (hr : r ∈ s.reports) :
    (s.reportPath r).place = s.reportFolder.place ++ [r.fileName.toList] :=
  Path.place_join_name hs.folder (hs.isName r hr)

theorem place_stagedReportPath (hs : s.ReportsPlaced) (hr : r ∈ s.reports) :
    (s.stagedReportPath r).place = s.reportTempFolder.place ++ [r.fileName.toList] :=
  Path.place_join_name hs.tempFolder (hs.isName r hr)

/-- From different folders no accepted report stands where a fresh one is put. -/
theorem place_ne_of_folder_ne (hs : s.ReportsPlaced)
    (hf : s.reportFolder.normalize ≠ s.reportTempFolder.normalize) (hr : r ∈ s.reports)
    (hr' : r' ∈ s.reports) : (s.reportPath r).place ≠ (s.stagedReportPath r').place := by
  rw [hs.place_reportPath hr, hs.place_stagedReportPath hr']
  intro e
  have hp := (List.append_inj' e rfl).1
  exact hf ((Path.normalize_eq_iff hs.folder hs.tempFolder).mpr hp)

theorem place_ne_of_fileName_ne (hs : s.ReportsPlaced) (hr : r ∈ s.reports)
    (hr' : r' ∈ s.reports) (hn : r.fileName ≠ r'.fileName) :
    (s.reportPath r).place ≠ (s.stagedReportPath r').place := by
  rw [hs.place_reportPath hr, hs.place_stagedReportPath hr']
  intro e
  have hlast := List.singleton_inj.mp (List.append_inj' e rfl).2
  exact hn (String.toList_inj.mp hlast)

theorem place_eq_of_folder_eq (hs : s.ReportsPlaced)
    (hf : s.reportFolder.normalize = s.reportTempFolder.normalize) (hr : r ∈ s.reports) :
    (s.reportPath r).place = (s.stagedReportPath r).place := by
  rw [hs.place_reportPath hr, hs.place_stagedReportPath hr,
    (Path.normalize_eq_iff hs.folder hs.tempFolder).mp hf]

end ReportsPlaced

end Settings

namespace Job

variable {σ κ : Type}

/-- A report that is rendered from what was collected is written. -/
theorem stageReport_of_rendered {job : Job κ} {r : ReportSpec} {s : Session σ κ} {c : κ}
    {text : String} {findings : Findings} (hc : s.collection = some c)
    (hr : job.toolchain.renderReport c r s.router.findings = (.ok text, findings)) :
    ∃ s' : Session σ κ, job.stageReport r s =
      match s.files.writeText (job.settings.stagedReportPath r) text job.writeOptions with
      | (files, .ok ()) => (.ok text, { s' with files })
      | (files, .error cause) =>
        (.error (.unwritten .stagedReport (job.settings.stagedReportPath r) cause),
          { s' with files }) := by
  have hcollection : Run.collection s = (.ok c, s) := by rw [Run.collection_run, hc]
  have hask := Run.ask_run .report (job.toolchain.renderReport c r) s
  rw [hr] at hask
  refine ⟨{ s with router := { s.router with findings }, calls := s.calls ++ [.report] }, ?_⟩
  rw [stageReport, Run.bind_run_ok hcollection, Run.bind_run_ok hask, Run.bind_run, Run.write_run]
  rcases s.files.writeText (job.settings.stagedReportPath r) text job.writeOptions with
    ⟨files, e | _⟩ <;> rfl

theorem files_stageReport_of_rendered {job : Job κ} {r : ReportSpec} {s : Session σ κ} {c : κ}
    {text : String} {findings : Findings} (hc : s.collection = some c)
    (hr : job.toolchain.renderReport c r s.router.findings = (.ok text, findings)) :
    (job.stageReport r s).2.files =
      (s.files.writeText (job.settings.stagedReportPath r) text job.writeOptions).1 := by
  obtain ⟨s', hstage⟩ := stageReport_of_rendered hc hr
  rw [hstage]
  rcases s.files.writeText (job.settings.stagedReportPath r) text job.writeOptions with
    ⟨files, e | _⟩ <;> rfl

/-- Staging a report fails before it writes, or writes what the toolchain rendered. -/
theorem stageReport_cases (job : Job κ) (r : ReportSpec) (s : Session σ κ) :
    (∃ e s', job.stageReport r s = (.error e, s') ∧ s'.files = s.files) ∨
      ∃ c text findings, s.collection = some c ∧
        job.toolchain.renderReport c r s.router.findings = (.ok text, findings) := by
  cases hc : s.collection with
  | none =>
    have hcollection : Run.collection s = (.error .collectionUnset, s) := by
      rw [Run.collection_run, hc]
    exact .inl ⟨_, s, Run.bind_run_error hcollection _, rfl⟩
  | some c =>
    have hcollection : Run.collection s = (.ok c, s) := by rw [Run.collection_run, hc]
    have hask := Run.ask_run .report (job.toolchain.renderReport c r) s
    rcases hr : job.toolchain.renderReport c r s.router.findings with ⟨e | text, findings⟩
    · rw [hr] at hask
      refine .inl ⟨.toolchain e, { s with router := { s.router with findings } }, ?_, rfl⟩
      rw [stageReport, Run.bind_run_ok hcollection, Run.bind_run_error hask]
    · exact .inr ⟨c, text, findings, rfl, hr⟩

section NotLocal

variable {job : Job κ}

theorem keeps_compareReport (hl : job.flags.localBuild = false) (r : ReportSpec)
    (actual expected : String) :
    Keeps (·.files) (job.compareReport r actual expected : Run σ κ Reconciled) := by
  rw [compareReport]
  split
  · exact (Run.keeps_log _ _ _).bind fun _ => Run.keeps_pure _
  · rw [hl, if_neg Bool.false_ne_true]
    exact (Run.keeps_log _ _ _).bind fun _ => Run.keeps_pure _

theorem keeps_acceptNewReport (hl : job.flags.localBuild = false) (r : ReportSpec)
    (actual : String) : Keeps (·.files) (job.acceptNewReport r actual : Run σ κ Reconciled) := by
  rw [acceptNewReport, hl, if_pos Bool.not_false]
  exact (Run.keeps_log _ _ _).bind fun _ => Run.keeps_pure _

/-- Behind its staging, a report changes no files in a build that is not local. -/
theorem files_reconcile (hl : job.flags.localBuild = false) (r : ReportSpec) (s : Session σ κ) :
    (job.reconcile r s).2.files = (job.stageReport r s).2.files := by
  refine Run.view_bind (·.files) (fun actual => Run.keeps_get.bind fun now => ?_) s
  extract_lets files
  split
  · split
    · exact keeps_compareReport hl r actual _
    · exact Run.keeps_throw _
  · exact keeps_acceptNewReport hl r actual

/-- A file that stands elsewhere than where a report is staged stays as it is. -/
theorem keeps_fileAt?_reconcile (hl : job.flags.localBuild = false) {r : ReportSpec}
    (ha : (job.settings.stagedReportPath r).isAbsolute = true) {q : Path}
    (hq : q.place ≠ (job.settings.stagedReportPath r).place) :
    Keeps (·.files.fileAt? q) (job.reconcile r : Run σ κ Reconciled) := by
  intro s
  change (job.reconcile r s).2.files.fileAt? q = s.files.fileAt? q
  rw [files_reconcile hl]
  rcases job.stageReport_cases r s with ⟨e, s', hstage, hfiles⟩ | ⟨c, text, findings, hc, hr⟩
  · rw [hstage, hfiles]
  · rw [files_stageReport_of_rendered hc hr]
    exact s.files.fileAt?_writeText_of_ne ha hq text job.writeOptions

theorem keeps_fileAt?_reconcileReports (hl : job.flags.localBuild = false) {q : Path}
    (h : ∀ r ∈ job.settings.reports, (job.settings.stagedReportPath r).isAbsolute = true ∧
      q.place ≠ (job.settings.stagedReportPath r).place) :
    Keeps (·.files.fileAt? q) (job.reconcileReports : Run σ κ Unit) :=
  Run.keeps_forM fun r hr =>
    (keeps_fileAt?_reconcile hl (h r hr).1 (h r hr).2).bind fun _ => Run.keeps_modify fun _ => rfl

end NotLocal

/-- A report that can be written in no tree fails, and changes no file. -/
theorem reconcile_of_not_stageable {job : Job κ} {r : ReportSpec}
    (ha : (job.settings.stagedReportPath r).isAbsolute = true)
    (h : ¬ job.settings.Stageable r) (s : Session σ κ) :
    ∃ e s', job.reconcile r s = (.error e, s') ∧
      ∀ q, s'.files.fileAt? q = s.files.fileAt? q := by
  rcases job.stageReport_cases r s with ⟨e, s', hstage, hfiles⟩ | ⟨c, text, findings, hc, hr⟩
  · exact ⟨e, s', Run.bind_run_error hstage _, fun q => by rw [hfiles]⟩
  · have hw : (s.files.writeText (job.settings.stagedReportPath r) text
        job.writeOptions).2 ≠ .ok () := fun hok => h ⟨_, _, hok⟩
    have hkeep := s.files.fileAt?_writeText_of_error ha hw
    obtain ⟨s', hstage⟩ := stageReport_of_rendered hc hr
    rcases hwrite : s.files.writeText (job.settings.stagedReportPath r) text job.writeOptions with
      ⟨files, e | _⟩ <;> rw [hwrite] at hstage hkeep hw
    · exact ⟨_, _, Run.bind_run_error hstage _, hkeep⟩
    · exact absurd rfl hw

/-- A report that is rendered and can be written stands where it is staged. -/
theorem fileAt?_reconcile_of_rendered {job : Job κ} (hl : job.flags.localBuild = false)
    {r : ReportSpec} (ha : (job.settings.stagedReportPath r).isAbsolute = true)
    {s : Session σ κ} {c : κ} {text : String} {findings : Findings} (hc : s.collection = some c)
    (hr : job.toolchain.renderReport c r s.router.findings = (.ok text, findings))
    {other : String}
    (hw : (s.files.writeText (job.settings.stagedReportPath r) other job.writeOptions).2 =
      .ok ()) :
    (job.reconcile r s).2.files.fileAt? (job.settings.stagedReportPath r) =
      some (.text (job.writeOptions.stored text)) := by
  rw [files_reconcile hl, files_stageReport_of_rendered hc hr]
  exact s.files.fileAt?_writeText_of_ok ha hw text

/-- Where no later report is staged, a file is as the first report leaves it. -/
theorem fileAt?_reconcileReports_of_head (job : Job κ) (hl : job.flags.localBuild = false)
    {first : ReportSpec} {rest : List ReportSpec} (hreports : job.settings.reports = first :: rest)
    {q : Path} (h : ∀ r ∈ rest, (job.settings.stagedReportPath r).isAbsolute = true ∧
      q.place ≠ (job.settings.stagedReportPath r).place) (s : Session σ κ) :
    (job.reconcileReports s).2.files.fileAt? q = (job.reconcile first s).2.files.fileAt? q := by
  rw [reconcileReports, hreports]
  refine (Run.view_forM_cons (·.files.fileAt? q) (fun r hr => ?_) first s).trans ?_
  · exact (keeps_fileAt?_reconcile hl (h r hr).1 (h r hr).2).bind fun _ =>
      Run.keeps_modify fun _ => rfl
  · refine Run.view_bind (·.files.fileAt? q) (fun outcome => ?_) s
    exact Run.keeps_modify fun _ => rfl

end Job

/-! ## A scripted build -/

namespace Script

/-- A script with a report and no findings. -/
def quiet (report : String) : Script :=
  { standard with report }

theorem renderReport_quiet (report : String) (c : ScriptedCollection) (r : ReportSpec)
    {f : Findings} (hf : f.messages = []) :
    (quiet report).toolchain.renderReport c r f = (.ok report, f) := by
  have hclaim : claimAll [] f = (f, []) := by
    simp only [claimAll, Findings.claimRest, hf, List.length_nil, List.range_zero, Findings.claimAt,
      Findings.sorted, List.mergeSort_nil]
  have htext : (quiet report).reportText [] = report := String.append_empty
  change (Except.ok ((quiet report).reportText (claimAll [] f).2), (claimAll [] f).1) = _
  rw [hclaim, htext]

/-- A build with the script that is not local. -/
def build (script : Script) (settings : Settings) : Job ScriptedCollection :=
  ⟨settings, ⟨[], []⟩, script.toolchain, ⟨false, false⟩⟩

/-- The session of a build before its reports, with no finding yet. -/
def collected (settings : Settings) (t : FileTree) : Session Unit ScriptedCollection :=
  let s : Session Unit ScriptedCollection :=
    .start t (.start settings.messages .none () none ⟨false, false⟩)
  { s with collection := some ⟨[], false, false⟩ }

/-- The report of the script stands where it is staged, if any text can be written there. -/
theorem fileAt?_reconcile_quiet {settings : Settings} {r : ReportSpec}
    (ha : (settings.stagedReportPath r).isAbsolute = true) {t : FileTree} {other : String}
    (hw : (t.writeText (settings.stagedReportPath r) other (.inStyle settings.lineEnding)).2 =
      .ok ()) (report : String) :
    (((quiet report).build settings).reconcile r (collected settings t)).2.files.fileAt?
        (settings.stagedReportPath r) =
      some (.text ((WriteOptions.inStyle settings.lineEnding).stored report)) := by
  have hl : ((quiet report).build settings).flags.localBuild = false := rfl
  have hc : (collected settings t).collection = some ⟨[], false, false⟩ := rfl
  have hr := renderReport_quiet report ⟨[], false, false⟩ r
    (show (collected settings t).router.findings.messages = [] from rfl)
  exact Job.fileAt?_reconcile_of_rendered hl ha hc hr hw

end Script

namespace Settings

theorem exists_stored_ne (kind : LineEnding) (content : Option Content) :
    ∃ text, content ≠ some (.text ((WriteOptions.inStyle kind).stored text)) := by
  by_cases h : content = some (.text ((WriteOptions.inStyle kind).stored "a"))
  · refine ⟨"b", ?_⟩
    rw [h]
    cases kind <;> decide +kernel
  · exact ⟨"a", h⟩

namespace ReportsPlaced

variable {s : Settings}

theorem keepsBaselines_of_folder_ne (hs : s.ReportsPlaced)
    (hf : s.reportFolder.normalize ≠ s.reportTempFolder.normalize) : s.KeepsBaselines := by
  rintro σ κ job session rfl hl r hr
  exact Job.keeps_fileAt?_reconcileReports hl (fun r' hr' =>
    ⟨hs.isAbsolute_stagedReportPath r', hs.place_ne_of_folder_ne hf hr hr'⟩) session

/-- A first report that can be written nowhere ends the stage. -/
theorem keepsBaselines_of_not_stageable (hs : s.ReportsPlaced)
    (h : ∀ r, s.reports.head? = some r → ¬ s.Stageable r) : s.KeepsBaselines := by
  rintro σ κ job session rfl hl r hr
  cases hreports : job.settings.reports with
  | nil =>
    rw [hreports] at hr
    exact absurd hr List.not_mem_nil
  | cons first rest =>
    obtain ⟨e, s', hfails, hkeep⟩ := Job.reconcile_of_not_stageable
      (hs.isAbsolute_stagedReportPath first) (h first (by rw [hreports]; rfl)) session
    rw [Job.reconcileReports, hreports, List.forM,
      Run.bind_run_error (Run.bind_run_error hfails _)]
    exact hkeep _

/-- Into the folder of the accepted reports a build that is not local writes the first of them. -/
theorem not_keepsBaselines (hs : s.ReportsPlaced)
    (hf : s.reportFolder.normalize = s.reportTempFolder.normalize) {first : ReportSpec}
    (hfirst : s.reports.head? = some first) (h : s.Stageable first) : ¬ s.KeepsBaselines := by
  obtain ⟨t, other, hw⟩ := h
  -- A report whose stored form is not what stands there already.
  obtain ⟨text, hne⟩ := exists_stored_ne s.lineEnding (t.fileAt? (s.reportPath first))
  obtain ⟨rest, hreports⟩ := List.head?_eq_some_iff.mp hfirst
  have hmem : ∀ r ∈ first :: rest, r ∈ s.reports := fun r hr => hreports ▸ hr
  have hmemFirst := hmem first List.mem_cons_self
  -- The later reports have other names, so that none of them is staged at this place.
  have hdistinct := hs.distinct
  rw [hreports] at hdistinct
  have hlater := (List.pairwise_cons.mp hdistinct).1
  have hrest : ∀ r ∈ rest, (s.stagedReportPath r).isAbsolute = true ∧
      (s.reportPath first).place ≠ (s.stagedReportPath r).place := fun r hr =>
    ⟨hs.isAbsolute_stagedReportPath r, hs.place_ne_of_fileName_ne hmemFirst
      (hmem r (List.mem_cons_of_mem _ hr)) (hlater r hr)⟩
  intro keeps
  have hkept := keeps Unit ScriptedCollection ((Script.quiet text).build s)
    (Script.collected s t) rfl rfl first hmemFirst
  rw [Job.fileAt?_reconcileReports_of_head ((Script.quiet text).build s) rfl hreports hrest,
    FileTree.fileAt?_congr _ (hs.place_eq_of_folder_eq hf hmemFirst),
    Script.fileAt?_reconcile_quiet (hs.isAbsolute_stagedReportPath first) hw text] at hkept
  exact hne hkept.symm

end ReportsPlaced

/-- A build that is not local leaves the accepted reports alone exactly if the fresh ones are put
into another folder, or the first of them, if there is one, can be written in no tree. -/
theorem keepsBaselines_iff {t : FileTree} {input : PrepareInput} {s : Settings}
    (h : prepare t input = .ok s) :
    s.KeepsBaselines ↔ s.reportFolder.normalize ≠ s.reportTempFolder.normalize ∨
      ∀ r, s.reports.head? = some r → ¬ s.Stageable r := by
  have hs := reportsPlaced_of_prepare h
  constructor
  · intro keeps
    by_cases hf : s.reportFolder.normalize = s.reportTempFolder.normalize
    · exact .inr fun r hr hstageable => hs.not_keepsBaselines hf hr hstageable keeps
    · exact .inl hf
  · rintro (hf | hr)
    · exact hs.keepsBaselines_of_folder_ne hf
    · exact hs.keepsBaselines_of_not_stageable hr

/-- Settings whose accepted reports are kept in `etc`, with some folder for the fresh ones. -/
def stagingInput (folder : String) : PrepareInput where
  document := .object
    [("projectFolder", .string "/p"),
      ("mainEntryPointFilePath", .string "<projectFolder>/index.d.ts"),
      ("compiler", .object [("overrideTsconfig", .object [])]),
      ("apiReport", .object
        [("enabled", .boolean true),
          ("reportFileName", .string "p"),
          ("reportFolder", .string "<projectFolder>/etc"),
          ("reportTempFolder", .string folder)])]
  documentPath := none
  manifestPath := none
  manifest := none
  lookupFolder := none
  ignoreMissingEntryPoint := false
  docComments := none

/-- A project with an accepted report. -/
def acceptedTree : FileTree :=
  (FileTree.empty.withFile ["p".toList, "index.d.ts".toList] (.text "")).withFile
    ["p".toList, "etc".toList, "p.api.md".toList] (.text "old\n")

/-- With a folder for the fresh reports of its own the accepted report is left alone. -/
theorem keepsBaselines_apart :
    ∃ s, prepare acceptedTree (stagingInput "<projectFolder>/temp") = .ok s ∧
      s.KeepsBaselines := by
  obtain ⟨s, hs, hfolders⟩ : ∃ s, prepare acceptedTree (stagingInput "<projectFolder>/temp") =
      .ok s ∧ (s.reportFolder, s.reportTempFolder) = (⟨"/p/etc"⟩, ⟨"/p/temp"⟩) :=
    exists_ok_of_map (by decide +kernel)
  obtain ⟨hfolder, htemp⟩ := Prod.mk.inj hfolders
  refine ⟨s, hs, (keepsBaselines_iff hs).mpr (.inl ?_)⟩
  rw [hfolder, htemp]
  decide +kernel

/-- Into the folder of the accepted report the fresh one is put in its place. -/
theorem not_keepsBaselines_shared :
    ∃ s, prepare acceptedTree (stagingInput "<projectFolder>/etc") = .ok s ∧
      ¬ s.KeepsBaselines := by
  obtain ⟨s, hs, hparts⟩ : ∃ s, prepare acceptedTree (stagingInput "<projectFolder>/etc") =
      .ok s ∧ (s.reportFolder, s.reportTempFolder, s.reports, s.lineEnding) =
        (⟨"/p/etc"⟩, ⟨"/p/etc"⟩, [⟨.complete, "p.api.md"⟩], .crlf) :=
    exists_ok_of_map (by decide +kernel)
  simp only [Prod.mk.injEq] at hparts
  obtain ⟨hfolder, htemp, hreports, hending⟩ := hparts
  refine ⟨s, hs, (reportsPlaced_of_prepare hs).not_keepsBaselines (by rw [hfolder, htemp])
    (by rw [hreports]; rfl) ⟨acceptedTree, "", ?_⟩⟩
  rw [stagedReportPath, htemp, hending]
  exact eq_ok_of_toOption (by decide +kernel)

end Settings

end ApiReview
