import ApiReview.Proofs.Pipeline.Scripted
import ApiReview.Proofs.Pipeline.Writing

/-!
# What a local build leaves

A local build that comes to a result has written all its files (`Job.built_run`). Each of its
reports has an accepted form then, with the text that was staged as it is stored, unless the form
that was there was found up to date (`Job.settled_run`), or no folder for it was found.
-/

namespace ApiReview

open FileTree (Stands)

variable {σ κ : Type}

namespace Job

section Reconcile

variable {job : Job κ} {r : ReportSpec}

/-- How a report is left when its accepted form was found up to date, or was brought up to date. -/
structure Settled (job : Job κ) (r : ReportSpec) (text : String) (outcome : Reconciled)
    (t : FileTree) : Prop where
  staged : t.Stands (job.settings.stagedReportPath r)
  accepted : t.isFile (job.settings.reportPath r) = true
  content : ∃ content, t.fileAt? (job.settings.reportPath r) = some (.text content) ∧
    ((job.settings.reportPath r).place = (job.settings.stagedReportPath r).place →
      content = job.writeOptions.stored text) ∧
    if outcome = .unchanged then job.toolchain.sameReport text content = true
    else content = job.writeOptions.stored text

/-- What is written elsewhere leaves a settled report settled. -/
theorem Settled.writesOnly {text : String} {outcome : Reconciled} {t t' : FileTree}
    {places : Place → Prop} (h : job.Settled r text outcome t) (hs : job.settings.ReportsPlaced)
    (hw : FileTree.WritesOnly places t t') (hp : ¬ places (job.settings.reportPath r).place) :
    job.Settled r text outcome t' where
  staged := h.staged.grows (hs.isAbsolute_stagedReportPath r) hw.toGrows
  accepted := hw.isFile (hs.isAbsolute_reportPath r) h.accepted
  content := by
    rw [hw.elsewhere _ hp]
    exact h.content

/-- An accepted form that was just written is settled. -/
theorem settled_write (hs : job.settings.ReportsPlaced) {artifact : Artifact} {text : String}
    {options : WriteOptions} {outcome : Reconciled} (hne : outcome ≠ .unchanged)
    {s s' : Session σ κ} {u : Unit}
    (hstaged : s.files.Stands (job.settings.stagedReportPath r))
    (h : Run.write artifact (job.settings.reportPath r) text options s = (.ok u, s'))
    (ho : options.lineEnding = job.writeOptions.lineEnding) :
    job.Settled r text outcome s'.files := by
  have hp := hs.isAbsolute_reportPath r
  have hwrite := (Run.write_eq_ok h).1
  have hstored : options.stored text = job.writeOptions.stored text := by
    rw [WriteOptions.stored, WriteOptions.stored, ho]
  have hcontent := s.files.fileAt?_writeText_of_ok hp (congrArg Prod.snd hwrite) text
  have hgrows := s.files.grows_writeText hp text options
  rw [hwrite] at hcontent hgrows
  rw [hstored] at hcontent
  refine ⟨hstaged.grows (hs.isAbsolute_stagedReportPath r) hgrows, (Run.stands_write hp h).1,
    _, hcontent, fun _ => rfl, ?_⟩
  rw [if_neg hne]

theorem settled_compareReport (hs : job.settings.ReportsPlaced)
    (hl : job.flags.localBuild = true) {text expected : String} {s s' : Session σ κ}
    {outcome : Reconciled} (hstaged : s.files.Stands (job.settings.stagedReportPath r))
    (hfile : s.files.isFile (job.settings.reportPath r) = true)
    (hexpected : s.files.fileAt? (job.settings.reportPath r) = some (.text expected))
    (hsame : (job.settings.reportPath r).place = (job.settings.stagedReportPath r).place →
      expected = job.writeOptions.stored text)
    (h : job.compareReport r text expected s = (.ok outcome, s')) :
    job.Settled r text outcome s'.files := by
  rw [compareReport, hl] at h
  split at h
  · rename_i hequal
    obtain ⟨_, s₁, hlog, h⟩ := Run.bind_run_eq_ok h
    obtain ⟨hok, rfl⟩ := Prod.mk.inj h
    rw [(Run.keeps_log _ _ _).of_run hlog, ← Except.ok.inj hok]
    exact ⟨hstaged, hfile, expected, hexpected, hsame, hequal⟩
  · rw [if_pos rfl] at h
    obtain ⟨_, s₁, hlog, h⟩ := Run.bind_run_eq_ok h
    obtain ⟨_, s₂, hwrite, h⟩ := Run.bind_run_eq_ok h
    obtain ⟨hok, rfl⟩ := Prod.mk.inj h
    rw [← (Run.keeps_log _ _ _).of_run hlog] at hstaged
    rw [← Except.ok.inj hok]
    exact settled_write hs (by decide) hstaged hwrite rfl

theorem settled_acceptNewReport (hs : job.settings.ReportsPlaced)
    (hl : job.flags.localBuild = true) {text : String} {s s' : Session σ κ}
    {outcome : Reconciled} (hstaged : s.files.Stands (job.settings.stagedReportPath r))
    (h : job.acceptNewReport r text s = (.ok outcome, s')) (hne : outcome ≠ .createFailed) :
    job.Settled r text outcome s'.files := by
  rw [acceptNewReport, hl, if_neg (by decide), Run.get_bind] at h
  split at h
  · obtain ⟨_, s₁, -, h⟩ := Run.bind_run_eq_ok h
    exact absurd (Except.ok.inj (Prod.mk.inj h).1).symm hne
  · obtain ⟨_, s₁, hwrite, h⟩ := Run.bind_run_eq_ok h
    obtain ⟨_, s₂, hlog, h⟩ := Run.bind_run_eq_ok h
    obtain ⟨hok, rfl⟩ := Prod.mk.inj h
    rw [(Run.keeps_log _ _ _).of_run hlog, ← Except.ok.inj hok]
    exact settled_write hs (by decide) hstaged hwrite rfl

/-- In a local build a report is settled behind its turn, if it had a folder. -/
theorem settled_reconcile (hs : job.settings.ReportsPlaced) (hl : job.flags.localBuild = true)
    {s s' : Session σ κ} {outcome : Reconciled} (h : job.reconcile r s = (.ok outcome, s'))
    (hne : outcome ≠ .createFailed) :
    ∃ text, (job.stageReport r s).1 = .ok text ∧ job.Settled r text outcome s'.files := by
  have hstagedPath := hs.isAbsolute_stagedReportPath r
  have hp := hs.isAbsolute_reportPath r
  rw [reconcile_eq] at h
  obtain ⟨text, s₁, hstage, h⟩ := Run.bind_run_eq_ok h
  refine ⟨text, by rw [hstage], ?_⟩
  obtain ⟨_, _, -, -, hwrite, -⟩ := stageReport_eq_ok hstage
  have hstaged := FileTree.stands_writeText hstagedPath hwrite
  have hstored := s.files.fileAt?_writeText_of_ok hstagedPath (congrArg Prod.snd hwrite) text
  rw [hwrite] at hstored
  rw [Run.get_bind, judge] at h
  split at h
  · rename_i hfile
    cases hread : s₁.files.readTextFile (job.settings.reportPath r) with
    | error cause =>
      rw [hread] at h
      cases (Prod.mk.inj h).1
    | ok expected =>
      rw [hread] at h
      have hexpected := FileTree.fileAt?_of_readText hp (mapError_eq_ok hread)
      refine settled_compareReport hs hl hstaged hfile hexpected (fun hplace => ?_) h
      -- In one folder, what is compared is what was just staged.
      rw [s₁.files.fileAt?_congr hplace, hstored] at hexpected
      exact (Content.text.inj (Option.some.inj hexpected)).symm
  · exact settled_acceptNewReport hs hl hstaged h hne

end Reconcile

/-! ## Whole runs -/

/-- The places of all files that a run produces. -/
def Places (job : Job κ) (place : Place) : Prop :=
  ∃ path ∈ job.settings.otherOutputs ++ job.settings.reportOutputs, place = path.place

section Placed

variable {job : Job κ} (hs : job.settings.ReportsPlaced)

include hs

theorem writesOnly_wantedReports :
    Run.WritesOnly job.Places (job.wantedReports : Run σ κ Unit) := by
  rw [wantedReports]
  split
  · rename_i he
    refine (writesOnly_reports hs _).weaken ?_
    rintro place ⟨r, hr, hplace⟩
    rw [Places, Settings.reportOutputs, if_pos he]
    rcases hplace with h | h
    · exact ⟨_, List.mem_append_right _ (List.mem_append_left _ (List.mem_map_of_mem hr)), h⟩
    · exact ⟨_, List.mem_append_right _ (List.mem_append_right _ (List.mem_map_of_mem hr)), h⟩
  · exact Run.writesOnly_of_keeps (Run.keeps_pure _)

theorem writesOnly_afterReport (ho : job.settings.OutputsPlaced) (rest : List ReportSpec)
    (outcome : Reconciled) :
    Run.WritesOnly (fun place => (∃ r ∈ rest, job.ReportPlaces r place) ∨ job.OtherPlaces place)
      (job.afterReport rest outcome : Run σ κ Unit) := by
  rw [afterReport]
  refine Run.WritesOnly.bind ?_ fun _ => ?_
  · exact Run.writesOnly_of_keeps (Run.keeps_modify fun _ => rfl)
  refine ((writesOnly_reports hs rest).weaken fun _ h => .inl h).bind fun _ => ?_
  refine ((writesOnly_behindReports ho).weaken fun _ h => .inr h).bind fun _ => ?_
  exact Run.writesOnly_of_keeps (Run.keeps_route _)

/-- The accepted form of a report stands apart from later reports and from the other files. -/
theorem reportPath_apart (ha : job.settings.OutputsApart)
    (he : job.settings.reportEnabled = true) {before rest : List ReportSpec} {r : ReportSpec}
    (hsplit : job.settings.reports = before ++ r :: rest) :
    ¬ ((∃ r' ∈ rest, job.ReportPlaces r' (job.settings.reportPath r).place) ∨
      job.OtherPlaces (job.settings.reportPath r).place) := by
  have hr : r ∈ job.settings.reports := hsplit ▸ List.mem_append_right _ List.mem_cons_self
  rintro (⟨r', hr', hplace⟩ | ⟨path, hpath, hplace⟩)
  · have hlater : r' ∈ job.settings.reports :=
      hsplit ▸ List.mem_append_right _ (List.mem_cons_of_mem _ hr')
    have hdistinct := hs.distinct
    rw [hsplit] at hdistinct
    have hname : r.fileName ≠ r'.fileName :=
      (List.pairwise_cons.mp (List.pairwise_append.mp hdistinct).2.1).1 r' hr'
    rcases hplace with hplace | hplace
    · exact hs.place_ne_of_fileName_ne hr hlater hname hplace
    · rw [hs.place_reportPath hr, hs.place_reportPath hlater] at hplace
      have hlast := List.singleton_inj.mp (List.append_inj' hplace rfl).2
      exact hname (String.toList_inj.mp hlast)
  · exact ha.reports he r hr path hpath hplace

/-- Behind a local build each report is settled, with what was made of it at its turn. -/
theorem settled_run (ho : job.settings.OutputsPlaced) (ha : job.settings.OutputsApart)
    (hl : job.flags.localBuild = true) (he : job.settings.reportEnabled = true)
    {s s' : Session σ κ} (h : job.run s = (.ok (), s')) {r : ReportSpec}
    (hr : r ∈ job.settings.reports) (hne : job.outcome? s r ≠ some .createFailed) :
    ∃ text outcome, job.stagedText? s r = some text ∧ job.outcome? s r = some outcome ∧
      job.Settled r text outcome s'.files := by
  obtain ⟨before, rest, s₁, outcome, s₂, hsplit, -, huntil, hreconcile, hafter⟩ :=
    exists_turn he hr h
  have houtcome : job.outcome? s r = some outcome := by
    rw [outcome?, huntil]
    exact congrArg (fun x => Except.toOption x.1) hreconcile
  have hfolder : outcome ≠ .createFailed := fun e => hne (houtcome.trans (congrArg some e))
  obtain ⟨text, hstage, hsettled⟩ := settled_reconcile hs hl hreconcile hfolder
  have htext : job.stagedText? s r = some text := by
    rw [stagedText?, huntil]
    exact congrArg Except.toOption hstage
  have hwrites := (writesOnly_afterReport hs ho rest outcome).of_run hafter
  exact ⟨text, outcome, htext, houtcome,
    hsettled.writesOnly hs hwrites (reportPath_apart hs ha he hsplit)⟩

/-- A run whose reports are settled has built all its files. -/
theorem built_run (ho : job.settings.OutputsPlaced) {s s' : Session σ κ}
    (h : job.run s = (.ok (), s'))
    (hsettled : job.settings.reportEnabled = true → ∀ r ∈ job.settings.reports,
      ∃ text outcome, job.Settled r text outcome s'.files) : job.settings.Built s'.files := by
  obtain ⟨s₁, s₂, s₃, s₄, -, hmodel, hreports, hbehind, hfiles⟩ := exists_parts h
  have hg₃ := ((writesOnly_wantedReports hs).of_run hreports).toGrows
  have hg₄ := ((writesOnly_behindReports ho).of_run hbehind).toGrows
  rw [goThrough_behindReports] at hbehind
  obtain ⟨_, s₅, hrollups, hmetadata⟩ := Run.bind_run_eq_ok hbehind
  have hg₅ := ((writesOnly_wantedMetadata ho).of_run hmetadata).toGrows
  rw [← hfiles] at hg₄ hg₅
  refine ⟨fun he => ?_, fun he tier path hp => ?_, fun he => ?_, fun he r hr => ?_,
    fun he r hr => ?_⟩
  · obtain ⟨path, hp, hstands⟩ := stands_wantedModel ho hmodel he
    exact ⟨path, hp, hstands.grows (ho.model path hp) (hg₃.trans hg₄)⟩
  · exact (stands_wantedRollups ho hrollups he tier path hp).grows (ho.rollup tier path hp) hg₅
  · rw [hfiles]
    exact stands_wantedMetadata ho hmetadata he
  · obtain ⟨text, outcome, hreport⟩ := hsettled he r hr
    exact hreport.staged
  · obtain ⟨text, outcome, hreport⟩ := hsettled he r hr
    exact hreport.accepted

end Placed

/-- A run with a scripted toolchain writes to the places of its files alone. -/
theorem writesOnly_run {script : Script} {job : Job ScriptedCollection}
    (ht : job.toolchain = script.toolchain) (hs : job.settings.ReportsPlaced)
    (ho : job.settings.OutputsPlaced) {s s' : Session σ ScriptedCollection}
    (h : job.run s = (.ok (), s')) : FileTree.WritesOnly job.Places s.files s'.files := by
  obtain ⟨s₁, s₂, s₃, s₄, hanalysis, hmodel, hreports, hbehind, hfiles⟩ := exists_parts h
  obtain ⟨router, calls, hrun, -, -⟩ := analysis_run ht s
  have hfirst : s₁.files = s.files := by
    rw [← (Prod.mk.inj (hrun.symm.trans hanalysis)).2]
  have hother : ∀ place, job.OtherPlaces place → job.Places place :=
    fun place ⟨path, hp, hplace⟩ => ⟨path, List.mem_append_left _ hp, hplace⟩
  have hw₂ := ((writesOnly_wantedModel ho).weaken hother).of_run hmodel
  have hw₃ := (writesOnly_wantedReports hs).of_run hreports
  have hw₄ := ((writesOnly_behindReports ho).weaken hother).of_run hbehind
  rw [hfiles, ← hfirst]
  exact (hw₂.trans hw₃).trans hw₄

end Job

end ApiReview
