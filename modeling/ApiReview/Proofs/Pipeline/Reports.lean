import ApiReview.Pipeline.Reconcile
import ApiReview.Proofs.Message.Accounting
import ApiReview.Proofs.Pipeline.Steps

/-!
# The stage of the reports, step by step

A report is staged, and then judged against its accepted form among the files that there are then.
Where a relation of sessions is led along by messages and by writing the two forms of a report, it
is by all that is done with the report (`along_reconcile`). What is staged is what the toolchain
rendered (`stageReport_eq_ok`), and only the rendering touches the findings
(`findings_reconcileNext`).
-/

namespace ApiReview

open Run (Along Keeps Leads)

namespace Run

variable {σ κ : Type}

theorem keeps_findings_log (level : Level) (notice : Notice) (text : String) :
    Keeps (·.router.findings) (log level notice text : Run σ κ Unit) :=
  keeps_modify fun s => s.router.findings_log level notice text

theorem keeps_findings_write (artifact : Artifact) (path : Path) (text : String)
    (options : WriteOptions) :
    Keeps (·.router.findings) (write artifact path text options : Run σ κ Unit) := fun s => by
  rw [write_run]
  rcases s.files.writeText path text options with ⟨files, _ | _⟩ <;> rfl

/-- Neither messages nor artifacts touch the findings. -/
theorem leads_findings : Leads (fun s s' : Session σ κ => s'.router.findings = s.router.findings)
    fun _ => True where
  toFollows := follows_view (·.router.findings)
  log := keeps_findings_log
  write artifact path text options _ := keeps_findings_write artifact path text options

end Run

namespace Job

variable {σ κ : Type}

/-- What is done with a report that was staged, with its accepted form among files. -/
def judge (job : Job κ) (r : ReportSpec) (files : FileTree) (actual : String) :
    Run σ κ Reconciled :=
  if files.isFile (job.settings.reportPath r) then
    match files.readTextFile (job.settings.reportPath r) with
    | .ok expected => job.compareReport r actual expected
    | .error cause => throw (.unreadableReport cause)
  else job.acceptNewReport r actual

theorem reconcile_eq (job : Job κ) (r : ReportSpec) :
    (job.reconcile r : Run σ κ Reconciled) =
      job.stageReport r >>= fun actual => get >>= fun s => job.judge r s.files actual := (rfl)

/-- One report of the stage. -/
def reconcileNext (job : Job κ) (r : ReportSpec) : Run σ κ Unit := do
  let outcome ← job.reconcile r
  modify fun s => { s with reportChanged := s.reportChanged || outcome.isChange }

theorem reconcileReports_eq (job : Job κ) :
    (job.reconcileReports : Run σ κ Unit) = job.settings.reports.forM job.reconcileNext := (rfl)

/-- A staged report was rendered from what was collected, and is written. -/
theorem stageReport_eq_ok {job : Job κ} {r : ReportSpec} {s s' : Session σ κ} {text : String}
    (h : job.stageReport r s = (.ok text, s')) :
    ∃ c findings, s.collection = some c ∧
      job.toolchain.renderReport c r s.router.findings = (.ok text, findings) ∧
      s.files.writeText (job.settings.stagedReportPath r) text job.writeOptions =
        (s'.files, .ok ()) ∧
      s' = { s with
        router := { s.router with findings }
        calls := s.calls ++ [.report]
        files := s'.files } := by
  obtain ⟨c, s₁, hcollection, h⟩ := Run.bind_run_eq_ok h
  obtain ⟨actual, s₂, hask, h⟩ := Run.bind_run_eq_ok h
  obtain ⟨_, s₃, hwrite, h⟩ := Run.bind_run_eq_ok h
  obtain ⟨hactual, rfl⟩ := Prod.mk.inj h
  obtain rfl : actual = text := Except.ok.inj hactual
  obtain ⟨hc, rfl⟩ := Run.collection_eq_ok hcollection
  obtain ⟨findings, hrender, rfl⟩ := Run.ask_eq_ok hask
  obtain ⟨hfiles, hsession⟩ := Run.write_eq_ok hwrite
  exact ⟨c, findings, hc, hrender, hfiles, hsession⟩

section Along

variable {R : Session σ κ → Session σ κ → Prop} {writes : Path → Prop} (hR : Leads R writes)
  (job : Job κ) (r : ReportSpec)

include hR

theorem along_stageReport
    (hask : ∀ work : Work String, Along R (Run.ask .report work : Run σ κ String))
    (hw : writes (job.settings.stagedReportPath r)) :
    Along R (job.stageReport r : Run σ κ String) :=
  hR.along_bind hR.along_collection fun _ => hR.along_bind (hask _) fun _ =>
    hR.along_bind (hR.write _ _ _ _ hw) fun _ => hR.along_pure _

variable (hw : writes (job.settings.reportPath r))

include hw

theorem along_compareReport (actual expected : String) :
    Along R (job.compareReport r actual expected : Run σ κ Reconciled) := by
  rw [compareReport]
  split
  · exact hR.along_bind (hR.log _ _ _) fun _ => hR.along_pure _
  · split
    · exact hR.along_bind (hR.log _ _ _) fun _ =>
        hR.along_bind (hR.write _ _ _ _ hw) fun _ => hR.along_pure _
    · exact hR.along_bind (hR.log _ _ _) fun _ => hR.along_pure _

theorem along_acceptNewReport (actual : String) :
    Along R (job.acceptNewReport r actual : Run σ κ Reconciled) := by
  rw [acceptNewReport]
  split
  · exact hR.along_bind (hR.log _ _ _) fun _ => hR.along_pure _
  · refine hR.along_bind hR.along_get fun s => ?_
    split
    · exact hR.along_bind (hR.log _ _ _) fun _ => hR.along_pure _
    · exact hR.along_bind (hR.write _ _ _ _ hw) fun _ =>
        hR.along_bind (hR.log _ _ _) fun _ => hR.along_pure _

theorem along_judge (files : FileTree) (actual : String) :
    Along R (job.judge r files actual : Run σ κ Reconciled) := by
  rw [judge]
  split
  · split
    · exact along_compareReport hR job r hw actual _
    · exact hR.along_throw _
  · exact along_acceptNewReport hR job r hw actual

theorem along_reconcile
    (hask : ∀ work : Work String, Along R (Run.ask .report work : Run σ κ String))
    (hstaged : writes (job.settings.stagedReportPath r)) :
    Along R (job.reconcile r : Run σ κ Reconciled) := by
  rw [reconcile_eq]
  exact hR.along_bind (along_stageReport hR job r hask hstaged) fun actual =>
    hR.along_bind hR.along_get fun s => along_judge hR job r hw s.files actual

end Along

/-- Behind its staging, a report changes no finding. -/
theorem findings_reconcileNext (job : Job κ) (r : ReportSpec) (s : Session σ κ) :
    (job.reconcileNext r s).2.router.findings = (job.stageReport r s).2.router.findings := by
  have hnext : (job.reconcileNext r s).2.router.findings =
      (job.reconcile r s).2.router.findings := by
    refine Run.view_bind (·.router.findings) (fun outcome => ?_) s
    exact Run.keeps_modify fun _ => rfl
  rw [hnext]
  exact Run.view_bind (·.router.findings) (fun actual => Run.keeps_get.bind fun now =>
    along_judge Run.leads_findings job r trivial now.files actual) s

end Job

end ApiReview
