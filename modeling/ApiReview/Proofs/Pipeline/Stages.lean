import ApiReview.Pipeline.Stages
import ApiReview.Proofs.Pipeline.Reports
import ApiReview.Proofs.Pipeline.Steps

/-!
# A run around its reports

The stages of a run fall into those before the reports, the reports themselves, and those behind
them (`Job.run_eq`). What a run puts into the folder for fresh reports is told as the text that is
staged when a report has its turn (`Job.stagedText?`); a run that comes to a result has staged every
report (`Job.exists_stagedText`).
-/

namespace ApiReview

variable {σ κ : Type}

namespace Stage

/-- The stages that write no file: the analysis up to its model. -/
def analysis : List (Stage σ κ) :=
  [preamble, collect, docComments, validation, model]

/-- The stages before the reports. -/
def beforeReports : List (Stage σ κ) :=
  analysis ++ [modelFile]

/-- The stages behind the reports. -/
def behindReports : List (Stage σ κ) :=
  [rollup, metadata]

theorem standard_eq : (standard : List (Stage σ κ)) = beforeReports ++ report :: behindReports :=
  rfl

end Stage

namespace Job

/-- The wanted ones of some stages, one after another. -/
def goThrough (job : Job κ) (stages : List (Stage σ κ)) : Run σ κ Unit :=
  (stages.filter (·.isWanted job.settings)).forM fun stage => stage.run job

/-- The stage that writes the model, if it is wanted. -/
def wantedModel (job : Job κ) : Run σ κ Unit :=
  if job.settings.modelEnabled then job.writeModel else pure ()

/-- The stage of the reports, if it is wanted. -/
def wantedReports (job : Job κ) : Run σ κ Unit :=
  if job.settings.reportEnabled then job.settings.reports.forM job.reconcileNext else pure ()

theorem goThrough_append (job : Job κ) (first rest : List (Stage σ κ)) (s : Session σ κ) :
    job.goThrough (first ++ rest) s = (job.goThrough first >>= fun _ => job.goThrough rest) s := by
  rw [goThrough, List.filter_append]
  exact Run.forM_append_run _ _ _ s

theorem goThrough_singleton (job : Job κ) (stage : Stage σ κ) (s : Session σ κ) :
    job.goThrough [stage] s =
      (if stage.isWanted job.settings then stage.run job else pure ()) s := by
  rw [goThrough, List.filter_cons, List.filter_nil]
  split
  · rw [List.forM, Run.bind_run]
    rcases stage.run job s with ⟨e | u, s'⟩ <;> rfl
  · rfl

theorem goThrough_beforeReports (job : Job κ) (s : Session σ κ) :
    job.goThrough Stage.beforeReports s =
      (job.goThrough Stage.analysis >>= fun _ => job.wantedModel) s := by
  rw [Stage.beforeReports, goThrough_append, Run.bind_run, Run.bind_run]
  rcases job.goThrough Stage.analysis s with ⟨e | u, s'⟩
  · rfl
  · exact job.goThrough_singleton Stage.modelFile s'

theorem goThrough_reports (job : Job κ) (s : Session σ κ) :
    job.goThrough [Stage.report] s = job.wantedReports s :=
  job.goThrough_singleton Stage.report s

/-- A run: the stages before the reports, the reports, those behind them, and what is left. -/
theorem run_eq (job : Job κ) (s : Session σ κ) :
    job.run s = (job.goThrough Stage.beforeReports >>= fun _ => job.wantedReports >>= fun _ =>
      job.goThrough Stage.behindReports >>= fun _ => Run.route Router.flush) s := by
  have hreports : ∀ s : Session σ κ, job.goThrough (Stage.report :: Stage.behindReports) s =
      (job.wantedReports >>= fun _ => job.goThrough Stage.behindReports) s := fun s => by
    refine (job.goThrough_append [Stage.report] Stage.behindReports s).trans ?_
    rw [Run.bind_run, Run.bind_run, goThrough_reports]
  rw [run, runStages, ← goThrough, Stage.standard_eq, Run.bind_run, goThrough_append, Run.bind_run,
    Run.bind_run]
  rcases job.goThrough Stage.beforeReports s with ⟨e | u, s'⟩
  · rfl
  · simp only [hreports, Run.bind_run]
    rcases job.wantedReports s' with ⟨e | u, s''⟩ <;> rfl

/-- A run that comes to a result has come to one at each of its parts. -/
theorem exists_parts {job : Job κ} {s s' : Session σ κ} (h : job.run s = (.ok (), s')) :
    ∃ s₁ s₂ s₃ s₄, job.goThrough Stage.analysis s = (.ok (), s₁) ∧
      job.wantedModel s₁ = (.ok (), s₂) ∧ job.wantedReports s₂ = (.ok (), s₃) ∧
      job.goThrough Stage.behindReports s₃ = (.ok (), s₄) ∧ s'.files = s₄.files := by
  rw [run_eq] at h
  obtain ⟨_, s₂, hbefore, h⟩ := Run.bind_run_eq_ok h
  obtain ⟨_, s₃, hreports, h⟩ := Run.bind_run_eq_ok h
  obtain ⟨_, s₄, hbehind, h⟩ := Run.bind_run_eq_ok h
  rw [goThrough_beforeReports] at hbefore
  obtain ⟨_, s₁, hanalysis, hmodel⟩ := Run.bind_run_eq_ok hbefore
  obtain ⟨-, rfl⟩ := Prod.mk.inj h
  exact ⟨s₁, s₂, s₃, s₄, hanalysis, hmodel, hreports, hbehind, rfl⟩

/-! ## What is staged -/

/-- A run until a report has its turn. -/
def untilReport (job : Job κ) (r : ReportSpec) : Run σ κ Unit := do
  job.goThrough Stage.beforeReports
  (job.settings.reports.takeWhile (· ≠ r)).forM job.reconcileNext

/-- The text that a run puts into the folder for fresh reports as a report, if it comes to that. -/
def stagedText? (job : Job κ) (s : Session σ κ) (r : ReportSpec) : Option String :=
  match job.untilReport r s with
  | (.ok (), s') => (job.stageReport r s').1.toOption
  | (.error _, _) => none

theorem stagedText?_eq_some {job : Job κ} {s : Session σ κ} {r : ReportSpec} {text : String}
    (h : job.stagedText? s r = some text) :
    ∃ s' s'', job.untilReport r s = (.ok (), s') ∧ job.stageReport r s' = (.ok text, s'') := by
  rw [stagedText?] at h
  rcases hu : job.untilReport r s with ⟨e | u, s'⟩
  · rw [hu] at h
    cases h
  · rw [hu] at h
    rcases hs : job.stageReport r s' with ⟨e | text', s''⟩
    · simp only [hs] at h
      cases h
    · simp only [hs] at h
      cases h
      exact ⟨s', s'', rfl, hs⟩

/-- What a run makes of a report when that has its turn, if it comes to that. -/
def outcome? (job : Job κ) (s : Session σ κ) (r : ReportSpec) : Option Reconciled :=
  match job.untilReport r s with
  | (.ok (), s') => (job.reconcile r s').1.toOption
  | (.error _, _) => none

/-- A run behind a report, with the reports that are left. -/
def afterReport (job : Job κ) (rest : List ReportSpec) (outcome : Reconciled) : Run σ κ Unit := do
  modify fun s => { s with reportChanged := s.reportChanged || outcome.isChange }
  rest.forM job.reconcileNext
  job.goThrough Stage.behindReports
  Run.route Router.flush

theorem takeWhile_ne {before rest : List ReportSpec} {r : ReportSpec} (h : r ∉ before) :
    (before ++ r :: rest).takeWhile (· ≠ r) = before := by
  have hothers : ∀ a ∈ before, decide (a ≠ r) = true := fun a ha =>
    decide_eq_true fun e : a = r => h (e ▸ ha)
  rw [List.takeWhile_append_of_pos hothers, List.takeWhile_cons_of_neg (by simp), List.append_nil]

/-- A run around one of its reports. -/
theorem run_eq_of_append {job : Job κ} (he : job.settings.reportEnabled = true)
    {before rest : List ReportSpec} {r : ReportSpec}
    (hsplit : job.settings.reports = before ++ r :: rest) (hnew : r ∉ before) (s : Session σ κ) :
    job.run s = (job.untilReport r >>= fun _ => job.reconcile r >>= fun outcome =>
      job.afterReport rest outcome) s := by
  have hreports : (job.wantedReports : Run σ κ Unit) = before.forM job.reconcileNext >>= fun _ =>
      job.reconcileNext r >>= fun _ => rest.forM job.reconcileNext := by
    rw [wantedReports, if_pos he, hsplit]
    exact funext fun s => Run.forM_append_run _ _ _ s
  rw [run_eq, hreports, untilReport, hsplit, takeWhile_ne hnew]
  simp only [reconcileNext, afterReport, bind_assoc]

/-- A run with reports that comes to a result has gone up to each report, made something of it, and
gone on. -/
theorem exists_turn {job : Job κ} {s s' : Session σ κ} {r : ReportSpec}
    (he : job.settings.reportEnabled = true) (hr : r ∈ job.settings.reports)
    (h : job.run s = (.ok (), s')) :
    ∃ before rest s₁ outcome s₂, job.settings.reports = before ++ r :: rest ∧ r ∉ before ∧
      job.untilReport r s = (.ok (), s₁) ∧ job.reconcile r s₁ = (.ok outcome, s₂) ∧
      job.afterReport rest outcome s₂ = (.ok (), s') := by
  obtain ⟨before, rest, hsplit, hnew⟩ := List.eq_append_cons_of_mem hr
  rw [run_eq_of_append he hsplit hnew] at h
  obtain ⟨_, s₁, huntil, h⟩ := Run.bind_run_eq_ok h
  obtain ⟨outcome, s₂, hreconcile, hafter⟩ := Run.bind_run_eq_ok h
  exact ⟨before, rest, s₁, outcome, s₂, hsplit, hnew, huntil, hreconcile, hafter⟩

/-- A run with reports that comes to a result has staged each of them. -/
theorem exists_stagedText {job : Job κ} {s : Session σ κ} {r : ReportSpec}
    (he : job.settings.reportEnabled = true) (hr : r ∈ job.settings.reports)
    (h : (job.run s).1 = .ok ()) : ∃ text, job.stagedText? s r = some text := by
  obtain ⟨before, rest, s₁, outcome, s₂, -, -, huntil, hreconcile, -⟩ :=
    exists_turn he hr (show job.run s = (.ok (), (job.run s).2) from Prod.ext h rfl)
  rw [reconcile_eq] at hreconcile
  obtain ⟨text, s₃, hstage, -⟩ := Run.bind_run_eq_ok hreconcile
  refine ⟨text, ?_⟩
  rw [stagedText?, huntil]
  exact congrArg (fun x => Except.toOption x.1) hstage

end Job

end ApiReview
