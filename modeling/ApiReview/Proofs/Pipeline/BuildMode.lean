import ApiReview.Pipeline.Invoke
import ApiReview.Pipeline.Script
import ApiReview.Proofs.Outcome
import ApiReview.Proofs.Pipeline.Artifacts
import ApiReview.Proofs.Pipeline.Baseline
import ApiReview.Proofs.Pipeline.Onward
import ApiReview.Proofs.Pipeline.Reports

/-!
# Local builds and other builds

The build mode matters only for a report that differs from its accepted form, and for what is made
of warnings at the end. Where it matters for a report, a warning comes first
(`Job.agrees_reconcileReports`): a build that is not local and has counted no warning has gone the
way of the local build. So a build that is not local and succeeds is the local build of the same
project in all that it gives, writes and prints (`invoke_localBuild_of_succeeded`).
-/

namespace ApiReview

namespace Job

open Run (Onward Agrees onward_pure onward_get onward_collection onward_ask onward_route
  leads_onward)

variable {σ κ : Type} {job : Job κ}

/-! ## Stages that do not look at the build mode -/

theorem onward_preamble (job : Job κ) : Onward (job.preamble : Run σ κ Unit) := fun s => by
  obtain ⟨router, hrun, htells⟩ := telling_preamble Router.telling_tells job s
  rw [hrun]
  exact Session.onward_of_router htells.toOnward rfl

/-- What was collected is put into the session. -/
theorem onward_collected (c : κ) :
    Onward (modify fun s => { s with collection := some c } : Run σ κ PUnit) :=
  Run.onward_modify fun _ => Session.onward_of_router (.refl _) rfl

theorem onward_collect (job : Job κ) : Onward (job.collect : Run σ κ Unit) :=
  (onward_ask _ _).bind onward_collected

theorem onward_attachDocComments (job : Job κ) : Onward (job.attachDocComments : Run σ κ Unit) :=
  onward_collection.bind fun _ => (onward_ask _ _).bind onward_collected

theorem onward_validate (job : Job κ) : Onward (job.validate : Run σ κ Unit) :=
  onward_collection.bind fun _ => (onward_ask _ _).bind onward_collected

theorem onward_buildModel (job : Job κ) : Onward (job.buildModel : Run σ κ Unit) := by
  refine onward_collection.bind fun _ => (onward_ask _ _).bind fun _ => Onward.bind ?_ fun _ =>
    onward_route fun r => (r.tells_logDiagnostic "").toOnward
  exact Run.onward_modify fun _ => Session.onward_of_router (.refl _) rfl

/-! ## Reports -/

theorem onward_stageReport (job : Job κ) (r : ReportSpec) :
    Onward (job.stageReport r : Run σ κ String) :=
  along_stageReport leads_onward job r (onward_ask _) trivial

theorem onward_judge (job : Job κ) (r : ReportSpec) (files : FileTree) (actual : String) :
    Onward (job.judge r files actual : Run σ κ Reconciled) :=
  along_judge leads_onward job r trivial files actual

theorem onward_reconcile (job : Job κ) (r : ReportSpec) :
    Onward (job.reconcile r : Run σ κ Reconciled) :=
  along_reconcile leads_onward job r trivial (onward_ask _) trivial

/-- The job as a local build. -/
def asLocal (job : Job κ) : Job κ :=
  { job with flags := { job.flags with localBuild := true } }

section NotLocal

/-- A report that is found changed has been warned of. -/
theorem warned_compareReport (hl : job.flags.localBuild = false) {r : ReportSpec}
    {actual expected : String} {s s' : Session σ κ} {outcome : Reconciled}
    (hc : s.router.callback.KeepsLevels)
    (h : job.compareReport r actual expected s = (.ok outcome, s'))
    (ho : outcome.isChange = true) : 0 < s'.router.warnings := by
  rw [compareReport] at h
  split at h
  · cases (Prod.mk.inj h).1
    exact absurd ho Bool.false_ne_true
  · rw [hl, if_neg Bool.false_ne_true] at h
    obtain ⟨-, rfl⟩ := Prod.mk.inj h
    exact Router.warned_log hc _ _

theorem warned_acceptNewReport (hl : job.flags.localBuild = false) {r : ReportSpec}
    {actual : String} {s s' : Session σ κ} {outcome : Reconciled}
    (hc : s.router.callback.KeepsLevels)
    (h : job.acceptNewReport r actual s = (.ok outcome, s')) : 0 < s'.router.warnings := by
  rw [acceptNewReport, hl, if_pos Bool.not_false] at h
  obtain ⟨-, rfl⟩ := Prod.mk.inj h
  exact Router.warned_log hc _ _

theorem warned_judge (hl : job.flags.localBuild = false) {r : ReportSpec} {files : FileTree}
    {actual : String} {s s' : Session σ κ} {outcome : Reconciled}
    (hc : s.router.callback.KeepsLevels)
    (h : job.judge r files actual s = (.ok outcome, s')) (ho : outcome.isChange = true) :
    0 < s'.router.warnings := by
  rw [judge] at h
  split at h
  · cases hread : files.readTextFile (job.settings.reportPath r) with
    | error cause =>
      rw [hread] at h
      cases (Prod.mk.inj h).1
    | ok expected =>
      rw [hread] at h
      exact warned_compareReport hl hc h ho
  · exact warned_acceptNewReport hl hc h

theorem warned_reconcile (hl : job.flags.localBuild = false) {r : ReportSpec}
    {s s' : Session σ κ} {outcome : Reconciled} (hc : s.router.callback.KeepsLevels)
    (h : job.reconcile r s = (.ok outcome, s')) (ho : outcome.isChange = true) :
    0 < s'.router.warnings := by
  have hstage := onward_stageReport job r s
  rw [reconcile_eq] at h
  rcases hr : job.stageReport r s with ⟨e | actual, s₁⟩
  · rw [Run.bind_run_error hr] at h
    cases (Prod.mk.inj h).1
  · rw [hr] at hstage
    rw [Run.bind_run_ok hr, Run.get_bind] at h
    exact warned_judge hl (hstage.router.callback.symm ▸ hc) h ho

theorem onward_reconcileNext (hl : job.flags.localBuild = false) (r : ReportSpec) :
    Onward (job.reconcileNext r : Run σ κ Unit) := fun s => by
  have hs := onward_reconcile job r s
  rw [reconcileNext]
  rcases hr : job.reconcile r s with ⟨e | outcome, s'⟩
  · rw [Run.bind_run_error hr]
    rwa [hr] at hs
  · rw [Run.bind_run_ok hr]
    rw [hr] at hs
    refine ⟨hs.router, fun hc hchanged => ?_⟩
    have hwarned := warned_reconcile hl hc hr
    rcases Bool.or_eq_true_iff.mp hchanged with hbefore | hnow
    · exact hs.told hc hbefore
    · exact .inr (hwarned hnow)

theorem onward_reconcileReports (hl : job.flags.localBuild = false) :
    Onward (job.reconcileReports : Run σ κ Unit) :=
  Run.onward_forM fun r _ => onward_reconcileNext hl r

theorem agrees_compareReport (hl : job.flags.localBuild = false) (r : ReportSpec)
    (actual expected : String) :
    Agrees (job.asLocal.compareReport r actual expected : Run σ κ Reconciled)
      (job.compareReport r actual expected) := by
  rw [compareReport, compareReport]
  show Agrees (if job.toolchain.sameReport actual expected = true then _ else _)
    (if job.toolchain.sameReport actual expected = true then _ else _)
  split
  · exact .refl _
  · rw [hl, if_neg Bool.false_ne_true]
    exact Run.agrees_of_warning _ _ _ fun _ => onward_pure _

theorem agrees_acceptNewReport (hl : job.flags.localBuild = false) (r : ReportSpec)
    (actual : String) :
    Agrees (job.asLocal.acceptNewReport r actual : Run σ κ Reconciled)
      (job.acceptNewReport r actual) := by
  rw [acceptNewReport, acceptNewReport, hl, if_pos Bool.not_false]
  exact Run.agrees_of_warning _ _ _ fun _ => onward_pure _

theorem agrees_judge (hl : job.flags.localBuild = false) (r : ReportSpec) (files : FileTree)
    (actual : String) :
    Agrees (job.asLocal.judge r files actual : Run σ κ Reconciled)
      (job.judge r files actual) := by
  have hsettings : job.asLocal.settings = job.settings := rfl
  rw [judge, judge, hsettings]
  split
  · split
    · exact agrees_compareReport hl r actual _
    · exact .refl _
  · exact agrees_acceptNewReport hl r actual

theorem agrees_reconcile (hl : job.flags.localBuild = false) (r : ReportSpec) :
    Agrees (job.asLocal.reconcile r : Run σ κ Reconciled) (job.reconcile r) := by
  have hjudge : ∀ actual : String, Onward (get >>= fun s : Session σ κ =>
      job.judge r s.files actual) := fun actual =>
    onward_get.bind fun s => onward_judge job r s.files actual
  exact (Agrees.refl (job.stageReport r)).bind (onward_stageReport job r) (fun actual =>
    (Agrees.refl get).bind onward_get (fun s => agrees_judge hl r s.files actual) fun s =>
      onward_judge job r s.files actual) hjudge

theorem agrees_reconcileReports (hl : job.flags.localBuild = false) :
    Agrees (job.asLocal.reconcileReports : Run σ κ Unit) job.reconcileReports := by
  rw [reconcileReports_eq, reconcileReports_eq]
  refine Run.agrees_forM (fun r _ s hc => ?_) fun r _ => onward_reconcileNext hl r
  -- The build mode is not looked at when it is noted whether the report changed.
  have hs := agrees_reconcile hl r s hc
  have hw : (job.reconcileNext r s).2.router.warnings =
      (job.reconcile r s).2.router.warnings := by
    refine Run.view_bind (·.router.warnings) (fun outcome => ?_) s
    exact Run.keeps_modify fun _ => rfl
  rw [hw]
  refine hs.imp_right fun he => ?_
  rw [reconcileNext, reconcileNext, Run.bind_run, Run.bind_run, he]

/-! ## Whole runs -/

theorem onward_stages (hl : job.flags.localBuild = false) :
    ∀ stage ∈ Stage.standard, Onward (stage.run job : Run σ κ Unit) := by
  simp only [Stage.standard, List.forall_mem_cons]
  exact ⟨onward_preamble job, onward_collect job, onward_attachDocComments job,
    onward_validate job, onward_buildModel job,
    along_writeModel leads_onward job fun _ _ => trivial, onward_reconcileReports hl,
    along_writeRollups leads_onward job (onward_ask _) fun _ _ _ => trivial,
    along_writeMetadata leads_onward job fun _ _ => trivial, fun _ h => absurd h List.not_mem_nil⟩

theorem agrees_stages (hl : job.flags.localBuild = false) :
    ∀ stage ∈ Stage.standard, Agrees (stage.run job.asLocal : Run σ κ Unit) (stage.run job) := by
  simp only [Stage.standard, List.forall_mem_cons]
  exact ⟨.refl _, .refl _, .refl _, .refl _, .refl _, .refl _, agrees_reconcileReports hl,
    .refl _, .refl _, fun _ h => absurd h List.not_mem_nil⟩

theorem onward_wanted (hl : job.flags.localBuild = false) :
    Onward ((Stage.standard.filter (·.isWanted job.settings)).forM fun stage =>
      (stage.run job : Run σ κ Unit)) :=
  Run.onward_forM fun stage hm => onward_stages hl stage (List.mem_filter.mp hm).1

theorem onward_run (hl : job.flags.localBuild = false) : Onward (job.run : Run σ κ Unit) :=
  (onward_wanted hl).bind fun _ => onward_route Router.onward_flush

theorem agrees_run (hl : job.flags.localBuild = false) :
    Agrees (job.asLocal.run : Run σ κ Unit) job.run := by
  refine (Run.agrees_forM (fun stage hm => ?_) fun stage hm => ?_).bind (onward_wanted hl)
    (fun _ => .refl _) fun _ => onward_route Router.onward_flush
  · exact agrees_stages hl stage (List.mem_filter.mp hm).1
  · exact onward_stages hl stage (List.mem_filter.mp hm).1

end NotLocal

end Job

/-- The options of the same run as a local build. -/
def InvokeOptions.asLocal (options : InvokeOptions) : InvokeOptions :=
  { options with flags := { options.flags with localBuild := true } }

namespace Invocation

variable {σ κ : Type}

/-- A job that is not a local build and comes to a good end has found no report changed and counted
neither errors nor warnings, and is the same as a local build. -/
theorem ofJob_asLocal (job : Job κ) (s : Session σ κ) {o : Outcome}
    (hl : job.flags.localBuild = false) (hc : s.router.callback.KeepsLevels)
    (hb : s.reportChanged = false) (h : (ofJob job s).result = .ok o)
    (hs : o.succeeded = true) :
    o.reportChanged = false ∧ o.errors = 0 ∧ o.warnings = 0 ∧
      ofJob job.asLocal s = ofJob job s := by
  have honward := Job.onward_run hl s
  have hagrees := Job.agrees_run hl s hc
  rcases hr : job.run s with ⟨e | u, s'⟩
  · rw [ofJob, hr] at h
    cases h
  · rw [ofJob, hr] at h
    rw [hr] at honward hagrees
    obtain rfl : outcome job s' = o := Except.ok.inj h
    -- Of the two ways to be good, only that without warnings is open here.
    have hgood : s'.router.errors = 0 ∧ s'.router.warnings = 0 := by
      simpa only [outcome, Session.succeeded, hl, Bool.false_or, Bool.and_eq_true,
        decide_eq_true_eq] using hs
    obtain ⟨herrors, hwarnings⟩ := hgood
    have hunwarned : ¬ 0 < s'.router.warnings := by omega
    have hsame : job.asLocal.run s = (.ok u, s') := hagrees.resolve_left hunwarned
    refine ⟨?_, herrors, hwarnings, ?_⟩
    · refine Bool.eq_false_iff.mpr fun hchanged => ?_
      rcases honward.told hc hchanged with hbefore | hw
      · exact Bool.false_ne_true (hb.symm.trans hbefore)
      · exact hunwarned hw
    · have houtcome : outcome job.asLocal s' = outcome job s' := by
        simp only [outcome, Session.succeeded, Job.asLocal, hl, herrors, hwarnings, decide_true,
          Bool.or_true]
      rw [ofJob, ofJob, hr, hsame]
      show Invocation.mk (.ok (outcome job.asLocal s')) _ _ _ _ = _
      rw [houtcome]
      rfl

end Invocation

theorem invoke_of_program {σ κ : Type} {files : FileTree} {toolchain : Toolchain κ}
    {settings : Settings} {options : InvokeOptions} {program : Program}
    (h : Invocation.program files toolchain.engine settings options = .ok program)
    (callback : Callback σ) (state : σ) :
    invoke files toolchain settings options callback state =
      .ofJob ⟨settings, program, toolchain, options.flags⟩
        (.start files (Invocation.router settings options callback state)) := by
  rw [invoke, h]

theorem invoke_of_program_error {σ κ : Type} {files : FileTree} {toolchain : Toolchain κ}
    {settings : Settings} {options : InvokeOptions} {e : AnalysisError}
    (h : Invocation.program files toolchain.engine settings options = .error e)
    (callback : Callback σ) (state : σ) :
    invoke files toolchain settings options callback state =
      .failed files state (.analysis e) := by
  rw [invoke, h]

/-- A run that is not a local build and succeeds has found no report changed and counted neither
errors nor warnings; as a local build it comes to the same, and so do the files, what is printed,
and what the toolchain is asked for. -/
theorem invoke_localBuild_of_succeeded {κ : Type} {files : FileTree} {toolchain : Toolchain κ}
    {settings : Settings} {options : InvokeOptions} {o : Outcome}
    (hl : options.flags.localBuild = false)
    (h : (invoke files toolchain settings options .none ()).result = .ok o)
    (hs : o.succeeded = true) :
    o.reportChanged = false ∧ o.errors = 0 ∧ o.warnings = 0 ∧
      invoke files toolchain settings options.asLocal .none () =
        invoke files toolchain settings options .none () := by
  cases hp : Invocation.program files toolchain.engine settings options with
  | error e =>
    rw [invoke_of_program_error hp] at h
    cases h
  | ok program =>
    have hlocal : Invocation.program files toolchain.engine settings options.asLocal =
      .ok program := hp
    rw [invoke_of_program hp] at h ⊢
    rw [invoke_of_program hlocal]
    exact Invocation.ofJob_asLocal ⟨settings, program, toolchain, options.flags⟩ _ hl
      Callback.keepsLevels_none rfl h hs

/-- A project whose accepted report is up to date, but for its line ending. -/
def settledTree : FileTree :=
  (FileTree.empty.withFile ["p".toList, "index.d.ts".toList] (.text "")).withFile
    ["p".toList, "etc".toList, "p.api.md".toList] (.text "export declare const x: number;")

/-- The options of a build that is not local and shows no more than it has to. -/
def InvokeOptions.plain : InvokeOptions :=
  ⟨⟨false, false⟩, ⟨false, false⟩, none, none⟩

/-- Where the accepted report is up to date, a local build comes to the same as another one. -/
theorem invoke_localBuild_settled :
    ∃ s o, Settings.prepare settledTree (Settings.stagingInput "<projectFolder>/temp") = .ok s ∧
      (invoke settledTree Script.standard.toolchain s .plain .none ()).result = .ok o ∧
      o.succeeded = true ∧ o.reportChanged = false ∧ o.errors = 0 ∧ o.warnings = 0 ∧
      invoke settledTree Script.standard.toolchain s InvokeOptions.plain.asLocal .none () =
        invoke settledTree Script.standard.toolchain s .plain .none () := by
  obtain ⟨s, hs, hrun⟩ : ∃ s, Settings.prepare settledTree
      (Settings.stagingInput "<projectFolder>/temp") = .ok s ∧
        (invoke settledTree Script.standard.toolchain s .plain .none ()).result.toOption.map
          (·.succeeded) = some true := exists_ok_of_map (by decide +kernel)
  obtain ⟨o, ho, hsucceeded⟩ := exists_ok_of_map hrun
  exact ⟨s, o, hs, ho, hsucceeded, invoke_localBuild_of_succeeded rfl ho hsucceeded⟩

end ApiReview
