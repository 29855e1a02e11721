import ApiReview.Proofs.Pipeline.Calls
import ApiReview.Proofs.Pipeline.Products
import ApiReview.Proofs.Pipeline.Recording
import ApiReview.Proofs.Pipeline.Variants
import Mathlib.Tactic.FinCases

/-!
# Runs that fail

A run that fails stops in one of its stages, and what is left of it is what that stage left
(`Job.exists_stopsIn`). With a scripted toolchain this is a stage that writes files, so that nothing
behind it is written; and since the findings are delivered behind all stages, only progress messages
were shown and counted until then (`Router.OnlyTold`).
-/

namespace ApiReview

variable {σ κ α : Type}

/-! ## Stages that write files -/

/-- The stages of a run that write files. -/
inductive WritingStage where
  | model
  | reports
  | rollups
  | metadata
  deriving DecidableEq, Repr

namespace WritingStage

/-- The stages that write files, in their order. -/
def all : List WritingStage :=
  [.model, .reports, .rollups, .metadata]

/-- The stage of a run. -/
def stage : WritingStage → Stage σ κ
  | model => .modelFile
  | reports => .report
  | rollups => .rollup
  | metadata => .metadata

theorem mem_all (w : WritingStage) : w ∈ all := by
  cases w <;> decide

/-- The paths that a stage may write to. -/
def paths (s : Settings) : WritingStage → List Path
  | model => s.modelPath.toList
  | reports => s.reports.flatMap fun r => [s.stagedReportPath r, s.reportPath r]
  | rollups => RollupTier.all.filterMap (·.outputPath s)
  | metadata => s.metadataPath.toList

end WritingStage

theorem Stage.standard_eq_map :
    (standard : List (Stage σ κ)) = analysis ++ WritingStage.all.map WritingStage.stage := rfl

theorem WritingStage.stage_mem (w : WritingStage) : (w.stage : Stage σ κ) ∈ Stage.standard := by
  rw [Stage.standard_eq_map]
  exact List.mem_append_right _ (List.mem_map_of_mem w.mem_all)

namespace Job

open Run (Along Keeps WritesOnly)

/-- A run stops in a stage: the stages before it come to a result, and it fails. -/
structure StopsIn (job : Job κ) (s : Session σ κ) (before : List WritingStage) (w : WritingStage)
    (e : RunError) (s₁ s₂ : Session σ κ) : Prop where
  wanted : (w.stage : Stage σ κ).isWanted job.settings = true
  earlier : job.goThrough (Stage.analysis ++ before.map WritingStage.stage) s = (.ok (), s₁)
  stops : w.stage.run job s₁ = (.error e, s₂)

/-- What goes through stages and fails has failed at one of them, and has gone through those before
it. -/
theorem goThrough_eq_error {job : Job κ} {stages : List (Stage σ κ)} {s s' : Session σ κ}
    {e : RunError} (h : job.goThrough stages s = (.error e, s')) :
    ∃ before stage behind s₁, stages = before ++ stage :: behind ∧
      stage.isWanted job.settings = true ∧ job.goThrough before s = (.ok (), s₁) ∧
      stage.run job s₁ = (.error e, s') := by
  induction stages generalizing s with
  | nil => cases (Prod.mk.inj h).1
  | cons stage stages ih =>
    rw [show stage :: stages = [stage] ++ stages from rfl, goThrough_append, Run.bind_run] at h
    rcases hfirst : job.goThrough [stage] s with ⟨e' | u, s₁⟩
    · rw [hfirst] at h
      cases h
      rw [goThrough_singleton] at hfirst
      split at hfirst
      · rename_i hwanted
        exact ⟨[], stage, stages, s, rfl, hwanted, rfl, hfirst⟩
      · cases (Prod.mk.inj hfirst).1
    · rw [hfirst] at h
      obtain ⟨before, next, behind, s₂, rfl, hwanted, hbefore, hstops⟩ := ih h
      refine ⟨stage :: before, next, behind, s₂, rfl, hwanted, ?_, hstops⟩
      rw [show stage :: before = [stage] ++ before from rfl, goThrough_append,
        Run.bind_run_ok hfirst]
      exact hbefore

theorem run_eq_error {job : Job κ} {s s' : Session σ κ} {e : RunError}
    (h : job.run s = (.error e, s')) : job.goThrough Stage.standard s = (.error e, s') := by
  have hrun : job.run s =
    (job.goThrough Stage.standard >>= fun _ => Run.route Router.flush) s := rfl
  rw [hrun, Run.bind_run] at h
  rcases hstages : job.goThrough Stage.standard s with ⟨e' | u, s₁⟩
  · rw [hstages] at h
    exact h
  · rw [hstages] at h
    cases (Prod.mk.inj h).1

/-- A run with a scripted toolchain that fails stops in a stage that writes files, and nothing is
done behind that. -/
theorem exists_stopsIn {script : Script} {job : Job ScriptedCollection}
    (ht : job.toolchain = script.toolchain) {s s' : Session σ ScriptedCollection} {e : RunError}
    (h : job.run s = (.error e, s')) :
    ∃ before w behind s₁, WritingStage.all = before ++ w :: behind ∧
      job.StopsIn s before w e s₁ s' := by
  obtain ⟨router, calls, hanalysis, -⟩ := analysis_run ht s
  have hstages := run_eq_error h
  rw [Stage.standard_eq_map, goThrough_append, Run.bind_run_ok hanalysis] at hstages
  obtain ⟨before, stage, behind, s₁, hsplit, hwanted, hbefore, hstops⟩ :=
    goThrough_eq_error hstages
  obtain ⟨before, rest, hall, rfl, hrest⟩ := List.map_eq_append_iff.mp hsplit
  obtain ⟨w, behind, rfl, rfl, -⟩ := List.map_eq_cons_iff.mp hrest
  refine ⟨before, w, behind, s₁, hall, hwanted, ?_, hstops⟩
  rw [goThrough_append, Run.bind_run_ok hanalysis]
  exact hbefore

/-! ## What was written -/

/-- The places that some stages may write to. -/
def StagePlaces (job : Job κ) (stages : List WritingStage) (place : Place) : Prop :=
  ∃ w ∈ stages, ∃ path ∈ w.paths job.settings, place = path.place

theorem writesOnly_stage {job : Job κ} (hs : job.settings.ReportsPlaced)
    (ho : job.settings.OutputsPlaced) (w : WritingStage) :
    WritesOnly (job.StagePlaces [w]) (w.stage.run job : Run σ κ Unit) := by
  have place : ∀ {path}, path ∈ w.paths job.settings → job.StagePlaces [w] path.place :=
    fun hp => ⟨w, List.mem_singleton_self w, _, hp, rfl⟩
  cases w with
  | model =>
    exact along_writeModel (Run.leads_writesOnly _) job fun path hp =>
      ⟨ho.model path hp, place (Option.mem_toList.mpr hp)⟩
  | reports =>
    refine (writesOnly_reports hs job.settings.reports).weaken ?_
    rintro _ ⟨r, hr, rfl | rfl⟩
    · exact place (List.mem_flatMap.mpr ⟨r, hr, List.mem_cons_self⟩)
    · exact place (List.mem_flatMap.mpr ⟨r, hr, List.mem_cons_of_mem _ List.mem_cons_self⟩)
  | rollups =>
    refine along_writeRollups (Run.leads_writesOnly _) job (Run.writesOnly_ask _)
      fun tier path hp => ⟨ho.rollup tier path hp, place (List.mem_filterMap.mpr ⟨tier, ?_, hp⟩)⟩
    cases tier <;> decide
  | metadata =>
    exact along_writeMetadata (Run.leads_writesOnly _) job fun path hp =>
      ⟨ho.metadata path hp, place (Option.mem_toList.mpr hp)⟩

/-- What leads along a relation at each stage does so through all of them. -/
theorem along_goThrough {R : Session σ κ → Session σ κ → Prop} (hR : Run.Follows R) {job : Job κ}
    {stages : List (Stage σ κ)} (h : ∀ stage ∈ stages, Along R (stage.run job)) :
    Along R (job.goThrough stages) :=
  hR.along_forM fun stage hs => h stage (List.mem_of_mem_filter hs)

/-- A run with a scripted toolchain that stops in a stage has written for that stage and those
before it. -/
theorem StopsIn.writesOnly {script : Script} {job : Job ScriptedCollection}
    (ht : job.toolchain = script.toolchain) (hs : job.settings.ReportsPlaced)
    (ho : job.settings.OutputsPlaced) {s s₁ s₂ : Session σ ScriptedCollection}
    {before : List WritingStage} {w : WritingStage} {e : RunError}
    (h : job.StopsIn s before w e s₁ s₂) :
    s.files.WritesOnly (job.StagePlaces (before ++ [w])) s₂.files := by
  obtain ⟨router, calls, hanalysis, -⟩ := analysis_run ht s
  have hearlier := h.earlier
  rw [goThrough_append, Run.bind_run_ok hanalysis] at hearlier
  have hwrites : ∀ v ∈ before ++ [w], WritesOnly (job.StagePlaces (before ++ [w]))
      (v.stage.run job : Run σ ScriptedCollection Unit) := fun v hv =>
    (writesOnly_stage hs ho v).weaken fun _ ⟨_, hv', hp⟩ => ⟨v, hv, List.mem_singleton.mp hv' ▸ hp⟩
  have hbefore : WritesOnly (job.StagePlaces (before ++ [w]))
      (job.goThrough (before.map WritingStage.stage) : Run σ ScriptedCollection Unit) := by
    refine along_goThrough (Run.follows_writesOnly _) fun stage hstage => ?_
    obtain ⟨v, hv, rfl⟩ := List.mem_map.mp hstage
    exact hwrites v (List.mem_append_left _ hv)
  have hstop := hwrites w (List.mem_append_right _ (List.mem_singleton_self w))
  exact (hbefore.of_run hearlier).trans (hstop.of_run h.stops)

/-! ## What was shown -/

section Telling

variable {P : Router σ → Router σ → Prop}

theorem along_ask (hfindings : ∀ r findings, P r { r with findings }) (call : Call)
    (work : Work α) :
    Along (fun s s' => P s.router s'.router) (Run.ask call work : Run σ κ α) := fun s => by
  rw [Run.ask_run]
  rcases work s.router.findings with ⟨e | a, findings⟩
  · exact hfindings s.router findings
  · exact hfindings s.router findings

variable (hP : Router.Telling P)

include hP

theorem leads_router :
    Run.Leads (fun s s' : Session σ κ => P s.router s'.router) fun _ => True where
  refl s := hP.refl s.router
  trans := hP.trans
  log level notice text s := hP.log s.router level notice text
  write artifact path text options _ s := by
    rw [Run.write_run]
    rcases s.files.writeText path text options with ⟨files, _ | _⟩
    · exact hP.refl s.router
    · exact hP.refl s.router

theorem along_modify {f : Session σ κ → Session σ κ} (h : ∀ s, (f s).router = s.router) :
    Along (fun s s' => P s.router s'.router) (modify f : Run σ κ PUnit) := fun s => by
  show P s.router (f s).router
  rw [h]
  exact hP.refl s.router

/-- A relation of routers along which progress messages lead, whatever becomes of the findings, is
one along which each stage leads: no other messages are shown there. -/
theorem along_stage (hfindings : ∀ r findings, P r { r with findings }) (job : Job κ)
    {stage : Stage σ κ} (hstage : stage ∈ Stage.standard) :
    Along (fun s s' => P s.router s'.router) (stage.run job) := by
  have hR : Run.Leads (fun s s' : Session σ κ => P s.router s'.router) fun _ => True :=
    leads_router hP
  have ask : ∀ {β : Type} (call : Call) (work : Work β),
      Along (fun s s' => P s.router s'.router) (Run.ask call work : Run σ κ β) :=
    along_ask hfindings
  have collected : ∀ c : κ, Along (fun s s' => P s.router s'.router)
      (modify fun s => { s with collection := some c } : Run σ κ PUnit) :=
    fun _ => along_modify hP fun _ => rfl
  simp only [Stage.standard] at hstage
  -- One goal for each stage, in the order of a run.
  fin_cases hstage
  · intro s
    obtain ⟨router, hrun, htells⟩ := telling_preamble hP job s
    show P s.router (job.preamble s).2.router
    rw [hrun]
    exact htells
  · exact hR.along_bind (ask _ _) collected
  · exact hR.along_bind hR.along_collection fun _ => hR.along_bind (ask _ _) collected
  · exact hR.along_bind hR.along_collection fun _ => hR.along_bind (ask _ _) collected
  · exact hR.along_bind hR.along_collection fun _ => hR.along_bind (ask _ _) fun _ =>
      hR.along_bind (along_modify hP fun _ => rfl) fun _ => fun s => hP.logDiagnostic s.router ""
  · exact along_writeModel hR job fun _ _ => trivial
  · refine hR.along_forM fun r _ => hR.along_bind ?_ fun _ => along_modify hP fun _ => rfl
    exact along_reconcile hR job r trivial (ask _) trivial
  · exact along_writeRollups hR job (ask _) fun _ _ _ => trivial
  · exact along_writeMetadata hR job fun _ _ => trivial

end Telling

end Job

/-- A router whose callback keeps a journal, in which there are progress messages alone; what is
counted are those of them that came back as errors or warnings. -/
structure Router.OnlyTold (callback : Callback σ) (r : Router (σ × Journal)) : Prop where
  callback_eq : r.callback = callback.recording
  console : ∀ e ∈ r.state.2, e.1.category = .console
  errors : r.errors = r.state.2.countP (·.2.level = .error)
  warnings : r.warnings = r.state.2.countP (·.2.level = .warning)

namespace Router

variable {callback : Callback σ} {r : Router (σ × Journal)}

/-- A progress message that came back is written down and counted. -/
theorem OnlyTold.count (h : r.OnlyTold callback) {m : Message} (hm : m.category = .console)
    (state : σ) (back : Message) :
    (({ r with state := (state, r.state.2 ++ [(m, back)]) } : Router (σ × Journal)).count
      back.level).OnlyTold callback := by
  have hstate : (({ r with state := (state, r.state.2 ++ [(m, back)]) } :
      Router (σ × Journal)).count back.level).state.2 = r.state.2 ++ [(m, back)] := by
    cases back.level <;> rfl
  refine ⟨(callback_count _ _).trans h.callback_eq, ?_, ?_, ?_⟩
  · rw [hstate]
    exact List.forall_mem_append.mpr ⟨h.console, List.forall_mem_singleton.mpr hm⟩
  · rw [hstate, errors_count, List.countP_append, List.countP_singleton, ← h.errors]
    cases decide (back.level = .error) <;> rfl
  · rw [hstate, warnings_count, List.countP_append, List.countP_singleton, ← h.warnings]
    cases decide (back.level = .warning) <;> rfl

theorem OnlyTold.log (h : r.OnlyTold callback) (level : Level) (notice : Notice) (text : String) :
    (r.log level notice text).OnlyTold callback := by
  let m : Message := { Message.plain .console notice.id text with level }
  rcases hm : callback.onMessage r.state.1 m with ⟨state, back⟩
  have hrule : r.withRule m = m := if_pos rfl
  have hc : r.callback.onMessage r.state (r.withRule m) =
      ((state, r.state.2 ++ [(m, back)]), back) := by
    rw [h.callback_eq, hrule, Callback.onMessage_recording, hm]
  have hcount := h.count (m := m) rfl state back
  show (r.deliver m).1.OnlyTold callback
  rw [r.deliver_of_open rfl hc]
  split
  · exact hcount
  · exact ⟨hcount.callback_eq, hcount.console, hcount.errors, hcount.warnings⟩

theorem telling_onlyTold (callback : Callback σ) :
    Telling fun r r' : Router (σ × Journal) => r.OnlyTold callback → r'.OnlyTold callback where
  refl _ h := h
  trans h h' hr := h' (h hr)
  log _ level notice text h := h.log level notice text

end Router

namespace Job

/-- Where a run stops, only progress messages were shown. -/
theorem StopsIn.onlyTold {job : Job κ} {callback : Callback σ} {s s₁ s₂ : Session (σ × Journal) κ}
    {before : List WritingStage} {w : WritingStage} {e : RunError}
    (h : job.StopsIn s before w e s₁ s₂) (hs : s.router.OnlyTold callback) :
    s₂.router.OnlyTold callback := by
  have hstage : ∀ stage ∈ (Stage.standard : List (Stage (σ × Journal) κ)), Run.Along
      (fun s s' => s.router.OnlyTold callback → s'.router.OnlyTold callback) (stage.run job) :=
    fun stage => along_stage (Router.telling_onlyTold callback)
      (fun _ _ h => ⟨h.callback_eq, h.console, h.errors, h.warnings⟩) job
  have hearlier : ∀ stage ∈ Stage.analysis ++ before.map WritingStage.stage,
      stage ∈ (Stage.standard : List (Stage (σ × Journal) κ)) := by
    refine fun stage hs => (List.mem_append.mp hs).elim (List.mem_append_left _) fun hs => ?_
    obtain ⟨v, -, rfl⟩ := List.mem_map.mp hs
    exact v.stage_mem
  have hfirst := along_goThrough (leads_router (Router.telling_onlyTold callback)).toFollows
    (fun stage hs => hstage stage (hearlier stage hs)) s
  have hlast := hstage w.stage w.stage_mem s₁
  rw [h.earlier] at hfirst
  rw [h.stops] at hlast
  exact hlast (hfirst hs)

end Job

/-! ## Whole runs -/

/-- What a run asks the toolchain for is the beginning of what the settings plan, and all of that if
it comes to a result. A run that fails, once there is a program, stops in a stage that writes files:
it has written for that stage and those before it, what it leaves is what that stage left, and its
callback was shown progress messages alone, which are all that is counted. -/
theorem invoke_failStop (script : Script) {t files : FileTree} {input : PrepareInput}
    {settings : Settings} (hprepare : Settings.prepare t input = .ok settings)
    {options : InvokeOptions} {program : Program}
    (hprogram : Invocation.program files script.toolchain.engine settings options = .ok program)
    (callback : Callback σ) (state : σ) {run : Invocation (σ × Journal)}
    (hrun : invoke files script.toolchain settings options callback.recording (state, []) = run) :
    run = (invoke files script.toolchain settings options callback state).recording run.state.2 ∧
    run.calls <+: settings.plannedCalls ∧
    (∀ outcome, run.result = .ok outcome → run.calls = settings.plannedCalls) ∧
    ∀ e, run.result = .error e → ∃ before w behind s₁ s₂,
      WritingStage.all = before ++ w :: behind ∧
      (script.job settings program options.flags).StopsIn
        (.start files (Invocation.router settings options callback.recording (state, [])))
        before w e s₁ s₂ ∧
      run = ⟨.error e, s₂.files, s₂.router.state, s₂.router.printed, s₂.calls⟩ ∧
      files.WritesOnly
        ((script.job settings program options.flags).StagePlaces (before ++ [w])) run.files ∧
      s₂.router.OnlyTold callback := by
  obtain ⟨journal, hrecorded⟩ :=
    invoke_recording files script.toolchain settings options callback state
  refine ⟨by rw [← hrun, hrecorded]; rfl, ?_⟩
  rw [invoke_of_program hprogram, Invocation.ofJob] at hrun
  obtain ⟨asked, hcalls, hplanned, hall⟩ :=
    (script.job settings program options.flags).asks_run
      (.start files (Invocation.router settings options callback.recording (state, [])))
  rcases hjob : (script.job settings program options.flags).run
      (.start files (Invocation.router settings options callback.recording (state, [])))
    with ⟨result, s₂⟩
  rw [Script.job] at hjob
  rw [hjob] at hrun
  subst hrun
  rw [Script.job, hjob] at hcalls hall
  obtain rfl : s₂.calls = asked := hcalls
  refine ⟨hplanned, fun outcome h => ?_, fun e h => ?_⟩
  · cases result with
    | error e => cases h
    | ok u => exact hall u rfl
  · cases result with
    | ok u => cases h
    | error e' =>
      obtain rfl : e' = e := Except.error.inj h
      obtain ⟨before, w, behind, s₁, hsplit, hstops⟩ := Job.exists_stopsIn rfl hjob
      have hplaced := Settings.reportsPlaced_of_prepare hprepare
      have houtputs := Settings.outputsPlaced_of_prepare hprepare
      refine ⟨before, w, behind, s₁, s₂, hsplit, hstops, rfl,
        hstops.writesOnly rfl hplaced houtputs, hstops.onlyTold ⟨rfl, ?_, rfl, rfl⟩⟩
      exact fun _ h => absurd h List.not_mem_nil

/-- A script with a finding that waits to the end of a run. -/
def Script.waiting : Script :=
  { standard with
    issues := [⟨"ae-forgotten-export", "The symbol needs to be exported.",
      ⟨⟨"/p/index.d.ts"⟩, some 1, none⟩, none⟩] }

/-- A project in which a folder stands where a rollup is to be written. -/
def blockedTree : FileTree :=
  Settings.acceptedTree.withFile ["p".toList, "p.d.ts".toList, "old.txt".toList] (.text "")

/-- A run that cannot write its rollup: the finding is not shown. -/
theorem invoke_failStop_blocked :
    ∃ s program e, Settings.prepare blockedTree everyOutputInput = .ok s ∧
      Invocation.program blockedTree Script.waiting.toolchain.engine s .plain = .ok program ∧
      (invoke blockedTree Script.waiting.toolchain s .plain Callback.none.recording
        ((), [])).result = .error e ∧
      (invoke blockedTree Script.waiting.toolchain s .plain Callback.none.recording
        ((), [])).calls <+: s.plannedCalls ∧
      ∃ before w behind s₁ s₂, WritingStage.all = before ++ w :: behind ∧
        (Script.waiting.job s program InvokeOptions.plain.flags).StopsIn
          (.start blockedTree (Invocation.router s .plain Callback.none.recording ((), [])))
          before w e s₁ s₂ ∧
        s₂.router.OnlyTold Callback.none := by
  obtain ⟨s, hs, hparts⟩ : ∃ s, Settings.prepare blockedTree everyOutputInput = .ok s ∧
      ((Invocation.program blockedTree Script.waiting.toolchain.engine s .plain).toOption.isSome,
        (invoke blockedTree Script.waiting.toolchain s .plain Callback.none.recording
          ((), [])).result.toOption.isSome) = (true, false) :=
    exists_ok_of_map (by decide +kernel)
  obtain ⟨hprogram, hfails⟩ := Prod.mk.inj hparts
  obtain ⟨program, hprogram⟩ := Option.isSome_iff_exists.mp hprogram
  have hprogram := eq_ok_of_toOption hprogram
  obtain ⟨-, hcalls, -, hstops⟩ :=
    invoke_failStop Script.waiting hs hprogram Callback.none () rfl
  cases hresult : (invoke blockedTree Script.waiting.toolchain s .plain Callback.none.recording
      ((), [])).result with
  | ok outcome =>
    rw [hresult] at hfails
    cases hfails
  | error e =>
    obtain ⟨before, w, behind, s₁, s₂, hsplit, hstop, -, -, htold⟩ := hstops e hresult
    exact ⟨s, program, e, hs, hprogram, hresult, hcalls, before, w, behind, s₁, s₂, hsplit, hstop,
      htold⟩

end ApiReview
