import ApiReview.Pipeline.Invoke
import ApiReview.Proofs.Message.Events
import ApiReview.Proofs.Pipeline.Stages

/-!
# Runs with a journal

A callback may keep a journal of what it is shown. A run with the journal is the run without it, in
what it comes to, what it writes and what it prints (`invoke_recording`), so the journal tells which
messages a run shows.
-/

namespace ApiReview

/-- What a callback is shown, with what it makes of that. -/
abbrev Journal := List (Message × Message)

variable {σ κ α β : Type}

namespace Router

/-- A change of routers is the same with a journal, which goes on. -/
def Records (f : Router σ → Router σ) (f' : Router (σ × Journal) → Router (σ × Journal)) : Prop :=
  ∀ r journal, ∃ shown, f' (r.recording journal) = (f r).recording (journal ++ shown)

theorem records_id : Records (fun r : Router σ => r) fun r => r :=
  fun r journal => ⟨[], by rw [List.append_nil]⟩

theorem Records.comp {f g : Router σ → Router σ}
    {f' g' : Router (σ × Journal) → Router (σ × Journal)} (hf : Records f f') (hg : Records g g') :
    Records (fun r => g (f r)) fun r => g' (f' r) := by
  intro r journal
  obtain ⟨shown, h⟩ := hf r journal
  obtain ⟨shown', h'⟩ := hg (f r) (journal ++ shown)
  refine ⟨shown ++ shown', ?_⟩
  show g' (f' (r.recording journal)) = _
  rw [h, h', List.append_assoc]

theorem records_request (q : Request) :
    Records (fun r : Router σ => (r.perform q).1) fun r => (r.perform q).1 := fun r journal =>
  ⟨shownIn (r.events q), congrArg (·.1) (r.perform_recording journal q)⟩

end Router

namespace Job

open Router (Records records_id records_request)

theorem records_tellDocComments (job : Job κ) :
    Records (job.tellDocComments : Router σ → Router σ) job.tellDocComments := by
  intro r journal
  rw [tellDocComments, tellDocComments]
  cases job.settings.docComments.filePath with
  | none => exact records_id r journal
  | some path => exact records_request (.log .verbose .customDocComments _) r journal

theorem records_tellEngine (t : FileTree) (folder : Path) (engineVersion : String) :
    Records (tellEngine t folder engineVersion : Router σ → Router σ)
      (tellEngine t folder engineVersion) := by
  have hfirst : Records (fun r : Router σ => (r.perform (.log .info .preamble
    ("Analysis will use the bundled TypeScript version " ++ engineVersion))).1) fun r =>
      (r.perform (.log .info .preamble
        ("Analysis will use the bundled TypeScript version " ++ engineVersion))).1 :=
    records_request _
  intro r journal
  unfold tellEngine
  cases newerEngine? t folder engineVersion with
  | none => exact hfirst r journal
  | some theirs => exact (hfirst.comp (records_request (.log .info .compilerVersion _))) r journal

theorem records_logSection (title text : String) :
    Records (logSection title text : Router σ → Router σ) (logSection title text) :=
  ((records_request (.logHeader title)).comp (records_request (.logDiagnostic text))).comp
    (records_request .logFooter)

theorem records_logSettings (job : Job κ) :
    Records (job.logSettings : Router σ → Router σ) job.logSettings := by
  intro r journal
  rw [logSettings, logSettings]
  show ∃ shown, (if r.display.diagnostics = true then _ else _) = _
  split
  · exact ((((records_request (.logDiagnostic "")).comp (records_logSection _ _)).comp
      (records_logSection _ _)).comp (records_logSection _ _)) r journal
  · exact records_id r journal

end Job

/-- The session with a callback that keeps a journal. -/
def Session.recording (s : Session σ κ) (journal : Journal) : Session (σ × Journal) κ where
  files := s.files
  router := s.router.recording journal
  calls := s.calls
  collection := s.collection
  model := s.model
  reportChanged := s.reportChanged

namespace Run

/-- A step is the same with a journal, which goes on. -/
def Records (x : Run σ κ α) (x' : Run (σ × Journal) κ α) : Prop :=
  ∀ s journal, ∃ shown,
    x' (s.recording journal) = ((x s).1, (x s).2.recording (journal ++ shown))

theorem records_same {x : Run σ κ α} {x' : Run (σ × Journal) κ α}
    (h : ∀ s journal, x' (s.recording journal) = ((x s).1, (x s).2.recording journal)) :
    Records x x' := fun s journal => ⟨[], by rw [List.append_nil]; exact h s journal⟩

theorem records_pure (a : α) : Records (pure a : Run σ κ α) (pure a) :=
  records_same fun _ _ => rfl

theorem records_throw (e : RunError) : Records (throw e : Run σ κ α) (throw e) :=
  records_same fun _ _ => rfl

theorem records_modify {f : Session σ κ → Session σ κ}
    {f' : Session (σ × Journal) κ → Session (σ × Journal) κ}
    (h : ∀ s journal, f' (s.recording journal) = (f s).recording journal) :
    Records (modify f : Run σ κ PUnit) (modify f') :=
  records_same fun s journal => congrArg (Except.ok PUnit.unit, ·) (h s journal)

theorem records_get_bind {f : Session σ κ → Run σ κ α}
    {f' : Session (σ × Journal) κ → Run (σ × Journal) κ α}
    (h : ∀ s journal, Records (f s) (f' (s.recording journal))) :
    Records (get >>= f) (get >>= f') := fun s journal => by
  rw [get_bind, get_bind]
  exact h s journal s journal

theorem Records.bind {x : Run σ κ α} {x' : Run (σ × Journal) κ α} {f : α → Run σ κ β}
    {f' : α → Run (σ × Journal) κ β} (hx : Records x x') (hf : ∀ a, Records (f a) (f' a)) :
    Records (x >>= f) (x' >>= f') := fun s journal => by
  obtain ⟨shown, h⟩ := hx s journal
  rcases hr : x s with ⟨e | a, s'⟩
  · rw [hr] at h
    rw [bind_run_error hr, bind_run_error h]
    exact ⟨shown, rfl⟩
  · rw [hr] at h
    obtain ⟨shown', h'⟩ := hf a s' (journal ++ shown)
    rw [bind_run_ok hr, bind_run_ok h]
    exact ⟨shown ++ shown', by rw [h', List.append_assoc]⟩

theorem records_forM {as : List α} {f : α → Run σ κ PUnit} {f' : α → Run (σ × Journal) κ PUnit}
    (h : ∀ a ∈ as, Records (f a) (f' a)) : Records (as.forM f) (as.forM f') := by
  induction as with
  | nil => exact records_pure _
  | cons a as ih =>
    rw [List.forM, List.forM]
    exact (h a List.mem_cons_self).bind fun _ => ih fun b hb => h b (List.mem_cons_of_mem _ hb)

theorem records_route {f : Router σ → Router σ}
    {f' : Router (σ × Journal) → Router (σ × Journal)} (h : Router.Records f f') :
    Records (route f : Run σ κ Unit) (route f') := fun s journal => by
  obtain ⟨shown, hr⟩ := h s.router journal
  refine ⟨shown, ?_⟩
  show (Except.ok (), { s.recording journal with router := f' (s.router.recording journal) }) = _
  rw [hr]
  rfl

theorem records_log (level : Level) (notice : Notice) (text : String) :
    Records (log level notice text : Run σ κ Unit) (log level notice text) :=
  records_route (Router.records_request (.log level notice text))

theorem records_collection : Records (collection : Run σ κ κ) collection :=
  records_same fun s journal => by
    have hsame : (s.recording journal).collection = s.collection := rfl
    rw [collection_run, collection_run, hsame]
    cases s.collection <;> rfl

theorem records_ask (call : Call) (work : Work α) :
    Records (ask call work : Run σ κ α) (ask call work) :=
  records_same fun s journal => by
    have hsame : (s.recording journal).router.findings = s.router.findings := rfl
    rw [ask_run, ask_run, hsame]
    rcases work s.router.findings with ⟨e | a, findings⟩ <;> rfl

theorem records_write (artifact : Artifact) (path : Path) (text : String)
    (options : WriteOptions) :
    Records (write artifact path text options : Run σ κ Unit) (write artifact path text options) :=
  records_same fun s journal => by
    have hsame : (s.recording journal).files = s.files := rfl
    rw [write_run, write_run, hsame]
    rcases s.files.writeText path text options with ⟨files, e | u⟩ <;> rfl

end Run

namespace Job

open Run (Records records_pure records_throw records_modify records_get_bind records_forM
  records_route records_log records_collection records_ask records_write)

variable (job : Job κ)

/-! ## Stages -/

theorem records_preamble : Records (job.preamble : Run σ κ Unit) job.preamble :=
  records_get_bind fun _ _ =>
    (records_route (records_tellDocComments job)).bind fun _ =>
      (records_route (records_tellEngine _ _ _)).bind fun _ =>
        records_route (records_logSettings job)

/-- What was collected is put into the session. -/
theorem records_collected (c : κ) :
    Records (modify fun s => { s with collection := some c } : Run σ κ PUnit)
      (modify fun s => { s with collection := some c }) :=
  records_modify fun _ _ => rfl

theorem records_collect : Records (job.collect : Run σ κ Unit) job.collect :=
  (records_ask _ _).bind records_collected

theorem records_attachDocComments :
    Records (job.attachDocComments : Run σ κ Unit) job.attachDocComments :=
  records_collection.bind fun _ => (records_ask _ _).bind records_collected

theorem records_validate : Records (job.validate : Run σ κ Unit) job.validate :=
  records_collection.bind fun _ => (records_ask _ _).bind records_collected

theorem records_buildModel : Records (job.buildModel : Run σ κ Unit) job.buildModel :=
  records_collection.bind fun _ => (records_ask _ _).bind fun _ =>
    (records_modify fun _ _ => rfl).bind fun _ =>
      records_route (Router.records_request (.logDiagnostic ""))

theorem records_writeModel : Records (job.writeModel : Run σ κ Unit) job.writeModel := by
  refine records_get_bind fun s journal => ?_
  rw [show (s.recording journal).model = s.model from rfl]
  cases job.settings.modelPath with
  | none => exact records_throw _
  | some path =>
    cases s.model with
    | none => exact records_throw _
    | some model => exact (records_log _ _ _).bind fun _ => records_write _ _ _ _

theorem records_writeRollups : Records (job.writeRollups : Run σ κ Unit) job.writeRollups := by
  refine records_forM fun tier _ => ?_
  rw [writeRollup, writeRollup]
  cases tier.outputPath job.settings with
  | none => exact records_pure _
  | some path =>
    exact (records_log _ _ _).bind fun _ => records_collection.bind fun _ =>
      (records_ask _ _).bind fun _ => records_write _ _ _ _

theorem records_writeMetadata : Records (job.writeMetadata : Run σ κ Unit) job.writeMetadata := by
  rw [writeMetadata, writeMetadata]
  cases job.settings.metadataPath with
  | none => exact records_throw _
  | some path => exact records_write _ _ _ _

/-! ## Reports -/

theorem records_stageReport (r : ReportSpec) :
    Records (job.stageReport r : Run σ κ String) (job.stageReport r) :=
  records_collection.bind fun _ => (records_ask _ _).bind fun _ =>
    (records_write _ _ _ _).bind fun _ => records_pure _

theorem records_compareReport (r : ReportSpec) (actual expected : String) :
    Records (job.compareReport r actual expected : Run σ κ Reconciled)
      (job.compareReport r actual expected) := by
  rw [compareReport, compareReport]
  split
  · exact (records_log _ _ _).bind fun _ => records_pure _
  · split
    · exact (records_log _ _ _).bind fun _ => (records_write _ _ _ _).bind fun _ => records_pure _
    · exact (records_log _ _ _).bind fun _ => records_pure _

theorem records_acceptNewReport (r : ReportSpec) (actual : String) :
    Records (job.acceptNewReport r actual : Run σ κ Reconciled)
      (job.acceptNewReport r actual) := by
  rw [acceptNewReport, acceptNewReport]
  split
  · exact (records_log _ _ _).bind fun _ => records_pure _
  · refine records_get_bind fun s journal => ?_
    show Records _ (if (!s.files.isFolder job.settings.reportFolder) = true then _ else _)
    split
    · exact (records_log _ _ _).bind fun _ => records_pure _
    · exact (records_write _ _ _ _).bind fun _ => (records_log _ _ _).bind fun _ => records_pure _

theorem records_judge (r : ReportSpec) (files : FileTree) (actual : String) :
    Records (job.judge r files actual : Run σ κ Reconciled) (job.judge r files actual) := by
  rw [judge, judge]
  split
  · cases files.readTextFile (job.settings.reportPath r) with
    | ok expected => exact records_compareReport job r actual expected
    | error cause => exact records_throw _
  · exact records_acceptNewReport job r actual

theorem records_reconcile (r : ReportSpec) :
    Records (job.reconcile r : Run σ κ Reconciled) (job.reconcile r) := by
  rw [reconcile_eq, reconcile_eq]
  exact (records_stageReport job r).bind fun actual =>
    records_get_bind fun s _ => records_judge job r s.files actual

theorem records_reconcileNext (r : ReportSpec) :
    Records (job.reconcileNext r : Run σ κ Unit) (job.reconcileNext r) :=
  (records_reconcile job r).bind fun _ => records_modify fun _ _ => rfl

/-! ## Whole runs -/

/-- Two stages are wanted alike, and the second is the first with a journal. -/
def StageRecords (stage : Stage σ κ) (stage' : Stage (σ × Journal) κ) : Prop :=
  stage.isWanted = stage'.isWanted ∧ Records (stage.run job) (stage'.run job)

theorem records_goThrough {stages : List (Stage σ κ)} {stages' : List (Stage (σ × Journal) κ)}
    (h : List.Forall₂ job.StageRecords stages stages') :
    Records (job.goThrough stages) (job.goThrough stages') := by
  rw [goThrough, goThrough]
  induction h with
  | nil => exact records_pure _
  | cons hstage _ ih =>
    rw [List.filter_cons, List.filter_cons, ← hstage.1]
    split
    · rw [List.forM, List.forM]
      exact hstage.2.bind fun _ => ih
    · exact ih

theorem stageRecords_beforeReports :
    List.Forall₂ job.StageRecords (Stage.beforeReports : List (Stage σ κ)) Stage.beforeReports :=
  .cons ⟨rfl, records_preamble job⟩ <| .cons ⟨rfl, records_collect job⟩ <|
    .cons ⟨rfl, records_attachDocComments job⟩ <| .cons ⟨rfl, records_validate job⟩ <|
      .cons ⟨rfl, records_buildModel job⟩ <| .cons ⟨rfl, records_writeModel job⟩ .nil

theorem stageRecords_behindReports :
    List.Forall₂ job.StageRecords (Stage.behindReports : List (Stage σ κ)) Stage.behindReports :=
  .cons ⟨rfl, records_writeRollups job⟩ <| .cons ⟨rfl, records_writeMetadata job⟩ .nil

theorem records_flush : Records (Run.route Router.flush : Run σ κ Unit) (Run.route Router.flush) :=
  records_route (Router.records_request .flush)

theorem records_wantedReports :
    Records (job.wantedReports : Run σ κ Unit) job.wantedReports := by
  rw [wantedReports, wantedReports]
  split
  · exact records_forM fun r _ => records_reconcileNext job r
  · exact records_pure _

theorem records_untilReport (r : ReportSpec) :
    Records (job.untilReport r : Run σ κ Unit) (job.untilReport r) :=
  (records_goThrough job (stageRecords_beforeReports job)).bind fun _ =>
    records_forM fun r' _ => records_reconcileNext job r'

theorem records_afterReport (rest : List ReportSpec) (outcome : Reconciled) :
    Records (job.afterReport rest outcome : Run σ κ Unit) (job.afterReport rest outcome) :=
  (records_modify fun _ _ => rfl).bind fun _ =>
    (records_forM fun r _ => records_reconcileNext job r).bind fun _ =>
      (records_goThrough job (stageRecords_behindReports job)).bind fun _ => records_flush

theorem records_run : Records (job.run : Run σ κ Unit) job.run := fun s journal => by
  rw [run_eq, run_eq]
  exact ((records_goThrough job (stageRecords_beforeReports job)).bind fun _ =>
    (records_wantedReports job).bind fun _ =>
      (records_goThrough job (stageRecords_behindReports job)).bind fun _ =>
        records_flush) s journal

end Job

namespace Invocation

/-- A run that is over, with a journal. -/
def recording (run : Invocation σ) (journal : Journal) : Invocation (σ × Journal) :=
  ⟨run.result, run.files, (run.state, journal), run.printed, run.calls⟩

theorem ofJob_recording (job : Job κ) (s : Session σ κ) (journal : Journal) :
    ∃ shown, (job.run (s.recording journal)).2.router.state.2 = journal ++ shown ∧
      ofJob job (s.recording journal) = (ofJob job s).recording (journal ++ shown) := by
  obtain ⟨shown, h⟩ := job.records_run s journal
  refine ⟨shown, by rw [h]; rfl, ?_⟩
  rw [ofJob, ofJob, h]
  rcases job.run s with ⟨e | u, s'⟩ <;> rfl

theorem start_recording (files : FileTree) (settings : Settings) (options : InvokeOptions)
    (callback : Callback σ) (state : σ) :
    (Session.start files (router settings options callback.recording (state, [])) :
      Session (σ × Journal) κ) =
      (Session.start files (router settings options callback state)).recording [] := rfl

end Invocation

/-- A run is the same with a journal. -/
theorem invoke_recording (files : FileTree) (toolchain : Toolchain κ) (settings : Settings)
    (options : InvokeOptions) (callback : Callback σ) (state : σ) :
    ∃ journal, invoke files toolchain settings options callback.recording (state, []) =
      (invoke files toolchain settings options callback state).recording journal := by
  rw [invoke, invoke]
  cases Invocation.program files toolchain.engine settings options with
  | error e => exact ⟨[], rfl⟩
  | ok program =>
    obtain ⟨shown, -, h⟩ := Invocation.ofJob_recording
      ⟨settings, program, toolchain, options.flags⟩
      (.start files (Invocation.router settings options callback state)) []
    rw [← Invocation.start_recording] at h
    exact ⟨[] ++ shown, h⟩

/-! ## What is written down -/

/-- A progress message of the kind is in the journal. -/
def Notice.IsIn (notice : Notice) (journal : Journal) : Prop :=
  ∃ e ∈ journal, e.1.category = .console ∧ e.1.id = notice.id

instance (notice : Notice) (journal : Journal) : Decidable (notice.IsIn journal) :=
  inferInstanceAs (Decidable (∃ e ∈ journal, e.1.category = .console ∧ e.1.id = notice.id))

theorem Notice.IsIn.append {notice : Notice} {journal : Journal} (h : notice.IsIn journal)
    (shown : Journal) : notice.IsIn (journal ++ shown) := by
  obtain ⟨e, he, hnotice⟩ := h
  exact ⟨e, List.mem_append_left _ he, hnotice⟩

/-- A progress message is written down. -/
theorem Router.isIn_log (r : Router σ) (journal : Journal) (level : Level) (notice : Notice)
    (text : String) :
    ∃ journal', (r.recording journal).log level notice text =
      (r.log level notice text).recording journal' ∧ notice.IsIn journal' := by
  refine ⟨_, r.log_recording journal level notice text, ?_⟩
  rcases hc : r.callback.onMessage r.state
      (r.withRule { Message.plain .console notice.id text with level }) with ⟨state, back⟩
  rw [logging, r.showing_of_open none rfl hc]
  exact ⟨_, List.mem_append_right _ List.mem_cons_self, rfl, rfl⟩

theorem Run.isIn_log (level : Level) (notice : Notice) (text : String) (s : Session σ κ)
    (journal : Journal) :
    ∃ journal', (log level notice text : Run (σ × Journal) κ Unit) (s.recording journal) =
      (.ok (), (log level notice text s).2.recording journal') ∧ notice.IsIn journal' := by
  obtain ⟨journal', hlog, hin⟩ := s.router.isIn_log journal level notice text
  refine ⟨journal', ?_, hin⟩
  show (Except.ok (), { s.recording journal with
    router := (s.router.recording journal).log level notice text }) = _
  rw [hlog]
  rfl

namespace Job

variable {job : Job κ} {r : ReportSpec}

theorem ne_createFailed_of_compareReport {actual expected : String} {s s' : Session σ κ}
    {outcome : Reconciled} (h : job.compareReport r actual expected s = (.ok outcome, s')) :
    outcome ≠ .createFailed := by
  rintro rfl
  rw [compareReport] at h
  split at h
  · obtain ⟨_, _, -, h⟩ := Run.bind_run_eq_ok h
    cases h
  · split at h
    · obtain ⟨_, _, -, h⟩ := Run.bind_run_eq_ok h
      obtain ⟨_, _, -, h⟩ := Run.bind_run_eq_ok h
      cases h
    · obtain ⟨_, _, -, h⟩ := Run.bind_run_eq_ok h
      cases h

theorem isIn_acceptNewReport {actual : String} {s s' : Session σ κ}
    (h : job.acceptNewReport r actual s = (.ok .createFailed, s')) (journal : Journal) :
    ∃ journal', job.acceptNewReport r actual (s.recording journal) =
      (.ok .createFailed, s'.recording journal') ∧ Notice.reportFolderMissing.IsIn journal' := by
  rw [acceptNewReport] at h ⊢
  split at h
  · cases (Prod.mk.inj h).1
  · rename_i hlocal
    rw [Run.get_bind] at h
    rw [if_neg hlocal, Run.get_bind]
    split at h
    · rename_i hfolder
      obtain ⟨_, s₁, hlog, h⟩ := Run.bind_run_eq_ok h
      obtain ⟨-, rfl⟩ := Prod.mk.inj h
      obtain ⟨journal', hrecorded, hin⟩ := Run.isIn_log .error .reportFolderMissing
        ("Unable to create the API report file. Please make sure the target folder exists:\n" ++
          job.settings.reportFolder.text) s journal
      rw [hlog] at hrecorded
      have hmissing : (!(s.recording journal).files.isFolder job.settings.reportFolder) = true :=
        hfolder
      refine ⟨journal', ?_, hin⟩
      rw [if_pos hmissing, Run.bind_run_ok hrecorded]
      rfl
    · obtain ⟨_, _, -, h⟩ := Run.bind_run_eq_ok h
      cases (Prod.mk.inj h).1

/-- A report whose folder is missing is written down. -/
theorem isIn_reconcile {s s' : Session σ κ}
    (h : job.reconcile r s = (.ok .createFailed, s')) (journal : Journal) :
    ∃ journal', job.reconcile r (s.recording journal) =
      (.ok .createFailed, s'.recording journal') ∧ Notice.reportFolderMissing.IsIn journal' := by
  obtain ⟨shown, hstaged⟩ := records_stageReport job r s journal
  rw [reconcile_eq] at h
  obtain ⟨actual, s₁, hstage, h⟩ := Run.bind_run_eq_ok h
  rw [hstage] at hstaged
  rw [Run.get_bind, judge] at h
  have hjudge : (job.judge r s₁.files actual : Run (σ × Journal) κ Reconciled) =
      job.acceptNewReport r actual ∧ job.acceptNewReport r actual s₁ = (.ok .createFailed, s') := by
    rw [judge]
    split at h
    · cases hread : s₁.files.readTextFile (job.settings.reportPath r) with
      | error cause =>
        rw [hread] at h
        cases (Prod.mk.inj h).1
      | ok expected =>
        rw [hread] at h
        exact absurd rfl (ne_createFailed_of_compareReport h)
    · rename_i hfile
      exact ⟨if_neg hfile, h⟩
  rw [reconcile_eq, Run.bind_run_ok hstaged, Run.get_bind]
  show ∃ journal', job.judge r s₁.files actual _ = _ ∧ _
  rw [hjudge.1]
  exact isIn_acceptNewReport hjudge.2 _

/-- In a run with a journal, a report whose folder is missing is written down to the end. -/
theorem isIn_run {s : Session σ κ} (he : job.settings.reportEnabled = true)
    {before rest : List ReportSpec} (hsplit : job.settings.reports = before ++ r :: rest)
    (hnew : r ∉ before) {s₁ s₂ : Session σ κ} (huntil : job.untilReport r s = (.ok (), s₁))
    (hreconcile : job.reconcile r s₁ = (.ok .createFailed, s₂)) (journal : Journal) :
    Notice.reportFolderMissing.IsIn (job.run (s.recording journal)).2.router.state.2 := by
  obtain ⟨shown, hfirst⟩ := records_untilReport job r s journal
  rw [huntil] at hfirst
  obtain ⟨journal', hmissing, hin⟩ := isIn_reconcile hreconcile (journal ++ shown)
  obtain ⟨shown', hafter⟩ := records_afterReport job rest .createFailed s₂ journal'
  rw [run_eq_of_append he hsplit hnew, Run.bind_run_ok hfirst, Run.bind_run_ok hmissing, hafter]
  exact hin.append shown'

end Job

end ApiReview
