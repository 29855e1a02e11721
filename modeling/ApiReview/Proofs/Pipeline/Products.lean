import ApiReview.Command.Summary
import ApiReview.Proofs.Files.Beside
import ApiReview.Proofs.Pipeline.Settling

/-!
# What a run produces

A run that comes to a result has done nothing to the files but a list of writings, one after another
(`FileTree.Wrote`): the model, the reports, the rollups and the metadata. The writings beside those
of the reports are exactly the planned outputs that `check` lists, with their texts; those of the
reports go to the listed places of the reports and to where they are staged (`invoke_products`).
-/

namespace ApiReview

variable {σ κ α β : Type}

/-- A text written to a file. -/
structure Written where
  path : Path
  text : String
  options : WriteOptions

namespace FileTree

/-- From one tree to another by some writings, each of which succeeds. -/
inductive Wrote : List Written → FileTree → FileTree → Prop
  | nil (t : FileTree) : Wrote [] t t
  | cons {w : Written} {ws : List Written} {t t' t'' : FileTree}
    (first : t.writeText w.path w.text w.options = (t', .ok ())) (rest : Wrote ws t' t'') :
    Wrote (w :: ws) t t''

section Wrote

variable {t t' t'' : FileTree} {w : Written} {ws ws' : List Written}

theorem Wrote.single (h : t.writeText w.path w.text w.options = (t', .ok ())) :
    Wrote [w] t t' :=
  .cons h (.nil t')

theorem Wrote.append (h : Wrote ws t t') (h' : Wrote ws' t' t'') : Wrote (ws ++ ws') t t'' := by
  induction h with
  | nil => exact h'
  | cons first _ ih => exact .cons first (ih h')

variable (hp : ∀ w ∈ ws, w.path.isAbsolute = true)

include hp

/-- Writings change no files elsewhere. -/
theorem Wrote.writesOnly (h : Wrote ws t t') :
    t.WritesOnly (fun place => ∃ w ∈ ws, place = w.path.place) t' := by
  induction h with
  | nil t => exact .refl _ t
  | @cons w ws t t₁ t₂ first _ ih =>
    obtain ⟨hw, hws⟩ := List.forall_mem_cons.mp hp
    have hfirst := t.writesOnly_writeText hw w.text w.options
    rw [first] at hfirst
    refine (hfirst.weaken fun place e => ⟨w, List.mem_cons_self, e⟩).trans
      ((ih hws).weaken fun place ⟨w', hw', e⟩ => ⟨w', List.mem_cons_of_mem _ hw', e⟩)

/-- What was written stands. -/
theorem Wrote.stands (h : Wrote ws t t') (hw : w ∈ ws) : t'.Stands w.path := by
  induction h with
  | nil => cases hw
  | @cons w' ws t t₁ t₂ first rest ih =>
    obtain ⟨habsolute, hws⟩ := List.forall_mem_cons.mp hp
    rcases List.mem_cons.mp hw with rfl | hw
    · exact (stands_writeText habsolute first).grows habsolute (rest.writesOnly hws).toGrows
    · exact ih hws hw

end Wrote

end FileTree

open FileTree (Wrote)

/-! ## Steps that write -/

namespace Run

/-- A step that comes to a result has done nothing to the files but writings to some paths. -/
def WritesTo (paths : Path → Prop) (x : Run σ κ α) : Prop :=
  ∀ ⦃s a s'⦄, x s = (.ok a, s') → ∃ ws, Wrote ws s.files s'.files ∧ ∀ w ∈ ws, paths w.path

section WritesTo

variable {paths paths' : Path → Prop}

theorem writesTo_of_keeps {x : Run σ κ α} (h : Keeps (·.files) x) : WritesTo paths x := by
  intro s a s' hx
  have hfiles : s'.files = s.files := h.of_run hx
  exact ⟨[], hfiles ▸ .nil _, fun _ hw => absurd hw List.not_mem_nil⟩

theorem WritesTo.bind {x : Run σ κ α} {f : α → Run σ κ β} (hx : WritesTo paths x)
    (hf : ∀ a, WritesTo paths (f a)) : WritesTo paths (x >>= f) := by
  intro s b s'' h
  obtain ⟨a, s', hfirst, hrest⟩ := bind_run_eq_ok h
  obtain ⟨ws, hws, hpaths⟩ := hx hfirst
  obtain ⟨ws', hws', hpaths'⟩ := hf a hrest
  exact ⟨ws ++ ws', hws.append hws', fun w hw =>
    (List.mem_append.mp hw).elim (hpaths w) (hpaths' w)⟩

theorem WritesTo.weaken {x : Run σ κ α} (h : WritesTo paths x)
    (hp : ∀ path, paths path → paths' path) : WritesTo paths' x := by
  intro s a s' hx
  obtain ⟨ws, hws, hpaths⟩ := h hx
  exact ⟨ws, hws, fun w hw => hp _ (hpaths w hw)⟩

theorem writesTo_forM {as : List α} {f : α → Run σ κ PUnit} (h : ∀ a ∈ as, WritesTo paths (f a)) :
    WritesTo paths (as.forM f) := by
  induction as with
  | nil => exact writesTo_of_keeps (keeps_pure _)
  | cons a as ih =>
    rw [List.forM]
    exact (h a List.mem_cons_self).bind fun _ => ih fun b hb => h b (List.mem_cons_of_mem _ hb)

/-- An artifact that is written is one writing. -/
theorem wrote_write {artifact : Artifact} {w : Written} {s s' : Session σ κ} {u : Unit}
    (h : write artifact w.path w.text w.options s = (.ok u, s')) :
    Wrote [w] s.files s'.files :=
  .single (write_eq_ok h).1

theorem writesTo_write (artifact : Artifact) {path : Path} (hp : paths path) (text : String)
    (options : WriteOptions) :
    WritesTo paths (write artifact path text options : Run σ κ Unit) := by
  intro s u s' h
  refine ⟨[⟨path, text, options⟩], wrote_write h, fun w hw => ?_⟩
  rw [List.mem_singleton.mp hw]
  exact hp

end WritesTo

end Run

namespace Job

open Run (WritesTo)

/-! ## Reports -/

/-- The two paths of a report, the staged one and the accepted one. -/
def ReportPaths (job : Job κ) (r : ReportSpec) (path : Path) : Prop :=
  path = job.settings.stagedReportPath r ∨ path = job.settings.reportPath r

section Report

variable (job : Job κ) (r : ReportSpec)

theorem writesTo_stageReport :
    WritesTo (job.ReportPaths r) (job.stageReport r : Run σ κ String) := by
  intro s text s' h
  obtain ⟨_, _, -, -, hwrite, -⟩ := stageReport_eq_ok h
  refine ⟨[⟨job.settings.stagedReportPath r, text, job.writeOptions⟩], .single hwrite,
    fun w hw => ?_⟩
  rw [List.mem_singleton.mp hw]
  exact .inl rfl

/-- Behind a progress message something else is written or nothing. -/
theorem writesTo_log_bind {paths : Path → Prop} (level : Level) (notice : Notice) (text : String)
    {f : Unit → Run σ κ α} (h : WritesTo paths (f ())) :
    WritesTo paths (Run.log level notice text >>= f) :=
  WritesTo.bind (Run.writesTo_of_keeps (Run.keeps_log _ _ _)) fun _ => h

theorem writesTo_answer {paths : Path → Prop} (outcome : Reconciled) :
    WritesTo paths (pure outcome : Run σ κ Reconciled) :=
  Run.writesTo_of_keeps (Run.keeps_pure outcome)

theorem writesTo_judge (files : FileTree) (actual : String) :
    WritesTo (job.ReportPaths r) (job.judge r files actual : Run σ κ Reconciled) := by
  have accepts : ∀ (artifact : Artifact) (options : WriteOptions),
      WritesTo (job.ReportPaths r)
        (Run.write artifact (job.settings.reportPath r) actual options : Run σ κ Unit) :=
    fun artifact options => Run.writesTo_write artifact (.inr rfl) actual options
  rw [judge]
  split
  · split
    · rw [compareReport]
      split
      · exact writesTo_log_bind _ _ _ (writesTo_answer _)
      · split
        · exact writesTo_log_bind _ _ _ ((accepts _ _).bind fun _ => writesTo_answer _)
        · exact writesTo_log_bind _ _ _ (writesTo_answer _)
    · exact Run.writesTo_of_keeps (Run.keeps_throw _)
  · rw [acceptNewReport]
    split
    · exact writesTo_log_bind _ _ _ (writesTo_answer _)
    · refine WritesTo.bind (Run.writesTo_of_keeps Run.keeps_get) fun s => ?_
      split
      · exact writesTo_log_bind _ _ _ (writesTo_answer _)
      · exact (accepts _ _).bind fun _ => writesTo_log_bind _ _ _ (writesTo_answer _)

/-- A report is written to its own paths. -/
theorem writesTo_reconcileNext :
    WritesTo (job.ReportPaths r) (job.reconcileNext r : Run σ κ Unit) := by
  refine WritesTo.bind ?_ fun _ => Run.writesTo_of_keeps (Run.keeps_modify fun _ => rfl)
  rw [reconcile_eq]
  exact (writesTo_stageReport job r).bind fun actual =>
    WritesTo.bind (Run.writesTo_of_keeps Run.keeps_get) fun s =>
      writesTo_judge job r s.files actual

theorem writesTo_wantedReports :
    WritesTo
      (fun path => job.settings.reportEnabled = true ∧
        ∃ r ∈ job.settings.reports, job.ReportPaths r path)
      (job.wantedReports : Run σ κ Unit) := by
  rw [wantedReports]
  split
  · rename_i he
    exact Run.writesTo_forM fun r hr =>
      (writesTo_reconcileNext job r).weaken fun _ h => ⟨he, r, hr, h⟩
  · exact Run.writesTo_of_keeps (Run.keeps_pure _)

end Report

/-! ## The planned outputs -/

/-- The text of a planned output, but for the reports. -/
def textOf? (job : Job ScriptedCollection) : OutputKind → Option String
  | .report _ => none
  | .model => some (job.modelText (Script.model job.collected))
  | .rollup tier => some (Script.rollupText tier)
  | .metadata => some (metadataText Tool.name Tool.version)

/-- The writings of some planned outputs. -/
def writings (job : Job ScriptedCollection) (outputs : List PlannedOutput) : List Written :=
  outputs.filterMap fun o => (job.textOf? o.kind).map (⟨o.path, ·, job.writeOptions⟩)

section Scripted

variable {job : Job ScriptedCollection} {s s' : Session σ ScriptedCollection}

theorem wrote_wantedModel (hm : s.model = some (Script.model job.collected))
    (h : job.wantedModel s = (.ok (), s')) :
    Wrote (job.writings job.settings.plannedModel) s.files s'.files := by
  rw [wantedModel] at h
  rw [Settings.plannedModel]
  split at h
  · rename_i he
    rw [if_pos he]
    rw [writeModel, Run.get_bind, hm] at h
    cases hp : job.settings.modelPath with
    | none =>
      rw [hp] at h
      cases (Prod.mk.inj h).1
    | some path =>
      rw [hp] at h
      obtain ⟨_, s₁, hlog, hwrite⟩ := Run.bind_run_eq_ok h
      have hfiles : s₁.files = s.files := (Run.keeps_log _ _ _).of_run hlog
      have hwritten := Run.wrote_write
        (w := ⟨path, job.modelText (Script.model job.collected), job.writeOptions⟩) hwrite
      rwa [hfiles] at hwritten
  · rename_i he
    rw [if_neg he]
    obtain ⟨-, rfl⟩ := Prod.mk.inj h
    exact .nil _

theorem wrote_writeRollup {script : Script} (ht : job.toolchain = script.toolchain)
    {tier : RollupTier} (h : job.writeRollup tier s = (.ok (), s')) :
    Wrote (job.writings ((tier.outputPath job.settings).toList.map (⟨.rollup tier, ·⟩))) s.files
      s'.files := by
  rw [writeRollup] at h
  cases hp : tier.outputPath job.settings with
  | none =>
    rw [hp] at h
    obtain ⟨-, rfl⟩ := Prod.mk.inj h
    exact .nil _
  | some path =>
    rw [hp] at h
    obtain ⟨_, s₁, hlog, h⟩ := Run.bind_run_eq_ok h
    obtain ⟨c, s₂, hcollection, h⟩ := Run.bind_run_eq_ok h
    obtain ⟨text, s₃, hask, hwrite⟩ := Run.bind_run_eq_ok h
    obtain ⟨findings, hrender, rfl⟩ := Run.ask_eq_ok hask
    obtain ⟨-, rfl⟩ := Run.collection_eq_ok hcollection
    have htext : text = Script.rollupText tier := by
      rw [ht] at hrender
      exact (Except.ok.inj (Prod.mk.inj hrender).1).symm
    subst htext
    have hfiles : s₂.files = s.files := (Run.keeps_log _ _ _).of_run hlog
    have hwritten :=
      Run.wrote_write (w := ⟨path, Script.rollupText tier, job.writeOptions⟩) hwrite
    rwa [show _ = s.files from hfiles] at hwritten

theorem writings_append (job : Job ScriptedCollection) (outputs more : List PlannedOutput) :
    job.writings (outputs ++ more) = job.writings outputs ++ job.writings more :=
  List.filterMap_append

theorem wrote_rollups {script : Script} (ht : job.toolchain = script.toolchain)
    {tiers : List RollupTier} (h : tiers.forM job.writeRollup s = (.ok (), s')) :
    Wrote (job.writings (tiers.flatMap fun tier =>
      (tier.outputPath job.settings).toList.map (⟨.rollup tier, ·⟩))) s.files s'.files := by
  induction tiers generalizing s with
  | nil =>
    obtain ⟨-, rfl⟩ := Prod.mk.inj h
    exact .nil _
  | cons tier tiers ih =>
    rw [List.forM] at h
    obtain ⟨_, s₁, hfirst, hrest⟩ := Run.bind_run_eq_ok h
    rw [List.flatMap_cons, writings_append]
    exact (wrote_writeRollup ht hfirst).append (ih hrest)

theorem wrote_wantedRollups {script : Script} (ht : job.toolchain = script.toolchain)
    (h : job.wantedRollups s = (.ok (), s')) :
    Wrote (job.writings job.settings.plannedRollups) s.files s'.files := by
  rw [wantedRollups] at h
  rw [Settings.plannedRollups]
  split at h
  · rename_i he
    rw [if_pos he]
    exact wrote_rollups ht h
  · rename_i he
    rw [if_neg he]
    obtain ⟨-, rfl⟩ := Prod.mk.inj h
    exact .nil _

theorem wrote_wantedMetadata (h : job.wantedMetadata s = (.ok (), s')) :
    Wrote (job.writings job.settings.plannedMetadata) s.files s'.files := by
  rw [wantedMetadata] at h
  rw [Settings.plannedMetadata]
  split at h
  · rename_i he
    rw [if_pos he]
    rw [writeMetadata] at h
    cases hp : job.settings.metadataPath with
    | none =>
      rw [hp] at h
      cases (Prod.mk.inj h).1
    | some path =>
      rw [hp] at h
      exact Run.wrote_write
        (w := ⟨path, metadataText Tool.name Tool.version, job.writeOptions⟩) h
  · rename_i he
    rw [if_neg he]
    obtain ⟨-, rfl⟩ := Prod.mk.inj h
    exact .nil _

/-- A run writes the model, then the reports, the rollups and the metadata. -/
theorem wrote_run {script : Script} (ht : job.toolchain = script.toolchain)
    (h : job.run s = (.ok (), s')) :
    ∃ reports : List Written,
      Wrote (job.writings job.settings.plannedModel ++ reports ++
        job.writings job.settings.plannedRollups ++
        job.writings job.settings.plannedMetadata) s.files s'.files ∧
      ∀ w ∈ reports, job.settings.reportEnabled = true ∧
        ∃ r ∈ job.settings.reports, job.ReportPaths r w.path := by
  obtain ⟨s₁, s₂, s₃, s₄, hanalysis, hmodel, hreports, hbehind, hfiles⟩ := exists_parts h
  obtain ⟨router, calls, hrun, -, -⟩ := analysis_run ht s
  obtain ⟨-, rfl⟩ := Prod.mk.inj (hrun.symm.trans hanalysis)
  rw [goThrough_behindReports] at hbehind
  obtain ⟨_, s₅, hrollups, hmetadata⟩ := Run.bind_run_eq_ok hbehind
  have hfirst := wrote_wantedModel rfl hmodel
  obtain ⟨reports, hsecond, hpaths⟩ := writesTo_wantedReports job hreports
  have hthird := wrote_wantedRollups ht hrollups
  have hlast := wrote_wantedMetadata hmetadata
  rw [← hfiles] at hlast
  exact ⟨reports, ((hfirst.append hsecond).append hthird).append hlast, hpaths⟩

end Scripted

/-- What is written for planned outputs is written to their paths. -/
theorem mem_writings {job : Job ScriptedCollection} {outputs : List PlannedOutput} {w : Written}
    (h : w ∈ job.writings outputs) : ∃ out ∈ outputs, w.path = out.path := by
  obtain ⟨out, hout, hw⟩ := List.mem_filterMap.mp h
  obtain ⟨text, -, rfl⟩ := Option.map_eq_some_iff.mp hw
  exact ⟨out, hout, rfl⟩

theorem writing_mem {job : Job ScriptedCollection} {outputs : List PlannedOutput}
    {out : PlannedOutput} (hout : out ∈ outputs) {text : String}
    (ht : job.textOf? out.kind = some text) :
    ⟨out.path, text, job.writeOptions⟩ ∈ job.writings outputs :=
  List.mem_filterMap.mpr ⟨out, hout, by rw [ht]; rfl⟩

end Job

namespace Settings

theorem kind_of_mem_plannedReports {s : Settings} {out : PlannedOutput}
    (h : out ∈ s.plannedReports) : ∃ r ∈ s.reports, s.reportEnabled = true ∧
      out = ⟨.report r.variant, s.reportPath r⟩ := by
  rw [plannedReports] at h
  split at h
  · rename_i he
    obtain ⟨r, hr, rfl⟩ := List.mem_map.mp h
    exact ⟨r, hr, he, rfl⟩
  · cases h

theorem reportPath_mem_plannedOutputs {s : Settings} (he : s.reportEnabled = true)
    {r : ReportSpec} (hr : r ∈ s.reports) :
    ⟨.report r.variant, s.reportPath r⟩ ∈ s.plannedOutputs := by
  refine List.mem_append_left _ (List.mem_append_left _ (List.mem_append_left _ ?_))
  rw [plannedReports, if_pos he]
  exact List.mem_map.mpr ⟨r, hr, rfl⟩

/-- The planned outputs have paths from the root. -/
theorem isAbsolute_of_mem_plannedOutputs {s : Settings} (hs : s.ReportsPlaced)
    (ho : s.OutputsPlaced) {out : PlannedOutput} (h : out ∈ s.plannedOutputs) :
    out.path.isAbsolute = true := by
  rw [plannedOutputs, List.mem_append, List.mem_append, List.mem_append] at h
  rcases h with ((h | h) | h) | h
  · obtain ⟨r, -, -, rfl⟩ := kind_of_mem_plannedReports h
    exact hs.isAbsolute_reportPath r
  · rw [plannedModel] at h
    split at h
    · obtain ⟨path, hp, rfl⟩ := List.mem_map.mp h
      exact ho.model path (Option.mem_toList.mp hp)
    · cases h
  · rw [plannedRollups] at h
    split at h
    · obtain ⟨tier, -, h⟩ := List.mem_flatMap.mp h
      obtain ⟨path, hp, rfl⟩ := List.mem_map.mp h
      exact ho.rollup tier path (Option.mem_toList.mp hp)
    · cases h
  · rw [plannedMetadata] at h
    split at h
    · obtain ⟨path, hp, rfl⟩ := List.mem_map.mp h
      exact ho.metadata path (Option.mem_toList.mp hp)
    · cases h

end Settings

namespace Job

/-- What a run writes are planned outputs and staged reports, and all planned outputs beside the
reports are written. -/
theorem products_run {script : Script} {job : Job ScriptedCollection}
    (ht : job.toolchain = script.toolchain) {s s' : Session σ ScriptedCollection}
    (h : job.run s = (.ok (), s')) :
    ∃ writes, Wrote writes s.files s'.files ∧
      (∀ w ∈ writes, (∃ out ∈ job.settings.plannedOutputs, w.path = out.path) ∨
        job.settings.reportEnabled = true ∧
          ∃ r ∈ job.settings.reports, w.path = job.settings.stagedReportPath r) ∧
      ∀ out ∈ job.settings.plannedOutputs, ∀ text, job.textOf? out.kind = some text →
        ⟨out.path, text, job.writeOptions⟩ ∈ writes := by
  obtain ⟨reports, hwrote, hreports⟩ := wrote_run ht h
  refine ⟨_, hwrote, fun w hw => ?_, fun out hout text htext => ?_⟩
  · simp only [List.mem_append] at hw
    rcases hw with ((hw | hw) | hw) | hw
    · obtain ⟨out, hout, hpath⟩ := mem_writings hw
      exact .inl ⟨out, List.mem_append_left _ (List.mem_append_left _
        (List.mem_append_right _ hout)), hpath⟩
    · obtain ⟨he, r, hr, hpath⟩ := hreports w hw
      rcases hpath with hpath | hpath
      · exact .inr ⟨he, r, hr, hpath⟩
      · exact .inl ⟨_, Settings.reportPath_mem_plannedOutputs he hr, hpath⟩
    · obtain ⟨out, hout, hpath⟩ := mem_writings hw
      exact .inl ⟨out, List.mem_append_left _ (List.mem_append_right _ hout), hpath⟩
    · obtain ⟨out, hout, hpath⟩ := mem_writings hw
      exact .inl ⟨out, List.mem_append_right _ hout, hpath⟩
  · rw [Settings.plannedOutputs] at hout
    simp only [List.mem_append] at hout ⊢
    rcases hout with ((hout | hout) | hout) | hout
    · obtain ⟨r, -, -, rfl⟩ := Settings.kind_of_mem_plannedReports hout
      cases htext
    · exact .inl (.inl (.inl (writing_mem hout htext)))
    · exact .inl (.inr (writing_mem hout htext))
    · exact .inr (writing_mem hout htext)

end Job

/-- A run that comes to a result has done nothing to the files but some writings. They go to planned
outputs, which are what `check` lists, and to the staged reports; every planned output beside the
reports is among them with its text, and stands behind the run; and no other file has changed. -/
theorem invoke_products (script : Script) {t₀ t : FileTree} {input : PrepareInput} {s : Settings}
    (hs : Settings.prepare t₀ input = .ok s) {options : InvokeOptions} {callback : Callback σ}
    {state : σ} {o : Outcome}
    (h : (invoke t script.toolchain s options callback state).result = .ok o) :
    (∀ diagnostics, (Command.Summary.ofSettings s diagnostics).outputs =
      s.plannedOutputs.map fun out => (out.kind.label, s.shortPath out.path)) ∧
    ∃ writes,
      Wrote writes t (invoke t script.toolchain s options callback state).files ∧
      (∀ w ∈ writes, (∃ out ∈ s.plannedOutputs, w.path = out.path) ∨
        s.reportEnabled = true ∧ ∃ r ∈ s.reports, w.path = s.stagedReportPath r) ∧
      (∀ out ∈ s.plannedOutputs, ∀ text,
        (script.job s o.program options.flags).textOf? out.kind = some text →
          ⟨out.path, text, .inStyle s.lineEnding⟩ ∈ writes ∧
          (invoke t script.toolchain s options callback state).files.isFile out.path = true) ∧
      ∀ q : Path, (invoke t script.toolchain s options callback state).files.fileAt? q ≠
          t.fileAt? q →
        (∃ out ∈ s.plannedOutputs, q.place = out.path.place) ∨
          s.reportEnabled = true ∧ ∃ r ∈ s.reports, q.place = (s.stagedReportPath r).place := by
  refine ⟨fun _ => rfl, ?_⟩
  have hplaced := Settings.reportsPlaced_of_prepare hs
  have houtputs := Settings.outputsPlaced_of_prepare hs
  cases hp : Invocation.program t script.toolchain.engine s options with
  | error e =>
    rw [invoke_of_program_error hp] at h
    cases h
  | ok program =>
    rw [invoke_of_program hp] at h ⊢
    obtain ⟨s', hrun⟩ := Invocation.run_of_ofJob h
    obtain ⟨hresult, hfiles⟩ := Invocation.ofJob_of_run hrun
    obtain rfl := Except.ok.inj (hresult.symm.trans h)
    obtain ⟨writes, hwrote, hpaths, htexts⟩ := Job.products_run rfl hrun
    have habsolute : ∀ w ∈ writes, w.path.isAbsolute = true := fun w hw => by
      rcases hpaths w hw with ⟨out, hout, e⟩ | ⟨-, r, -, e⟩
      · rw [e]
        exact Settings.isAbsolute_of_mem_plannedOutputs hplaced houtputs hout
      · rw [e]
        exact hplaced.isAbsolute_stagedReportPath r
    rw [hfiles]
    refine ⟨writes, hwrote, hpaths, fun out hout text htext => ?_, fun q hq => ?_⟩
    · have hw := htexts out hout text htext
      exact ⟨hw, (hwrote.stands habsolute hw).1⟩
    · have hwritten : ∃ w ∈ writes, q.place = w.path.place :=
        Classical.byContradiction fun hnone => hq ((hwrote.writesOnly habsolute).elsewhere q hnone)
      obtain ⟨w, hw, hplace⟩ := hwritten
      rcases hpaths w hw with ⟨out, hout, e⟩ | ⟨he, r, hr, e⟩
      · exact .inl ⟨out, hout, e ▸ hplace⟩
      · exact .inr ⟨he, r, hr, e ▸ hplace⟩

/-- Settings that ask for every kind of file. -/
def everyOutputInput : PrepareInput :=
  { Settings.stagingInput "<projectFolder>/temp" with
    document := .object
      [("projectFolder", .string "/p"),
        ("mainEntryPointFilePath", .string "<projectFolder>/index.d.ts"),
        ("compiler", .object [("overrideTsconfig", .object [])]),
        ("apiReport", .object
          [("enabled", .boolean true), ("reportFileName", .string "p"),
            ("reportFolder", .string "<projectFolder>/etc"),
            ("reportTempFolder", .string "<projectFolder>/temp")]),
        ("docModel", .object
          [("enabled", .boolean true),
            ("apiJsonFilePath", .string "<projectFolder>/p.api.json")]),
        ("dtsRollup", .object
          [("enabled", .boolean true), ("untrimmedFilePath", .string "<projectFolder>/p.d.ts")]),
        ("tsdocMetadata", .object
          [("enabled", .boolean true),
            ("tsdocMetadataFilePath", .string "<projectFolder>/meta.json")])] }

/-- A run that writes every kind of file. -/
theorem invoke_products_every :
    ∃ s o, Settings.prepare Settings.acceptedTree everyOutputInput = .ok s ∧
      (invoke Settings.acceptedTree Script.standard.toolchain s .plain .none ()).result = .ok o ∧
      (Command.Summary.ofSettings s false).outputs =
        [("API report (complete)", "etc/p.api.md"), ("doc model", "p.api.json"),
          ("untrimmed rollup", "p.d.ts"), ("tsdoc metadata", "meta.json")] ∧
      ∃ writes,
        Wrote writes Settings.acceptedTree
          (invoke Settings.acceptedTree Script.standard.toolchain s .plain .none ()).files ∧
        ⟨⟨"/p/p.d.ts"⟩, Script.rollupText .untrimmed, .inStyle s.lineEnding⟩ ∈ writes := by
  obtain ⟨s, hs, hparts⟩ : ∃ s, Settings.prepare Settings.acceptedTree everyOutputInput = .ok s ∧
      ((Command.Summary.ofSettings s false).outputs,
        decide (⟨.rollup .untrimmed, ⟨"/p/p.d.ts"⟩⟩ ∈ s.plannedOutputs),
        (invoke Settings.acceptedTree Script.standard.toolchain s .plain .none
          ()).result.toOption.isSome) =
      ([("API report (complete)", "etc/p.api.md"), ("doc model", "p.api.json"),
        ("untrimmed rollup", "p.d.ts"), ("tsdoc metadata", "meta.json")], true, true) :=
    exists_ok_of_map (by decide +kernel)
  simp only [Prod.mk.injEq, decide_eq_true_eq, Option.isSome_iff_exists] at hparts
  obtain ⟨houtputs, hrollup, o, ho⟩ := hparts
  have hok := eq_ok_of_toOption ho
  obtain ⟨-, writes, hwrote, -, htexts, -⟩ := invoke_products Script.standard hs hok
  exact ⟨s, o, hs, hok, houtputs, writes, hwrote,
    (htexts _ hrollup (Script.rollupText .untrimmed) rfl).1⟩

end ApiReview
