import ApiReview.Pipeline.Invoke
import ApiReview.Proofs.Analysis.Inputs
import ApiReview.Proofs.Pipeline.Baseline
import ApiReview.Proofs.Pipeline.Writing
import ApiReview.Proofs.Settings.WellFormed

/-!
# Runs that find what they need

Each stage of a run leaves for the later ones what these take: told as what a step makes of sessions
with some property, unless it fails for a reason of its own (`Run.Provides`). So no run misses
anything if its settings have what it takes from them (`Job.provides_run`). Nor does setting up the
analysis (`Analysis.program_eq_error`), and prepared settings always have it
(`Settings.wellFormed_and_missesNothing_of_prepare`).
-/

namespace ApiReview

/-- The toolchain failed, or a file could not be read or written. -/
def RunError.isExternal : RunError → Bool
  | .toolchain _ | .unreadableReport _ | .unwritten .. => true
  | _ => false

variable {σ κ α β : Type}

namespace Session

/-- The exported symbols were collected. -/
def Collected (s : Session σ κ) : Prop :=
  ∃ c, s.collection = some c

/-- The exported symbols were collected, and the model was built of them. -/
structure Modelled (s : Session σ κ) : Prop where
  collected : s.Collected
  model : ∃ model, s.model = some model

end Session

namespace Run

variable {P Q R : Session σ κ → Prop}

/-- From sessions with one property a step comes to sessions with another one, unless it fails from
outside. -/
def Provides (P Q : Session σ κ → Prop) (x : Run σ κ α) : Prop :=
  ∀ s, P s → match x s with
    | (.ok _, s') => Q s'
    | (.error e, _) => e.isExternal = true

theorem Provides.of_error {x : Run σ κ α} (h : Provides P Q x) {s s' : Session σ κ} (hs : P s)
    {e : RunError} (hx : x s = (.error e, s')) : e.isExternal = true := by
  have hstep := h s hs
  rwa [hx] at hstep

theorem Provides.bind {x : Run σ κ α} {f : α → Run σ κ β} (hx : Provides P Q x)
    (hf : ∀ a, Provides Q R (f a)) : Provides P R (x >>= f) := by
  intro s hs
  have hstep := hx s hs
  rcases hr : x s with ⟨e | a, s'⟩
  · rw [hr] at hstep
    rwa [bind_run_error hr]
  · rw [hr] at hstep
    rw [bind_run_ok hr]
    exact hf a s' hstep

theorem provides_pure (P : Session σ κ → Prop) (a : α) : Provides P P (pure a) := fun _ hs => hs

theorem provides_throw (P Q : Session σ κ → Prop) {e : RunError} (h : e.isExternal = true) :
    Provides P Q (throw e : Run σ κ α) := fun _ _ => h

theorem provides_get_bind {f : Session σ κ → Run σ κ α} (h : ∀ s, P s → Provides P Q (f s)) :
    Provides P Q (get >>= f) := fun s hs => by
  rw [get_bind]
  exact h s hs s hs

theorem provides_modify {f : Session σ κ → Session σ κ} (h : ∀ s, P s → Q (f s)) :
    Provides P Q (modify f : Run σ κ PUnit) := h

theorem provides_forM {as : List α} {f : α → Run σ κ PUnit} (h : ∀ a ∈ as, Provides P P (f a)) :
    Provides P P (as.forM f) := by
  induction as with
  | nil => exact provides_pure P _
  | cons a as ih =>
    rw [List.forM]
    exact (h a List.mem_cons_self).bind fun _ => ih fun b hb => h b (List.mem_cons_of_mem _ hb)

theorem provides_wanted {c : Prop} [Decidable c] {x : Run σ κ Unit} (h : c → Provides P P x) :
    Provides P P (if c then x else pure ()) := by
  split
  · rename_i hc
    exact h hc
  · exact provides_pure P ()

theorem provides_collection (h : ∀ s, P s → s.Collected) :
    Provides P P (collection : Run σ κ κ) := fun s hs => by
  obtain ⟨c, hc⟩ := h s hs
  rw [collection_run, hc]
  exact hs

/-- The property is one of what was collected and of the model alone. -/
def Lasting (P : Session σ κ → Prop) : Prop :=
  ∀ s s' : Session σ κ, s'.collection = s.collection → s'.model = s.model → P s → P s'

theorem lasting_true : Lasting fun _ : Session σ κ => True := fun _ _ _ _ _ => trivial

theorem lasting_collected : Lasting (Session.Collected : Session σ κ → Prop) :=
  fun _ _ hc _ ⟨c, h⟩ => ⟨c, hc.trans h⟩

theorem lasting_modelled : Lasting (Session.Modelled : Session σ κ → Prop) :=
  fun s s' hc hm ⟨hcollected, model, h⟩ =>
    ⟨lasting_collected s s' hc hm hcollected, model, hm.trans h⟩

section Lasting

variable (hP : Lasting P)

include hP

theorem provides_route (f : Router σ → Router σ) : Provides P P (route f : Run σ κ Unit) :=
  provides_modify fun s hs => hP s _ rfl rfl hs

theorem provides_log (level : Level) (notice : Notice) (text : String) :
    Provides P P (log level notice text : Run σ κ Unit) :=
  provides_route hP _

/-- A progress message, and then a result. -/
theorem provides_tell (level : Level) (notice : Notice) (text : String) (a : α) :
    Provides P P (log level notice text >>= fun _ => pure a : Run σ κ α) :=
  (provides_log hP level notice text).bind fun _ => provides_pure P a

theorem provides_ask (call : Call) (work : Work α) :
    Provides P P (ask call work : Run σ κ α) := fun s hs => by
  rw [ask_run]
  rcases work s.router.findings with ⟨e | a, findings⟩
  · rfl
  · exact hP s _ rfl rfl hs

theorem provides_write (artifact : Artifact) (path : Path) (text : String)
    (options : WriteOptions) : Provides P P (write artifact path text options : Run σ κ Unit) :=
  fun s hs => by
    rw [write_run]
    rcases s.files.writeText path text options with ⟨files, e | u⟩
    · rfl
    · exact hP s _ rfl rfl hs

end Lasting

end Run

/-! ## The stages -/

namespace Job

open Run

variable (job : Job κ)

theorem provides_preamble : Provides (fun _ => True) (fun _ => True)
    (job.preamble : Run σ κ Unit) :=
  provides_get_bind fun _ _ => (provides_route lasting_true _).bind fun _ =>
    (provides_route lasting_true _).bind fun _ => provides_route lasting_true _

theorem provides_collect : Provides (fun _ => True) Session.Collected
    (job.collect : Run σ κ Unit) :=
  (provides_ask lasting_true _ _).bind fun c => provides_modify fun _ _ => ⟨c, rfl⟩

/-- Work on what was collected leaves something collected. -/
theorem provides_recollect (call : Call) (work : κ → Work κ) :
    Provides Session.Collected Session.Collected
      (Run.collection >>= fun c => Run.ask call (work c) >>= fun c =>
        modify fun s => { s with collection := some c } : Run σ κ Unit) :=
  (provides_collection fun _ h => h).bind fun _ =>
    (provides_ask lasting_collected _ _).bind fun c =>
      provides_modify fun _ _ => ⟨c, rfl⟩

theorem provides_buildModel : Provides Session.Collected Session.Modelled
    (job.buildModel : Run σ κ Unit) :=
  (provides_collection fun _ h => h).bind fun _ =>
    (provides_ask lasting_collected _ _).bind fun model =>
      (provides_modify fun _ h => ⟨h, model, rfl⟩).bind fun _ =>
        provides_route lasting_modelled _

/-- The analysis leaves a model for the stages behind it. -/
theorem provides_analysis : Provides (fun _ => True) Session.Modelled
    (job.goThrough Stage.analysis : Run σ κ Unit) := by
  have hfilter : Stage.analysis.filter (·.isWanted job.settings) =
    (Stage.analysis : List (Stage σ κ)) := rfl
  rw [goThrough, hfilter]
  exact job.provides_preamble.bind fun _ => job.provides_collect.bind fun _ =>
    (provides_recollect .docComments job.toolchain.attachDocComments).bind fun _ =>
      (provides_recollect .validation job.toolchain.validate).bind fun _ =>
        job.provides_buildModel.bind fun _ => provides_pure _ _

variable {job}

theorem provides_writeModel (hp : ∃ path, job.settings.modelPath = some path) :
    Provides Session.Modelled Session.Modelled (job.writeModel : Run σ κ Unit) := by
  obtain ⟨path, hp⟩ := hp
  refine provides_get_bind fun s ⟨_, model, hm⟩ => ?_
  rw [hp, hm]
  exact (provides_log lasting_modelled _ _ _).bind fun _ =>
    provides_write lasting_modelled _ _ _ _

theorem provides_stageReport (r : ReportSpec) :
    Provides Session.Modelled Session.Modelled (job.stageReport r : Run σ κ String) :=
  (provides_collection fun _ h => h.collected).bind fun _ =>
    (provides_ask lasting_modelled _ _).bind fun _ =>
      (provides_write lasting_modelled _ _ _ _).bind fun _ => provides_pure _ _

theorem provides_compareReport (r : ReportSpec) (actual expected : String) :
    Provides Session.Modelled Session.Modelled
      (job.compareReport r actual expected : Run σ κ Reconciled) := by
  rw [compareReport]
  split
  · exact provides_tell lasting_modelled _ _ _ _
  · split
    · exact (provides_log lasting_modelled _ _ _).bind fun _ =>
        (provides_write lasting_modelled _ _ _ _).bind fun _ => provides_pure _ _
    · exact provides_tell lasting_modelled _ _ _ _

theorem provides_acceptNewReport (r : ReportSpec) (actual : String) :
    Provides Session.Modelled Session.Modelled
      (job.acceptNewReport r actual : Run σ κ Reconciled) := by
  rw [acceptNewReport]
  split
  · exact provides_tell lasting_modelled _ _ _ _
  · refine provides_get_bind fun s _ => ?_
    split
    · exact provides_tell lasting_modelled _ _ _ _
    · exact (provides_write lasting_modelled _ _ _ _).bind fun _ =>
        provides_tell lasting_modelled _ _ _ _

theorem provides_reconcileNext (r : ReportSpec) :
    Provides Session.Modelled Session.Modelled (job.reconcileNext r : Run σ κ Unit) := by
  have judged : ∀ (files : FileTree) (actual : String),
      Provides Session.Modelled Session.Modelled
        (job.judge r files actual : Run σ κ Reconciled) := fun files actual => by
    rw [judge]
    split
    · split
      · exact provides_compareReport r actual _
      · exact provides_throw _ _ rfl
    · exact provides_acceptNewReport r actual
  rw [reconcileNext, reconcile_eq]
  refine Provides.bind (Q := Session.Modelled) ?_ fun outcome => ?_
  · exact (provides_stageReport r).bind fun actual =>
      provides_get_bind fun s _ => judged s.files actual
  · exact provides_modify fun s h => lasting_modelled s _ rfl rfl h

theorem provides_writeRollup (tier : RollupTier) :
    Provides Session.Modelled Session.Modelled (job.writeRollup tier : Run σ κ Unit) := by
  rw [writeRollup]
  split
  · exact provides_pure _ _
  · exact (provides_log lasting_modelled _ _ _).bind fun _ =>
      (provides_collection fun _ h => h.collected).bind fun _ =>
        (provides_ask lasting_modelled _ _).bind fun _ =>
          provides_write lasting_modelled _ _ _ _

theorem provides_writeMetadata (hp : ∃ path, job.settings.metadataPath = some path) :
    Provides Session.Modelled Session.Modelled (job.writeMetadata : Run σ κ Unit) := by
  obtain ⟨path, hp⟩ := hp
  rw [writeMetadata, hp]
  exact provides_write lasting_modelled _ _ _ _

/-- A run misses nothing if its settings have what it takes from them. -/
theorem provides_run (hs : job.settings.Supplied) :
    Provides (fun _ => True) Session.Modelled (job.run : Run σ κ Unit) := by
  have hmodel : Provides Session.Modelled Session.Modelled (job.wantedModel : Run σ κ Unit) :=
    provides_wanted fun he => provides_writeModel (hs.model he)
  have hreports : Provides Session.Modelled Session.Modelled
      (job.wantedReports : Run σ κ Unit) :=
    provides_wanted fun _ => provides_forM fun r _ => provides_reconcileNext r
  have hrollups : Provides Session.Modelled Session.Modelled
      (job.wantedRollups : Run σ κ Unit) :=
    provides_wanted fun _ => provides_forM fun tier _ => provides_writeRollup tier
  have hmetadata : Provides Session.Modelled Session.Modelled
      (job.wantedMetadata : Run σ κ Unit) :=
    provides_wanted fun he => provides_writeMetadata (hs.metadata he)
  have hbefore : Provides (fun _ => True) Session.Modelled
      (job.goThrough Stage.beforeReports : Run σ κ Unit) := fun s h => by
    rw [goThrough_beforeReports]
    exact job.provides_analysis.bind (fun _ => hmodel) s h
  have hbehind : Provides Session.Modelled Session.Modelled
      (job.goThrough Stage.behindReports : Run σ κ Unit) := fun s h => by
    rw [goThrough_behindReports]
    exact hrollups.bind (fun _ => hmetadata) s h
  intro s h
  rw [run_eq]
  exact hbefore.bind (fun _ => hreports.bind fun _ => hbehind.bind fun _ =>
    provides_route lasting_modelled _) s h

end Job

/-! ## Setting up the analysis -/

namespace Analysis

theorem compilerConfig_eq_error {t : FileTree} {s : Settings} (hs : s.Supplied)
    {e : AnalysisError} (h : s.compilerConfig t = .error e) :
    ∃ path problem, e = .unreadableConfig path problem := by
  rw [Settings.compilerConfig] at h
  split at h
  · cases h
  · rename_i path _ _
    rcases bind_eq_error h with h | ⟨config, -, h⟩
    · rcases bind_eq_error h with h | ⟨text, -, h⟩
      · obtain ⟨cause, -, rfl⟩ := mapError_eq_error h
        exact ⟨_, _, rfl⟩
      · obtain ⟨cause, -, rfl⟩ := mapError_eq_error h
        exact ⟨_, _, rfl⟩
    · cases h
  · rename_i hinline hpath
    obtain ⟨path, hp⟩ := hs.tsconfig hinline
    rw [hpath] at hp
    cases hp

/-- An analysis is not set up if the compiler configuration cannot be read or is refused, if an input
is not told from the root, or if the engine refuses. -/
theorem program_eq_error {t : FileTree} {engine : Engine} {s : Settings} (hs : s.Supplied)
    {extra : List Path} {compilerFolder : Option Path} {e : AnalysisError}
    (h : program t engine s extra compilerFolder = .error e) :
    (∃ path problem, e = .unreadableConfig path problem) ∨ (∃ reason, e = .refusedConfig reason) ∨
      (∃ path, e = .relativeInput path ∧ path.isAbsolute = false) ∨
      ∃ inputs options host, engine.createProgram inputs options host = .error e := by
  rcases bind_eq_error h with h | ⟨plan, -, h⟩
  · rcases bind_eq_error h with h | ⟨⟨config, folder⟩, -, h⟩
    · exact .inl (compilerConfig_eq_error hs h)
    · dsimp only at h
      split at h
      · cases h
        exact .inr (.inl ⟨_, rfl⟩)
      · rcases bind_eq_error h with h | ⟨inputs, -, h⟩
        · obtain ⟨path, hfound, rfl⟩ := collectInputs_eq_error_iff.mp h
          have hrelative : path.isAbsolute = false := by simpa using List.find?_some hfound
          exact .inr (.inr (.inl ⟨path, rfl, hrelative⟩))
        · cases h
  · exact .inr (.inr (.inr ⟨_, _, _, h⟩))

end Analysis

/-! ## Whole runs -/

/-- The run missed something that settings or earlier stages were to leave for it. -/
def RunError.isUnset : RunError → Bool
  | .collectionUnset | .modelUnset | .modelPathUnset | .metadataPathUnset => true
  | .analysis .missingConfig => true
  | _ => false

/-- With a scripted toolchain, a run whose settings have what it takes from them fails from outside,
or for the compiler configuration or an input that is not told from the root. -/
theorem invoke_eq_error {s : Settings} (hs : s.Supplied) {script : Script} {files : FileTree}
    {options : InvokeOptions} {callback : Callback σ} {state : σ} {e : RunError}
    (h : (invoke files script.toolchain s options callback state).result = .error e) :
    e.isExternal = true ∨ (∃ path problem, e = .analysis (.unreadableConfig path problem)) ∨
      (∃ reason, e = .analysis (.refusedConfig reason)) ∨
      ∃ path, e = .analysis (.relativeInput path) ∧ path.isAbsolute = false := by
  rw [invoke] at h
  split at h
  · rename_i cause hprogram
    obtain rfl : .analysis cause = e := Except.error.inj h
    rw [Invocation.program] at hprogram
    split at hprogram
    · cases hprogram
    · refine .inr ?_
      rcases Analysis.program_eq_error hs hprogram with
        ⟨path, problem, rfl⟩ | ⟨reason, rfl⟩ | ⟨path, rfl, hrelative⟩ | ⟨_, _, _, hengine⟩
      · exact .inl ⟨path, problem, rfl⟩
      · exact .inr (.inl ⟨reason, rfl⟩)
      · exact .inr (.inr ⟨path, rfl, hrelative⟩)
      · cases hengine
  · rename_i program _
    rw [Invocation.ofJob] at h
    split at h
    rename_i result session hresult
    obtain rfl := map_eq_error h
    exact .inl ((Job.provides_run hs).of_error trivial hresult)

theorem RunError.isUnset_of_isExternal {e : RunError} (h : e.isExternal = true) :
    e.isUnset = false := by
  cases e <;> first | rfl | cases h

namespace Settings

/-- No run with the settings and a scripted toolchain misses anything, or refuses an entry point for
its path. -/
def MissesNothing (s : Settings) : Prop :=
  ∀ (σ : Type) (script : Script) (files : FileTree) (options : InvokeOptions)
    (callback : Callback σ) (state : σ) (e : RunError),
    (invoke files script.toolchain s options callback state).result = .error e →
      e.isUnset = false ∧
        ∀ entry ∈ s.entryPoints, e ≠ .analysis (.relativeInput entry.filePath)

/-- Prepared settings are well formed, and runs with them miss nothing. -/
theorem wellFormed_and_missesNothing_of_prepare {t : FileTree} {input : PrepareInput}
    {s : Settings} (h : prepare t input = .ok s) : s.WellFormed ∧ s.MissesNothing := by
  have hw := wellFormed_of_prepare h
  refine ⟨hw, fun σ script files options callback state e he => ?_⟩
  rcases invoke_eq_error (supplied_of_prepare h) he with
    hexternal | ⟨path, problem, rfl⟩ | ⟨reason, rfl⟩ | ⟨path, rfl, hrelative⟩
  · refine ⟨RunError.isUnset_of_isExternal hexternal, fun entry _ hanalysis => ?_⟩
    rw [hanalysis] at hexternal
    cases hexternal
  · exact ⟨rfl, fun _ _ hne => by cases hne⟩
  · exact ⟨rfl, fun _ _ hne => by cases hne⟩
  · refine ⟨rfl, fun entry hentry hpath => ?_⟩
    cases hpath
    rw [hw.isAbsolute_entryPoint hentry] at hrelative
    cases hrelative

/-- Settings with a further entry point, two reports, a listed tag and a model. -/
def furnishedInput : PrepareInput where
  document := .object
    [("projectFolder", .string "/p"),
      ("mainEntryPointFilePath", .string "<projectFolder>/index.d.ts"),
      ("additionalEntryPoints", .array [.object
        [("modulePath", .string " more "), ("filePath", .string "more.d.ts")]]),
      ("compiler", .object [("overrideTsconfig", .object [])]),
      ("apiReport", .object
        [("enabled", .boolean true),
          ("reportFileName", .string "p"),
          ("reportVariants", .array [.string "complete", .string "public", .string "complete"]),
          ("tagsToReport", .object [("@stable", .boolean true)])]),
      ("docModel", .object
        [("enabled", .boolean true), ("apiJsonFilePath", .string "<projectFolder>/p.api.json")])]
  documentPath := none
  manifestPath := none
  manifest := none
  lookupFolder := none
  ignoreMissingEntryPoint := true
  docComments := none

theorem wellFormed_and_missesNothing_furnished :
    ∃ s, prepare acceptedTree furnishedInput = .ok s ∧ s.WellFormed ∧ s.MissesNothing := by
  obtain ⟨s, hs, -⟩ : ∃ s, prepare acceptedTree furnishedInput = .ok s ∧
      s.additionalEntryPoints = [⟨"more", ⟨"/p/more.d.ts"⟩⟩] :=
    exists_ok_of_map (by decide +kernel)
  exact ⟨s, hs, wellFormed_and_missesNothing_of_prepare hs⟩

end Settings

end ApiReview
