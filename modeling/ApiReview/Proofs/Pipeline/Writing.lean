import ApiReview.Proofs.Pipeline.Artifacts
import ApiReview.Proofs.Pipeline.Baseline
import ApiReview.Proofs.Pipeline.Stages
import ApiReview.Proofs.Settings.Outputs

/-!
# What a run writes

A run writes to the places of its reports and of its further files, and to no others
(`Job.writesOnly_reports`, `Job.writesOnly_behindReports`). A stage that comes to a result leaves
its files standing; where they stand, it comes to a result again.
-/

namespace ApiReview

open FileTree (Stands)

variable {σ κ α β : Type}

namespace Run

/-- Whatever comes of a step, it writes to some places alone. -/
def WritesOnly (places : Place → Prop) (x : Run σ κ α) : Prop :=
  ∀ s, FileTree.WritesOnly places s.files (x s).2.files

theorem keeps_files_ask (call : Call) (work : Work α) :
    Keeps (·.files) (ask call work : Run σ κ α) := fun s => by
  rw [ask_run]
  rcases work s.router.findings with ⟨e | a, findings⟩ <;> rfl

section WritesOnly

variable {places places' : Place → Prop}

theorem writesOnly_of_keeps {x : Run σ κ α} (h : Keeps (·.files) x) : WritesOnly places x :=
  fun s => by
    have hfiles : (x s).2.files = s.files := h s
    rw [hfiles]
    exact .refl places s.files

theorem WritesOnly.of_run {x : Run σ κ α} (h : WritesOnly places x) {s s' : Session σ κ}
    {r : Except RunError α} (hr : x s = (r, s')) : FileTree.WritesOnly places s.files s'.files := by
  have hs := h s
  rwa [hr] at hs

theorem WritesOnly.weaken {x : Run σ κ α} (h : WritesOnly places x)
    (hp : ∀ place, places place → places' place) : WritesOnly places' x :=
  fun s => (h s).weaken hp

theorem follows_writesOnly (places : Place → Prop) :
    Follows fun s s' : Session σ κ => FileTree.WritesOnly places s.files s'.files :=
  ⟨fun s => .refl places s.files, .trans⟩

theorem WritesOnly.bind {x : Run σ κ α} {f : α → Run σ κ β} (hx : WritesOnly places x)
    (hf : ∀ a, WritesOnly places (f a)) : WritesOnly places (x >>= f) :=
  (follows_writesOnly places).along_bind hx hf

theorem writesOnly_forM {as : List α} {f : α → Run σ κ PUnit}
    (h : ∀ a ∈ as, WritesOnly places (f a)) : WritesOnly places (as.forM f) :=
  (follows_writesOnly places).along_forM h

theorem writesOnly_ask (call : Call) (work : Work α) :
    WritesOnly places (ask call work : Run σ κ α) :=
  writesOnly_of_keeps (keeps_files_ask call work)

end WritesOnly

theorem writesOnly_write (artifact : Artifact) {path : Path} (hp : path.isAbsolute = true)
    (text : String) (options : WriteOptions) :
    WritesOnly (· = path.place) (write artifact path text options : Run σ κ Unit) := fun s => by
  have hs := s.files.writesOnly_writeText hp text options
  rw [write_run]
  rcases hw : s.files.writeText path text options with ⟨files, e | u⟩
  · rwa [hw] at hs
  · rwa [hw] at hs

/-- Messages write nothing, and artifacts are written to their own place. -/
theorem leads_writesOnly (places : Place → Prop) :
    Leads (fun s s' : Session σ κ => FileTree.WritesOnly places s.files s'.files)
      fun path => path.isAbsolute = true ∧ places path.place where
  toFollows := follows_writesOnly places
  log level notice text := writesOnly_of_keeps (keeps_log level notice text)
  write artifact _ text options hp :=
    (writesOnly_write artifact hp.1 text options).weaken fun _ h => h ▸ hp.2

/-- A list of steps that comes to a result has come to one at each of them, and gone on. -/
theorem forM_run_eq_ok {as : List α} {f : α → Run σ κ PUnit} {s s' : Session σ κ} {u : PUnit}
    (h : as.forM f s = (.ok u, s')) {a : α} (ha : a ∈ as) :
    ∃ (rest : List α) (s₁ s₂ : Session σ κ), f a s₁ = (.ok ⟨⟩, s₂) ∧
      rest.forM f s₂ = (.ok u, s') := by
  obtain ⟨before, rest, rfl⟩ := List.append_of_mem ha
  rw [forM_append_run] at h
  obtain ⟨_, s₁, -, h⟩ := bind_run_eq_ok h
  rw [List.forM] at h
  obtain ⟨_, s₂, hfirst, hrest⟩ := bind_run_eq_ok h
  exact ⟨rest, s₁, s₂, hfirst, hrest⟩

/-- What was written stands. -/
theorem stands_write {artifact : Artifact} {path : Path} (hp : path.isAbsolute = true)
    {text : String} {options : WriteOptions} {s s' : Session σ κ} {u : Unit}
    (h : write artifact path text options s = (.ok u, s')) : s'.files.Stands path :=
  FileTree.stands_writeText hp (write_eq_ok h).1

/-- A step that comes to a result, and changes but messages, calls and files, which grow. -/
def Succeeds (x : Run σ κ Unit) (s : Session σ κ) : Prop :=
  ∃ files router calls, s.files.Grows files ∧ x s = (.ok (), { s with files, router, calls })

theorem succeeds_pure (s : Session σ κ) : Succeeds (pure ()) s :=
  ⟨s.files, s.router, s.calls, .refl s.files, rfl⟩

theorem Succeeds.bind {x y : Run σ κ Unit} {s : Session σ κ} (hx : Succeeds x s)
    (hy : ∀ files router calls, s.files.Grows files →
      Succeeds y { s with files, router, calls }) : Succeeds (x >>= fun _ => y) s := by
  obtain ⟨files, router, calls, hg, h⟩ := hx
  obtain ⟨files', router', calls', hg', h'⟩ := hy files router calls hg
  exact ⟨files', router', calls', hg.trans hg', (bind_run_ok h _).trans h'⟩

theorem succeeds_forM {as : List α} {f : α → Run σ κ Unit} {s : Session σ κ}
    (h : ∀ a ∈ as, ∀ files router calls, s.files.Grows files →
      Succeeds (f a) { s with files, router, calls }) : Succeeds (as.forM f) s := by
  induction as generalizing s with
  | nil => exact succeeds_pure s
  | cons a as ih =>
    rw [List.forM]
    refine (h a List.mem_cons_self s.files s.router s.calls (.refl s.files)).bind
      fun files router calls hg => ih fun b hb files' router' calls' hg' => ?_
    exact h b (List.mem_cons_of_mem _ hb) files' router' calls' (hg.trans hg')

/-- Behind a progress message, the files are as they were. -/
theorem succeeds_log_bind (level : Level) (notice : Notice) (text : String) {x : Run σ κ Unit}
    {s : Session σ κ} (h : ∀ router, Succeeds x { s with router }) :
    Succeeds (log level notice text >>= fun _ => x) s := by
  obtain ⟨files, router, calls, hg, hx⟩ := h (s.router.log level notice text)
  exact ⟨files, router, calls, hg, hx⟩

/-- To a path that stands, an artifact can be written. -/
theorem succeeds_write (artifact : Artifact) {path : Path} (hp : path.isAbsolute = true)
    (text : String) (options : WriteOptions) {s : Session σ κ} (h : s.files.Stands path) :
    Succeeds (write artifact path text options) s := by
  have hwritten := h.writeText hp text options
  refine ⟨(s.files.writeText path text options).1, s.router, s.calls,
    s.files.grows_writeText hp text options, ?_⟩
  rw [write_run]
  rcases hw : s.files.writeText path text options with ⟨files, e | u⟩
  · rw [hw] at hwritten
    cases hwritten
  · rfl

end Run

namespace Job

open Run (WritesOnly Succeeds)

variable {job : Job κ}

/-! ## Reports -/

/-- The two places of a report, the fresh one and the accepted one. -/
def ReportPlaces (job : Job κ) (r : ReportSpec) (place : Place) : Prop :=
  place = (job.settings.stagedReportPath r).place ∨ place = (job.settings.reportPath r).place

theorem writesOnly_reconcileNext (hs : job.settings.ReportsPlaced) (r : ReportSpec) :
    WritesOnly (job.ReportPlaces r) (job.reconcileNext r : Run σ κ Unit) := by
  refine WritesOnly.bind ?_ fun _ => Run.writesOnly_of_keeps (Run.keeps_modify fun _ => rfl)
  exact along_reconcile (Run.leads_writesOnly _) job r ⟨hs.isAbsolute_reportPath r, .inr rfl⟩
    (Run.writesOnly_ask _) ⟨hs.isAbsolute_stagedReportPath r, .inl rfl⟩

/-- Reports are written to their own places. -/
theorem writesOnly_reports (hs : job.settings.ReportsPlaced) (reports : List ReportSpec) :
    WritesOnly (fun place => ∃ r ∈ reports, job.ReportPlaces r place)
      (reports.forM job.reconcileNext : Run σ κ Unit) :=
  Run.writesOnly_forM fun r hr => (writesOnly_reconcileNext hs r).weaken fun _ h => ⟨r, hr, h⟩

/-! ## The other files -/

/-- The places of the files beside the reports. -/
def OtherPlaces (job : Job κ) (place : Place) : Prop :=
  ∃ path ∈ job.settings.otherOutputs, place = path.place

/-- The stage that writes the rollups, if it is wanted. -/
def wantedRollups (job : Job κ) : Run σ κ Unit :=
  if job.settings.rollupEnabled then job.writeRollups else pure ()

/-- The stage that writes the metadata, if it is wanted. -/
def wantedMetadata (job : Job κ) : Run σ κ Unit :=
  if job.settings.metadataEnabled then job.writeMetadata else pure ()

theorem goThrough_behindReports (job : Job κ) (s : Session σ κ) :
    job.goThrough Stage.behindReports s =
      (job.wantedRollups >>= fun _ => job.wantedMetadata) s := by
  have hrollups : job.goThrough [Stage.rollup] s = job.wantedRollups s :=
    job.goThrough_singleton Stage.rollup s
  refine (job.goThrough_append [Stage.rollup] [Stage.metadata] s).trans ?_
  rw [Run.bind_run, Run.bind_run, hrollups]
  rcases job.wantedRollups s with ⟨e | u, s'⟩
  · rfl
  · exact job.goThrough_singleton Stage.metadata s'

theorem otherPlaces_model {path : Path} (he : job.settings.modelEnabled = true)
    (hp : job.settings.modelPath = some path) : job.OtherPlaces path.place := by
  refine ⟨path, List.mem_map.mpr ⟨⟨.model, path⟩, ?_, rfl⟩, rfl⟩
  refine List.mem_append_left _ (List.mem_append_left _ ?_)
  rw [Settings.plannedModel, if_pos he, hp]
  exact List.mem_singleton_self _

theorem otherPlaces_rollup {tier : RollupTier} {path : Path}
    (he : job.settings.rollupEnabled = true) (hp : tier.outputPath job.settings = some path) :
    job.OtherPlaces path.place := by
  refine ⟨path, List.mem_map.mpr ⟨⟨.rollup tier, path⟩, ?_, rfl⟩, rfl⟩
  refine List.mem_append_left _ (List.mem_append_right _ ?_)
  rw [Settings.plannedRollups, if_pos he]
  refine List.mem_flatMap.mpr ⟨tier, by cases tier <;> decide, ?_⟩
  rw [hp]
  exact List.mem_singleton_self _

theorem otherPlaces_metadata {path : Path} (he : job.settings.metadataEnabled = true)
    (hp : job.settings.metadataPath = some path) : job.OtherPlaces path.place := by
  refine ⟨path, List.mem_map.mpr ⟨⟨.metadata, path⟩, ?_, rfl⟩, rfl⟩
  refine List.mem_append_right _ ?_
  rw [Settings.plannedMetadata, if_pos he, hp]
  exact List.mem_singleton_self _

theorem writeModel_eq_ok {s s' : Session σ κ} {u : Unit} (h : job.writeModel s = (.ok u, s')) :
    ∃ path model s₁, job.settings.modelPath = some path ∧
      Run.write .model path (job.modelText model) (.inStyle job.settings.lineEnding) s₁ =
        (.ok u, s') := by
  rw [writeModel, Run.get_bind] at h
  cases hp : job.settings.modelPath with
  | none =>
    rw [hp] at h
    cases (Prod.mk.inj h).1
  | some path =>
    rw [hp] at h
    cases hm : s.model with
    | none =>
      rw [hm] at h
      cases (Prod.mk.inj h).1
    | some model =>
      rw [hm] at h
      obtain ⟨_, s₁, -, h⟩ := Run.bind_run_eq_ok h
      exact ⟨path, model, s₁, rfl, h⟩

section Other

variable (ho : job.settings.OutputsPlaced)

include ho

theorem writesOnly_wantedModel : WritesOnly job.OtherPlaces (job.wantedModel : Run σ κ Unit) :=
  (Run.follows_writesOnly _).along_wanted fun he =>
    along_writeModel (Run.leads_writesOnly _) job fun path hp =>
      ⟨ho.model path hp, otherPlaces_model he hp⟩

theorem writesOnly_writeRollup (he : job.settings.rollupEnabled = true) (tier : RollupTier) :
    WritesOnly job.OtherPlaces (job.writeRollup tier : Run σ κ Unit) :=
  along_writeRollup (Run.leads_writesOnly _) job (Run.writesOnly_ask _) tier fun path hp =>
    ⟨ho.rollup tier path hp, otherPlaces_rollup he hp⟩

theorem writesOnly_wantedRollups :
    WritesOnly job.OtherPlaces (job.wantedRollups : Run σ κ Unit) :=
  (Run.follows_writesOnly _).along_wanted fun he =>
    Run.writesOnly_forM fun tier _ => writesOnly_writeRollup ho he tier

theorem writesOnly_wantedMetadata :
    WritesOnly job.OtherPlaces (job.wantedMetadata : Run σ κ Unit) :=
  (Run.follows_writesOnly _).along_wanted fun he =>
    along_writeMetadata (Run.leads_writesOnly _) job fun path hp =>
      ⟨ho.metadata path hp, otherPlaces_metadata he hp⟩

theorem writesOnly_behindReports :
    WritesOnly job.OtherPlaces (job.goThrough Stage.behindReports : Run σ κ Unit) := fun s => by
  rw [goThrough_behindReports]
  exact ((writesOnly_wantedRollups ho).bind fun _ => writesOnly_wantedMetadata ho) s

/-! ## Files that stand -/

theorem stands_wantedModel {s s' : Session σ κ} (h : job.wantedModel s = (.ok (), s'))
    (he : job.settings.modelEnabled = true) :
    ∃ path, job.settings.modelPath = some path ∧ s'.files.Stands path := by
  rw [wantedModel, if_pos he] at h
  obtain ⟨path, model, s₁, hp, hwrite⟩ := writeModel_eq_ok h
  exact ⟨path, hp, Run.stands_write (ho.model path hp) hwrite⟩

theorem stands_writeRollup {tier : RollupTier} {s s' : Session σ κ}
    (h : job.writeRollup tier s = (.ok (), s')) {path : Path}
    (hp : tier.outputPath job.settings = some path) : s'.files.Stands path := by
  rw [writeRollup, hp] at h
  obtain ⟨_, s₁, -, h⟩ := Run.bind_run_eq_ok h
  obtain ⟨_, s₂, -, h⟩ := Run.bind_run_eq_ok h
  obtain ⟨_, s₃, -, h⟩ := Run.bind_run_eq_ok h
  exact Run.stands_write (ho.rollup tier path hp) h

theorem stands_wantedRollups {s s' : Session σ κ} (h : job.wantedRollups s = (.ok (), s'))
    (he : job.settings.rollupEnabled = true) (tier : RollupTier) (path : Path)
    (hp : tier.outputPath job.settings = some path) : s'.files.Stands path := by
  rw [wantedRollups, if_pos he] at h
  obtain ⟨rest, s₁, s₂, hfirst, hrest⟩ := Run.forM_run_eq_ok h
    (show tier ∈ RollupTier.all by cases tier <;> decide)
  have hlater : WritesOnly job.OtherPlaces (rest.forM job.writeRollup : Run σ κ Unit) :=
    Run.writesOnly_forM fun tier _ => writesOnly_writeRollup ho he tier
  exact (stands_writeRollup ho hfirst hp).grows (ho.rollup tier path hp)
    (hlater.of_run hrest).toGrows

theorem stands_wantedMetadata {s s' : Session σ κ} (h : job.wantedMetadata s = (.ok (), s'))
    (he : job.settings.metadataEnabled = true) :
    ∃ path, job.settings.metadataPath = some path ∧ s'.files.Stands path := by
  rw [wantedMetadata, if_pos he, writeMetadata] at h
  cases hp : job.settings.metadataPath with
  | none =>
    rw [hp] at h
    cases (Prod.mk.inj h).1
  | some path =>
    rw [hp] at h
    exact ⟨path, rfl, Run.stands_write (ho.metadata path hp) h⟩

/-! ## Writing again -/

theorem succeeds_wantedModel {s : Session σ κ} {model : Json.Members} (hm : s.model = some model)
    (hb : job.settings.Built s.files) : Succeeds job.wantedModel s := by
  rw [wantedModel]
  split
  · rename_i he
    obtain ⟨path, hp, hstands⟩ := hb.model he
    have hwrite : job.writeModel s = (Run.log .verbose .writingModel ("Writing: " ++ path.text) >>=
        fun _ => Run.write .model path (job.modelText model)
          (.inStyle job.settings.lineEnding)) s := by
      rw [writeModel, Run.get_bind, hp, hm]
    rw [Succeeds, hwrite]
    exact Run.succeeds_log_bind _ _ _ fun router =>
      Run.succeeds_write _ (ho.model path hp) _ _ hstands
  · exact Run.succeeds_pure s

theorem succeeds_writeRollup {s : Session σ κ} {c : κ} {tier : RollupTier} {text : String}
    (hc : s.collection = some c) (hr : job.toolchain.renderRollup c tier = .ok text)
    (hb : ∀ path, tier.outputPath job.settings = some path → s.files.Stands path) :
    Succeeds (job.writeRollup tier) s := by
  rw [writeRollup]
  split
  · exact Run.succeeds_pure s
  · rename_i path hp
    refine Run.succeeds_log_bind _ _ _ fun router => ?_
    have hcollection : Run.collection { s with router } = (.ok c, { s with router }) := by
      rw [Run.collection_run, show ({ s with router } : Session σ κ).collection = some c from hc]
    have hask := Run.ask_run .rollup (fun findings => (job.toolchain.renderRollup c tier, findings))
      { s with router }
    rw [hr] at hask
    obtain ⟨files, router', calls, hg, hwrite⟩ := Run.succeeds_write (.rollup tier)
      (ho.rollup tier path hp) text (.inStyle job.settings.lineEnding)
      (show ({ s with router, calls := s.calls ++ [.rollup] } : Session σ κ).files.Stands path from
        hb path hp)
    refine ⟨files, router', calls, hg, ?_⟩
    rw [Run.bind_run_ok hcollection, Run.askPure, hr, Run.bind_run_ok hask]
    exact hwrite

theorem succeeds_wantedRollups {s : Session σ κ} {c : κ} (hc : s.collection = some c)
    (hr : ∀ tier, ∃ text, job.toolchain.renderRollup c tier = .ok text)
    (hb : job.settings.Built s.files) : Succeeds job.wantedRollups s := by
  rw [wantedRollups]
  split
  · rename_i he
    refine Run.succeeds_forM fun tier _ files router calls hg => ?_
    obtain ⟨text, htext⟩ := hr tier
    exact succeeds_writeRollup ho (s := { s with files, router, calls }) hc htext fun path hp =>
      (hb.rollups he tier path hp).grows (ho.rollup tier path hp) hg
  · exact Run.succeeds_pure s

theorem succeeds_wantedMetadata {s : Session σ κ} (hb : job.settings.Built s.files) :
    Succeeds job.wantedMetadata s := by
  rw [wantedMetadata]
  split
  · rename_i he
    obtain ⟨path, hp, hstands⟩ := hb.metadata he
    have hwrite : (job.writeMetadata : Run σ κ Unit) = Run.write .metadata path
        (metadataText Tool.name Tool.version) (.inStyle job.settings.lineEnding) := by
      rw [writeMetadata, hp]
    rw [hwrite]
    exact Run.succeeds_write _ (ho.metadata path hp) _ _ hstands
  · exact Run.succeeds_pure s

theorem succeeds_behindReports {s : Session σ κ} {c : κ} (hc : s.collection = some c)
    (hr : ∀ tier, ∃ text, job.toolchain.renderRollup c tier = .ok text)
    (hs : job.settings.ReportsPlaced) (hb : job.settings.Built s.files) :
    Succeeds (job.goThrough Stage.behindReports) s := by
  rw [Succeeds, goThrough_behindReports]
  exact (succeeds_wantedRollups ho hc hr hb).bind fun files router calls hg =>
    succeeds_wantedMetadata ho (hb.grows ho hs hg)

end Other

end Job

end ApiReview
