import ApiReview.Pipeline.Outputs
import ApiReview.Proofs.Files.Growth
import ApiReview.Proofs.Settings.Prepare

/-!
# Where a run puts its files

The files of a run have paths from the root (`outputsPlaced_of_prepare`). A tree is built if all of
them stand in it, and then stays so as it grows (`Built.grows`). Settings may give several of
them one place; `OutputsApart` says that nothing is written over an accepted report but the report,
and nothing over the compiler configuration.
-/

namespace ApiReview.Settings

open FileTree (Grows)

/-- The files of a run beside its reports have paths from the root, and so has the compiler
configuration. -/
structure OutputsPlaced (s : Settings) : Prop where
  model : ∀ path, s.modelPath = some path → path.isAbsolute = true
  rollup : ∀ tier path, RollupTier.outputPath tier s = some path → path.isAbsolute = true
  metadata : ∀ path, s.metadataPath = some path → path.isAbsolute = true
  tsconfig : ∀ path, s.tsconfigPath = some path → path.isAbsolute = true

theorem isAbsolute_parent {p : Path} (hp : p.isAbsolute = true) :
    (p.parent?.getD p).isAbsolute = true := by
  cases hparent : p.parent? with
  | none => exact hp
  | some folder => exact (Path.steps_parents hp (List.mem_of_head? hparent)).1

/-- The folder of the manifest is told from the root. -/
theorem isAbsolute_prepareManifest {t : FileTree} {input : PrepareInput} {manifest : Manifest}
    {folder : Path} (h : prepareManifest t input = .ok (some (manifest, folder))) :
    folder.isAbsolute = true := by
  rw [prepareManifest] at h
  split at h
  · cases h
  · rename_i path _
    split at h
    · cases h
    · split at h
      · cases h
      · rename_i hp
        have hfolder := isAbsolute_parent (show path.isAbsolute = true by simpa using hp)
        extract_lets withManifest at h
        split at h
        · obtain ⟨loaded, -, h⟩ := bind_eq_ok h
          cases h
          exact hfolder
        · obtain ⟨loaded, -, h⟩ := bind_eq_ok h
          cases h
          exact hfolder

theorem isAbsolute_metadataPath (m : Manifest) {folder : Path} (hf : folder.isAbsolute = true) :
    (m.metadataPath folder).isAbsolute = true := by
  rw [Manifest.metadataPath]
  split
  · exact (Path.isPlain_resolve hf).absolute
  · extract_lets chosen
    refine Path.isAbsolute_join ?_
    show ((Option.map _ _).getD folder).isAbsolute = true
    cases m.typingsPath.or (m.main.filter (· ≠ "")) with
    | none => exact hf
    | some file => exact isAbsolute_parent (Path.isPlain_resolve hf).absolute

theorem isAbsolute_prepareMetadataPath {values : PlaceholderValues}
    (hv : values.projectFolder.isAbsolute = true) {manifest : Option (Manifest × Path)}
    (hm : ∀ m folder, manifest = some (m, folder) → folder.isAbsolute = true)
    {section_ : SettingsFile.Metadata} {path : Path}
    (h : prepareMetadataPath values manifest section_ = .ok (some path)) :
    path.isAbsolute = true := by
  unfold prepareMetadataPath at h
  extract_lets value at h
  split at h
  · cases h
  · split at h
    · split at h
      · rename_i m folder
        cases h
        exact isAbsolute_metadataPath m (hm m folder rfl)
      · cases h
    · obtain ⟨found, hfound, h⟩ := bind_eq_ok h
      cases found with
      | none => cases h
      | some found =>
        cases h
        exact isAbsolute_preparePath hv hfound

theorem outputsPlaced_of_prepare {t : FileTree} {input : PrepareInput} {s : Settings}
    (h : prepare t input = .ok s) : s.OutputsPlaced := by
  obtain ⟨file, manifest, compiler, reports, hs⟩ := prepare_eq_ok h
  have hv := hs.isAbsolute_values
  have hpath : ∀ {field : String} {value : Option String} {found : Option Path} (path : Path),
      preparePath (valuesOf s.projectFolder manifest) field value = .ok found →
        found = some path → path.isAbsolute = true := by
    rintro field value _ path hfound rfl
    exact isAbsolute_preparePath hv hfound
  refine ⟨fun path hp => ?_, fun tier path hp => ?_, fun path hp => ?_, fun path hp => ?_⟩
  · obtain ⟨found, hfound, hmodel⟩ := bind_eq_ok hs.modelPath_eq
    obtain ⟨-, hmodel⟩ := guard_eq_ok hmodel
    exact hpath path hfound ((Except.ok.inj hmodel).trans hp)
  · obtain ⟨hp, -⟩ := Option.filter_eq_some_iff.mp hp
    cases tier with
    | publicOnly => exact hpath path hs.publicTrimmed_eq hp
    | beta => exact hpath path hs.betaTrimmed_eq hp
    | alpha => exact hpath path hs.alphaTrimmed_eq hp
    | untrimmed => exact hpath path hs.untrimmed_eq hp
  · refine isAbsolute_prepareMetadataPath hv (fun m folder hm => ?_) (hs.metadata_eq.trans
      (congrArg Except.ok hp))
    exact isAbsolute_prepareManifest (hs.manifest_eq.trans (congrArg Except.ok hm))
  · obtain ⟨found, hfound, hconfig⟩ := bind_eq_ok hs.tsconfig_eq
    refine hpath path hfound ?_
    split at hconfig
    · exact (Except.ok.inj hconfig).trans hp
    · cases hconfig
    · split at hconfig
      · exact (Except.ok.inj hconfig).trans hp
      · cases hconfig

/-! ## Built trees -/

/-- The files that a run produces all stand, and so do its fresh reports. -/
structure Built (s : Settings) (t : FileTree) : Prop where
  model : s.modelEnabled = true → ∃ path, s.modelPath = some path ∧ t.Stands path
  rollups : s.rollupEnabled = true →
    ∀ tier path, RollupTier.outputPath tier s = some path → t.Stands path
  metadata : s.metadataEnabled = true → ∃ path, s.metadataPath = some path ∧ t.Stands path
  staged : s.reportEnabled = true → ∀ r ∈ s.reports, t.Stands (s.stagedReportPath r)
  accepted : s.reportEnabled = true → ∀ r ∈ s.reports, t.isFile (s.reportPath r) = true

theorem Built.grows {s : Settings} {t t' : FileTree} (h : s.Built t) (ho : s.OutputsPlaced)
    (hr : s.ReportsPlaced) (hg : t.Grows t') : s.Built t' where
  model he := by
    obtain ⟨path, hp, hstands⟩ := h.model he
    exact ⟨path, hp, hstands.grows (ho.model path hp) hg⟩
  rollups he tier path hp := (h.rollups he tier path hp).grows (ho.rollup tier path hp) hg
  metadata he := by
    obtain ⟨path, hp, hstands⟩ := h.metadata he
    exact ⟨path, hp, hstands.grows (ho.metadata path hp) hg⟩
  staged he r hm := (h.staged he r hm).grows (hr.isAbsolute_stagedReportPath r) hg
  accepted he r hm := hg.isFile (hr.isAbsolute_reportPath r) (h.accepted he r hm)

/-! ## Places that files share -/

/-- The files that a run produces beside its reports. -/
def otherOutputs (s : Settings) : List Path :=
  (s.plannedModel ++ s.plannedRollups ++ s.plannedMetadata).map (·.path)

/-- The fresh and the accepted reports of a run. -/
def reportOutputs (s : Settings) : List Path :=
  if s.reportEnabled then s.reports.map s.stagedReportPath ++ s.reports.map s.reportPath else []

/-- The compiler configuration that is read from a file. -/
def configFile? (s : Settings) : Option Path :=
  if s.inlineTsconfig = none then s.tsconfigPath else none

/-- An accepted report shares its place with no other file that a run produces, and the compiler
configuration with none at all. -/
structure OutputsApart (s : Settings) : Prop where
  reports : s.reportEnabled = true → ∀ r ∈ s.reports, ∀ path ∈ s.otherOutputs,
    (s.reportPath r).place ≠ path.place
  config : ∀ config ∈ s.configFile?, ∀ path ∈ s.otherOutputs ++ s.reportOutputs,
    config.place ≠ path.place

instance (s : Settings) : Decidable s.OutputsApart :=
  decidable_of_iff ((s.reportEnabled = true → ∀ r ∈ s.reports, ∀ path ∈ s.otherOutputs,
      (s.reportPath r).place ≠ path.place) ∧
    ∀ config ∈ s.configFile?, ∀ path ∈ s.otherOutputs ++ s.reportOutputs,
      config.place ≠ path.place) ⟨fun h => ⟨h.1, h.2⟩, fun h => ⟨h.reports, h.config⟩⟩

end ApiReview.Settings
