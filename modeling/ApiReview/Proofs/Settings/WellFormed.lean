import ApiReview.Proofs.Settings.Outputs
import ApiReview.Proofs.Text.Replace

/-!
# What prepared settings can be relied on for

Prepared settings are well formed (`wellFormed_of_prepare`): their paths are told from the root, and
their entry points, reports and listed tags are as each of them was checked to be. And what a run
takes from them is there (`supplied_of_prepare`).
-/

namespace ApiReview

open Json (Codec)
open Text

namespace Settings

/-! ## Entry points -/

/-- Entry points are declaration files at paths from the root. -/
def EntryPointsFound (entries : List EntryPoint) : Prop :=
  ∀ e ∈ entries, e.filePath.isAbsolute = true ∧ e.filePath.isDeclarationFile = true

/-- The module paths of further entry points: none is empty or has blanks at its ends, and no two
are the same. -/
structure ModulesNamed (entries : List EntryPoint) : Prop where
  nonempty : ∀ e ∈ entries, e.modulePath ≠ ""
  trimmed : ∀ e ∈ entries, trimmed e.modulePath = e.modulePath
  distinct : (entries.map (·.modulePath)).Nodup

theorem ModulesNamed.concat {entries : List EntryPoint} (h : ModulesNamed entries)
    {e : EntryPoint} (hne : e.modulePath ≠ "") (ht : Text.trimmed e.modulePath = e.modulePath)
    (hnew : ∀ other ∈ entries, other.modulePath ≠ e.modulePath) :
    ModulesNamed (entries ++ [e]) where
  nonempty := List.forall_mem_append.mpr ⟨h.nonempty, List.forall_mem_singleton.mpr hne⟩
  trimmed := List.forall_mem_append.mpr ⟨h.trimmed, List.forall_mem_singleton.mpr ht⟩
  distinct := by
    rw [List.map_append, List.map_singleton, List.nodup_append]
    refine ⟨h.distinct, List.nodup_cons.mpr ⟨List.not_mem_nil, List.nodup_nil⟩, fun a ha b hb => ?_⟩
    obtain ⟨other, hother, rfl⟩ := List.mem_map.mp ha
    rw [List.mem_singleton.mp hb]
    exact hnew other hother

section EntryPoints

variable {t : FileTree} {input : PrepareInput} {values : PlaceholderValues}

theorem checkEntryPoint_eq_ok {name : EntryPointName} {path : Path} {u : Unit}
    (h : checkEntryPoint t input name path = .ok u) : path.isDeclarationFile = true := by
  rw [checkEntryPoint] at h
  split at h
  · cases h
  · rename_i hd
    simpa using hd

variable (hv : values.projectFolder.isAbsolute = true)

include hv

theorem entryPointsFound_prepareMain {file : SettingsFile} {e : EntryPoint}
    (h : prepareMain t input values file = .ok e) : EntryPointsFound [e] := by
  obtain ⟨path, hpath, h⟩ := bind_eq_ok h
  cases path with
  | none => cases h
  | some path =>
    obtain ⟨_, hcheck, h⟩ := bind_eq_ok h
    cases h
    exact List.forall_mem_singleton.mpr
      ⟨isAbsolute_preparePath hv hpath, checkEntryPoint_eq_ok hcheck⟩

/-- A further entry point is put behind those before it. -/
theorem prepareEntryPoint_eq_ok {done done' : List EntryPoint} {e : SettingsFile.EntryPoint}
    (h : prepareEntryPoint t input values done e = .ok done') :
    ∃ path, done' = done ++ [⟨trimmed e.modulePath, path⟩] ∧ path.isAbsolute = true ∧
      path.isDeclarationFile = true ∧ trimmed e.modulePath ≠ "" ∧
      ∀ other ∈ done, other.modulePath ≠ trimmed e.modulePath := by
  unfold prepareEntryPoint at h
  extract_lets modulePath at h
  obtain ⟨hne, h⟩ := guard_eq_ok h
  obtain ⟨hnew, h⟩ := guard_eq_ok h
  obtain ⟨path, hpath, h⟩ := bind_eq_ok h
  cases path with
  | none => cases h
  | some path =>
    obtain ⟨_, hcheck, h⟩ := bind_eq_ok h
    refine ⟨path, (Except.ok.inj h).symm, isAbsolute_preparePath hv hpath,
      checkEntryPoint_eq_ok hcheck, hne, fun other ho e => hnew ?_⟩
    exact List.any_eq_true.mpr ⟨other, ho, decide_eq_true e⟩

/-- By induction on the entry points that are left: those before them are found and named. -/
theorem prepareEntryPoints_eq_ok {entries : List SettingsFile.EntryPoint}
    {done done' : List EntryPoint} (hfound : EntryPointsFound done) (hnamed : ModulesNamed done)
    (h : entries.foldlM (prepareEntryPoint t input values) done = .ok done') :
    EntryPointsFound done' ∧ ModulesNamed done' := by
  induction entries generalizing done with
  | nil =>
    cases h
    exact ⟨hfound, hnamed⟩
  | cons e entries ih =>
    rw [List.foldlM_cons] at h
    obtain ⟨next, hnext, h⟩ := bind_eq_ok h
    obtain ⟨path, rfl, habsolute, hdeclaration, hne, hnew⟩ := prepareEntryPoint_eq_ok hv hnext
    have hnamed' := hnamed.concat (e := ⟨Text.trimmed e.modulePath, path⟩) hne
      (trimmed_trimmed e.modulePath) hnew
    have hfound' : EntryPointsFound (done ++ [⟨Text.trimmed e.modulePath, path⟩]) :=
      List.forall_mem_append.mpr
        ⟨hfound, List.forall_mem_singleton.mpr ⟨habsolute, hdeclaration⟩⟩
    exact ih hfound' hnamed' h

end EntryPoints

/-! ## Reports -/

/-- The reports are of different variants and have different names, without a separator. -/
structure ReportsNamed (reports : List ReportSpec) : Prop where
  variants : (reports.map (·.variant)).Nodup
  distinct : (reports.map (·.fileName)).Nodup
  noSeparator : ∀ r ∈ reports, '/' ∉ r.fileName.toList ∧ '\\' ∉ r.fileName.toList

theorem reportsNamed_ofVariant {values : PlaceholderValues} {section_ : SettingsFile.ApiReport}
    {base : String} (h : prepareReportName values section_ = .ok base) (variants : List Variant) :
    ReportsNamed ((distinctVariants variants).map (ReportSpec.ofVariant base)) where
  variants := by
    rw [List.map_map, show (·.variant) ∘ ReportSpec.ofVariant base = id from rfl, List.map_id]
    exact nodup_distinctVariants variants
  distinct := by
    rw [List.map_map]
    exact List.pairwise_map.mpr ((nodup_distinctVariants variants).imp fun hne e =>
      hne (nameFor_injective e))
  noSeparator r hr := by
    obtain ⟨v, -, rfl⟩ := List.mem_map.mp hr
    exact ⟨not_mem_nameFor (.inl rfl) (not_mem_prepareReportName (.inl rfl) h) v,
      not_mem_nameFor (.inr rfl) (not_mem_prepareReportName (.inr rfl) h) v⟩

/-! ## Listed tags -/

/-- A tag that may be listed: its name is valid, and is not that of a release tag. -/
def TagListable (name : String) : Prop :=
  ReleaseTag.isReserved name = false ∧ TagName.isValid name = true

theorem reportedTagViolations_eq_nil_iff {tags : List (String × Bool)} :
    reportedTagViolations tags = [] ↔ ∀ e ∈ tags, TagListable e.1 := by
  rw [reportedTagViolations, List.flatMap_eq_nil_iff]
  refine forall₂_congr fun e _ => ?_
  rw [List.append_eq_nil_iff, TagListable, TagName.isValid]
  refine and_congr ?_ ?_
  · cases ReleaseTag.isReserved e.1 <;> simp
  · cases TagName.problem? e.1 <;> simp

theorem forall_mem_putEntry {P : String → Prop} {key : String} {value : Bool}
    {tags : List (String × Bool)} (hk : P key) (h : ∀ e ∈ tags, P e.1) :
    ∀ e ∈ Codec.putEntry key value tags, P e.1 := by
  induction tags with
  | nil => exact List.forall_mem_singleton.mpr hk
  | cons e tags ih =>
    obtain ⟨he, htags⟩ := List.forall_mem_cons.mp h
    rw [Codec.putEntry]
    split
    · exact List.forall_mem_cons.mpr ⟨he, htags⟩
    · exact List.forall_mem_cons.mpr ⟨he, ih htags⟩

/-- The tags that are listed without being asked for may be, and so may those that are put among
them. -/
theorem tagListable_reportedTags {tags : List (String × Bool)}
    (h : ∀ e ∈ tags, TagListable e.1) : ∀ e ∈ reportedTags tags, TagListable e.1 := by
  have defaults : ∀ e ∈ defaultReportedTags, TagListable e.1 :=
    reportedTagViolations_eq_nil_iff.mp (by decide +kernel)
  rw [reportedTags]
  generalize defaultReportedTags = done at defaults
  induction tags generalizing done with
  | nil => exact defaults
  | cons e tags ih =>
    obtain ⟨he, htags⟩ := List.forall_mem_cons.mp h
    exact ih htags _ (forall_mem_putEntry he defaults)

/-! ## All of the settings -/

/-- The paths of settings that need not be there. -/
def optionalPaths (s : Settings) : List (Option Path) :=
  [s.sourcePath, s.packageFolder, s.tsconfigPath, s.modelPath, s.untrimmedPath, s.alphaTrimmedPath,
    s.betaTrimmedPath, s.publicTrimmedPath, s.metadataPath]

/-- The paths of settings. -/
def paths (s : Settings) : List Path :=
  [s.projectFolder, s.reportFolder, s.reportTempFolder] ++ s.entryPoints.map (·.filePath) ++
    s.optionalPaths.filterMap id

/-- What settings are after all their values were checked. -/
structure WellFormed (s : Settings) : Prop where
  paths : ∀ p ∈ s.paths, p.isAbsolute = true
  declarations : ∀ e ∈ s.entryPoints, e.filePath.isDeclarationFile = true
  modules : ModulesNamed s.additionalEntryPoints
  rollup : s.rollupEnabled = true → s.additionalEntryPoints = []
  reports : ReportsNamed s.reports
  someReport : s.reportEnabled = true → s.reports ≠ []
  tags : ∀ e ∈ s.tagsToReport, TagListable e.1

theorem WellFormed.isAbsolute_entryPoint {s : Settings} (h : s.WellFormed) {e : EntryPoint}
    (he : e ∈ s.entryPoints) : e.filePath.isAbsolute = true :=
  h.paths e.filePath (List.mem_append_left _ (List.mem_append_right _ (List.mem_map_of_mem he)))

section OfPrepare

variable {t : FileTree} {input : PrepareInput} {s : Settings} {file : SettingsFile}
  {manifest : Option (Manifest × Path)} {compiler : SettingsFile.Compiler} {reports : Reports}

theorem PreparedFrom.entryPoints (hs : PreparedFrom t input file manifest compiler reports s) :
    EntryPointsFound s.entryPoints ∧ ModulesNamed s.additionalEntryPoints := by
  have hv := hs.isAbsolute_values
  have hmain := entryPointsFound_prepareMain hv hs.main_eq
  obtain ⟨hfound, hnamed⟩ := prepareEntryPoints_eq_ok hv
    (fun _ h => absurd h List.not_mem_nil) ⟨fun _ h => absurd h List.not_mem_nil,
      fun _ h => absurd h List.not_mem_nil, List.nodup_nil⟩ hs.additional_eq
  exact ⟨List.forall_mem_cons.mpr ⟨hmain _ List.mem_cons_self, hfound⟩, hnamed⟩

/-- The reports and the listed tags, as they were checked. -/
theorem PreparedFrom.reportsNamed (hs : PreparedFrom t input file manifest compiler reports s) :
    ReportsNamed s.reports ∧ (s.reportEnabled = true → s.reports ≠ []) ∧
      ∀ e ∈ s.tagsToReport, TagListable e.1 := by
  rw [hs.settings_eq]
  rcases hs.reports_eq with ⟨-, rfl⟩ | ⟨section_, -, hr⟩
  · exact ⟨⟨List.nodup_nil, List.nodup_nil, fun _ h => absurd h List.not_mem_nil⟩,
      fun he => absurd he Bool.false_ne_true,
      tagListable_reportedTags fun _ h => absurd h List.not_mem_nil⟩
  · obtain ⟨base, _, _, hbase, hvariants, htags, -, -, rfl⟩ := prepareReports_eq_ok hr
    exact ⟨reportsNamed_ofVariant hbase _,
      fun he hnone => hvariants he (List.map_eq_nil_iff.mp hnone),
      tagListable_reportedTags (reportedTagViolations_eq_nil_iff.mp htags)⟩

end OfPrepare

theorem isAbsolute_optionalPaths {t : FileTree} {input : PrepareInput} {s : Settings}
    {file : SettingsFile} {manifest : Option (Manifest × Path)} {compiler : SettingsFile.Compiler}
    {reports : Reports} (hs : PreparedFrom t input file manifest compiler reports s) :
    ∀ found ∈ s.optionalPaths, ∀ p, found = some p → p.isAbsolute = true := by
  have hv := hs.isAbsolute_values
  have ho := outputsPlaced_of_prepare hs.prepare_eq
  have prepared : ∀ {field : String} {value : Option String} {found : Option Path},
      preparePath (valuesOf s.projectFolder manifest) field value = .ok found →
        ∀ p, found = some p → p.isAbsolute = true := by
    rintro field value _ hfound p rfl
    exact isAbsolute_preparePath hv hfound
  have hsource : ∀ p, s.sourcePath = some p → p.isAbsolute = true := by
    rw [hs.settings_eq]
    exact fun p hp => isAbsolute_documentPath hs.file_eq hp
  have hpackage : ∀ p, s.packageFolder = some p → p.isAbsolute = true := by
    rw [hs.settings_eq]
    intro p hp
    obtain ⟨⟨m, folder⟩, hm, rfl⟩ := Option.map_eq_some_iff.mp hp
    exact isAbsolute_prepareManifest (hs.manifest_eq.trans (congrArg Except.ok hm))
  simp only [optionalPaths, List.forall_mem_cons]
  exact ⟨hsource, hpackage, ho.tsconfig, ho.model, prepared hs.untrimmed_eq,
    prepared hs.alphaTrimmed_eq, prepared hs.betaTrimmed_eq, prepared hs.publicTrimmed_eq,
    ho.metadata, fun _ h => absurd h List.not_mem_nil⟩

theorem wellFormed_of_prepare {t : FileTree} {input : PrepareInput} {s : Settings}
    (h : prepare t input = .ok s) : s.WellFormed := by
  have hplaced := reportsPlaced_of_prepare h
  obtain ⟨file, manifest, compiler, reports, hs⟩ := prepare_eq_ok h
  obtain ⟨hfound, hnamed⟩ := hs.entryPoints
  obtain ⟨hreports, hsome, htags⟩ := hs.reportsNamed
  have hproject := isAbsolute_prepareProjectFolder hs.file_eq hs.projectFolder_eq
  refine ⟨fun p hp => ?_, fun e he => (hfound e he).2, hnamed, fun he => ?_, hreports, hsome, htags⟩
  · rw [Settings.paths, List.mem_append, List.mem_append, List.mem_map, List.mem_filterMap] at hp
    rcases hp with (hp | ⟨e, he, rfl⟩) | ⟨found, hfound, hp⟩
    · revert p
      simp only [List.forall_mem_cons]
      exact ⟨hproject, hplaced.folder, hplaced.tempFolder, fun _ h => absurd h List.not_mem_nil⟩
    · exact (hfound e he).1
    · exact isAbsolute_optionalPaths hs found hfound p hp
  · rw [hs.settings_eq] at he
    exact hs.rollup_single he

/-! ## What a run takes -/

/-- What a run takes from settings is there. -/
structure Supplied (s : Settings) : Prop where
  model : s.modelEnabled = true → ∃ path, s.modelPath = some path
  metadata : s.metadataEnabled = true → ∃ path, s.metadataPath = some path
  tsconfig : s.inlineTsconfig = none → ∃ path, s.tsconfigPath = some path

theorem prepareMetadataPath_ne_none {values : PlaceholderValues}
    {manifest : Option (Manifest × Path)} {section_ : SettingsFile.Metadata}
    (he : section_.enabled = true) : prepareMetadataPath values manifest section_ ≠ .ok none := by
  unfold prepareMetadataPath
  extract_lets value
  rw [he, if_neg (by decide)]
  intro h
  split at h
  · split at h <;> cases h
  · obtain ⟨path, -, h⟩ := bind_eq_ok h
    cases path <;> cases h

theorem supplied_of_prepare {t : FileTree} {input : PrepareInput} {s : Settings}
    (h : prepare t input = .ok s) : s.Supplied := by
  obtain ⟨file, manifest, compiler, reports, hs⟩ := prepare_eq_ok h
  refine ⟨fun he => ?_, fun he => ?_, fun hinline => ?_⟩
  · have henabled : (file.docModel.getD .blank).enabled = true := by
      rw [hs.settings_eq] at he
      exact he
    obtain ⟨found, -, hmodel⟩ := bind_eq_ok hs.modelPath_eq
    obtain ⟨hguard, hmodel⟩ := guard_eq_ok hmodel
    rw [henabled, Bool.true_and, decide_eq_true_iff] at hguard
    rw [← Except.ok.inj hmodel]
    exact Option.ne_none_iff_exists'.mp hguard
  · rw [hs.settings_eq] at he
    refine Option.ne_none_iff_exists'.mp fun hnone => ?_
    have hmetadata := hs.metadata_eq
    rw [hnone] at hmetadata
    exact prepareMetadataPath_ne_none he hmetadata
  · rw [hs.settings_eq] at hinline
    obtain ⟨found, -, hconfig⟩ := bind_eq_ok hs.tsconfig_eq
    rw [show compiler.overrideTsconfig = none from hinline] at hconfig
    cases found with
    | none => cases hconfig
    | some path =>
      simp only at hconfig
      split at hconfig
      · exact ⟨path, (Except.ok.inj hconfig).symm⟩
      · cases hconfig

end Settings

end ApiReview
