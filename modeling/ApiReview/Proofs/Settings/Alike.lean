import ApiReview.Proofs.Settings.Prepare
import Mathlib.Data.List.Forall2

/-!
# Settings that are prepared alike

Preparing hangs on a path setting only by the path that it is prepared to. Files whose path settings
are prepared to the same paths, and which are the same apart from them (`AlikeFiles`), come to the
same settings, or fail both (`toOption_prepare_congr`).
-/

namespace ApiReview

namespace Settings

variable {values : PlaceholderValues}

/-- Two path settings that are prepared to the same path, or both refused. -/
structure AlikePath (values : PlaceholderValues) (a b : Option String) : Prop where
  prepares : ∀ field,
    (preparePath values field a).toOption = (preparePath values field b).toOption
  isLookup : Text.trimmed (a.getD "") = Placeholder.lookup ↔
    Text.trimmed (b.getD "") = Placeholder.lookup

theorem AlikePath.refl (a : Option String) : AlikePath values a a :=
  ⟨fun _ => rfl, Iff.rfl⟩

theorem AlikePath.symm {a b : Option String} (h : AlikePath values a b) : AlikePath values b a :=
  ⟨fun field => (h.prepares field).symm, h.isLookup.symm⟩

/-! ## Parts that are alike -/

/-- Entry points with alike paths. -/
structure AlikeEntryPoints (values : PlaceholderValues) (a b : SettingsFile.EntryPoint) : Prop where
  modulePath : a.modulePath = b.modulePath
  file : AlikePath values (some a.filePath) (some b.filePath)

/-- Sections on the compiler with alike paths. -/
structure AlikeCompilers (values : PlaceholderValues) (a b : SettingsFile.Compiler) : Prop where
  tsconfig : AlikePath values a.tsconfigFilePath b.tsconfigFilePath
  rest : b = { a with tsconfigFilePath := b.tsconfigFilePath }

/-- Sections on the API report with alike paths. -/
structure AlikeReports (values : PlaceholderValues) (a b : SettingsFile.ApiReport) : Prop where
  folder : AlikePath values a.reportFolder b.reportFolder
  tempFolder : AlikePath values a.reportTempFolder b.reportTempFolder
  rest : b = { a with reportFolder := b.reportFolder, reportTempFolder := b.reportTempFolder }

/-- Sections on the model with alike paths. -/
structure AlikeModels (values : PlaceholderValues) (a b : SettingsFile.DocModel) : Prop where
  file : AlikePath values a.apiJsonFilePath b.apiJsonFilePath
  rest : b = { a with apiJsonFilePath := b.apiJsonFilePath }

/-- Sections on rolled-up declarations with alike paths. -/
structure AlikeRollups (values : PlaceholderValues) (a b : SettingsFile.Rollup) : Prop where
  untrimmed : AlikePath values a.untrimmedFilePath b.untrimmedFilePath
  alphaTrimmed : AlikePath values a.alphaTrimmedFilePath b.alphaTrimmedFilePath
  betaTrimmed : AlikePath values a.betaTrimmedFilePath b.betaTrimmedFilePath
  publicTrimmed : AlikePath values a.publicTrimmedFilePath b.publicTrimmedFilePath
  rest : b =
    { a with
      untrimmedFilePath := b.untrimmedFilePath
      alphaTrimmedFilePath := b.alphaTrimmedFilePath
      betaTrimmedFilePath := b.betaTrimmedFilePath
      publicTrimmedFilePath := b.publicTrimmedFilePath }

/-- Sections on the metadata file with alike paths. -/
structure AlikeMetadata (values : PlaceholderValues) (a b : SettingsFile.Metadata) : Prop where
  file : AlikePath values a.tsdocMetadataFilePath b.tsdocMetadataFilePath
  rest : b = { a with tsdocMetadataFilePath := b.tsdocMetadataFilePath }

/-- Settings files with alike paths, and the same project folder. -/
structure AlikeFiles (values : PlaceholderValues) (a b : SettingsFile) : Prop where
  main : AlikePath values a.mainEntryPointFilePath b.mainEntryPointFilePath
  entryPoints :
    List.Forall₂ (AlikeEntryPoints values) a.additionalEntryPoints b.additionalEntryPoints
  compiler : Option.Rel (AlikeCompilers values) a.compiler b.compiler
  apiReport : Option.Rel (AlikeReports values) a.apiReport b.apiReport
  docModel : Option.Rel (AlikeModels values) a.docModel b.docModel
  dtsRollup : Option.Rel (AlikeRollups values) a.dtsRollup b.dtsRollup
  tsdocMetadata : Option.Rel (AlikeMetadata values) a.tsdocMetadata b.tsdocMetadata
  rest : b =
    { a with
      mainEntryPointFilePath := b.mainEntryPointFilePath
      additionalEntryPoints := b.additionalEntryPoints
      compiler := b.compiler
      apiReport := b.apiReport
      docModel := b.docModel
      dtsRollup := b.dtsRollup
      tsdocMetadata := b.tsdocMetadata }

theorem AlikeEntryPoints.refl (a : SettingsFile.EntryPoint) : AlikeEntryPoints values a a :=
  ⟨rfl, .refl _⟩

theorem AlikeCompilers.refl (a : SettingsFile.Compiler) : AlikeCompilers values a a :=
  ⟨.refl _, rfl⟩

theorem AlikeReports.refl (a : SettingsFile.ApiReport) : AlikeReports values a a :=
  ⟨.refl _, .refl _, rfl⟩

theorem AlikeModels.refl (a : SettingsFile.DocModel) : AlikeModels values a a :=
  ⟨.refl _, rfl⟩

theorem AlikeRollups.refl (a : SettingsFile.Rollup) : AlikeRollups values a a :=
  ⟨.refl _, .refl _, .refl _, .refl _, rfl⟩

theorem AlikeMetadata.refl (a : SettingsFile.Metadata) : AlikeMetadata values a a :=
  ⟨.refl _, rfl⟩

theorem rel_refl {α : Type} {r : α → α → Prop} (hr : ∀ a, r a a) : ∀ x : Option α, Option.Rel r x x
  | none => .none
  | some a => .some (hr a)

theorem AlikeFiles.refl (a : SettingsFile) : AlikeFiles values a a where
  main := .refl _
  entryPoints := List.forall₂_same.mpr fun e _ => .refl e
  compiler := rel_refl .refl _
  apiReport := rel_refl .refl _
  docModel := rel_refl .refl _
  dtsRollup := rel_refl .refl _
  tsdocMetadata := rel_refl .refl _
  rest := rfl

theorem AlikeEntryPoints.symm {a b : SettingsFile.EntryPoint} (h : AlikeEntryPoints values a b) :
    AlikeEntryPoints values b a :=
  ⟨h.modulePath.symm, h.file.symm⟩

theorem AlikeCompilers.symm {a b : SettingsFile.Compiler} (h : AlikeCompilers values a b) :
    AlikeCompilers values b a :=
  ⟨h.tsconfig.symm, by rw [h.rest]⟩

theorem AlikeReports.symm {a b : SettingsFile.ApiReport} (h : AlikeReports values a b) :
    AlikeReports values b a :=
  ⟨h.folder.symm, h.tempFolder.symm, by rw [h.rest]⟩

theorem AlikeCompilers.overrideTsconfig {a b : SettingsFile.Compiler}
    (h : AlikeCompilers values a b) : b.overrideTsconfig = a.overrideTsconfig := by rw [h.rest]

theorem AlikeCompilers.skipLibCheck {a b : SettingsFile.Compiler}
    (h : AlikeCompilers values a b) : b.skipLibCheck = a.skipLibCheck := by rw [h.rest]

theorem AlikeModels.enabled {a b : SettingsFile.DocModel} (h : AlikeModels values a b) :
    b.enabled = a.enabled := by rw [h.rest]

theorem AlikeModels.includeForgottenExports {a b : SettingsFile.DocModel}
    (h : AlikeModels values a b) : b.includeForgottenExports = a.includeForgottenExports := by
  rw [h.rest]

theorem AlikeModels.projectFolderUrl {a b : SettingsFile.DocModel} (h : AlikeModels values a b) :
    b.projectFolderUrl = a.projectFolderUrl := by rw [h.rest]

theorem AlikeRollups.enabled {a b : SettingsFile.Rollup} (h : AlikeRollups values a b) :
    b.enabled = a.enabled := by rw [h.rest]

theorem AlikeRollups.omitTrimmingComments {a b : SettingsFile.Rollup}
    (h : AlikeRollups values a b) : b.omitTrimmingComments = a.omitTrimmingComments := by
  rw [h.rest]

theorem AlikeMetadata.enabled {a b : SettingsFile.Metadata} (h : AlikeMetadata values a b) :
    b.enabled = a.enabled := by rw [h.rest]

theorem AlikeModels.symm {a b : SettingsFile.DocModel} (h : AlikeModels values a b) :
    AlikeModels values b a :=
  ⟨h.file.symm, by rw [h.rest]⟩

theorem AlikeRollups.symm {a b : SettingsFile.Rollup} (h : AlikeRollups values a b) :
    AlikeRollups values b a :=
  ⟨h.untrimmed.symm, h.alphaTrimmed.symm, h.betaTrimmed.symm, h.publicTrimmed.symm,
    by rw [h.rest]⟩

theorem AlikeMetadata.symm {a b : SettingsFile.Metadata} (h : AlikeMetadata values a b) :
    AlikeMetadata values b a :=
  ⟨h.file.symm, by rw [h.rest]⟩

section Rest

variable {a b : SettingsFile} (h : AlikeFiles values a b)

include h

theorem AlikeFiles.projectFolder : b.projectFolder = a.projectFolder := by rw [h.rest]

theorem AlikeFiles.bundledPackages : b.bundledPackages = a.bundledPackages := by rw [h.rest]

theorem AlikeFiles.messages : b.messages = a.messages := by rw [h.rest]

theorem AlikeFiles.newlineKind : b.newlineKind = a.newlineKind := by rw [h.rest]

theorem AlikeFiles.testMode : b.testMode = a.testMode := by rw [h.rest]

theorem AlikeFiles.enumMemberOrder : b.enumMemberOrder = a.enumMemberOrder := by rw [h.rest]

end Rest

theorem rel_symm {α : Type} {r : α → α → Prop} (hr : ∀ {a b}, r a b → r b a) {x y : Option α}
    (h : Option.Rel r x y) : Option.Rel r y x := by
  cases h with
  | some h => exact .some (hr h)
  | none => exact .none

theorem AlikeFiles.symm {a b : SettingsFile} (h : AlikeFiles values a b) :
    AlikeFiles values b a where
  main := h.main.symm
  entryPoints := h.entryPoints.flip.imp fun _ _ h => h.symm
  compiler := rel_symm (·.symm) h.compiler
  apiReport := rel_symm (·.symm) h.apiReport
  docModel := rel_symm (·.symm) h.docModel
  dtsRollup := rel_symm (·.symm) h.dtsRollup
  tsdocMetadata := rel_symm (·.symm) h.tsdocMetadata
  rest := by rw [h.rest]

/-- Sections that may be left out are alike with what stands for them. -/
theorem rel_getD {α : Type} {r : α → α → Prop} {x y : Option α} (h : Option.Rel r x y) {d : α}
    (hd : r d d) : r (x.getD d) (y.getD d) := by
  cases h with
  | some h => exact h
  | none => exact hd

/-! ## Preparing parts that are alike -/

section Parts

variable (t : FileTree) (input : PrepareInput) (document : Json)

theorem prepareMain_congr {a b : SettingsFile} (h : AlikeFiles values a b) :
    (prepareMain t input values a).toOption =
      (prepareMain t { input with document } values b).toOption :=
  toOption_bind_congr (h.main.prepares _) fun _ => rfl

theorem prepareEntryPoint_congr {a b : SettingsFile.EntryPoint} (h : AlikeEntryPoints values a b)
    (done : List EntryPoint) :
    (prepareEntryPoint t input values done a).toOption =
      (prepareEntryPoint t { input with document } values done b).toOption := by
  rw [prepareEntryPoint, prepareEntryPoint, h.modulePath]
  refine toOption_guard_congr (toOption_guard_congr ?_)
  exact toOption_bind_congr (h.file.prepares _) fun _ => rfl

theorem prepareEntryPoints_congr {as bs : List SettingsFile.EntryPoint}
    (h : List.Forall₂ (AlikeEntryPoints values) as bs) (done : List EntryPoint) :
    (as.foldlM (prepareEntryPoint t input values) done).toOption =
      (bs.foldlM (prepareEntryPoint t { input with document } values) done).toOption := by
  induction h generalizing done with
  | nil => rfl
  | cons hab _ ih =>
    rw [List.foldlM_cons, List.foldlM_cons]
    exact toOption_bind_congr (prepareEntryPoint_congr t input document hab done) ih

theorem prepareTsconfig_congr {a b : SettingsFile.Compiler} (h : AlikeCompilers values a b) :
    (prepareTsconfig t values a).toOption = (prepareTsconfig t values b).toOption := by
  rw [h.rest]
  exact toOption_bind_congr (h.tsconfig.prepares _) fun _ => rfl

theorem prepareReports_congr {a b : SettingsFile.ApiReport} (h : AlikeReports values a b) :
    (prepareReports values a).toOption = (prepareReports values b).toOption := by
  rw [h.rest]
  refine toOption_bind_congr rfl fun base => toOption_guard_congr (toOption_guard_congr ?_)
  refine toOption_bind_congr ?_ fun folder => toOption_bind_congr ?_ fun temp => rfl
  · rw [toOption_mapError, toOption_mapError]
    exact h.folder.prepares _
  · rw [toOption_mapError, toOption_mapError]
    exact h.tempFolder.prepares _

theorem prepareModelPath_congr {a b : SettingsFile.DocModel} (h : AlikeModels values a b) :
    (prepareModelPath values a).toOption = (prepareModelPath values b).toOption := by
  rw [h.rest]
  exact toOption_bind_congr (h.file.prepares _) fun _ => rfl

/-- A missing value is as good as an empty one. -/
theorem preparePath_getD (field : String) (value : Option String) :
    preparePath values field (some (value.getD "")) = preparePath values field value := by
  rw [preparePath, preparePath, PlaceholderValues.resolvePath, PlaceholderValues.resolvePath,
    PlaceholderValues.expand, PlaceholderValues.expand, Option.getD_some]

theorem prepareMetadataPath_congr (manifest : Option (Manifest × Path))
    {a b : SettingsFile.Metadata} (h : AlikeMetadata values a b) :
    (prepareMetadataPath values manifest a).toOption =
      (prepareMetadataPath values manifest b).toOption := by
  rw [h.rest]
  unfold prepareMetadataPath
  dsimp only
  by_cases hoff : (!a.enabled) = true
  · rw [if_pos hoff, if_pos hoff]
  · rw [if_neg hoff, if_neg hoff, preparePath_getD, preparePath_getD]
    by_cases hl : Text.trimmed (a.tsdocMetadataFilePath.getD "") = Placeholder.lookup
    · rw [if_pos hl, if_pos (h.file.isLookup.mp hl)]
    · rw [if_neg hl, if_neg fun hb => hl (h.file.isLookup.mpr hb)]
      exact toOption_bind_congr (h.file.prepares _) fun _ => rfl

end Parts

/-! ## Preparing files that are alike -/

/-- Settings that were prepared from one file are prepared from one that is alike. -/
theorem PreparedFrom.of_alike {t : FileTree} {input : PrepareInput} {document : Json}
    {a b : SettingsFile} {manifest : Option (Manifest × Path)} {compiler : SettingsFile.Compiler}
    {reports : Reports} {s : Settings} (hs : PreparedFrom t input a manifest compiler reports s)
    (hb : prepareFile { input with document } = .ok b)
    (h : AlikeFiles (valuesOf s.projectFolder manifest) a b) :
    ∃ compiler', PreparedFrom t { input with document } b manifest compiler' reports s := by
  obtain ⟨compiler', hcompiler', hc⟩ : ∃ compiler', b.compiler = some compiler' ∧
      AlikeCompilers (valuesOf s.projectFolder manifest) compiler compiler' := by
    have hrel := h.compiler
    rw [hs.compiler_eq] at hrel
    cases hb : b.compiler with
    | none => rw [hb] at hrel; cases hrel
    | some compiler' =>
      rw [hb] at hrel
      cases hrel with
      | some hc => exact ⟨compiler', rfl, hc⟩
  have hreports : (b.apiReport = none ∧ reports = Reports.none s.projectFolder) ∨
      ∃ section_, b.apiReport = some section_ ∧
        prepareReports (valuesOf s.projectFolder manifest) section_ = .ok reports := by
    have hrel := h.apiReport
    rcases hs.reports_eq with ⟨hnone, hr⟩ | ⟨section_, hsome, hr⟩
    · rw [hnone] at hrel
      cases hb : b.apiReport with
      | none => exact .inl ⟨rfl, hr⟩
      | some section_ => rw [hb] at hrel; cases hrel
    · rw [hsome] at hrel
      cases hb : b.apiReport with
      | none => rw [hb] at hrel; cases hrel
      | some section' =>
        rw [hb] at hrel
        cases hrel with
        | some hc => exact .inr ⟨section', rfl, eq_ok_of_toOption_eq (prepareReports_congr hc) hr⟩
  have hmodel := rel_getD h.docModel (.refl .blank)
  have hrollup := rel_getD h.dtsRollup (.refl .blank)
  have hmetadata := rel_getD h.tsdocMetadata (.refl .blank)
  refine ⟨compiler', {
    file_eq := hb
    manifest_eq := hs.manifest_eq
    compiler_eq := hcompiler'
    projectFolder_eq := by
      have hfolder := hs.projectFolder_eq
      rw [prepareProjectFolder] at hfolder ⊢
      rw [h.projectFolder]
      exact hfolder
    main_eq := eq_ok_of_toOption_eq (prepareMain_congr t input document h) hs.main_eq
    additional_eq := eq_ok_of_toOption_eq
      (prepareEntryPoints_congr t input document h.entryPoints []) hs.additional_eq
    bundled := h.bundledPackages ▸ hs.bundled
    tsconfig_eq := eq_ok_of_toOption_eq (prepareTsconfig_congr t hc) hs.tsconfig_eq
    reports_eq := hreports
    modelPath_eq := eq_ok_of_toOption_eq (prepareModelPath_congr hmodel) hs.modelPath_eq
    releaseTags_eq := by rw [hmodel.rest]; exact hs.releaseTags_eq
    metadata_eq :=
      eq_ok_of_toOption_eq (prepareMetadataPath_congr manifest hmetadata) hs.metadata_eq
    rollup_single := hrollup.enabled ▸ hs.rollup_single
    untrimmed_eq := eq_ok_of_toOption_eq (hrollup.untrimmed.prepares _) hs.untrimmed_eq
    alphaTrimmed_eq := eq_ok_of_toOption_eq (hrollup.alphaTrimmed.prepares _) hs.alphaTrimmed_eq
    betaTrimmed_eq := eq_ok_of_toOption_eq (hrollup.betaTrimmed.prepares _) hs.betaTrimmed_eq
    publicTrimmed_eq := eq_ok_of_toOption_eq (hrollup.publicTrimmed.prepares _) hs.publicTrimmed_eq
    messages_ok := h.messages ▸ hs.messages_ok
    docComments_eq := hs.docComments_eq
    settings_eq := by
      rw [hc.overrideTsconfig, hc.skipLibCheck, hmodel.enabled, hmodel.includeForgottenExports,
        hmodel.projectFolderUrl, hrollup.enabled, hrollup.omitTrimmingComments, hmetadata.enabled,
        h.bundledPackages, h.messages, h.newlineKind, h.testMode, h.enumMemberOrder]
      exact hs.settings_eq }⟩

theorem prepare_of_alike {t : FileTree} {input : PrepareInput} {document : Json}
    {a b : SettingsFile} (ha : prepareFile input = .ok a)
    (hb : prepareFile { input with document } = .ok b)
    (h : ∀ manifest folder, prepareManifest t input = .ok manifest →
      prepareProjectFolder t input a = .ok folder → AlikeFiles (valuesOf folder manifest) a b)
    {s : Settings} (hs : prepare t input = .ok s) : prepare t { input with document } = .ok s := by
  obtain ⟨file, manifest, compiler, reports, hs⟩ := prepare_eq_ok hs
  obtain rfl : a = file := Except.ok.inj (ha.symm.trans hs.file_eq)
  obtain ⟨compiler', hs'⟩ := hs.of_alike hb (h _ _ hs.manifest_eq hs.projectFolder_eq)
  exact hs'.prepare_eq

/-- Files that are alike are prepared to the same settings, or to none both. -/
theorem toOption_prepare_congr {t : FileTree} {input : PrepareInput} {document : Json}
    {a b : SettingsFile} (ha : prepareFile input = .ok a)
    (hb : prepareFile { input with document } = .ok b)
    (hproject : b.projectFolder = a.projectFolder)
    (h : ∀ manifest folder, prepareManifest t input = .ok manifest →
      prepareProjectFolder t input a = .ok folder → AlikeFiles (valuesOf folder manifest) a b) :
    (prepare t input).toOption = (prepare t { input with document }).toOption := by
  have hfolder : prepareProjectFolder t { input with document } b =
      prepareProjectFolder t input a := by
    rw [prepareProjectFolder, prepareProjectFolder, hproject]
    rfl
  have hback : ∀ {s}, prepare t { input with document } = .ok s → prepare t input = .ok s :=
    prepare_of_alike hb ha
      fun manifest folder hm hf => (h manifest folder hm (hfolder ▸ hf)).symm
  cases hs : prepare t input with
  | ok s => rw [prepare_of_alike ha hb h hs]
  | error e =>
    cases hs' : prepare t { input with document } with
    | error e' => rfl
    | ok s =>
      rw [hback hs'] at hs
      cases hs

end Settings

end ApiReview
