import ApiReview.Proofs.Files.Place
import ApiReview.Proofs.Text.Search
import ApiReview.Settings.Prepare

/-!
# What prepared settings come from

Preparing goes through its parts one after another; each part of prepared settings is what its step
came to (`prepare_eq_ok`, `PreparedFrom.prepare_eq`). The reports have their own names in folders
from the root (`reportsPlaced_of_prepare`).
-/

namespace ApiReview.Settings

open Text

/-- What is put in for the placeholders of settings. -/
def valuesOf (projectFolder : Path) (manifest : Option (Manifest × Path)) : PlaceholderValues :=
  .ofProject projectFolder ((manifest.map (·.1.name)).filter (· ≠ ""))

/-- Prepared settings, part by part, from what they were prepared from. -/
structure PreparedFrom (t : FileTree) (input : PrepareInput) (file : SettingsFile)
    (manifest : Option (Manifest × Path)) (compiler : SettingsFile.Compiler) (reports : Reports)
    (s : Settings) : Prop where
  file_eq : prepareFile input = .ok file
  manifest_eq : prepareManifest t input = .ok manifest
  compiler_eq : file.compiler = some compiler
  projectFolder_eq : prepareProjectFolder t input file = .ok s.projectFolder
  main_eq : prepareMain t input (valuesOf s.projectFolder manifest) file = .ok s.mainEntryPoint
  additional_eq : file.additionalEntryPoints.foldlM
    (prepareEntryPoint t input (valuesOf s.projectFolder manifest)) [] = .ok s.additionalEntryPoints
  bundled : checkBundledPackages file.bundledPackages = .ok ()
  tsconfig_eq : prepareTsconfig t (valuesOf s.projectFolder manifest) compiler = .ok s.tsconfigPath
  reports_eq : (file.apiReport = none ∧ reports = Reports.none s.projectFolder) ∨
    ∃ section_, file.apiReport = some section_ ∧
      prepareReports (valuesOf s.projectFolder manifest) section_ = .ok reports
  modelPath_eq : prepareModelPath (valuesOf s.projectFolder manifest)
    (file.docModel.getD .blank) = .ok s.modelPath
  releaseTags_eq : prepareTrimmedTags (file.docModel.getD .blank).releaseTagsToTrim =
    .ok s.releaseTagsToTrim
  metadata_eq : prepareMetadataPath (valuesOf s.projectFolder manifest) manifest
    (file.tsdocMetadata.getD .blank) = .ok s.metadataPath
  rollup_single : (file.dtsRollup.getD .blank).enabled = true → s.additionalEntryPoints = []
  untrimmed_eq : preparePath (valuesOf s.projectFolder manifest) "untrimmedFilePath"
    (file.dtsRollup.getD .blank).untrimmedFilePath = .ok s.untrimmedPath
  alphaTrimmed_eq : preparePath (valuesOf s.projectFolder manifest) "alphaTrimmedFilePath"
    (file.dtsRollup.getD .blank).alphaTrimmedFilePath = .ok s.alphaTrimmedPath
  betaTrimmed_eq : preparePath (valuesOf s.projectFolder manifest) "betaTrimmedFilePath"
    (file.dtsRollup.getD .blank).betaTrimmedFilePath = .ok s.betaTrimmedPath
  publicTrimmed_eq : preparePath (valuesOf s.projectFolder manifest) "publicTrimmedFilePath"
    (file.dtsRollup.getD .blank).publicTrimmedFilePath = .ok s.publicTrimmedPath
  messages_ok : file.messages.problem? = none
  docComments_eq : input.docComments = some s.docComments ∨
    input.docComments = none ∧ DocCommentConfig.loadForFolder t s.projectFolder = .ok s.docComments
  settings_eq : s =
    { s with
      sourcePath := input.documentPath
      manifest := manifest.map (·.1)
      packageFolder := manifest.map (·.2)
      bundledPackages := file.bundledPackages
      inlineTsconfig := compiler.overrideTsconfig
      skipLibCheck := compiler.skipLibCheck
      reportEnabled := reports.enabled
      reports := reports.specs
      reportFolder := reports.folder
      reportTempFolder := reports.tempFolder
      reportForgottenExports := reports.forgottenExports
      tagsToReport := reports.tags
      modelEnabled := (file.docModel.getD .blank).enabled
      modelForgottenExports := (file.docModel.getD .blank).includeForgottenExports
      projectFolderUrl := (file.docModel.getD .blank).projectFolderUrl
      rollupEnabled := (file.dtsRollup.getD .blank).enabled
      omitTrimmingComments := (file.dtsRollup.getD .blank).omitTrimmingComments
      metadataEnabled := (file.tsdocMetadata.getD .blank).enabled
      messages := file.messages
      lineEnding := file.newlineKind.getD .crlf
      testMode := file.testMode
      enumOrder := file.enumMemberOrder.getD .byName }

/-- Every part of prepared settings is what its step came to. -/
theorem prepare_eq_ok {t : FileTree} {input : PrepareInput} {s : Settings}
    (h : prepare t input = .ok s) :
    ∃ file manifest compiler reports, PreparedFrom t input file manifest compiler reports s := by
  obtain ⟨file, hfile, h⟩ := bind_eq_ok h
  obtain ⟨manifest, hmanifest, h⟩ := bind_eq_ok h
  obtain ⟨compiler, hcompiler, h⟩ := bind_eq_ok h
  obtain ⟨projectFolder, hproject, h⟩ := bind_eq_ok h
  obtain ⟨main, hmain, h⟩ := bind_eq_ok h
  obtain ⟨additional, hadditional, h⟩ := bind_eq_ok h
  obtain ⟨_, hbundled, h⟩ := bind_eq_ok h
  obtain ⟨tsconfigPath, htsconfig, h⟩ := bind_eq_ok h
  extract_lets model metadata rollup withReports at h
  obtain ⟨reports, hreports, h⟩ : ∃ reports,
      ((file.apiReport = none ∧ reports = Reports.none projectFolder) ∨
        ∃ section_, file.apiReport = some section_ ∧
          prepareReports (valuesOf projectFolder manifest) section_ = .ok reports) ∧
        withReports reports = .ok s := by
    split at h
    · rename_i hr
      obtain ⟨reports, hreports, h⟩ := bind_eq_ok h
      exact ⟨reports, .inl ⟨hr, (Except.ok.inj hreports).symm⟩, h⟩
    · rename_i section_ hr
      obtain ⟨reports, hreports, h⟩ := bind_eq_ok h
      exact ⟨reports, .inr ⟨section_, hr, mapError_eq_ok hreports⟩, h⟩
  obtain ⟨modelPath, hmodel, h⟩ := bind_eq_ok h
  obtain ⟨releaseTags, htags, h⟩ := bind_eq_ok h
  obtain ⟨metadataPath, hmetadata, h⟩ := bind_eq_ok h
  obtain ⟨hrollup, h⟩ := guard_eq_ok h
  obtain ⟨untrimmed, huntrimmed, h⟩ := bind_eq_ok h
  obtain ⟨alpha, halpha, h⟩ := bind_eq_ok h
  obtain ⟨beta, hbeta, h⟩ := bind_eq_ok h
  obtain ⟨trimmed, htrimmed, h⟩ := bind_eq_ok h
  extract_lets withComments afterMessages at h
  have hmessages : file.messages.problem? = none ∧ afterMessages () = .ok s := by
    split at h
    · obtain ⟨_, hthrow, -⟩ := bind_eq_ok h
      cases hthrow
    · rename_i hnone
      exact ⟨Option.eq_none_iff_forall_ne_some.mpr fun problem e => hnone problem e, h⟩
  obtain ⟨hmessages, h⟩ := hmessages
  obtain ⟨docComments, hcomments, h⟩ : ∃ docComments,
      (input.docComments = some docComments ∨ input.docComments = none ∧
        DocCommentConfig.loadForFolder t projectFolder = .ok docComments) ∧
      withComments docComments = .ok s := by
    simp only [afterMessages] at h
    split at h
    · rename_i config hd
      obtain ⟨docComments, hconfig, h⟩ := bind_eq_ok h
      exact ⟨docComments, .inl (hd.trans (congrArg some (Except.ok.inj hconfig))), h⟩
    · rename_i hd
      obtain ⟨docComments, hload, h⟩ := bind_eq_ok h
      exact ⟨docComments, .inr ⟨hd, hload⟩, h⟩
  have hcompiler : file.compiler = some compiler := by
    cases hc : file.compiler with
    | none => rw [hc] at hcompiler; cases hcompiler
    | some c => rw [hc] at hcompiler; exact congrArg some (Except.ok.inj hcompiler)
  have hsingle : (file.dtsRollup.getD .blank).enabled = true → additional = [] := by
    intro he
    rw [he, Bool.true_and, Bool.not_eq_true', Bool.not_eq_false] at hrollup
    exact List.isEmpty_iff.mp hrollup
  cases h
  exact ⟨file, manifest, compiler, reports, {
    file_eq := hfile
    manifest_eq := mapError_eq_ok hmanifest
    compiler_eq := hcompiler
    projectFolder_eq := mapError_eq_ok hproject
    main_eq := mapError_eq_ok hmain
    additional_eq := mapError_eq_ok hadditional
    bundled := mapError_eq_ok hbundled
    tsconfig_eq := mapError_eq_ok htsconfig
    reports_eq := hreports
    modelPath_eq := mapError_eq_ok hmodel
    releaseTags_eq := mapError_eq_ok htags
    metadata_eq := mapError_eq_ok hmetadata
    rollup_single := hsingle
    untrimmed_eq := mapError_eq_ok huntrimmed
    alphaTrimmed_eq := mapError_eq_ok halpha
    betaTrimmed_eq := mapError_eq_ok hbeta
    publicTrimmed_eq := mapError_eq_ok htrimmed
    messages_ok := hmessages
    docComments_eq := hcomments
    settings_eq := rfl }⟩

/-- What settings were prepared from, part by part, prepares to them. -/
theorem PreparedFrom.prepare_eq {t : FileTree} {input : PrepareInput} {file : SettingsFile}
    {manifest : Option (Manifest × Path)} {compiler : SettingsFile.Compiler} {reports : Reports}
    {s : Settings} (hs : PreparedFrom t input file manifest compiler reports s) :
    prepare t input = .ok s := by
  unfold prepare
  refine bind_of_ok hs.file_eq (bind_of_ok (mapError_of_ok hs.manifest_eq) ?_)
  refine bind_of_ok (a := compiler) ?_ ?_
  · rw [hs.compiler_eq]
    rfl
  refine bind_of_ok (mapError_of_ok hs.projectFolder_eq) ?_
  refine bind_of_ok (mapError_of_ok hs.main_eq) ?_
  refine bind_of_ok (mapError_of_ok hs.additional_eq) ?_
  refine bind_of_ok (mapError_of_ok hs.bundled) ?_
  refine bind_of_ok (mapError_of_ok hs.tsconfig_eq) ?_
  extract_lets model metadata rollup withReports
  have hsingle : ¬ ((file.dtsRollup.getD .blank).enabled && !s.additionalEntryPoints.isEmpty) =
      true := by
    intro h
    obtain ⟨he, hmany⟩ := Bool.and_eq_true_iff.mp h
    rw [hs.rollup_single he] at hmany
    cases hmany
  have hrest : withReports reports = .ok s := by
    refine bind_of_ok (mapError_of_ok hs.modelPath_eq) ?_
    refine bind_of_ok (mapError_of_ok hs.releaseTags_eq) ?_
    refine bind_of_ok (mapError_of_ok hs.metadata_eq) ?_
    refine guard_of_not hsingle ?_
    refine bind_of_ok (mapError_of_ok hs.untrimmed_eq) ?_
    refine bind_of_ok (mapError_of_ok hs.alphaTrimmed_eq) ?_
    refine bind_of_ok (mapError_of_ok hs.betaTrimmed_eq) ?_
    refine bind_of_ok (mapError_of_ok hs.publicTrimmed_eq) ?_
    extract_lets withComments afterMessages
    have hcomments : afterMessages () = .ok s := by
      have hsettings : withComments s.docComments = .ok s :=
        congrArg Except.ok hs.settings_eq.symm
      simp only [afterMessages]
      rcases hs.docComments_eq with hd | ⟨hd, hload⟩
      · rw [hd]
        exact hsettings
      · rw [hd]
        exact bind_of_ok hload hsettings
    rw [hs.messages_ok]
    exact hcomments
  rcases hs.reports_eq with ⟨hnone, hreports⟩ | ⟨section_, hsome, hreports⟩
  · rw [hnone]
    exact bind_of_ok (congrArg Except.ok hreports.symm) hrest
  · rw [hsome]
    exact bind_of_ok (mapError_of_ok hreports) hrest

/-! ## Folders -/

/-- The project folder is told from the root, or it is the nearest folder above the document with a
compiler configuration. -/
theorem prepareProjectFolder_cases {t : FileTree} {input : PrepareInput} {file : SettingsFile}
    {folder : Path} (h : prepareProjectFolder t input file = .ok folder) :
    (∃ p, folder = t.absolute p) ∨ ∃ path, input.documentPath = some path ∧
      path.parents.find? (fun above => t.isFile (above.join tsconfigName)) = some folder := by
  rw [prepareProjectFolder] at h
  split at h
  · cases h
  · split at h
    · cases h
    · split at h
      · rw [lookupProjectFolder] at h
        split at h
        · split at h
          · exact .inl ⟨_, (Except.ok.inj h).symm⟩
          · cases h
        · split at h
          · cases h
          · rename_i path hpath
            split at h
            · rename_i hfound
              exact .inr ⟨path, hpath, Except.ok.inj h ▸ hfound⟩
            · cases h
      · split at h
        · cases h
        · extract_lets found at h
          split at h
          · exact .inl ⟨_, (Except.ok.inj h).symm⟩
          · cases h

theorem isAbsolute_documentPath {input : PrepareInput} {file : SettingsFile}
    (h : prepareFile input = .ok file) {path : Path} (hp : input.documentPath = some path) :
    path.isAbsolute = true := by
  rw [prepareFile] at h
  obtain ⟨-, h⟩ := guard_eq_ok h
  obtain ⟨ha, -⟩ := guard_eq_ok h
  rw [hp, Option.map_some, Option.some_inj, Bool.not_eq_false] at ha
  exact ha

theorem isAbsolute_prepareProjectFolder {t : FileTree} {input : PrepareInput} {file : SettingsFile}
    (hf : prepareFile input = .ok file) {folder : Path}
    (h : prepareProjectFolder t input file = .ok folder) : folder.isAbsolute = true := by
  rcases prepareProjectFolder_cases h with ⟨p, rfl⟩ | ⟨path, hpath, hfound⟩
  · exact (t.isPlain_absolute p).absolute
  · exact (Path.steps_parents (isAbsolute_documentPath hf hpath)
      (List.mem_of_find?_eq_some hfound)).1

theorem valuesOf_projectFolder (projectFolder : Path) (manifest : Option (Manifest × Path)) :
    (valuesOf projectFolder manifest).projectFolder = projectFolder := by
  rw [valuesOf]
  cases (manifest.map (·.1.name)).filter (· ≠ "") <;> rfl

/-- What settings were prepared from has a project folder that is told from the root. -/
theorem PreparedFrom.isAbsolute_values {t : FileTree} {input : PrepareInput} {file : SettingsFile}
    {manifest : Option (Manifest × Path)} {compiler : SettingsFile.Compiler} {reports : Reports}
    {s : Settings} (hs : PreparedFrom t input file manifest compiler reports s) :
    (valuesOf s.projectFolder manifest).projectFolder.isAbsolute = true := by
  rw [valuesOf_projectFolder]
  exact isAbsolute_prepareProjectFolder hs.file_eq hs.projectFolder_eq

/-- A path setting is read from the project folder. -/
theorem isAbsolute_preparePath {values : PlaceholderValues}
    (hv : values.projectFolder.isAbsolute = true) {field : String} {value : Option String}
    {path : Option Path} (h : preparePath values field value = .ok path) :
    (path.getD values.projectFolder).isAbsolute = true := by
  obtain ⟨s, -, h⟩ := bind_eq_ok (mapError_eq_ok h)
  cases h
  split
  · exact hv
  · exact (Path.isPlain_resolve hv).absolute

/-- What a path setting is read as is normal. -/
theorem isNormal_preparePath {values : PlaceholderValues}
    (hv : values.projectFolder.isAbsolute = true) {field : String} {value : Option String}
    {path : Path} (h : preparePath values field value = .ok (some path)) : path.IsNormal := by
  obtain ⟨s, -, h⟩ := bind_eq_ok (mapError_eq_ok h)
  have hpath : (if s = "" then none else some (values.projectFolder.resolve ⟨s⟩)) = some path :=
    Except.ok.inj h
  split at hpath
  · cases hpath
  · rw [← Option.some.inj hpath]
    exact Path.isNormal_resolve hv

/-! ## Names of reports -/

theorem stripEnd?_eq_some {tail s rest : String} (h : stripEnd? tail s = some rest) :
    s.toList = rest.toList ++ tail.toList := by
  obtain ⟨r, hr, rfl⟩ := Option.map_eq_some_iff.mp h
  rw [String.toList_ofList, ← List.reverse_inj, afterStart?_eq_some_iff.mp hr, List.reverse_append,
    List.reverse_reverse]

/-- The base name of the reports has no separator. -/
theorem not_mem_prepareReportName {c : Char} (hc : c = '/' ∨ c = '\\')
    {values : PlaceholderValues} {section_ : SettingsFile.ApiReport} {base : String}
    (h : prepareReportName values section_ = .ok base) : c ∉ base.toList := by
  obtain ⟨name, -, h⟩ := bind_eq_ok h
  obtain ⟨-, h⟩ := guard_eq_ok h
  obtain ⟨hs, h⟩ := guard_eq_ok h
  have hn : c ∉ name.toList := fun hm =>
    hs (List.any_eq_true.mpr ⟨c, hm, by simpa only [Bool.or_eq_true, decide_eq_true_eq] using hc⟩)
  cases h
  cases he : stripEnd? ReportSpec.fileSuffix name with
  | none => exact hn
  | some base =>
    rw [stripEnd?_eq_some he] at hn
    exact fun hm => hn (List.mem_append_left _ hm)

theorem nodup_distinctVariants (variants : List Variant) : (distinctVariants variants).Nodup := by
  suffices h : ∀ done : List Variant, done.Nodup →
      (variants.foldl (fun done v => if done.contains v then done else done ++ [v]) done).Nodup from
    h [] List.nodup_nil
  induction variants with
  | nil => exact fun _ h => h
  | cons v variants ih =>
    intro done hd
    rw [List.foldl_cons]
    refine ih _ ?_
    split
    · exact hd
    · rename_i hv
      rw [List.contains_iff_mem] at hv
      refine List.nodup_append.mpr ⟨hd, List.nodup_cons.mpr ⟨List.not_mem_nil, List.nodup_nil⟩, ?_⟩
      rintro a ha _ hb rfl
      exact hv (List.mem_singleton.mp hb ▸ ha)

theorem toList_nameFor (base : String) (v : Variant) :
    (ReportSpec.nameFor base v).toList = base.toList ++ (ReportSpec.nameFor "" v).toList := by
  cases v <;>
    simp only [ReportSpec.nameFor, String.toList_append, List.append_assoc, String.toList_empty,
      List.nil_append]

/-- Two reports under a base name have two names. -/
theorem nameFor_injective {base : String} {v w : Variant}
    (h : ReportSpec.nameFor base v = ReportSpec.nameFor base w) : v = w := by
  have ht := congrArg String.toList h
  rw [toList_nameFor, toList_nameFor base w, List.append_cancel_left_eq] at ht
  revert ht
  cases v <;> cases w <;> decide +kernel

/-- The name of a report has a separator only if its base name has one. -/
theorem not_mem_nameFor {c : Char} (hc : c = '/' ∨ c = '\\') {base : String}
    (hb : c ∉ base.toList) (v : Variant) : c ∉ (ReportSpec.nameFor base v).toList := by
  rw [toList_nameFor, List.mem_append, not_or]
  refine ⟨hb, ?_⟩
  rcases hc with rfl | rfl
  · cases v <;> decide +kernel
  · cases v <;> decide +kernel

/-- The name of a report can stand between two slashes. -/
theorem isName_nameFor {base : String} (hb : '/' ∉ base.toList) (v : Variant) :
    (Path.Step.name (ReportSpec.nameFor base v).toList).IsName := by
  have hlong : 2 < (ReportSpec.nameFor base v).toList.length := by
    rw [toList_nameFor, List.length_append]
    refine Nat.lt_of_lt_of_le ?_ (Nat.le_add_left _ _)
    cases v <;> decide +kernel
  refine ⟨?_, not_mem_nameFor (.inl rfl) hb v⟩
  have hsilent : Path.isSilent (ReportSpec.nameFor base v).toList = false := by
    rw [Path.isSilent, Bool.or_eq_false_iff, decide_eq_false_iff_not, decide_eq_false_iff_not]
    constructor <;> intro e <;> rw [e] at hlong <;> exact absurd hlong (by decide)
  have hup : (ReportSpec.nameFor base v).toList ≠ ['.', '.'] := by
    intro e
    rw [e] at hlong
    exact absurd hlong (by decide)
  rw [Path.stepOf?, hsilent, if_neg Bool.false_ne_true, if_neg hup]

/-! ## Where reports stand -/

/-- The settings of the reports that were prepared. -/
theorem prepareReports_eq_ok {values : PlaceholderValues} {section_ : SettingsFile.ApiReport}
    {reports : Reports} (h : prepareReports values section_ = .ok reports) :
    ∃ base folder temp, prepareReportName values section_ = .ok base ∧
      (section_.enabled = true →
        distinctVariants (section_.reportVariants.getD [.complete]) ≠ []) ∧
      reportedTagViolations section_.tagsToReport = [] ∧
      preparePath values "reportFolder" section_.reportFolder = .ok folder ∧
      preparePath values "reportTempFolder" section_.reportTempFolder = .ok temp ∧
      reports =
        { enabled := section_.enabled
          specs := (distinctVariants (section_.reportVariants.getD [.complete])).map
            (ReportSpec.ofVariant base)
          folder := folder.getD values.projectFolder
          tempFolder := temp.getD values.projectFolder
          forgottenExports := section_.includeForgottenExports
          tags := reportedTags section_.tagsToReport } := by
  obtain ⟨base, hbase, h⟩ := bind_eq_ok h
  obtain ⟨hvariants, h⟩ := guard_eq_ok h
  obtain ⟨htags, h⟩ := guard_eq_ok h
  obtain ⟨folder, hfolder, h⟩ := bind_eq_ok h
  obtain ⟨temp, htemp, h⟩ := bind_eq_ok h
  refine ⟨base, folder, temp, mapError_eq_ok hbase, fun he hnone => ?_, Classical.not_not.mp htags,
    mapError_eq_ok hfolder, mapError_eq_ok htemp, (Except.ok.inj h).symm⟩
  rw [he, hnone] at hvariants
  exact hvariants rfl

/-- The reports have names of their own, and stand in folders that are told from the root. -/
structure ReportsPlaced (s : Settings) : Prop where
  folder : s.reportFolder.isAbsolute = true
  tempFolder : s.reportTempFolder.isAbsolute = true
  isName : ∀ r ∈ s.reports, (Path.Step.name r.fileName.toList).IsName
  distinct : s.reports.Pairwise fun r r' => r.fileName ≠ r'.fileName

theorem ReportsPlaced.isAbsolute_reportPath {s : Settings} (hs : s.ReportsPlaced)
    (r : ReportSpec) : (s.reportPath r).isAbsolute = true :=
  Path.isAbsolute_join hs.folder

theorem ReportsPlaced.isAbsolute_stagedReportPath {s : Settings} (hs : s.ReportsPlaced)
    (r : ReportSpec) : (s.stagedReportPath r).isAbsolute = true :=
  Path.isAbsolute_join hs.tempFolder

theorem reportsPlaced_of_prepare {t : FileTree} {input : PrepareInput} {s : Settings}
    (h : prepare t input = .ok s) : s.ReportsPlaced := by
  obtain ⟨file, manifest, compiler, reports, hs⟩ := prepare_eq_ok h
  have hproject := isAbsolute_prepareProjectFolder hs.file_eq hs.projectFolder_eq
  rw [hs.settings_eq]
  rcases hs.reports_eq with ⟨-, rfl⟩ | ⟨section_, -, hr⟩
  · exact ⟨hproject, hproject, fun _ h => absurd h List.not_mem_nil, List.Pairwise.nil⟩
  · have hv := hs.isAbsolute_values
    obtain ⟨base, folder, temp, hbase, -, -, hfolder, htemp, rfl⟩ := prepareReports_eq_ok hr
    have hslash := not_mem_prepareReportName (.inl rfl) hbase
    refine ⟨isAbsolute_preparePath hv hfolder, isAbsolute_preparePath hv htemp,
      fun r hm => ?_, ?_⟩
    · obtain ⟨v, -, rfl⟩ := List.mem_map.mp hm
      exact isName_nameFor hslash v
    · refine List.pairwise_map.mpr ((nodup_distinctVariants _).imp fun hne e => ?_)
      exact hne (nameFor_injective e)

/-- The folders of the reports are normal paths, as far as they are not the project folder. -/
theorem isNormal_or_eq_projectFolder {t : FileTree} {input : PrepareInput} {s : Settings}
    (h : prepare t input = .ok s) :
    (s.reportFolder.IsNormal ∨ s.reportFolder = s.projectFolder) ∧
      (s.reportTempFolder.IsNormal ∨ s.reportTempFolder = s.projectFolder) := by
  obtain ⟨file, manifest, compiler, reports, hs⟩ := prepare_eq_ok h
  rw [hs.settings_eq]
  rcases hs.reports_eq with ⟨-, rfl⟩ | ⟨section_, -, hr⟩
  · exact ⟨.inr rfl, .inr rfl⟩
  · have hvalues := valuesOf_projectFolder s.projectFolder manifest
    have placed : ∀ {field : String} {value : Option String} {path : Option Path},
        preparePath (valuesOf s.projectFolder manifest) field value = .ok path →
          (path.getD (valuesOf s.projectFolder manifest).projectFolder).IsNormal ∨
            path.getD (valuesOf s.projectFolder manifest).projectFolder = s.projectFolder := by
      intro field value path hpath
      cases path with
      | none => exact .inr hvalues
      | some path => exact .inl (isNormal_preparePath hs.isAbsolute_values hpath)
    obtain ⟨base, folder, temp, -, -, -, hfolder, htemp, rfl⟩ := prepareReports_eq_ok hr
    exact ⟨placed hfolder, placed htemp⟩

/-- The folders of the reports are normal paths, if the project folder is one. -/
theorem isNormal_reportFolders {t : FileTree} {input : PrepareInput} {s : Settings}
    (h : prepare t input = .ok s) (hn : s.projectFolder.normalize = s.projectFolder) :
    s.reportFolder.IsNormal ∧ s.reportTempFolder.IsNormal := by
  obtain ⟨file, manifest, compiler, reports, hs⟩ := prepare_eq_ok h
  have hproject := Path.isNormal_of_normalize_eq
    (isAbsolute_prepareProjectFolder hs.file_eq hs.projectFolder_eq) hn
  obtain ⟨hfolder, htemp⟩ := isNormal_or_eq_projectFolder h
  exact ⟨hfolder.elim id (· ▸ hproject), htemp.elim id (· ▸ hproject)⟩

end ApiReview.Settings
