import ApiReview.Proofs.Settings.MovedSettings

/-!
# Settings wherever a project stands

A project that stands in two folders has the same settings in both, but for the folder in all their
paths, or cannot be prepared in either (`toOption_loadAndPrepare_relocated`). What its settings
refer to has to stay in the project, and the folders have to agree on whether their names are those
of declaration files: an entry point may be the folder itself, and is refused by its name then
(`not_toOption_loadAndPrepare_relocated`).
-/

namespace ApiReview.Settings

open ApiReview.Path (AllNames Step Moved StaysBelow fromRoot)

/-- Where the settings in a file come from. -/
def sourceOf (t : FileTree) (path : Path) (document : Json) : Source :=
  ⟨document, path, path.parent?.bind (Manifest.findFrom t)⟩

/-- What settings are prepared from stays in a project: the files that the manifest names, the path
settings as they are read from the project folder, and the files of doc comment settings. -/
structure PreparesInside (t : FileTree) (root : Path) (source : Source) : Prop where
  manifest : ∀ m folder, prepareManifest t source.input = .ok (some (m, folder)) →
    ManifestStays root folder m
  paths : ∀ file manifest folder, SettingsFile.codec.read source.document = .ok file →
    prepareManifest t source.input = .ok manifest →
    prepareProjectFolder t source.input file = .ok folder →
    ∀ s ∈ pathsOf file, (Path.mk s).isAbsolute = false →
      (valuesOf folder manifest).StaysInside root s
  docComments : ∀ file folder, SettingsFile.codec.read source.document = .ok file →
    prepareProjectFolder t source.input file = .ok folder →
    DocCommentConfig.StaysTogether t root (folder.join DocCommentConfig.fileName)

section Prepare

variable {t u : FileTree} {a b : List Step} {source source' : Source}

theorem solid_valuesOf {folder : Path} {manifest : Option (Manifest × Path)}
    (h : ∀ m ∈ manifest, PackageName.problem? m.1.name = none) :
    (valuesOf folder manifest).Solid := by
  have hsolid : Text.isSolid false Placeholder.unknownPackage.toList = true := by decide
  have hunknown : (PlaceholderValues.ofProject folder none).Solid := ⟨hsolid, hsolid⟩
  cases manifest with
  | none => exact hunknown
  | some m =>
    obtain ⟨hname, hunscoped⟩ := PackageName.isSolid_of_problem? (h m rfl)
    rw [valuesOf, Option.map_some, Option.filter_some]
    split
    · exact ⟨hname, hunscoped⟩
    · exact hunknown

/-- What is put in for the placeholders is the same in two folders, but for the project folder. -/
theorem valuesOf_moved {manifest manifest' : Option (Manifest × Path)} (folder folder' : Path)
    (h : Option.Rel (LikeManifests a b) manifest manifest') :
    valuesOf folder' manifest' = { valuesOf folder manifest with projectFolder := folder' } := by
  have hnames : manifest'.map (·.1.name) = manifest.map (·.1.name) := by
    cases h with
    | none => rfl
    | some hm => rw [Option.map_some, Option.map_some, hm.1]
  rw [valuesOf, valuesOf, hnames]
  cases (manifest.map (·.1.name)).filter (· ≠ "") <;> rfl

/-- The path settings of a file move with a project and stay in it. -/
structure FileMovesAlong (a b : List Step) (values : PlaceholderValues) (file : SettingsFile) :
    Prop where
  settings : ∀ setting : PathSetting, MovesAlong a b values (setting.get? file)
  entryPoints : ∀ e ∈ file.additionalEntryPoints, MovesAlong a b values (some e.filePath)

section Sections

variable {values : PlaceholderValues} {file : SettingsFile}

theorem FileMovesAlong.compiler (h : FileMovesAlong a b values file)
    {compiler : SettingsFile.Compiler} (hc : file.compiler = some compiler) :
    MovesAlong a b values compiler.tsconfigFilePath := by
  have hget : PathSetting.get? .tsconfig file = compiler.tsconfigFilePath := by
    simp only [PathSetting.get?, hc, Option.bind_some]
  exact hget ▸ h.settings .tsconfig

theorem FileMovesAlong.apiReport (h : FileMovesAlong a b values file)
    {section_ : SettingsFile.ApiReport} (hr : file.apiReport = some section_) :
    MovesAlong a b values section_.reportFolder ∧
      MovesAlong a b values section_.reportTempFolder := by
  have hfolder : PathSetting.get? .reportFolder file = section_.reportFolder := by
    simp only [PathSetting.get?, hr, Option.bind_some]
  have htemp : PathSetting.get? .reportTempFolder file = section_.reportTempFolder := by
    simp only [PathSetting.get?, hr, Option.bind_some]
  exact ⟨hfolder ▸ h.settings .reportFolder, htemp ▸ h.settings .reportTempFolder⟩

/-- A section that is left out has no path. -/
theorem bind_eq_getD {α : Type} (x : Option α) (d : α) (get : α → Option String)
    (hd : get d = none) : x.bind get = get (x.getD d) := by
  cases x with
  | none => exact hd.symm
  | some part => rfl

theorem FileMovesAlong.docModel (h : FileMovesAlong a b values file) :
    MovesAlong a b values (file.docModel.getD .blank).apiJsonFilePath :=
  bind_eq_getD file.docModel .blank (·.apiJsonFilePath) rfl ▸ h.settings .model

theorem FileMovesAlong.tsdocMetadata (h : FileMovesAlong a b values file) :
    MovesAlong a b values (file.tsdocMetadata.getD .blank).tsdocMetadataFilePath :=
  bind_eq_getD file.tsdocMetadata .blank (·.tsdocMetadataFilePath) rfl ▸ h.settings .metadata

theorem FileMovesAlong.dtsRollup (h : FileMovesAlong a b values file) :
    MovesAlong a b values (file.dtsRollup.getD .blank).untrimmedFilePath ∧
      MovesAlong a b values (file.dtsRollup.getD .blank).alphaTrimmedFilePath ∧
      MovesAlong a b values (file.dtsRollup.getD .blank).betaTrimmedFilePath ∧
      MovesAlong a b values (file.dtsRollup.getD .blank).publicTrimmedFilePath := by
  have hget : ∀ {get : SettingsFile.Rollup → Option String}, get .blank = none →
      MovesAlong a b values (file.dtsRollup.bind get) →
        MovesAlong a b values (get (file.dtsRollup.getD .blank)) := fun hblank hmoves =>
    bind_eq_getD file.dtsRollup .blank _ hblank ▸ hmoves
  exact ⟨hget rfl (h.settings .untrimmed), hget rfl (h.settings .alphaTrimmed),
    hget rfl (h.settings .betaTrimmed), hget rfl (h.settings .publicTrimmed)⟩

variable (m : String → String) (file : SettingsFile)

theorem getD_docModel :
    (file.mapPaths m).docModel.getD .blank = (file.docModel.getD .blank).mapPaths m := by
  rw [SettingsFile.mapPaths]
  cases file.docModel <;> rfl

theorem getD_tsdocMetadata :
    (file.mapPaths m).tsdocMetadata.getD .blank = (file.tsdocMetadata.getD .blank).mapPaths m := by
  rw [SettingsFile.mapPaths]
  cases file.tsdocMetadata <;> rfl

theorem getD_dtsRollup :
    (file.mapPaths m).dtsRollup.getD .blank = (file.dtsRollup.getD .blank).mapPaths m := by
  rw [SettingsFile.mapPaths]
  cases file.dtsRollup <;> rfl

end Sections

/-- The path settings of a file that is prepared move with the project. -/
theorem fileMovesAlong (ha : AllNames a) (hb : AllNames b) (hs : MovedSource a b source source')
    (hinside : PreparesInside t (fromRoot a) source) {file : SettingsFile}
    (hread : SettingsFile.codec.read source.document = .ok file)
    {manifest : Option (Manifest × Path)}
    (hmanifest : prepareManifest t source.input = .ok manifest)
    {folder : Path} (hfolder : prepareProjectFolder t source.input file = .ok folder) :
    FileMovesAlong a b (valuesOf folder manifest) file := by
  have hfollows : ∀ s ∈ pathsOf file, MovesAlong a b (valuesOf folder manifest) (some s) := by
    rintro s hmem _ ⟨⟩
    exact ⟨hs.document.movedPath ha hb hread hmem,
      hinside.paths file manifest folder hread hmanifest hfolder s hmem⟩
  refine ⟨fun setting s hget => ?_, fun e he => ?_⟩
  · exact hfollows s (List.mem_append_left _
      (List.mem_filterMap.mpr ⟨setting, setting.mem_all, hget⟩)) s rfl
  · exact hfollows _ (List.mem_append_right _ (List.mem_map_of_mem he))

/-! ### The parts of settings -/

theorem MovedSource.documentPath_eq (ha : AllNames a) (hb : AllNames b)
    (hs : MovedSource a b source source') : source'.input.documentPath =
      source.input.documentPath.map (Path.relocate (fromRoot a) (fromRoot b)) := by
  rw [Source.input, Source.input, Option.map_some, hs.path.relocate_eq ha hb]

/-- Of like manifests, the folders are relocated and the rest is kept. -/
theorem map_likeManifests (ha : AllNames a) (hb : AllNames b)
    {manifest manifest' : Option (Manifest × Path)}
    (h : Option.Rel (LikeManifests a b) manifest manifest') :
    manifest'.map (·.1) = manifest.map (·.1) ∧ manifest'.map (·.2) =
      (manifest.map (·.2)).map (Path.relocate (fromRoot a) (fromRoot b)) := by
  cases h with
  | none => exact ⟨rfl, rfl⟩
  | some hlike =>
    refine ⟨?_, ?_⟩
    · rw [Option.map_some, Option.map_some, hlike.1]
    · rw [Option.map_some, Option.map_some, Option.map_some, hlike.2.relocate_eq ha hb]

/-- The parts of settings that have paths come to the same in two folders, but for the folder. -/
structure PartsAlike (t u : FileTree) (a b : List Step) (source source' : Source)
    (values values' : PlaceholderValues) (manifest manifest' : Option (Manifest × Path))
    (file file' : SettingsFile) : Prop where
  main : Parallel (fun e e' => e' = e.mapPath (Path.relocate (fromRoot a) (fromRoot b)))
    (prepareMain t source.input values file) (prepareMain u source'.input values' file')
  entryPoints : Parallel
    (fun es es' => es' = es.map (EntryPoint.mapPath (Path.relocate (fromRoot a) (fromRoot b))))
    (file.additionalEntryPoints.foldlM (prepareEntryPoint t source.input values) [])
    (file'.additionalEntryPoints.foldlM (prepareEntryPoint u source'.input values') [])
  tsconfig : ∀ compiler, file.compiler = some compiler →
    Parallel (Option.Rel (Moved a b)) (prepareTsconfig t values compiler)
      (prepareTsconfig u values' (compiler.mapPaths (moveText (fromRoot a) (fromRoot b))))
  reports : ∀ section_, file.apiReport = some section_ →
    Parallel (fun r r' => r' = r.mapPaths (Path.relocate (fromRoot a) (fromRoot b)))
      (prepareReports values section_)
      (prepareReports values' (section_.mapPaths (moveText (fromRoot a) (fromRoot b))))
  model : Parallel (Option.Rel (Moved a b))
    (prepareModelPath values (file.docModel.getD .blank))
    (prepareModelPath values' (file'.docModel.getD .blank))
  metadata : Parallel (Option.Rel (Moved a b))
    (prepareMetadataPath values manifest (file.tsdocMetadata.getD .blank))
    (prepareMetadataPath values' manifest' (file'.tsdocMetadata.getD .blank))
  untrimmed : Parallel (Option.Rel (Moved a b))
    (preparePath values "untrimmedFilePath" (file.dtsRollup.getD .blank).untrimmedFilePath)
    (preparePath values' "untrimmedFilePath" (file'.dtsRollup.getD .blank).untrimmedFilePath)
  alpha : Parallel (Option.Rel (Moved a b))
    (preparePath values "alphaTrimmedFilePath" (file.dtsRollup.getD .blank).alphaTrimmedFilePath)
    (preparePath values' "alphaTrimmedFilePath"
      (file'.dtsRollup.getD .blank).alphaTrimmedFilePath)
  beta : Parallel (Option.Rel (Moved a b))
    (preparePath values "betaTrimmedFilePath" (file.dtsRollup.getD .blank).betaTrimmedFilePath)
    (preparePath values' "betaTrimmedFilePath" (file'.dtsRollup.getD .blank).betaTrimmedFilePath)
  published : Parallel (Option.Rel (Moved a b))
    (preparePath values "publicTrimmedFilePath"
      (file.dtsRollup.getD .blank).publicTrimmedFilePath)
    (preparePath values' "publicTrimmedFilePath"
      (file'.dtsRollup.getD .blank).publicTrimmedFilePath)

variable (ha : Bare a) (hb : Bare b) (h : Copies t u (fromRoot a) (fromRoot b))
  (hroot : (fromRoot a).isDeclarationFile = (fromRoot b).isDeclarationFile)

include ha hb h hroot

/-- Path settings that move with a project give parts that do. -/
theorem partsAlike {file : SettingsFile} {folder folder' : Path}
    {manifest manifest' : Option (Manifest × Path)} (hfolder : Moved a b folder folder')
    (hmanifest : Option.Rel (LikeManifests a b) manifest manifest')
    (hstays : ∀ m ∈ manifest, ManifestStays (fromRoot a) m.2 m.1)
    (hmoves : FileMovesAlong a b (valuesOf folder manifest) file) :
    PartsAlike t u a b source source' (valuesOf folder manifest) (valuesOf folder' manifest')
      manifest manifest' file (file.mapPaths (moveText (fromRoot a) (fromRoot b))) := by
  have hv : (valuesOf folder manifest).Solid := solid_valuesOf fun m hmem => (hstays m hmem).name
  have hproject : Moved a b (valuesOf folder manifest).projectFolder folder' := by
    rwa [valuesOf_projectFolder]
  have hpath : ∀ {value : Option String}, MovesAlong a b (valuesOf folder manifest) value →
      ∀ field, Parallel (Option.Rel (Moved a b))
        (preparePath (valuesOf folder manifest) field value)
        (preparePath { valuesOf folder manifest with projectFolder := folder' } field
          (value.map (moveText (fromRoot a) (fromRoot b)))) := fun hvalue field =>
    hvalue.parallel_preparePath ha hb hproject hv field
  obtain ⟨huntrimmed, halpha, hbeta, hpublished⟩ := hmoves.dtsRollup
  rw [valuesOf_moved folder folder' hmanifest]
  refine {
    main := parallel_prepareMain source source' ha hb hproject hv h hroot (hmoves.settings .main)
    entryPoints := parallel_prepareEntryPoints source source' ha hb hproject hv h hroot
      hmoves.entryPoints
    tsconfig := fun compiler hc => parallel_prepareTsconfig ha hb hproject hv h
      (hmoves.compiler hc)
    reports := fun section_ hr => parallel_prepareReports ha hb hproject hv
      (hmoves.apiReport hr).1 (hmoves.apiReport hr).2
    model := ?_
    metadata := ?_
    untrimmed := ?_
    alpha := ?_
    beta := ?_
    published := ?_ }
  · rw [getD_docModel]
    exact parallel_prepareModelPath ha hb hproject hv hmoves.docModel
  · rw [getD_tsdocMetadata]
    exact parallel_prepareMetadataPath ha hb hproject hv hmanifest hstays hmoves.tsdocMetadata
  · exact getD_dtsRollup _ file ▸ hpath huntrimmed _
  · exact getD_dtsRollup _ file ▸ hpath halpha _
  · exact getD_dtsRollup _ file ▸ hpath hbeta _
  · exact getD_dtsRollup _ file ▸ hpath hpublished _

/-- Settings are prepared alike in two folders. -/
theorem parallel_prepare (hs : MovedSource a b source source')
    (hinside : PreparesInside t (fromRoot a) source) {file : SettingsFile}
    (hread : SettingsFile.codec.read source.document = .ok file)
    (hfile : prepareFile source.input = .ok file)
    (hfile' : prepareFile source'.input =
      .ok (file.mapPaths (moveText (fromRoot a) (fromRoot b)))) :
    Parallel (fun s s' => s' = s.mapPaths (Path.relocate (fromRoot a) (fromRoot b)))
      (prepare t source.input) (prepare u source'.input) := by
  have hfiles : Parallel (fun f f' => f = file ∧
      f' = file.mapPaths (moveText (fromRoot a) (fromRoot b))) (prepareFile source.input)
        (prepareFile source'.input) := by
    rw [hfile, hfile']
    exact .ok ⟨rfl, rfl⟩
  have hmanifests := parallel_prepareManifest ha.allNames hb.allNames h hs
  have hfolders := parallel_prepareProjectFolder ha.allNames hb.allNames h ha hb hs hread
  unfold prepare
  refine hfiles.bind fun f f' _ _ hf => ?_
  obtain ⟨rfl, rfl⟩ := hf
  refine (hmanifests.mapError _ _).bind fun manifest manifest' hm _ hmanifest => ?_
  have hm := mapError_eq_ok hm
  refine Parallel.bind (r := fun c c' => f.compiler = some c ∧
    c' = c.mapPaths (moveText (fromRoot a) (fromRoot b))) ?_ fun compiler compiler' _ _ hc => ?_
  · rw [SettingsFile.mapPaths]
    cases hc : f.compiler with
    | none => exact .error _ _
    | some compiler => exact .ok ⟨rfl, rfl⟩
  obtain ⟨hcompiler, rfl⟩ := hc
  refine (hfolders.mapError _ _).bind fun folder folder' hf _ hfolder => ?_
  have hf := mapError_eq_ok hf
  have hparts : PartsAlike t u a b source source' (valuesOf folder manifest)
      (valuesOf folder' manifest') manifest manifest' f
      (f.mapPaths (moveText (fromRoot a) (fromRoot b))) :=
    partsAlike ha hb h hroot hfolder hmanifest
      (fun m hmem => hinside.manifest m.1 m.2 (hm.trans (congrArg Except.ok hmem)))
      (fileMovesAlong ha.allNames hb.allNames hs hinside hread hm hf)
  extract_lets values model metadata rollup values' model' metadata' rollup'
  refine (hparts.main.mapError _ _).bind fun main main' _ _ hmain => ?_
  refine (hparts.entryPoints.mapError _ _).bind fun entries entries' _ _ hentries => ?_
  refine Parallel.bind ((Parallel.refl _).mapError _ _) fun _ _ _ _ _ => ?_
  refine ((hparts.tsconfig compiler hcompiler).mapError _ _).bind
    fun tsconfig tsconfig' _ _ htsconfig => ?_
  extract_lets withReports withReports'
  have hrest : ∀ reports, Parallel
      (fun s s' => s' = s.mapPaths (Path.relocate (fromRoot a) (fromRoot b)))
      (withReports reports)
      (withReports' (reports.mapPaths (Path.relocate (fromRoot a) (fromRoot b)))) := by
    intro reports
    refine (hparts.model.mapError _ _).bind fun modelPath modelPath' _ _ hmodel => ?_
    have htrimmed : Parallel Eq (prepareTrimmedTags model.releaseTagsToTrim)
        (prepareTrimmedTags model'.releaseTagsToTrim) := by
      rw [show model' = model.mapPaths (moveText (fromRoot a) (fromRoot b)) from getD_docModel _ f]
      exact .refl _
    refine (htrimmed.mapError _ _).bind fun tags tags' _ _ htags => ?_
    refine (hparts.metadata.mapError _ _).bind fun metadataPath metadataPath' _ _ hmetadata => ?_
    have hempty : entries'.isEmpty = entries.isEmpty := by
      rw [hentries, List.isEmpty_map]
    have henabled : rollup'.enabled = rollup.enabled := by
      rw [show rollup' = rollup.mapPaths (moveText (fromRoot a) (fromRoot b)) from
        getD_dtsRollup _ f]
      rfl
    refine Parallel.guard (by rw [hempty, henabled]) fun _ => ?_
    refine (hparts.untrimmed.mapError _ _).bind fun untrimmed untrimmed' _ _ huntrimmed => ?_
    refine (hparts.alpha.mapError _ _).bind fun alpha alpha' _ _ halpha => ?_
    refine (hparts.beta.mapError _ _).bind fun beta beta' _ _ hbeta => ?_
    refine (hparts.published.mapError _ _).bind fun published published' _ _ hpublished => ?_
    extract_lets withComments afterMessages withComments' afterMessages'
    have hlast : Parallel
        (fun s s' => s' = s.mapPaths (Path.relocate (fromRoot a) (fromRoot b)))
        (afterMessages ()) (afterMessages' ()) := by
      refine Parallel.bind (DocCommentConfig.parallel_loadForFolder ha.allNames hb.allNames h
        hfolder (hinside.docComments f folder hread hf)) fun config config' _ _ hconfig => .ok ?_
      obtain ⟨hm₁, hm₂⟩ := map_likeManifests ha.allNames hb.allNames hmanifest
      rw [hmain, hentries, hconfig, htags, hm₁, hm₂,
        hs.documentPath_eq ha.allNames hb.allNames, Settings.mapPaths,
        ← eq_map_relocate ha.allNames hb.allNames htsconfig,
        ← eq_map_relocate ha.allNames hb.allNames hmodel,
        ← eq_map_relocate ha.allNames hb.allNames hmetadata,
        ← eq_map_relocate ha.allNames hb.allNames huntrimmed,
        ← eq_map_relocate ha.allNames hb.allNames halpha,
        ← eq_map_relocate ha.allNames hb.allNames hbeta,
        ← eq_map_relocate ha.allNames hb.allNames hpublished,
        hfolder.relocate_eq ha.allNames hb.allNames]
      simp only [getD_docModel, getD_tsdocMetadata, getD_dtsRollup, SettingsFile.mapPaths,
        SettingsFile.Compiler.mapPaths, Reports.mapPaths, model, model',
        SettingsFile.DocModel.mapPaths, metadata, metadata', SettingsFile.Metadata.mapPaths,
        rollup, rollup', SettingsFile.Rollup.mapPaths]
    have hmessages : (f.mapPaths (moveText (fromRoot a) (fromRoot b))).messages.problem? =
        f.messages.problem? := rfl
    rw [hmessages]
    cases f.messages.problem? with
    | some problem => exact .error _ _
    | none => exact hlast
  have hreport : (f.mapPaths (moveText (fromRoot a) (fromRoot b))).apiReport =
      f.apiReport.map (·.mapPaths (moveText (fromRoot a) (fromRoot b))) := rfl
  rw [hreport]
  cases hr : f.apiReport with
  | none =>
    have hnone : Reports.none folder' =
        (Reports.none folder).mapPaths (Path.relocate (fromRoot a) (fromRoot b)) := by
      rw [Reports.none, Reports.none, Reports.mapPaths,
        hfolder.relocate_eq ha.allNames hb.allNames]
    have hreports : Parallel
        (fun r r' => r' = r.mapPaths (Path.relocate (fromRoot a) (fromRoot b)))
        (.ok (Reports.none folder) : Except SettingsError Reports)
        (.ok (Reports.none folder') : Except SettingsError Reports) := .ok hnone
    refine hreports.bind fun reports reports' _ _ he => ?_
    exact he ▸ hrest reports
  | some section_ =>
    refine ((hparts.reports section_ hr).mapError _ _).bind fun reports reports' _ _ he => ?_
    exact he ▸ hrest reports

end Prepare

/-! ## A project in two folders -/

/-- What the settings in a file refer to stays in its project: the documents that loading comes to
refer to documents and paths in it, and so do the settings that are prepared from them. -/
structure StaysInProject (t : FileTree) (root path : Path) : Prop where
  documents : StaysTogether t root path
  settings : ∀ document, load t path = .ok document →
    PreparesInside t root (sourceOf t path document)

section Projects

variable {t u : FileTree} {a b : List Step} {path path' : Path}

theorem loadAndPrepare_eq_bind {t : FileTree} {path : Path} (hpath : path.IsNormal) :
    loadAndPrepare t path =
      (load t path >>= fun document => prepare t (sourceOf t path document).input) := by
  unfold loadAndPrepare
  rw [t.absolute_eq_self hpath]
  rfl

/-- A loaded document is a settings file whose reference is resolved. -/
theorem prepareFile_of_load {t : FileTree} {path : Path} {document : Json} {file : SettingsFile}
    (hload : load t path = .ok document) (hread : SettingsFile.codec.read document = .ok file)
    {source : Source} (hdocument : source.document = document)
    (hpath : source.path.isAbsolute = true) : prepareFile source.input = .ok file := by
  obtain ⟨hisDocument, -, -⟩ := valid_load hload
  have hextends : document.get? "extends" = none := by
    obtain ⟨members, rfl⟩ := Json.exists_members hisDocument.isObject
    rw [← extends_load hload, Json.at?_singleton_object]
    rfl
  have hrooted : ¬ source.input.documentPath.map Path.isAbsolute = some false := by
    rw [Source.input, Option.map_some, hpath]
    decide
  subst hdocument
  exact (prepareFile_eq source.input hextends hisDocument.isObject hread).trans (if_neg hrooted)

/-- A settings file that is loaded is not the folder of its project. -/
theorem ne_of_load {t : FileTree} (ha : AllNames a) (hsite : Site t (fromRoot a))
    {document : Json} (hpath : path.IsNormal) (hload : load t path = .ok document) :
    path ≠ fromRoot a := by
  obtain ⟨chain, hchain, -⟩ := eq_stack_of_load hload
  rw [t.absolute_eq_self hpath] at hchain
  obtain ⟨members, hread⟩ : ∃ members, readDocument t path = .ok members := by
    cases hchain with
    | last read ends => exact ⟨_, read⟩
    | link read refers chain => exact ⟨_, read⟩
  obtain ⟨s, hs, -⟩ := bind_eq_ok hread
  have hsteps := hsite.steps_ne_of_isFile ha hpath.isPlain.absolute
    (FileTree.isFile_of_readText (mapError_eq_ok hs))
  rintro rfl
  exact hsteps (Path.steps_fromRoot ha)

/-- The settings of a project are loaded and prepared alike in two folders. -/
theorem parallel_loadAndPrepare (ha : AllNames a) (hb : AllNames b)
    (h : Copies t u (fromRoot a) (fromRoot b))
    (hroot : (fromRoot a).isDeclarationFile = (fromRoot b).isDeclarationFile)
    (hpath : Moved a b path path') (hinside : StaysInProject t (fromRoot a) path)
    (hfits : NamesFit t path) (hfits' : NamesFit u path') :
    Parallel (fun s s' => s' = s.mapPaths (Path.relocate (fromRoot a) (fromRoot b)))
      (loadAndPrepare t path) (loadAndPrepare u path') := by
  obtain ⟨hnormal, hnormal'⟩ := hpath.isNormal ha hb
  rw [loadAndPrepare_eq_bind hnormal, loadAndPrepare_eq_bind hnormal']
  refine (parallel_load ha hb h hinside.documents hfits hfits' hpath).bind
    fun document document' hload hload' hdocument => ?_
  obtain ⟨file, hread⟩ := exists_read_of_violations (valid_load hload).2.2
  have hread' : SettingsFile.codec.read document' =
      .ok (file.mapPaths (moveText (fromRoot a) (fromRoot b))) := by
    refine eq_ok_of_toOption ?_
    rw [hdocument.read_eq ha hb, hread]
    rfl
  have hne := ne_of_load ha h.source hnormal hload
  obtain ⟨f, f', hf, hp, hq⟩ := hpath.parents ha hb hne
  have hsource : MovedSource a b (sourceOf t path document) (sourceOf u path' document') := by
    refine ⟨hdocument, anchored_load hload, hpath, hne, ?_⟩
    have hmanifest := rel_findFrom ha hb h hf
    rw [sourceOf, sourceOf, Path.parent?, Path.parent?, hp, hq]
    exact hmanifest
  exact parallel_prepare (h.source.bare ha) (h.target.bare hb) h hroot hsource
    (hinside.settings document hload) hread
    (prepareFile_of_load hload hread rfl hnormal.isPlain.absolute)
    (prepareFile_of_load hload' hread' rfl hnormal'.isPlain.absolute)

end Projects

/-! ## The settings of a project are relocated -/

/-- A project that stands in two folders, with a settings file that refers to nothing outside the
project. What it refers to by name can be looked up in both folders. -/
structure Relocates (t u : FileTree) (here there file : Path) : Prop where
  copies : Copies t u here there
  relative : file.isAbsolute = false
  below : StaysBelow here (here.join file)
  inside : StaysInProject t here (here.resolve file)
  fits : NamesFit t (here.resolve file)
  fits' : NamesFit u (there.resolve file)

theorem loadAndPrepare_join {t : FileTree} {names : List Step} {file : Path}
    (hrelative : file.isAbsolute = false) (hnormal : ((fromRoot names).resolve file).IsNormal) :
    loadAndPrepare t ((fromRoot names).join file) =
      loadAndPrepare t ((fromRoot names).resolve file) := by
  have hjoin : t.absolute ((fromRoot names).join file) = (fromRoot names).resolve file := by
    rw [FileTree.absolute, if_pos (Path.isAbsolute_join (Path.isAbsolute_fromRoot names)),
      Path.resolve_of_relative hrelative]
  rw [loadAndPrepare, loadAndPrepare, hjoin, t.absolute_eq_self hnormal]

/-- Settings are the same in two folders but for the folder in all their paths, or are prepared in
neither. -/
theorem toOption_loadAndPrepare_relocated {t u : FileTree} {here there file : Path}
    (h : Relocates t u here there file) (hroot : here.isDeclarationFile = there.isDeclarationFile) :
    (loadAndPrepare u (there.join file)).toOption =
      (loadAndPrepare t (here.join file)).toOption.map (mapPaths (Path.relocate here there)) := by
  obtain ⟨a, ha, rfl⟩ := h.copies.source.normal
  obtain ⟨b, hb, rfl⟩ := h.copies.target.normal
  have hmoved := ((Path.moved_folder a b).twin ha hb).resolve ha hb h.relative h.below
  obtain ⟨hnormal, hnormal'⟩ := hmoved.isNormal ha hb
  rw [loadAndPrepare_join h.relative hnormal, loadAndPrepare_join h.relative hnormal']
  exact (parallel_loadAndPrepare ha hb h.copies hroot hmoved h.inside h.fits h.fits').toOption_eq

/-! ## Projects checked document by document -/

/-- What is prepared from a loaded document stays in its project, and its doc comment settings are
in a listed file. -/
def PreparesListed (t : FileTree) (root : Path) (files : List Path) (source : Source) : Prop :=
  (∀ manifest ∈ (prepareManifest t source.input).toOption, ∀ m ∈ manifest,
    ManifestStays root m.2 m.1) ∧
  ∀ file ∈ (SettingsFile.codec.read source.document).toOption,
    ∀ folder ∈ (prepareProjectFolder t source.input file).toOption,
      folder.join DocCommentConfig.fileName ∈ files ∧
      ∀ manifest ∈ (prepareManifest t source.input).toOption, ∀ s ∈ pathsOf file,
        (Path.mk s).isAbsolute = false → (valuesOf folder manifest).StaysInside root s

instance (t : FileTree) (root : Path) (files : List Path) (source : Source) :
    Decidable (PreparesListed t root files source) :=
  inferInstanceAs (Decidable
    ((∀ _ ∈ _, ∀ _ ∈ _, _) ∧ ∀ _ ∈ _, ∀ _ ∈ _, _ ∧ ∀ _ ∈ _, ∀ _ ∈ _, _ → _))

/-- The settings of a project refer to nothing outside, if its documents and its files of doc
comment settings refer to listed ones only. -/
theorem StaysInProject.of_documents {t : FileTree} {root path : Path} {documents : List Path}
    (files : List Path) (hpath : path ∈ documents)
    (hdocuments : ∀ p ∈ documents, ∀ members ∈ (readDocument t p).toOption,
      DocumentStays t root documents p members)
    (hfiles : ∀ p ∈ files, ∀ file ∈ (DocCommentConfig.readFile t p).toOption,
      ∀ reference ∈ file.extending, DocCommentConfig.target p reference ∈ files ∧
        (DocCommentConfig.isRelativeReference reference = true →
          StaysBelow root ((p.parent?.getD ⟨"."⟩).join ⟨reference⟩)))
    (hprepares : ∀ document ∈ (load t path).toOption,
      PreparesListed t root files (sourceOf t path document)) : StaysInProject t root path where
  documents := .of_documents hpath hdocuments
  settings := by
    intro document hload
    obtain ⟨hmanifests, hpaths⟩ := hprepares document (mem_toOption.mpr hload)
    refine ⟨fun m folder hm => ?_, fun file manifest folder hread hmanifest hfolder => ?_,
      fun file folder hread hfolder => ?_⟩
    · exact hmanifests _ (mem_toOption.mpr hm) _ rfl
    · exact (hpaths file (mem_toOption.mpr hread) folder (mem_toOption.mpr hfolder)).2 _
        (mem_toOption.mpr hmanifest)
    · exact .of_files (hpaths file (mem_toOption.mpr hread) folder (mem_toOption.mpr hfolder)).1
        hfiles

/-! ## A project that is its own entry point -/

/-- A project with its main entry point where it stands. Its settings refer to further ones, by
path and by name, and it has a manifest and doc comment settings. -/
def rootedProject : List (Place × Entry) :=
  [(["api-surface.json".toList], .file (.text ("\x7b\"extends\":\"./config/base.json\"," ++
      "\"compiler\":\x7b\"overrideTsconfig\":\x7b\x7d\x7d\x7d"))),
    (["config".toList], .folder),
    (["config".toList, "base.json".toList], .file (.text
      "\x7b\"extends\":\"shared\",\"projectFolder\":\"..\",\"mainEntryPointFilePath\":\"..\"\x7d")),
    (["config".toList, "tags.json".toList], .file (.text "\x7b\x7d")),
    (["node_modules".toList], .folder),
    (["node_modules".toList, "shared.json".toList], .file (.text "\x7b\"testMode\":true\x7d")),
    (["package.json".toList], .file (.text "\x7b\"name\":\"p\",\"main\":\"lib/index.js\"\x7d")),
    (["tsdoc.json".toList], .file (.text "\x7b\"extends\":[\"./config/tags.json\"]\x7d"))]

/-- The folders in which `rootedProject` stands, by their names. -/
def rootedNames : List String := ["x.d.ts", "y.d.ts", "z"]

/-- The documents of the settings of `rootedProject` in a folder. -/
def rootedDocuments (root : Path) : List Path :=
  ["api-surface.json", "config/base.json", "node_modules/shared.json"].map (root.join ⟨·⟩)

theorem site_rootedProject : ∀ name ∈ rootedNames,
    Site (.ofProject name rootedProject) (fromRoot [.name name.toList]) := by
  have hnames : ∀ name ∈ rootedNames, (Step.name name.toList).IsName := by decide
  intro name hm
  refine .of_entries (List.forall_mem_singleton.mpr (hnames name hm)) ?_ ?_ ?_ ?_
  all_goals
    revert name
    decide +kernel

theorem documentStays_rootedProject : ∀ name ∈ rootedNames,
    ∀ p ∈ rootedDocuments (fromRoot [.name name.toList]),
      ∀ members ∈ (readDocument (.ofProject name rootedProject) p).toOption,
        DocumentStays (.ofProject name rootedProject) (fromRoot [.name name.toList])
          (rootedDocuments (fromRoot [.name name.toList])) p members := by
  decide +kernel

/-- `rootedProject` is moved from one folder to another. -/
theorem relocates_rootedProject {name : String} (hm : name ∈ rootedNames) :
    Relocates (.ofProject "x.d.ts" rootedProject) (.ofProject name rootedProject)
      (fromRoot [.name "x.d.ts".toList]) (fromRoot [.name name.toList]) ⟨"api-surface.json"⟩ := by
  have hnames : ∀ name ∈ rootedNames, (Step.name name.toList).IsName := by decide
  have hpaths : ∀ name ∈ rootedNames, (fromRoot [.name name.toList]).resolve ⟨"api-surface.json"⟩ ∈
      rootedDocuments (fromRoot [.name name.toList]) := by decide +kernel
  have hhere : "x.d.ts" ∈ rootedNames := by decide
  exact {
    copies := .ofProject (List.forall_mem_singleton.mpr (hnames _ hhere))
      (List.forall_mem_singleton.mpr (hnames name hm)) (site_rootedProject _ hhere)
      (site_rootedProject name hm)
    relative := by decide
    below := by decide +kernel
    inside := .of_documents [⟨"/x.d.ts/tsdoc.json"⟩, ⟨"/x.d.ts/config/tags.json"⟩]
      (hpaths _ hhere) (documentStays_rootedProject _ hhere) (by decide +kernel)
      (by decide +kernel)
    fits := .of_documents (hpaths _ hhere) (documentStays_rootedProject _ hhere)
    fits' := .of_documents (hpaths name hm) (documentStays_rootedProject name hm) }

theorem exists_loadAndPrepare_rootedProject :
    ∃ s, loadAndPrepare (.ofProject "x.d.ts" rootedProject) ⟨"/x.d.ts/api-surface.json"⟩ = .ok s ∧
      s.mainEntryPoint.filePath = ⟨"/x.d.ts"⟩ :=
  exists_ok_of_map (by decide +kernel)

/-- Two folders with names of declaration files have the same settings, but for the folder. -/
theorem loadAndPrepare_rootedProject :
    ∃ s, loadAndPrepare (.ofProject "x.d.ts" rootedProject) ⟨"/x.d.ts/api-surface.json"⟩ = .ok s ∧
      loadAndPrepare (.ofProject "y.d.ts" rootedProject) ⟨"/y.d.ts/api-surface.json"⟩ =
        .ok (s.mapPaths (Path.relocate ⟨"/x.d.ts"⟩ ⟨"/y.d.ts"⟩)) := by
  obtain ⟨s, hs, -⟩ := exists_loadAndPrepare_rootedProject
  have hmoved := toOption_loadAndPrepare_relocated
    (relocates_rootedProject (show "y.d.ts" ∈ rootedNames by decide)) (by decide +kernel)
  have hhere : (fromRoot [.name "x.d.ts".toList]).join ⟨"api-surface.json"⟩ =
    ⟨"/x.d.ts/api-surface.json"⟩ := by decide +kernel
  rw [hhere, hs] at hmoved
  exact ⟨s, hs, eq_ok_of_toOption hmoved⟩

/-- A folder without the name of a declaration file has no settings where another one has some. -/
theorem not_toOption_loadAndPrepare_relocated :
    ¬ ∀ (t u : FileTree) (here there file : Path), Relocates t u here there file →
      (loadAndPrepare u (there.join file)).toOption =
        (loadAndPrepare t (here.join file)).toOption.map (mapPaths (Path.relocate here there)) := by
  intro h
  obtain ⟨s, hs, -⟩ := exists_loadAndPrepare_rootedProject
  have hmoved := h _ _ _ _ _ (relocates_rootedProject (show "z" ∈ rootedNames by decide))
  have hhere : (fromRoot [.name "x.d.ts".toList]).join ⟨"api-surface.json"⟩ =
    ⟨"/x.d.ts/api-surface.json"⟩ := by decide +kernel
  have hnone : (loadAndPrepare (.ofProject "z" rootedProject)
    ((fromRoot [.name "z".toList]).join ⟨"api-surface.json"⟩)).toOption = none := by decide +kernel
  rw [hnone, hhere, hs] at hmoved
  cases hmoved

end ApiReview.Settings
