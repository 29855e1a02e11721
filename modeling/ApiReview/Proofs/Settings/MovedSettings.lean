import ApiReview.Proofs.DocComment.Moved
import ApiReview.Proofs.Settings.MovedDocuments
import ApiReview.Proofs.Settings.Transparent

/-!
# Preparing the settings of a moved project

The settings of a project are prepared alike in two folders: each part of them is the same, but for
paths that move with the project (`Settings.mapPaths`), or neither is prepared. The searches for the
manifest and for the project folder end alike, as there is nothing to find above the folders.
-/

namespace ApiReview

open ApiReview.Path (AllNames Step Twin Moved StaysBelow fromRoot)
open Text

/-! ## Settings with their paths changed -/

/-- An entry point with the path of its file changed. -/
def EntryPoint.mapPath (m : Path → Path) (e : EntryPoint) : EntryPoint :=
  { e with filePath := m e.filePath }

namespace Settings

/-- Settings of the reports with their folders changed. -/
def Reports.mapPaths (m : Path → Path) (reports : Reports) : Reports :=
  { reports with
    folder := m reports.folder
    tempFolder := m reports.tempFolder }

/-- Settings with all their paths changed. -/
def mapPaths (m : Path → Path) (s : Settings) : Settings :=
  { s with
    sourcePath := s.sourcePath.map m
    projectFolder := m s.projectFolder
    packageFolder := s.packageFolder.map m
    mainEntryPoint := s.mainEntryPoint.mapPath m
    additionalEntryPoints := s.additionalEntryPoints.map (EntryPoint.mapPath m)
    tsconfigPath := s.tsconfigPath.map m
    reportFolder := m s.reportFolder
    reportTempFolder := m s.reportTempFolder
    modelPath := s.modelPath.map m
    untrimmedPath := s.untrimmedPath.map m
    alphaTrimmedPath := s.alphaTrimmedPath.map m
    betaTrimmedPath := s.betaTrimmedPath.map m
    publicTrimmedPath := s.publicTrimmedPath.map m
    metadataPath := s.metadataPath.map m
    docComments := s.docComments.mapPath m }

theorem eq_map_relocate {a b : List Step} (ha : AllNames a) (hb : AllNames b) {x y : Option Path}
    (h : Option.Rel (Moved a b) x y) : y = x.map (Path.relocate (fromRoot a) (fromRoot b)) := by
  cases h with
  | none => rfl
  | some h => rw [Option.map_some, h.relocate_eq ha hb]

/-! ## Manifests -/

/-- A manifest has the name of a package, and the files that it names stand below the root of its
project. -/
@[mk_iff]
structure ManifestStays (root folder : Path) (m : Manifest) : Prop where
  name : PackageName.problem? m.name = none
  files : ∀ s, some s ∈ [m.main, m.typings, m.types, m.tsdocMetadata] → s ≠ "" →
    (Path.mk s).isAbsolute = false ∧ StaysBelow root (folder.join ⟨s⟩) ∧ folder.resolve ⟨s⟩ ≠ root

instance (root folder : Path) (m : Manifest) : Decidable (ManifestStays root folder m) :=
  decidable_of_iff (_ ∧ ∀ x ∈ [m.main, m.typings, m.types, m.tsdocMetadata], ∀ s ∈ x, s ≠ "" →
      (Path.mk s).isAbsolute = false ∧ StaysBelow root (folder.join ⟨s⟩) ∧ folder.resolve ⟨s⟩ ≠ root)
    ((and_congr_right fun _ => by
      constructor
      · exact fun h s hs => h (some s) hs s rfl
      · rintro h _ hx s rfl
        exact h s hx).trans (manifestStays_iff root folder m).symm)

section Manifests

variable {t u : FileTree} {a b names : List Step} {p q : Path}

/-- A found manifest has the extension that it has to have. -/
theorem extension?_manifest (hn : AllNames names) :
    ((fromRoot names).join Manifest.fileName).extension? = some "json" := by
  have hname : step Manifest.fileName = .name Manifest.fileName.text.toList := rfl
  have hne : (names ++ [step Manifest.fileName]).map Step.chars ≠ [] := by simp
  rw [join_manifest hn, Path.extension?, Path.lastPiece?, Path.toList_fromRoot, Path.split_slash,
    splitOn_joinWith hne (hn.concat isName_manifest).not_mem_slash, List.map_append,
    List.reverse_append]
  rfl

/-- The metadata file may stand next to a file that the manifest names. -/
theorem mem_files_of_beside {m : Manifest} {s : String}
    (h : m.typingsPath.or (m.main.filter (· ≠ "")) = some s) :
    some s ∈ [m.main, m.typings, m.types, m.tsdocMetadata] ∧ s ≠ "" := by
  have hfilled : ∀ {x : Option String}, x.filter (· ≠ "") = some s → x = some s ∧ s ≠ "" :=
    fun hx => (Option.filter_eq_some_iff.mp hx).imp_right of_decide_eq_true
  rcases Option.or_eq_some_iff.mp h with h | ⟨-, h⟩
  · obtain ⟨h, hne⟩ := hfilled h
    rcases Option.or_eq_some_iff.mp h with h | ⟨-, h⟩
    · exact ⟨by simp [h], hne⟩
    · exact ⟨by simp [h], hne⟩
  · obtain ⟨h, hne⟩ := hfilled h
    exact ⟨by simp [h], hne⟩

variable (ha : AllNames a) (hb : AllNames b) (h : Copies t u (fromRoot a) (fromRoot b))

include ha hb

theorem moved_metadataPath {m : Manifest} (hf : Moved a b p q)
    (hm : ManifestStays (fromRoot a) p m) : Moved a b (m.metadataPath p) (m.metadataPath q) := by
  have hfile : ∀ s, some s ∈ [m.main, m.typings, m.types, m.tsdocMetadata] → s ≠ "" →
      Moved a b (p.resolve ⟨s⟩) (q.resolve ⟨s⟩) := fun s hs hne =>
    (hf.twin ha hb).resolve ha hb (hm.files s hs hne).1 (hm.files s hs hne).2.1
  have hname : (Step.name Manifest.metadataFileName.text.toList).IsName := ⟨by decide, by decide⟩
  rw [Manifest.metadataPath, Manifest.metadataPath]
  split
  · rename_i s hs
    obtain ⟨hs, hne⟩ := Option.filter_eq_some_iff.mp hs
    exact hfile s (by simp [hs]) (of_decide_eq_true hne)
  · refine Moved.join_name ha hb ?_ hname
    cases hbeside : m.typingsPath.or (m.main.filter (· ≠ "")) with
    | none => exact hf
    | some s =>
      obtain ⟨hs, hne⟩ := mem_files_of_beside hbeside
      obtain ⟨f, f', hmoved, hp, hq⟩ := (hfile s hs hne).parents ha hb (hm.files s hs hne).2.2
      show Moved a b (Manifest.folderOf p s) (Manifest.folderOf q s)
      rw [Manifest.folderOf, Manifest.folderOf, Path.parent?, Path.parent?, hp, hq]
      exact hmoved

include h

/-- A manifest is read alike in two folders. -/
theorem parallel_loadManifest (hpq : Moved a b p q) :
    Parallel Eq (Manifest.load t p) (Manifest.load u q) := by
  have htext : Parallel Eq (t.readText p) (u.readText q) :=
    .of_toOption_eq (FileTree.readText_congr (h.find_moved ha hb hpq))
  refine (htext.mapError _ _).bind fun s s' _ _ he => ?_
  subst he
  exact (Parallel.of_toOption_eq rfl).mapError _ _

end Manifests

/-! ## Where settings come from -/

/-- The files of manifests in folders that are moved into each other. -/
def MovedManifest (a b : List Step) (m m' : Path) : Prop :=
  ∃ folder folder', Moved a b folder folder' ∧ m = folder.join Manifest.fileName ∧
    m' = folder'.join Manifest.fileName

/-- Where the settings of a project come from in two folders. -/
structure MovedSource (a b : List Step) (source source' : Source) : Prop where
  document : MovedDocument a b source.document source'.document
  anchored : AnchoredDocument source.document
  path : Moved a b source.path source'.path
  path_ne : source.path ≠ fromRoot a
  manifestPath : Option.Rel (MovedManifest a b) source.manifestPath source'.manifestPath

/-- Manifests that were read alike in moved folders. -/
def LikeManifests (a b : List Step) (m m' : Manifest × Path) : Prop :=
  m'.1 = m.1 ∧ Moved a b m.2 m'.2

section Sources

variable {t u : FileTree} {a b : List Step} {source source' : Source} {p q : Path}

/-- A manifest that was found is read in its folder. -/
theorem prepareManifest_found {names : List Step} (hn : AllNames names) {input : PrepareInput}
    (hpath : input.manifestPath = some ((fromRoot names).join Manifest.fileName))
    (hnew : input.manifest = none) :
    prepareManifest t input =
      ((Manifest.load t ((fromRoot names).join Manifest.fileName)).mapError .manifest >>=
        fun manifest => .ok (some (manifest, fromRoot names))) := by
  have hextension : (((fromRoot names).join Manifest.fileName).extension?.map
      fun e => lowerAscii e.toList) = some "json".toList := by
    rw [extension?_manifest hn]
    rfl
  have habsolute : ((fromRoot names).join Manifest.fileName).isAbsolute = true :=
    Path.isAbsolute_join (Path.isAbsolute_fromRoot names)
  rw [prepareManifest, hpath]
  dsimp only
  rw [if_neg (not_not_intro hextension), habsolute, hnew, parent?_join_manifest hn]
  rfl

theorem findFrom_eq (t : FileTree) (p : Path) :
    Manifest.findFrom t p = (p.ancestors.find? fun f => t.isFile (f.join Manifest.fileName)).map
      (·.join Manifest.fileName) :=
  List.find?_map ..

/-- A path to the project folder that is not read from the folder of its document is told from the
root, or left out, or searched for, or refused. -/
theorem exists_refusal?_of_isAnchored {s : String} (hanchored : isAnchored s = true)
    (hrelative : (Path.mk s).isAbsolute = false) (hblank : ¬ isBlankText s = true)
    (hlookup : trimmed s ≠ Placeholder.lookup) (field : String) :
    ∃ e, Placeholder.refusal? field s = some e := by
  have hne : s ≠ "" := fun he => hblank (he ▸ rfl)
  have hstart : startsWith Placeholder.projectFolder s = true := by
    simpa [isAnchored, hrelative, hne, hlookup] using hanchored
  refine Option.ne_none_iff_exists'.mp fun hnone => ?_
  have hbracket := Placeholder.refusal?_eq_none_iff.mp hnone
  obtain ⟨rest, hrest⟩ := startsWith_iff.mp hstart
  rw [← hrest, Placeholder.hasBracket, List.any_append, Bool.or_eq_false_iff] at hbracket
  exact absurd hbracket.1 (by decide)

theorem trimmed_ne_lookup {p : Path} (hp : p.isAbsolute = true) :
    trimmed p.text ≠ Placeholder.lookup := by
  obtain ⟨rest, hrest⟩ := trimmed_of_isAbsolute hp
  intro he
  rw [he] at hrest
  exact absurd (List.cons_eq_cons.mp hrest).1 (by decide)

/-- A project folder that is told from the root has no angle bracket, and exists. -/
theorem toOption_prepareProjectFolder {input : PrepareInput} {file : SettingsFile} {p : Path}
    (hp : p.IsNormal) (hfile : file.projectFolder = some p.text) :
    (prepareProjectFolder t input file).toOption =
      if Placeholder.hasBracket p.text.toList || !t.exists? p then none else some p := by
  obtain ⟨tail, htail⟩ := Path.isAbsolute_iff.mp hp.isPlain.absolute
  have hblank : ¬ isBlankText p.text = true := by
    rw [isBlankText, htail]
    exact Bool.false_ne_true
  rw [prepareProjectFolder, hfile]
  dsimp only
  rw [if_neg hblank, if_neg (trimmed_ne_lookup hp.isPlain.absolute), t.absolute_eq_self hp]
  cases hbracket : Placeholder.hasBracket p.text.toList with
  | true =>
    obtain ⟨e, he⟩ := Option.ne_none_iff_exists'.mp fun hnone : Placeholder.refusal? "projectFolder"
      p.text = none => by simp [Placeholder.refusal?_eq_none_iff.mp hnone] at hbracket
    rw [he]
    rfl
  | false =>
    rw [Placeholder.refusal?_eq_none_iff.mpr hbracket]
    cases t.exists? p <;> rfl

variable (ha : AllNames a) (hb : AllNames b) (h : Copies t u (fromRoot a) (fromRoot b))

include ha hb h

theorem rel_findFrom (hpq : Moved a b p q) :
    Option.Rel (MovedManifest a b) (Manifest.findFrom t p) (Manifest.findFrom u q) := by
  have hfound := h.find?_holding ha hb hpq
    (by decide : Manifest.fileName.text ∈ projectMarkers) isName_manifest
  rw [findFrom_eq, findFrom_eq]
  generalize (p.ancestors.find? fun f => t.isFile (f.join Manifest.fileName)) = x at hfound ⊢
  generalize (q.ancestors.find? fun f => u.isFile (f.join Manifest.fileName)) = y at hfound ⊢
  cases hfound with
  | none => exact .none
  | some hf => exact .some ⟨_, _, hf, rfl, rfl⟩

theorem parallel_prepareManifest (hs : MovedSource a b source source') :
    Parallel (Option.Rel (LikeManifests a b)) (prepareManifest t source.input)
      (prepareManifest u source'.input) := by
  obtain ⟨document, path, manifestPath⟩ := source
  obtain ⟨document', path', manifestPath'⟩ := source'
  cases hs.manifestPath with
  | none => exact .ok .none
  | some hm =>
    obtain ⟨f, f', hf, rfl, rfl⟩ := hm
    have hload := parallel_loadManifest ha hb h (hf.join_name ha hb isName_manifest)
    obtain ⟨names, hn, rfl, rfl⟩ := hf
    rw [prepareManifest_found (Path.allNames_append ha hn) rfl rfl,
      prepareManifest_found (Path.allNames_append hb hn) rfl rfl]
    refine (hload.mapError _ _).bind fun m m' _ _ he => ?_
    exact .ok (.some ⟨he.symm, names, hn, rfl, rfl⟩)

/-- The project folder is found alike on the way up from two files. -/
theorem parallel_lookupProjectFolder (hs : MovedSource a b source source') :
    Parallel (Moved a b) (lookupProjectFolder t source.input)
      (lookupProjectFolder u source'.input) := by
  obtain ⟨f, f', hf, hp, hq⟩ := hs.path.parents ha hb hs.path_ne
  have hfound := h.find?_holding ha hb hf
    (by decide : tsconfigName.text ∈ projectMarkers) ⟨by decide, by decide⟩
  rw [← hp, ← hq] at hfound
  rw [lookupProjectFolder, lookupProjectFolder, Source.input, Source.input]
  dsimp only
  generalize (source.path.parents.find? fun f => t.isFile (f.join tsconfigName)) = x at hfound ⊢
  generalize (source'.path.parents.find? fun f => u.isFile (f.join tsconfigName)) = y at hfound ⊢
  cases hfound with
  | none => exact .error _ _
  | some hmoved => exact .ok hmoved

/-- The project folder is prepared alike in two folders. -/
theorem parallel_prepareProjectFolder (hbare : Bare a) (hbare' : Bare b)
    (hs : MovedSource a b source source') {file : SettingsFile}
    (hread : SettingsFile.codec.read source.document = .ok file) :
    Parallel (Moved a b) (prepareProjectFolder t source.input file)
      (prepareProjectFolder u source'.input
        (file.mapPaths (moveText (fromRoot a) (fromRoot b)))) := by
  cases hfolder : file.projectFolder with
  | none =>
    rw [prepareProjectFolder, prepareProjectFolder, SettingsFile.mapPaths, hfolder]
    exact .error _ _
  | some s =>
    have hget : PathSetting.get? .projectFolder file = some s := hfolder
    have hmoved := hs.document.movedPath ha hb hread (List.mem_append_left _
      (List.mem_filterMap.mpr ⟨.projectFolder, PathSetting.mem_all _, hget⟩))
    rcases hmoved with ⟨hrelative, hsame⟩ | ⟨p, q, hpq, -, rfl, hq⟩
    · have hvalue := ((PathSetting.get?_eq_some_iff hs.document.isDocument hread s .projectFolder).mp
        hget).resolve_right fun hlisted => by cases hlisted
      have hanchored := hs.anchored.settings _ (PathSetting.keys_mem .projectFolder) _ hvalue s rfl
      rw [prepareProjectFolder, prepareProjectFolder, SettingsFile.mapPaths, hfolder,
        Option.map_some, hsame]
      dsimp only
      split
      · exact .error _ _
      · rename_i hblank
        split
        · exact parallel_lookupProjectFolder ha hb h hs
        · rename_i hlookup
          obtain ⟨e, he⟩ := exists_refusal?_of_isAnchored hanchored hrelative hblank hlookup
            "projectFolder"
          rw [he]
          exact .error _ _
    · have hmapped : (file.mapPaths (moveText (fromRoot a) (fromRoot b))).projectFolder =
          some q.text := by
        rw [← hq, SettingsFile.mapPaths, hfolder, Option.map_some]
      obtain ⟨hp', hq'⟩ := hpq.isNormal ha hb
      apply Parallel.of_rel
      rw [toOption_prepareProjectFolder hp' hfolder, toOption_prepareProjectFolder hq' hmapped,
        hpq.hasBracket_eq hbare hbare', FileTree.exists?_congr (h.find_moved ha hb hpq)]
      split
      · exact .none
      · exact .some hpq

end Sources

/-! ## Parts of the settings -/

/-- A path setting that is left out, or moves with a project and stays in it. -/
def MovesAlong (a b : List Step) (values : PlaceholderValues) (value : Option String) : Prop :=
  ∀ s, value = some s → values.Follows a b s (moveText (fromRoot a) (fromRoot b) s)

section Parts

variable {t u : FileTree} {a b : List Step} {source source' : Source} {values : PlaceholderValues}
  {folder p q : Path}

/-- Moved paths are those of declaration files both, if the folders are. -/
theorem isDeclarationFile_moved (ha : AllNames a) (hb : AllNames b)
    (hroot : (fromRoot a).isDeclarationFile = (fromRoot b).isDeclarationFile)
    (hpq : Moved a b p q) : p.isDeclarationFile = q.isDeclarationFile := by
  by_cases hp : p = fromRoot a
  · have hq := hpq.relocate_eq ha hb
    rw [hp, (Path.moved_folder a b).relocate_eq ha hb] at hq
    rw [hp, ← hq]
    exact hroot
  · exact hpq.isDeclarationFile_eq hp

theorem parallel_checkEntryPoint (ha : AllNames a) (hb : AllNames b)
    (h : Copies t u (fromRoot a) (fromRoot b))
    (hroot : (fromRoot a).isDeclarationFile = (fromRoot b).isDeclarationFile)
    (hpq : Moved a b p q) (name : EntryPointName) :
    Parallel Eq (checkEntryPoint t source.input name p)
      (checkEntryPoint u source'.input name q) := by
  rw [checkEntryPoint, checkEntryPoint, isDeclarationFile_moved ha hb hroot hpq,
    FileTree.exists?_congr (h.find_moved ha hb hpq), Source.input, Source.input]
  split
  · exact .error _ _
  · split
    · exact .error _ _
    · exact .ok rfl

/-- A base name of reports that comes to a path is refused. -/
theorem toOption_prepareReportName_of_slash {section_ : SettingsFile.ApiReport}
    (h : '/' ∈ (values.filled section_.reportFileName).toList) :
    (prepareReportName values section_).toOption = none := by
  cases hbase : prepareReportName values section_ with
  | error e => rfl
  | ok base =>
    obtain ⟨name, hname, hrest⟩ := bind_eq_ok hbase
    obtain ⟨-, hrest⟩ := guard_eq_ok hrest
    obtain ⟨hseparator, -⟩ := guard_eq_ok hrest
    have hexpand : (values.expand "reportFileName" section_.reportFileName).toOption = _ :=
      PlaceholderValues.toOption_expand "reportFileName" section_.reportFileName
    rw [mapError_eq_ok hname] at hexpand
    split at hexpand
    · cases hexpand
    · rw [← Option.some.inj hexpand] at h
      exact absurd (List.any_eq_true.mpr ⟨_, h, by decide⟩) hseparator

variable (ha : Bare a) (hb : Bare b) (hfolder : Moved a b values.projectFolder folder)

include ha hb hfolder

/-- The base name of the reports is the same in two folders: with the project folder in it, it is a
path, and refused. -/
theorem parallel_prepareReportName (section_ : SettingsFile.ApiReport) :
    Parallel Eq (prepareReportName values section_)
      (prepareReportName { values with projectFolder := folder } section_) := by
  obtain ⟨hfa, hfa'⟩ := (hfolder.twin ha.allNames hb.allNames).isAbsolute
  cases hbelow : PlaceholderValues.below? (values.named section_.reportFileName) with
  | none =>
    have hfilled : ∀ folder', ({ values with projectFolder := folder' } :
        PlaceholderValues).filled section_.reportFileName = values.named section_.reportFileName :=
      fun folder' => PlaceholderValues.putFolder_of_not_below? hbelow
    have hexpand : Parallel Eq (values.expand "reportFileName" section_.reportFileName)
        (({ values with projectFolder := folder } : PlaceholderValues).expand "reportFileName"
          section_.reportFileName) := by
      apply Parallel.of_toOption_eq
      rw [PlaceholderValues.toOption_expand, PlaceholderValues.toOption_expand, hfilled folder]
      exact hfilled values.projectFolder ▸ rfl
    refine (hexpand.mapError _ _).bind fun s s' _ _ he => ?_
    subst he
    exact .of_toOption_eq rfl
  | some below =>
    have hrefused : ∀ folder' : Path, folder'.isAbsolute = true →
        (prepareReportName { values with projectFolder := folder' } section_).toOption = none := by
      intro folder' hproject
      apply toOption_prepareReportName_of_slash
      have hpath : ({ values with projectFolder := folder' } : PlaceholderValues).filled
          section_.reportFileName = (folder'.join below).normalize.text :=
        PlaceholderValues.putFolder_of_below? hbelow
      obtain ⟨s, hs⟩ := Path.isAbsolute_iff.mp
        (Path.isPlain_normalize (Path.isAbsolute_join (p := below) hproject)).absolute
      rw [hpath, hs]
      exact List.mem_cons_self
    apply Parallel.of_toOption_eq
    rw [hrefused folder hfa']
    exact hrefused values.projectFolder hfa

variable (hv : values.Solid)

include hv

/-- A path setting is prepared alike in two folders. -/
theorem MovesAlong.parallel_preparePath {value : Option String} (h : MovesAlong a b values value)
    (field : String) :
    Parallel (Option.Rel (Moved a b)) (preparePath values field value)
      (preparePath { values with projectFolder := folder } field
        (value.map (moveText (fromRoot a) (fromRoot b)))) := by
  cases value with
  | none => exact .ok .none
  | some s => exact (h s rfl).parallel_preparePath hv ha hb hfolder field field

theorem parallel_prepareModelPath {model : SettingsFile.DocModel}
    (h : MovesAlong a b values model.apiJsonFilePath) :
    Parallel (Option.Rel (Moved a b)) (prepareModelPath values model)
      (prepareModelPath { values with projectFolder := folder }
        (model.mapPaths (moveText (fromRoot a) (fromRoot b)))) := by
  refine (h.parallel_preparePath ha hb hfolder hv _).bind fun x x' _ _ hx => ?_
  have hnone : x = none ↔ x' = none := by cases hx <;> simp
  exact Parallel.guard (by simp [hnone, SettingsFile.DocModel.mapPaths]) fun _ => .ok hx

theorem parallel_prepareReports {section_ : SettingsFile.ApiReport}
    (hmoves : MovesAlong a b values section_.reportFolder)
    (hmoves' : MovesAlong a b values section_.reportTempFolder) :
    Parallel (fun r r' => r' = r.mapPaths (Path.relocate (fromRoot a) (fromRoot b)))
      (prepareReports values section_)
      (prepareReports { values with projectFolder := folder }
        (section_.mapPaths (moveText (fromRoot a) (fromRoot b)))) := by
  have hname := parallel_prepareReportName ha hb hfolder section_
  refine (hname.mapError _ _).bind fun base base' _ _ he => ?_
  subst he
  refine Parallel.guard Iff.rfl fun _ => Parallel.guard Iff.rfl fun _ => ?_
  refine ((hmoves.parallel_preparePath ha hb hfolder hv _).mapError _ _).bind
    fun x x' _ _ hx => ?_
  refine ((hmoves'.parallel_preparePath ha hb hfolder hv _).mapError _ _).bind
    fun y y' _ _ hy => ?_
  have hdefault : ∀ {z z' : Option Path}, Option.Rel (Moved a b) z z' →
      z'.getD folder =
        Path.relocate (fromRoot a) (fromRoot b) (z.getD values.projectFolder) := fun hz => by
    cases hz with
    | none => exact (hfolder.relocate_eq ha.allNames hb.allNames).symm
    | some hz => exact (hz.relocate_eq ha.allNames hb.allNames).symm
  refine .ok ?_
  rw [Reports.mapPaths, ← hdefault hx, ← hdefault hy]
  rfl

/-- The path of the metadata file is prepared alike in two folders. -/
theorem parallel_prepareMetadataPath {manifest manifest' : Option (Manifest × Path)}
    (hmanifest : Option.Rel (LikeManifests a b) manifest manifest')
    (hstays : ∀ m ∈ manifest, ManifestStays (fromRoot a) m.2 m.1)
    {metadata : SettingsFile.Metadata}
    (hmoves : MovesAlong a b values metadata.tsdocMetadataFilePath) :
    Parallel (Option.Rel (Moved a b)) (prepareMetadataPath values manifest metadata)
      (prepareMetadataPath { values with projectFolder := folder } manifest'
        (metadata.mapPaths (moveText (fromRoot a) (fromRoot b)))) := by
  have hpath := hmoves.parallel_preparePath ha hb hfolder hv "tsdocMetadataFilePath"
  have hlookup : trimmed (metadata.tsdocMetadataFilePath.getD "") = Placeholder.lookup ↔
      trimmed ((metadata.tsdocMetadataFilePath.map
        (moveText (fromRoot a) (fromRoot b))).getD "") = Placeholder.lookup := by
    cases hvalue : metadata.tsdocMetadataFilePath with
    | none => exact Iff.rfl
    | some s =>
      rw [Option.map_some, Option.getD_some, Option.getD_some]
      rcases (hmoves s hvalue).moved with ⟨-, hsame⟩ | ⟨p, q, hpq, -, rfl, hq⟩
      · rw [hsame]
      · obtain ⟨hpa, hqa⟩ := (hpq.twin ha.allNames hb.allNames).isAbsolute
        rw [hq]
        exact iff_of_false (trimmed_ne_lookup hpa) (trimmed_ne_lookup hqa)
  unfold prepareMetadataPath
  rw [SettingsFile.Metadata.mapPaths]
  dsimp only
  split
  · exact .ok .none
  · by_cases hl : trimmed (metadata.tsdocMetadataFilePath.getD "") = Placeholder.lookup
    · rw [if_pos hl, if_pos (hlookup.mp hl)]
      cases hmanifest with
      | none => exact .error _ _
      | some hm =>
        refine .ok (.some ?_)
        rw [hm.1]
        exact moved_metadataPath ha.allNames hb.allNames hm.2 (hstays _ rfl)
    · rw [if_neg hl, if_neg fun hl' => hl (hlookup.mpr hl'), preparePath_getD, preparePath_getD]
      refine hpath.bind fun x x' _ _ hx => ?_
      cases hx with
      | none => exact .error _ _
      | some hpq => exact .ok (.some hpq)

variable (h : Copies t u (fromRoot a) (fromRoot b))

include h

theorem parallel_prepareTsconfig {compiler : SettingsFile.Compiler}
    (hmoves : MovesAlong a b values compiler.tsconfigFilePath) :
    Parallel (Option.Rel (Moved a b)) (prepareTsconfig t values compiler)
      (prepareTsconfig u { values with projectFolder := folder }
        (compiler.mapPaths (moveText (fromRoot a) (fromRoot b)))) := by
  refine (hmoves.parallel_preparePath ha hb hfolder hv _).bind fun x x' _ _ hx => ?_
  rw [SettingsFile.Compiler.mapPaths]
  cases compiler.overrideTsconfig with
  | some _ => exact .ok hx
  | none =>
    cases hx with
    | none => exact .error _ _
    | some hpq =>
      dsimp only
      rw [FileTree.exists?_congr (h.find_moved ha.allNames hb.allNames hpq)]
      split
      · exact .ok (.some hpq)
      · exact .error _ _

variable (source source') (hroot : (fromRoot a).isDeclarationFile = (fromRoot b).isDeclarationFile)

include hroot

theorem parallel_prepareMain {file : SettingsFile}
    (hmoves : MovesAlong a b values file.mainEntryPointFilePath) :
    Parallel (fun e e' => e' = e.mapPath (Path.relocate (fromRoot a) (fromRoot b)))
      (prepareMain t source.input values file)
      (prepareMain u source'.input { values with projectFolder := folder }
        (file.mapPaths (moveText (fromRoot a) (fromRoot b)))) := by
  refine (hmoves.parallel_preparePath ha hb hfolder hv _).bind fun x x' _ _ hx => ?_
  cases hx with
  | none => exact .error _ _
  | some hpq =>
    refine (parallel_checkEntryPoint ha.allNames hb.allNames h hroot hpq _).bind fun _ _ _ _ _ => ?_
    refine .ok ?_
    rw [EntryPoint.mapPath, hpq.relocate_eq ha.allNames hb.allNames]

/-- A further entry point is put behind those already prepared alike in two folders. -/
theorem parallel_prepareEntryPoint {e : SettingsFile.EntryPoint}
    (hmoves : MovesAlong a b values (some e.filePath)) (done : List EntryPoint) :
    Parallel (fun es es' => es' = es.map
        (EntryPoint.mapPath (Path.relocate (fromRoot a) (fromRoot b))))
      (prepareEntryPoint t source.input values done e)
      (prepareEntryPoint u source'.input { values with projectFolder := folder }
        (done.map (EntryPoint.mapPath (Path.relocate (fromRoot a) (fromRoot b))))
        (e.mapPath (moveText (fromRoot a) (fromRoot b)))) := by
  rw [prepareEntryPoint, prepareEntryPoint, SettingsFile.EntryPoint.mapPath]
  dsimp only
  refine Parallel.guard Iff.rfl fun _ => ?_
  refine Parallel.guard ?_ fun _ => ?_
  · rw [List.any_map]
    rfl
  · refine (hmoves.parallel_preparePath ha hb hfolder hv _).bind fun x x' _ _ hx => ?_
    cases hx with
    | none => exact .error _ _
    | some hpq =>
      refine (parallel_checkEntryPoint ha.allNames hb.allNames h hroot hpq _).bind
        fun _ _ _ _ _ => ?_
      refine .ok ?_
      rw [List.map_append, List.map_singleton, EntryPoint.mapPath,
        hpq.relocate_eq ha.allNames hb.allNames]

theorem parallel_prepareEntryPoints {entries : List SettingsFile.EntryPoint}
    (hmoves : ∀ e ∈ entries, MovesAlong a b values (some e.filePath)) :
    Parallel (fun es es' => es' = es.map
        (EntryPoint.mapPath (Path.relocate (fromRoot a) (fromRoot b))))
      (entries.foldlM (prepareEntryPoint t source.input values) [])
      ((entries.map (SettingsFile.EntryPoint.mapPath (moveText (fromRoot a) (fromRoot b)))).foldlM
        (prepareEntryPoint u source'.input { values with projectFolder := folder }) []) := by
  refine Parallel.foldlM (fun e he done done' hdone => ?_) rfl
  subst hdone
  exact parallel_prepareEntryPoint source source' ha hb hfolder hv h hroot (hmoves e he) done

end Parts

end Settings

end ApiReview
