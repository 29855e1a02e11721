import ApiReview.Settings.Inheritance
import ApiReview.Settings.Prepared

/-!
# Preparing settings

A loaded document becomes the settings of a run: it has to be a settings file, its placeholders
are put in, each path is read from the project folder, and what the parts demand of each other is
checked. The parts are prepared one after another, and the first problem is the answer.
-/

namespace ApiReview

open Text

/-- What settings are prepared from. -/
structure PrepareInput where
  /-- The loaded document. -/
  document : Json
  /-- Where the document was loaded from. -/
  documentPath : Option Path
  /-- The manifest of the project. -/
  manifestPath : Option Path
  /-- The content of the manifest, if it is known already. -/
  manifest : Option Manifest
  /-- The project folder that stands for `<lookup>`, if it is not to be searched for. -/
  lookupFolder : Option Path
  /-- Whether entry points may be absent. -/
  ignoreMissingEntryPoint : Bool
  /-- The doc comment settings, if they are known already. -/
  docComments : Option DocCommentConfig

/-- How an error names the document. -/
def PrepareInput.shownFile (input : PrepareInput) : String :=
  match input.documentPath with
  | some path => path.text
  | none => "the configuration object"

namespace Settings

/-- What preparing gives. -/
abbrev Prepared (α : Type) := Except PrepareProblem α

/-- The name of the file that marks a project folder. -/
def tsconfigName : Path := ⟨"tsconfig.json"⟩

/-- The manifest with its folder, if the project has one. -/
def prepareManifest (t : FileTree) (input : PrepareInput) : Prepared (Option (Manifest × Path)) :=
  match input.manifestPath with
  | none => .ok none
  | some path =>
    if (path.extension?.map fun e => lowerAscii e.toList) ≠ some "json".toList then
      .error .manifestNotJson
    else if !path.isAbsolute then .error .manifestPathNotAbsolute
    else do
      let manifest ←
        match input.manifest with
        | some manifest => .ok manifest
        | none => (Manifest.load t path).mapError .manifest
      return some (manifest, path.parent?.getD path)

/-- The project folder found for `<lookup>`: the given one, else the nearest folder above the
settings file with a compiler configuration. -/
def lookupProjectFolder (t : FileTree) (input : PrepareInput) : Prepared Path :=
  match input.lookupFolder with
  | some folder =>
    if t.exists? folder then .ok (t.absolute folder) else .error (.lookupFolderAbsent folder)
  | none =>
    match input.documentPath with
    | none => .error .lookupWithoutPath
    | some path =>
      match path.parents.find? fun folder => t.isFile (folder.join tsconfigName) with
      | some folder => .ok folder
      | none => .error .lookupFailed

/-- The project folder. -/
def prepareProjectFolder (t : FileTree) (input : PrepareInput) (file : SettingsFile) :
    Prepared Path :=
  match file.projectFolder with
  | none => .error .projectFolderMissing
  | some value =>
    if isBlankText value then .error .projectFolderMissing
    else if trimmed value = Placeholder.lookup then lookupProjectFolder t input
    else
      match Placeholder.refusal? "projectFolder" value with
      | some e => .error (.placeholder e)
      | none =>
        let folder := t.absolute ⟨value⟩
        if t.exists? folder then .ok folder else .error (.projectFolderAbsent value)

/-- A path setting with its placeholders put in. -/
def preparePath (values : PlaceholderValues) (field : String) (value : Option String) :
    Prepared (Option Path) :=
  (values.resolvePath field value).mapError .placeholder

/-- An entry point has to be a declaration file, and has to exist unless that is ignored. -/
def checkEntryPoint (t : FileTree) (input : PrepareInput) (name : EntryPointName) (path : Path) :
    Prepared Unit :=
  if !path.isDeclarationFile then .error (.notDeclaration name path)
  else if !input.ignoreMissingEntryPoint && !t.exists? path then
    .error (.entryPointAbsent name path)
  else .ok ()

/-- The main entry point. -/
def prepareMain (t : FileTree) (input : PrepareInput) (values : PlaceholderValues)
    (file : SettingsFile) : Prepared EntryPoint := do
  match ← preparePath values "mainEntryPointFilePath" file.mainEntryPointFilePath with
  | none => .error .mainEntryPointMissing
  | some path =>
    checkEntryPoint t input .main path
    return ⟨"", path⟩

/-- A further entry point behind those already prepared. -/
def prepareEntryPoint (t : FileTree) (input : PrepareInput) (values : PlaceholderValues)
    (done : List EntryPoint) (e : SettingsFile.EntryPoint) : Prepared (List EntryPoint) := do
  let modulePath := trimmed e.modulePath
  if modulePath = "" then throw .modulePathMissing
  if done.any (·.modulePath = modulePath) then throw (.modulePathRepeated modulePath)
  match ← preparePath values "filePath" (some e.filePath) with
  | none => .error (.filePathMissing modulePath)
  | some path =>
    checkEntryPoint t input (.additional modulePath) path
    return done ++ [⟨modulePath, path⟩]

/-- Each bundled package has a package name. -/
def checkBundledPackages (names : List String) : Prepared Unit :=
  match names.findSome? fun name => (PackageName.problem? name).map (name, ·) with
  | some (name, problem) => .error (.badBundledPackage name problem)
  | none => .ok ()

/-- The compiler configuration, which has to exist unless another one is given in its place. -/
def prepareTsconfig (t : FileTree) (values : PlaceholderValues) (compiler : SettingsFile.Compiler) :
    Prepared (Option Path) := do
  let path ← preparePath values "tsconfigFilePath" compiler.tsconfigFilePath
  match compiler.overrideTsconfig, path with
  | some _, _ => return path
  | none, none => .error .tsconfigMissing
  | none, some p => if t.exists? p then return path else .error (.tsconfigAbsent p)

/-- The settings on the API report. -/
structure Reports where
  enabled : Bool
  specs : List ReportSpec
  folder : Path
  tempFolder : Path
  forgottenExports : Bool
  tags : List (String × Bool)

/-- The settings on the API report where they are left out. -/
def Reports.none (projectFolder : Path) : Reports :=
  ⟨false, [], projectFolder, projectFolder, false, reportedTags []⟩

/-- The variants, each at its first mention. -/
def distinctVariants (variants : List Variant) : List Variant :=
  variants.foldl (fun done v => if done.contains v then done else done ++ [v]) []

/-- The base name of the reports' files; the suffix of a full name is dropped. -/
def prepareReportName (values : PlaceholderValues) (section_ : SettingsFile.ApiReport) :
    Prepared String := do
  let name ← (values.expand "reportFileName" section_.reportFileName).mapError .placeholder
  if name = "" then throw .reportNameMissing
  if name.toList.any fun c => c = '/' || c = '\\' then throw (.reportNameWithSeparator name)
  return (stripEnd? ReportSpec.fileSuffix name).getD name

/-- What preparing the reports can fail with: a problem, or refused tags. -/
inductive ReportProblem where
  | problem (p : PrepareProblem)
  | tags (violations : List String)

/-- The settings on the API report. -/
def prepareReports (values : PlaceholderValues) (section_ : SettingsFile.ApiReport) :
    Except ReportProblem Reports := do
  let base ← (prepareReportName values section_).mapError .problem
  let variants := distinctVariants (section_.reportVariants.getD [.complete])
  if section_.enabled && variants = [] then throw (.problem .noVariants)
  if reportedTagViolations section_.tagsToReport ≠ [] then
    throw (.tags (reportedTagViolations section_.tagsToReport))
  let folder ← (preparePath values "reportFolder" section_.reportFolder).mapError .problem
  let temp ← (preparePath values "reportTempFolder" section_.reportTempFolder).mapError .problem
  return {
    enabled := section_.enabled
    specs := variants.map (ReportSpec.ofVariant base)
    folder := folder.getD values.projectFolder
    tempFolder := temp.getD values.projectFolder
    forgottenExports := section_.includeForgottenExports
    tags := reportedTags section_.tagsToReport }

/-- The path of the model, which an enabled model has to have. -/
def prepareModelPath (values : PlaceholderValues) (section_ : SettingsFile.DocModel) :
    Prepared (Option Path) := do
  let path ← preparePath values "apiJsonFilePath" section_.apiJsonFilePath
  if section_.enabled && path = none then throw .modelPathMissing
  return path

/-- The release tags whose items are trimmed, in ascending order. -/
def prepareTrimmedTags (names : Option (List String)) : Prepared (List ReleaseTag) :=
  match names with
  | none => .ok [.internal]
  | some names => do
    let tags ← names.mapM fun name =>
      match ReleaseTag.ofTagName? (trimmed name) with
      | some tag => .ok tag
      | none => .error (.unknownTrimmedTag name)
    return ReleaseTag.all.filter tags.contains

/-- The path of the metadata file, none if that is not enabled. -/
def prepareMetadataPath (values : PlaceholderValues) (manifest : Option (Manifest × Path))
    (section_ : SettingsFile.Metadata) : Prepared (Option Path) :=
  if !section_.enabled then .ok none
  else
    let value := section_.tsdocMetadataFilePath.getD ""
    if trimmed value = Placeholder.lookup then
      match manifest with
      | some (manifest, folder) => .ok (some (manifest.metadataPath folder))
      | none => .error .metadataLookupWithoutManifest
    else do
      match ← preparePath values "tsdocMetadataFilePath" (some value) with
      | some path => return some path
      | none => .error .metadataPathMissing

/-- The document as a settings file whose reference is resolved. -/
def prepareFile (input : PrepareInput) : Except SettingsError SettingsFile := do
  let name := input.shownFile
  if ((input.document.get? "extends").getD .null) ≠ .null then
    throw (.unprepared name .extendsNotExpanded)
  if (input.documentPath.map Path.isAbsolute) = some false then
    throw (.unprepared name .documentPathNotAbsolute)
  if SettingsFile.violations input.document ≠ [] then
    throw (.schema .parsing name (SettingsFile.violations input.document))
  (SettingsFile.codec.read input.document).mapError fun misfit =>
    .schema .parsing name [misfit.message]

/-- The settings of a run. -/
def prepare (t : FileTree) (input : PrepareInput) : Except SettingsError Settings := do
  let name := input.shownFile
  let file ← prepareFile input
  let orProblem : {α : Type} → Prepared α → Except SettingsError α :=
    fun r => r.mapError (.unprepared name)
  let manifest ← orProblem (prepareManifest t input)
  let compiler ← orProblem <|
    match file.compiler with
    | some compiler => .ok compiler
    | none => .error .compilerMissing
  let projectFolder ← orProblem (prepareProjectFolder t input file)
  let values := PlaceholderValues.ofProject projectFolder
    ((manifest.map (·.1.name)).filter (· ≠ ""))
  let main ← orProblem (prepareMain t input values file)
  let additional ← orProblem <|
    file.additionalEntryPoints.foldlM (prepareEntryPoint t input values) []
  orProblem (checkBundledPackages file.bundledPackages)
  let tsconfigPath ← orProblem (prepareTsconfig t values compiler)
  let reports ←
    match file.apiReport with
    | none => .ok (Reports.none projectFolder)
    | some section_ =>
      (prepareReports values section_).mapError fun
        | .problem p => .unprepared name p
        | .tags violations => .invalidTags name violations
  let model := file.docModel.getD .blank
  let modelPath ← orProblem (prepareModelPath values model)
  let releaseTagsToTrim ← orProblem (prepareTrimmedTags model.releaseTagsToTrim)
  let metadata := file.tsdocMetadata.getD .blank
  let metadataPath ← orProblem (prepareMetadataPath values manifest metadata)
  let rollup := file.dtsRollup.getD .blank
  if rollup.enabled && !additional.isEmpty then
    throw (.unprepared name .rollupOfSeveral)
  let untrimmedPath ← orProblem <|
    preparePath values "untrimmedFilePath" rollup.untrimmedFilePath
  let alphaTrimmedPath ← orProblem <|
    preparePath values "alphaTrimmedFilePath" rollup.alphaTrimmedFilePath
  let betaTrimmedPath ← orProblem <|
    preparePath values "betaTrimmedFilePath" rollup.betaTrimmedFilePath
  let publicTrimmedPath ← orProblem <|
    preparePath values "publicTrimmedFilePath" rollup.publicTrimmedFilePath
  if let some problem := file.messages.problem? then
    throw (.unprepared name (.messages problem))
  let docComments ←
    match input.docComments with
    | some config => .ok config
    | none => DocCommentConfig.loadForFolder t projectFolder
  return {
    sourcePath := input.documentPath
    projectFolder
    manifest := manifest.map (·.1)
    packageFolder := manifest.map (·.2)
    mainEntryPoint := main
    additionalEntryPoints := additional
    bundledPackages := file.bundledPackages
    tsconfigPath
    inlineTsconfig := compiler.overrideTsconfig
    skipLibCheck := compiler.skipLibCheck
    reportEnabled := reports.enabled
    reports := reports.specs
    reportFolder := reports.folder
    reportTempFolder := reports.tempFolder
    reportForgottenExports := reports.forgottenExports
    tagsToReport := reports.tags
    modelEnabled := model.enabled
    modelPath
    modelForgottenExports := model.includeForgottenExports
    projectFolderUrl := model.projectFolderUrl
    releaseTagsToTrim
    rollupEnabled := rollup.enabled
    untrimmedPath
    alphaTrimmedPath
    betaTrimmedPath
    publicTrimmedPath
    omitTrimmingComments := rollup.omitTrimmingComments
    metadataEnabled := metadata.enabled
    metadataPath
    messages := file.messages
    lineEnding := file.newlineKind.getD .crlf
    testMode := file.testMode
    enumOrder := file.enumMemberOrder.getD .byName
    docComments }

/-- What settings are prepared from when they were found for a folder. -/
def Source.input (source : Source) : PrepareInput where
  document := source.document
  documentPath := some source.path
  manifestPath := source.manifestPath
  manifest := none
  lookupFolder := none
  ignoreMissingEntryPoint := false
  docComments := none

/-- The settings in a file, prepared with the nearest manifest. -/
def loadAndPrepare (t : FileTree) (path : Path) : Except SettingsError Settings := do
  let path := t.absolute path
  let document ← load t path
  let manifestPath := path.parent?.bind (Manifest.findFrom t)
  prepare t (Source.input ⟨document, path, manifestPath⟩)

end Settings

end ApiReview
