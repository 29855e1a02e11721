import ApiReview.DocComment.Config
import ApiReview.Settings.File

/-!
# Prepared settings

The settings of a run, after placeholders are put in and every value is checked: all paths are
absolute. `toJson` lists them for troubleshooting.
-/

namespace ApiReview

open Json (Codec)

namespace Variant

/-- The least maturity that an item needs to appear in a report of the variant. -/
def minimumTag : Variant → ReleaseTag
  | published => .published
  | beta => .beta
  | alpha => .alpha
  | complete => .untagged

end Variant

/-- A report to produce. -/
structure ReportSpec where
  variant : Variant
  fileName : String
  deriving DecidableEq, Repr

namespace ReportSpec

/-- The end of the name of every report. -/
def fileSuffix : String := ".api.md"

/-- The name of a report's file: the complete report has the base name alone. -/
def nameFor (base : String) : Variant → String
  | .complete => base ++ fileSuffix
  | variant => base ++ "." ++ variant.word ++ fileSuffix

/-- The report of a variant under a base name. -/
def ofVariant (base : String) (variant : Variant) : ReportSpec :=
  ⟨variant, nameFor base variant⟩

/-- The report as a document. -/
def toJson (r : ReportSpec) : Json :=
  .object [("variant", .string r.variant.word), ("fileName", .string r.fileName)]

end ReportSpec

/-- The tags that are listed in reports unless the settings say otherwise. -/
def defaultReportedTags : List (String × Bool) :=
  [("@sealed", true), ("@virtual", true), ("@override", true), ("@eventProperty", true),
    ("@deprecated", true)]

/-- The listed tags, with the settings' own put among them. -/
def reportedTags (overrides : List (String × Bool)) : List (String × Bool) :=
  overrides.foldl (fun tags o => Codec.putEntry o.1 o.2 tags) defaultReportedTags

/-- What is wrong with the tags that settings list, in words. -/
def reportedTagViolations (tags : List (String × Bool)) : List String :=
  tags.flatMap fun (name, _) =>
    (if ReleaseTag.isReserved name then
      [Text.quoted name ++
        " is a release tag; release tags are always reported and may not be specified"]
    else []) ++
    match TagName.problem? name with
    | some problem => [Text.quoted name ++ " is not a valid tag name: " ++ problem.message]
    | none => []

/-- A file whose exports are collected; the main one has an empty module path. -/
structure EntryPoint where
  modulePath : String
  filePath : Path
  deriving DecidableEq, Repr

/-- An entry point as a document. -/
def EntryPoint.toJson (e : EntryPoint) : Json :=
  .object [("modulePath", .string e.modulePath), ("filePath", .string e.filePath.text)]

/-- The settings of a run. -/
structure Settings where
  sourcePath : Option Path
  projectFolder : Path
  manifest : Option Manifest
  packageFolder : Option Path
  mainEntryPoint : EntryPoint
  additionalEntryPoints : List EntryPoint
  bundledPackages : List String
  tsconfigPath : Option Path
  inlineTsconfig : Option Json.Members
  skipLibCheck : Bool
  reportEnabled : Bool
  reports : List ReportSpec
  reportFolder : Path
  reportTempFolder : Path
  reportForgottenExports : Bool
  tagsToReport : List (String × Bool)
  modelEnabled : Bool
  modelPath : Option Path
  modelForgottenExports : Bool
  projectFolderUrl : Option String
  releaseTagsToTrim : List ReleaseTag
  rollupEnabled : Bool
  untrimmedPath : Option Path
  alphaTrimmedPath : Option Path
  betaTrimmedPath : Option Path
  publicTrimmedPath : Option Path
  omitTrimmingComments : Bool
  metadataEnabled : Bool
  metadataPath : Option Path
  messages : Reporting
  lineEnding : LineEnding
  testMode : Bool
  enumOrder : EnumOrder
  docComments : DocCommentConfig
  deriving DecidableEq, Repr

namespace Settings

/-- The main entry point and the further ones. -/
def entryPoints (s : Settings) : List EntryPoint :=
  s.mainEntryPoint :: s.additionalEntryPoints

/-- Where the accepted form of a report is kept. -/
def reportPath (s : Settings) (r : ReportSpec) : Path :=
  s.reportFolder.join ⟨r.fileName⟩

/-- Where a freshly generated report is put. -/
def stagedReportPath (s : Settings) (r : ReportSpec) : Path :=
  s.reportTempFolder.join ⟨r.fileName⟩

/-- A path as it is shown: relative to the project folder if it lies below it. -/
def shortPath (s : Settings) (p : Path) : String :=
  Path.shortFrom s.projectFolder p

/-- A path in a document, null for none. -/
def pathJson (p : Option Path) : Json :=
  .ofOption (p.map fun p => .string p.text)

/-- The settings as a document. -/
def toJson (s : Settings) : Json :=
  .object
    [("configFilePath", pathJson s.sourcePath),
      ("projectFolder", .string s.projectFolder.text),
      ("packageFolder", pathJson s.packageFolder),
      ("mainEntryPoint", s.mainEntryPoint.toJson),
      ("additionalEntryPoints", .array (s.additionalEntryPoints.map EntryPoint.toJson)),
      ("bundledPackages", .ofStrings s.bundledPackages),
      ("tsconfigFilePath", pathJson s.tsconfigPath),
      ("overrideTsconfig", .ofOption (s.inlineTsconfig.map .object)),
      ("skipLibCheck", .boolean s.skipLibCheck),
      ("apiReportEnabled", .boolean s.reportEnabled),
      ("reportConfigs", .array (s.reports.map ReportSpec.toJson)),
      ("reportFolder", .string s.reportFolder.text),
      ("reportTempFolder", .string s.reportTempFolder.text),
      ("apiReportIncludeForgottenExports", .boolean s.reportForgottenExports),
      ("tagsToReport", Codec.boolean.table.write s.tagsToReport),
      ("docModelEnabled", .boolean s.modelEnabled),
      ("apiJsonFilePath", pathJson s.modelPath),
      ("docModelIncludeForgottenExports", .boolean s.modelForgottenExports),
      ("projectFolderUrl", .ofOption (s.projectFolderUrl.map .string)),
      ("releaseTagsToTrim", .ofStrings (s.releaseTagsToTrim.map ReleaseTag.word)),
      ("rollupEnabled", .boolean s.rollupEnabled),
      ("untrimmedFilePath", pathJson s.untrimmedPath),
      ("alphaTrimmedFilePath", pathJson s.alphaTrimmedPath),
      ("betaTrimmedFilePath", pathJson s.betaTrimmedPath),
      ("publicTrimmedFilePath", pathJson s.publicTrimmedPath),
      ("omitTrimmingComments", .boolean s.omitTrimmingComments),
      ("tsdocMetadataEnabled", .boolean s.metadataEnabled),
      ("tsdocMetadataFilePath", pathJson s.metadataPath),
      ("messages", Reporting.record.codec.write s.messages),
      ("newlineKind", .string s.lineEnding.name),
      ("testMode", .boolean s.testMode),
      ("enumMemberOrder", .string s.enumOrder.word),
      ("tsdocConfig", s.docComments.toJson)]

/-- The settings as an indented text. -/
def dump (s : Settings) : String :=
  s.toJson.pretty

end Settings

end ApiReview
